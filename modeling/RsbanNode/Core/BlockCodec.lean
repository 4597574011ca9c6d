import RsbanNode.Core.Blocks

namespace RsbanNode.BlockCodec

open RsbanNode.ByteCodec RsbanNode.Primitives RsbanNode.Blocks

/-- The stream errors of `BufferReader` and the block decoders. -/
abbrev Decoder := Reader String

def notEnoughBytes : String := "not enough bytes to read"

def noMoreBytes : String := "no more bytes to read"

def readU8 : Decoder UInt8 := byte noMoreBytes

def readFixed (n : Nat) : Decoder (FixedBytes n) :=
  (fun l => ⟨l.1, l.2⟩) <$> takeExact notEnoughBytes n

def readAmount : Decoder Amount :=
  (fun l => BitVec.ofNat 128 (ofBytesBE l.1)) <$> takeExact notEnoughBytes 16

def readU64LE : Decoder UInt64 :=
  (fun l => UInt64.ofNat (ofBytesLE l.1)) <$> takeExact notEnoughBytes 8

def readU64BE : Decoder UInt64 :=
  (fun l => UInt64.ofNat (ofBytesBE l.1)) <$> takeExact notEnoughBytes 8

def writeAmount (a : Amount) : List UInt8 := toBytesBE 16 a.toNat

def writeU64LE (v : UInt64) : List UInt8 := toBytesLE 8 v.toNat

def writeU64BE (v : UInt64) : List UInt8 := toBytesBE 8 v.toNat

theorem readU8_run (b : UInt8) (rest : List UInt8) : readU8.run (b :: rest) = .ok (b, rest) :=
  byte_cons _ b rest

theorem readFixed_run {n : Nat} (x : FixedBytes n) (rest : List UInt8) :
    (readFixed n).run (x.bytes ++ rest) = .ok (x, rest) := by
  unfold readFixed
  rw [run_map_ok (takeExact_append notEnoughBytes rest x.length_eq)]

theorem readAmount_run (a : Amount) (rest : List UInt8) :
    readAmount.run (writeAmount a ++ rest) = .ok (a, rest) := by
  unfold readAmount
  have hlen : (writeAmount a).length = 16 := length_toBytesBE 16 a.toNat
  rw [run_map_ok (takeExact_append notEnoughBytes rest hlen)]
  have hlt : a.toNat < 256 ^ 16 := a.isLt
  dsimp only
  rw [writeAmount, ofBytesBE_toBytesBE, Nat.mod_eq_of_lt hlt, BitVec.ofNat_toNat,
    BitVec.setWidth_eq]

theorem readU64LE_run (v : UInt64) (rest : List UInt8) :
    readU64LE.run (writeU64LE v ++ rest) = .ok (v, rest) := by
  unfold readU64LE
  have hlen : (writeU64LE v).length = 8 := length_toBytesLE 8 v.toNat
  rw [run_map_ok (takeExact_append notEnoughBytes rest hlen)]
  have hlt : v.toNat < 256 ^ 8 := v.toNat_lt
  dsimp only
  rw [writeU64LE, ofBytesLE_toBytesLE, Nat.mod_eq_of_lt hlt, UInt64.ofNat_toNat]

theorem readU64BE_run (v : UInt64) (rest : List UInt8) :
    readU64BE.run (writeU64BE v ++ rest) = .ok (v, rest) := by
  unfold readU64BE
  have hlen : (writeU64BE v).length = 8 := length_toBytesBE 8 v.toNat
  rw [run_map_ok (takeExact_append notEnoughBytes rest hlen)]
  have hlt : v.toNat < 256 ^ 8 := v.toNat_lt
  dsimp only
  rw [writeU64BE, ofBytesBE_toBytesBE, Nat.mod_eq_of_lt hlt, UInt64.ofNat_toNat]

/-- A field that is read only under a condition, with a default otherwise. -/
def readIf {α : Type} (c : Bool) (r : Decoder α) (d : α) : Decoder α := if c then r else pure d

theorem readIf_run {α β : Type} {c : Bool} {r : Decoder α} {w : β → List UInt8}
    {g : β → α} (d : α) (x : β) (hr : ∀ y rest, r.run (w y ++ rest) = .ok (g y, rest))
    (rest : List UInt8) :
    (readIf c r d).run ((if c then w x else []) ++ rest) =
      .ok (if c then g x else d, rest) := by
  cases c
  · rfl
  · exact hr x rest

end RsbanNode.BlockCodec

namespace RsbanNode.Blocks.Block

open RsbanNode.ByteCodec RsbanNode.Primitives RsbanNode.BlockCodec

/-- `serialize_without_block_type`: legacy blocks write their work little-endian, state blocks
big-endian. -/
def serializeWithoutBlockType : Block → List UInt8
  | .legacySend b => b.previous.bytes ++ b.destination.bytes ++ writeAmount b.balance ++
      b.signature.bytes ++ writeU64LE b.work
  | .legacyReceive b => b.previous.bytes ++ b.source.bytes ++ b.signature.bytes ++
      writeU64LE b.work
  | .legacyOpen b => b.source.bytes ++ b.representative.bytes ++ b.account.bytes ++
      b.signature.bytes ++ writeU64LE b.work
  | .legacyChange b => b.previous.bytes ++ b.representative.bytes ++ b.signature.bytes ++
      writeU64LE b.work
  | .state b => b.account.bytes ++ b.previous.bytes ++ b.representative.bytes ++
      writeAmount b.balance ++ b.link.bytes ++ b.signature.bytes ++ writeU64BE b.work

def serialize (b : Block) : List UInt8 := b.blockType.toU8 :: b.serializeWithoutBlockType

def serializedBlockSize : BlockType → Nat
  | .invalid | .notABlock => 0
  | .legacySend => 32 + 32 + 16 + 64 + 8
  | .legacyReceive => 32 + 32 + 64 + 8
  | .legacyOpen => 32 + 32 + 32 + 64 + 8
  | .legacyChange => 32 + 32 + 64 + 8
  | .state => 32 + 32 + 32 + 16 + 32 + 64 + 8

def deserializeSend : Decoder SendBlock := do
  let previous ← readFixed 32
  let destination ← readFixed 32
  let balance ← readAmount
  let signature ← readFixed 64
  let work ← readU64LE
  pure { previous, destination, balance, signature, work }

def deserializeReceive : Decoder ReceiveBlock := do
  let previous ← readFixed 32
  let source ← readFixed 32
  let signature ← readFixed 64
  let work ← readU64LE
  pure { previous, source, signature, work }

def deserializeOpen : Decoder OpenBlock := do
  let source ← readFixed 32
  let representative ← readFixed 32
  let account ← readFixed 32
  let signature ← readFixed 64
  let work ← readU64LE
  pure { source, representative, account, signature, work }

def deserializeChange : Decoder ChangeBlock := do
  let previous ← readFixed 32
  let representative ← readFixed 32
  let signature ← readFixed 64
  let work ← readU64LE
  pure { previous, representative, signature, work }

def deserializeState : Decoder StateBlock := do
  let account ← readFixed 32
  let previous ← readFixed 32
  let representative ← readFixed 32
  let balance ← readAmount
  let link ← readFixed 32
  let signature ← readFixed 64
  let work ← readU64BE
  pure { account, previous, representative, balance, link, signature, work }

def deserializeBlockType : BlockType → Decoder Block
  | .legacyReceive => .legacyReceive <$> deserializeReceive
  | .legacyOpen => .legacyOpen <$> deserializeOpen
  | .legacyChange => .legacyChange <$> deserializeChange
  | .state => .state <$> deserializeState
  | .legacySend => .legacySend <$> deserializeSend
  | .invalid | .notABlock => throw "invalid block type"

def deserialize : Decoder Block := do
  let blockType ← readU8
  match BlockType.fromU8 blockType with
  | some t => deserializeBlockType t
  | none => throw "invalid block type"

theorem length_serialize (b : Block) :
    b.serialize.length = 1 + serializedBlockSize b.blockType := by
  cases b <;> simp [serialize, serializeWithoutBlockType, serializedBlockSize, blockType,
    writeAmount, writeU64LE, writeU64BE, FixedBytes.length_eq]

theorem deserializeBlockType_run (b : Block) (rest : List UInt8) :
    (deserializeBlockType b.blockType).run (b.serializeWithoutBlockType ++ rest) =
      .ok (b, rest) := by
  cases b with
  | legacySend b =>
    simp only [blockType, deserializeBlockType, deserializeSend, serializeWithoutBlockType,
      List.append_assoc]
    rw [run_map_ok]
    rw [run_bind_ok (readFixed_run _ _), run_bind_ok (readFixed_run _ _),
      run_bind_ok (readAmount_run _ _), run_bind_ok (readFixed_run _ _),
      run_bind_ok (readU64LE_run _ _)]
    rfl
  | legacyReceive b =>
    simp only [blockType, deserializeBlockType, deserializeReceive, serializeWithoutBlockType,
      List.append_assoc]
    rw [run_map_ok]
    rw [run_bind_ok (readFixed_run _ _), run_bind_ok (readFixed_run _ _),
      run_bind_ok (readFixed_run _ _), run_bind_ok (readU64LE_run _ _)]
    rfl
  | legacyOpen b =>
    simp only [blockType, deserializeBlockType, deserializeOpen, serializeWithoutBlockType,
      List.append_assoc]
    rw [run_map_ok]
    rw [run_bind_ok (readFixed_run _ _), run_bind_ok (readFixed_run _ _),
      run_bind_ok (readFixed_run _ _), run_bind_ok (readFixed_run _ _),
      run_bind_ok (readU64LE_run _ _)]
    rfl
  | legacyChange b =>
    simp only [blockType, deserializeBlockType, deserializeChange, serializeWithoutBlockType,
      List.append_assoc]
    rw [run_map_ok]
    rw [run_bind_ok (readFixed_run _ _), run_bind_ok (readFixed_run _ _),
      run_bind_ok (readFixed_run _ _), run_bind_ok (readU64LE_run _ _)]
    rfl
  | state b =>
    simp only [blockType, deserializeBlockType, deserializeState, serializeWithoutBlockType,
      List.append_assoc]
    rw [run_map_ok]
    rw [run_bind_ok (readFixed_run _ _), run_bind_ok (readFixed_run _ _),
      run_bind_ok (readFixed_run _ _), run_bind_ok (readAmount_run _ _),
      run_bind_ok (readFixed_run _ _), run_bind_ok (readFixed_run _ _),
      run_bind_ok (readU64BE_run _ _)]
    rfl

theorem deserialize_run (b : Block) (rest : List UInt8) :
    deserialize.run (b.serialize ++ rest) = .ok (b, rest) := by
  rw [deserialize, serialize, List.cons_append, run_bind_ok (readU8_run _ _),
    BlockType.fromU8_toU8]
  exact deserializeBlockType_run b rest

end RsbanNode.Blocks.Block

namespace RsbanNode.Blocks

open RsbanNode.ByteCodec RsbanNode.Primitives RsbanNode.BlockCodec

namespace BlockDetails

def packed (d : BlockDetails) : UInt8 :=
  d.epoch.toU8 ||| (if d.isSend then 0b1000_0000 else 0) |||
    (if d.isReceive then 0b0100_0000 else 0) ||| (if d.isEpoch then 0b0010_0000 else 0)

def unpack (value : UInt8) : Except String BlockDetails :=
  let epochValue := value &&& 0b0001_1111
  match Epoch.fromU8 epochValue with
  | some epoch => .ok
    { epoch
      isSend := (0b1000_0000 &&& value) != 0
      isReceive := (0b0100_0000 &&& value) != 0
      isEpoch := (0b0010_0000 &&& value) != 0 }
  | none => .error s!"unknown epoch value: {epochValue}"

def deserialize : Decoder BlockDetails := do
  let value ← readU8
  StateT.lift (unpack value)

theorem unpack_packed (d : BlockDetails) : unpack d.packed = .ok d := by
  obtain ⟨epoch, isSend, isReceive, isEpoch⟩ := d
  cases epoch <;> cases isSend <;> cases isReceive <;> cases isEpoch <;> decide

theorem deserialize_run (d : BlockDetails) (rest : List UInt8) :
    deserialize.run (d.packed :: rest) = .ok (d, rest) := by
  rw [deserialize, run_bind_ok (readU8_run _ _)]
  simp [unpack_packed, StateT.run, StateT.lift, bind, Except.bind, pure, Except.pure]

end BlockDetails

namespace BlockSideband

def hasAccount (t : BlockType) : Bool := t != .state && t != .legacyOpen

def hasHeight (t : BlockType) : Bool := t != .legacyOpen

def hasBalance (t : BlockType) : Bool :=
  t == .legacyReceive || t == .legacyChange || t == .legacyOpen

def serializedSize (t : BlockType) : Nat :=
  32 + (if hasAccount t then 32 else 0) + (if hasHeight t then 8 else 0) +
    (if hasBalance t then 16 else 0) + 8 + (if t == .state then 1 + 1 else 0)

def serialize (sb : BlockSideband) (t : BlockType) : List UInt8 :=
  sb.successor.bytes ++ (if hasAccount t then sb.account.bytes else []) ++
    (if hasHeight t then writeU64BE (UInt64.ofNat sb.height) else []) ++
    (if hasBalance t then writeAmount sb.balance else []) ++ writeU64BE sb.timestamp ++
    (if t == .state then [sb.details.packed, sb.sourceEpoch.toU8] else [])

/-- The source epoch and details a state block's sideband ends with. -/
def readStateDetails : Decoder (BlockDetails × Epoch) := do
  let details ← BlockDetails.deserialize
  let epochValue ← readU8
  match Epoch.fromU8 epochValue with
  | some sourceEpoch => pure (details, sourceEpoch)
  | none => throw "invalid epoch value"

/-- `BlockSideband::from_stream`: the fields a block type leaves out keep their defaults. -/
def fromStream (t : BlockType) : Decoder BlockSideband := do
  let successor ← readFixed 32
  let account ← readIf (hasAccount t) (readFixed 32) (FixedBytes.zero 32)
  let height ← readIf (hasHeight t) ((·.toNat) <$> readU64BE) 1
  let balance ← readIf (hasBalance t) readAmount 0
  let timestamp ← readU64BE
  let tail ← readIf (t == .state) readStateDetails (⟨.epoch0, false, false, false⟩, .epoch0)
  pure { height, timestamp, successor, account, balance, details := tail.1, sourceEpoch := tail.2 }

/-- The sideband `from_stream` reads back: what the block type does not write is defaulted. -/
def decoded (sb : BlockSideband) (t : BlockType) : BlockSideband where
  height := if hasHeight t then sb.height % 2 ^ 64 else 1
  timestamp := sb.timestamp
  successor := sb.successor
  account := if hasAccount t then sb.account else FixedBytes.zero 32
  balance := if hasBalance t then sb.balance else 0
  details := if t == .state then sb.details else ⟨.epoch0, false, false, false⟩
  sourceEpoch := if t == .state then sb.sourceEpoch else .epoch0

end BlockSideband

namespace SavedBlock

def serializeWithSideband (s : SavedBlock) : List UInt8 :=
  s.block.serialize ++ s.sideband.serialize s.block.blockType

/-- The back-fill of `SavedBlock::deserialize`: fields the sideband does not store for a block
type are taken from the block or fixed by the type. -/
def backfill (block : Block) (sb : BlockSideband) : BlockSideband :=
  match block with
  | .legacySend b => { sb with balance := b.balance, details := ⟨.epoch0, true, false, false⟩ }
  | .legacyOpen b => { sb with account := b.account, details := ⟨.epoch0, false, true, false⟩ }
  | .legacyReceive _ => { sb with details := ⟨.epoch0, false, true, false⟩ }
  | .legacyChange _ => { sb with details := ⟨.epoch0, false, false, false⟩ }
  | .state b => { sb with account := b.account, balance := b.balance }

def deserialize : Decoder SavedBlock := do
  let block ← Block.deserialize
  let sideband ← BlockSideband.fromStream block.blockType
  pure { block, sideband := backfill block sideband }

/-- The block a store reads back after saving `s`. -/
def normalize (s : SavedBlock) : SavedBlock :=
  { s with sideband := backfill s.block (s.sideband.decoded s.block.blockType) }

end SavedBlock

end RsbanNode.Blocks

namespace RsbanNode.Blocks.BlockSideband

open RsbanNode.ByteCodec RsbanNode.Primitives RsbanNode.BlockCodec

theorem length_serialize (sb : BlockSideband) (t : BlockType) :
    (sb.serialize t).length = serializedSize t := by
  cases t <;> simp [serialize, serializedSize, hasAccount, hasHeight, hasBalance, writeU64BE,
    writeAmount, sb.successor.length_eq, sb.account.length_eq]

theorem readStateDetails_run (d : BlockDetails) (e : Epoch) (rest : List UInt8) :
    readStateDetails.run ([d.packed, e.toU8] ++ rest) = .ok ((d, e), rest) := by
  rw [readStateDetails, List.cons_append, run_bind_ok (BlockDetails.deserialize_run _ _), List.singleton_append,
    run_bind_ok (readU8_run _ _), Epoch.fromU8_toU8]
  rfl

theorem fromStream_run (sb : BlockSideband) (t : BlockType) (rest : List UInt8) :
    (fromStream t).run (sb.serialize t ++ rest) = .ok (sb.decoded t, rest) := by
  have hheight : ∀ (y : Nat) (rest : List UInt8),
      ((·.toNat) <$> readU64BE).run (writeU64BE (UInt64.ofNat y) ++ rest) = .ok (y % 2 ^ 64, rest) := by
    intro y rest
    rw [run_map_ok (readU64BE_run _ _)]
    simp
  simp only [serialize, List.append_assoc]
  unfold fromStream
  rw [run_bind_ok (readFixed_run _ _)]
  have htail : ∀ (y : BlockDetails × Epoch) (rest : List UInt8),
      readStateDetails.run ([y.1.packed, y.2.toU8] ++ rest) = .ok (y, rest) :=
    fun y rest => readStateDetails_run y.1 y.2 rest
  rw [run_bind_ok (readIf_run (FixedBytes.zero 32) sb.account readFixed_run _),
    run_bind_ok (readIf_run 1 sb.height hheight _),
    run_bind_ok (readIf_run 0 sb.balance readAmount_run _),
    run_bind_ok (readU64BE_run _ _)]
  have hend : (if (t == .state) = true then [sb.details.packed, sb.sourceEpoch.toU8] else []) ++
      rest = (if (t == .state) = true then (fun y : BlockDetails × Epoch => [y.1.packed, y.2.toU8])
        (sb.details, sb.sourceEpoch) else []) ++ rest := rfl
  rw [hend, run_bind_ok (readIf_run _ (sb.details, sb.sourceEpoch) htail _)]
  cases t <;> rfl

theorem serialize_decoded (sb : BlockSideband) (t : BlockType) :
    (sb.decoded t).serialize t = sb.serialize t := by
  -- the height is written as a `u64`, so its reduction modulo 2^64 does not show
  have hmod : UInt64.ofNat (sb.height % 18446744073709551616) = UInt64.ofNat sb.height :=
    UInt64.ofNat_mod_size
  cases t <;> simp only [serialize, decoded, hasAccount, hasHeight, hasBalance] <;> simp [hmod]

end RsbanNode.Blocks.BlockSideband

namespace RsbanNode.Blocks.SavedBlock

open RsbanNode.ByteCodec RsbanNode.Primitives RsbanNode.BlockCodec

theorem deserialize_run (s : SavedBlock) (rest : List UInt8) :
    deserialize.run (s.serializeWithSideband ++ rest) = .ok (s.normalize, rest) := by
  rw [deserialize, serializeWithSideband, List.append_assoc,
    run_bind_ok (Block.deserialize_run _ _), run_bind_ok (BlockSideband.fromStream_run _ _ _)]
  rfl

theorem length_serializeWithSideband (s : SavedBlock) :
    s.serializeWithSideband.length =
      1 + Block.serializedBlockSize s.block.blockType +
        BlockSideband.serializedSize s.block.blockType := by
  rw [serializeWithSideband, List.length_append, Block.length_serialize,
    BlockSideband.length_serialize]

theorem serialize_backfill (block : Block) (sb : BlockSideband) :
    (backfill block sb).serialize block.blockType = sb.serialize block.blockType := by
  cases block <;> simp [backfill, BlockSideband.serialize, BlockSideband.hasAccount,
    BlockSideband.hasBalance, Block.blockType]

/-- A block and the block a store reads back from it have one encoding. -/
theorem serializeWithSideband_normalize (s : SavedBlock) :
    s.normalize.serializeWithSideband = s.serializeWithSideband := by
  rw [normalize, serializeWithSideband, serializeWithSideband]
  dsimp only
  rw [serialize_backfill, BlockSideband.serialize_decoded]

/-- The sideband agrees with its block in every field the encoding leaves out for the block's
type: what `SavedBlock::deserialize` back-fills, and the source epoch of legacy blocks. -/
def SidebandConsistent (s : SavedBlock) : Prop :=
  match s.block with
  | .legacyOpen b => s.sideband.height = 1 ∧ s.sideband.account = b.account ∧
      s.sideband.details = ⟨.epoch0, false, true, false⟩ ∧ s.sideband.sourceEpoch = .epoch0
  | .legacySend b => s.sideband.balance = b.balance ∧
      s.sideband.details = ⟨.epoch0, true, false, false⟩ ∧ s.sideband.sourceEpoch = .epoch0
  | .legacyReceive _ => s.sideband.details = ⟨.epoch0, false, true, false⟩ ∧
      s.sideband.sourceEpoch = .epoch0
  | .legacyChange _ => s.sideband.details = ⟨.epoch0, false, false, false⟩ ∧
      s.sideband.sourceEpoch = .epoch0
  | .state b => s.sideband.account = b.account ∧ s.sideband.balance = b.balance

theorem normalize_eq_self {s : SavedBlock} (hc : s.SidebandConsistent)
    (hh : s.sideband.height < 2 ^ 64) : s.normalize = s := by
  obtain ⟨block, ⟨height, timestamp, successor, account, balance, details, sourceEpoch⟩⟩ := s
  have hmod : height % 2 ^ 64 = height := Nat.mod_eq_of_lt hh
  cases block <;>
    simp_all [SidebandConsistent, normalize, backfill, BlockSideband.decoded,
      BlockSideband.hasAccount, BlockSideband.hasHeight, BlockSideband.hasBalance, Block.blockType]

end RsbanNode.Blocks.SavedBlock

namespace RsbanNode.BlockCodec

open RsbanNode.Primitives RsbanNode.Blocks

/-- Every block reads back from its wire format, which has the size `serialized_block_size`
gives; a saved block reads back whenever its sideband agrees with the block in the fields the
format leaves out for its type. -/
theorem serialize_deserialize_roundtrip :
    (∀ b : Block, b.serialize.length = 1 + Block.serializedBlockSize b.blockType ∧
        Block.deserialize.run b.serialize = .ok (b, [])) ∧
    ∀ s : SavedBlock, s.SidebandConsistent → s.sideband.height < 2 ^ 64 →
      s.serializeWithSideband.length = 1 + Block.serializedBlockSize s.block.blockType +
          BlockSideband.serializedSize s.block.blockType ∧
        SavedBlock.deserialize.run s.serializeWithSideband = .ok (s, []) := by
  refine ⟨fun b => ⟨Block.length_serialize b, ?_⟩, fun s hc hh => ⟨?_, ?_⟩⟩
  · simpa using Block.deserialize_run b []
  · exact SavedBlock.length_serializeWithSideband s
  · have h := SavedBlock.deserialize_run s []
    rwa [List.append_nil, SavedBlock.normalize_eq_self hc hh] at h

/-- A legacy send whose sideband matches its block in balance and details but records source
epoch 1: the format stores no source epoch for legacy blocks, so it reads back as epoch 0. -/
theorem legacy_send_source_epoch_lost :
    let s : SavedBlock :=
      ⟨.legacySend ⟨FixedBytes.zero 32, FixedBytes.zero 32, 0, FixedBytes.zero 64, 0⟩,
        ⟨1, 0, FixedBytes.zero 32, FixedBytes.zero 32, 0, ⟨.epoch0, true, false, false⟩, .epoch1⟩⟩
    s.sideband.balance = 0 ∧ s.sideband.details = ⟨.epoch0, true, false, false⟩ ∧
      SavedBlock.deserialize.run s.serializeWithSideband ≠ .ok (s, []) := by
  intro s
  refine ⟨rfl, rfl, ?_⟩
  have h := SavedBlock.deserialize_run s []
  rw [List.append_nil] at h
  rw [h]
  decide

end RsbanNode.BlockCodec
