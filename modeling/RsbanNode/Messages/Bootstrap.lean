import RsbanNode.Messages.Realtime

namespace RsbanNode.Messages

open RsbanNode.ByteCodec RsbanNode.Primitives RsbanNode.BlockCodec RsbanNode.Blocks

abbrev HashOrAccount := U256

/-! ## Frontier requests -/

structure FrontierReq where
  start : Account
  age : UInt32
  count : UInt32
  onlyConfirmed : Bool

namespace FrontierReq

def onlyConfirmedFlag : Nat := 1

def serializedSize : Nat := 32 + 4 + 4

def serialize (req : FrontierReq) : List UInt8 :=
  req.start.bytes ++ writeU32LE req.age ++ writeU32LE req.count

def deserialize (extensions : UInt16) : Decoder FrontierReq := do
  let start ← readFixed 32
  let age ← readU32LE
  let count ← readU32LE
  pure { start, age, count, onlyConfirmed := bit extensions onlyConfirmedFlag }

def headerExtensions (req : FrontierReq) : UInt16 := setBit 0 onlyConfirmedFlag req.onlyConfirmed

theorem bit_headerExtensions (req : FrontierReq) :
    bit req.headerExtensions onlyConfirmedFlag = req.onlyConfirmed := by
  rw [headerExtensions]
  cases req.onlyConfirmed <;> decide

theorem length_serialize (req : FrontierReq) : req.serialize.length = serializedSize := by
  simp [serialize, serializedSize, writeU32LE, FixedBytes.length_eq]

theorem deserialize_run (req : FrontierReq) (rest : List UInt8) :
    (deserialize req.headerExtensions).run (req.serialize ++ rest) = .ok (req, rest) := by
  rw [deserialize, serialize, List.append_assoc, List.append_assoc,
    run_bind_ok (readFixed_run _ _), run_bind_ok (readU32LE_run _ _),
    run_bind_ok (readU32LE_run _ _), bit_headerExtensions]
  rfl

end FrontierReq

/-! ## Bulk pulls -/

structure BulkPull where
  start : HashOrAccount
  /-- The source's `end`. -/
  endHash : BlockHash
  count : UInt32
  ascending : Bool

namespace BulkPull

def countPresentFlag : Nat := 0

def ascendingFlag : Nat := 1

def extendedParametersSize : Nat := 8

def serializedSize (extensions : UInt16) : Nat :=
  32 + 32 + (if bit extensions countPresentFlag then extendedParametersSize else 0)

/-- The eight extended bytes: a zero byte, the count (little endian), three zero bytes. -/
def extendedParameters (count : UInt32) : List UInt8 := 0 :: writeU32LE count ++ [0, 0, 0]

def serialize (pull : BulkPull) : List UInt8 :=
  pull.start.bytes ++ pull.endHash.bytes ++
    (if pull.count > 0 then extendedParameters pull.count else [])

/-- The count, present only under the count flag; a nonzero first extended byte is rejected. -/
def readCount (extensions : UInt16) : Decoder UInt32 :=
  if bit extensions countPresentFlag then do
    let buffer ← take notEnoughBytes extendedParametersSize
    if buffer.getD 0 0 != 0 then throw noPayload
    else pure (UInt32.ofNat (ofBytesLE ((buffer.drop 1).take 4)))
  else pure 0

def deserialize (extensions : UInt16) : Decoder BulkPull := do
  let start ← readFixed 32
  let endHash ← readFixed 32
  let count ← readCount extensions
  pure { start, endHash, count, ascending := bit extensions ascendingFlag }

def headerExtensions (pull : BulkPull) : UInt16 :=
  setBit (setBit 0 countPresentFlag (pull.count > 0)) ascendingFlag pull.ascending

theorem bit_headerExtensions (pull : BulkPull) :
    bit pull.headerExtensions countPresentFlag = decide (pull.count > 0) ∧
      bit pull.headerExtensions ascendingFlag = pull.ascending := by
  rw [headerExtensions]
  cases decide (pull.count > 0) <;> cases pull.ascending <;> decide

theorem length_serialize (pull : BulkPull) :
    pull.serialize.length = serializedSize pull.headerExtensions := by
  rw [serializedSize, (bit_headerExtensions pull).1, serialize]
  by_cases hcount : pull.count > 0
  · simp [hcount, extendedParameters, extendedParametersSize, writeU32LE, FixedBytes.length_eq]
  · simp [hcount, FixedBytes.length_eq]

theorem readCount_run (pull : BulkPull) (rest : List UInt8) :
    (readCount pull.headerExtensions).run
      ((if pull.count > 0 then extendedParameters pull.count else []) ++ rest) =
      .ok (pull.count, rest) := by
  rw [readCount, (bit_headerExtensions pull).1]
  by_cases hcount : pull.count > 0
  · have hlen : (extendedParameters pull.count).length = extendedParametersSize := by
      simp [extendedParameters, extendedParametersSize, writeU32LE]
    have hcount' : UInt32.ofNat (ofBytesLE (((extendedParameters pull.count).drop 1).take 4)) =
        pull.count := by
      have hbytes : ((extendedParameters pull.count).drop 1).take 4 = writeU32LE pull.count := by
        simp [extendedParameters, writeU32LE]
      rw [hbytes, writeU32LE, ofBytesLE_toBytesLE,
        Nat.mod_eq_of_lt (by simpa using pull.count.toNat_lt), UInt32.ofNat_toNat]
    have hfirst : ((extendedParameters pull.count).getD 0 0 != 0) = false := rfl
    simp only [hcount, decide_true, if_true]
    rw [run_bind_ok (take_append notEnoughBytes rest hlen), hfirst, hcount']
    rfl
  · have hzero : pull.count = 0 := by
      have : pull.count.toNat = 0 := by simpa [UInt32.lt_iff_toNat_lt] using hcount
      exact UInt32.toNat_inj.mp this
    rw [hzero]
    rfl

theorem deserialize_run (pull : BulkPull) (rest : List UInt8) :
    (deserialize pull.headerExtensions).run (pull.serialize ++ rest) = .ok (pull, rest) := by
  rw [deserialize, serialize, List.append_assoc, List.append_assoc,
    run_bind_ok (readFixed_run _ _), run_bind_ok (readFixed_run _ _),
    run_bind_ok (readCount_run _ _), (bit_headerExtensions pull).2]
  rfl

end BulkPull

/-! ## Bulk pulls of an account's pending entries -/

inductive BulkPullAccountFlags
  | pendingHashAndAmount
  | pendingAddressOnly
  | pendingHashAmountAndAddress
deriving DecidableEq, Repr

namespace BulkPullAccountFlags

def toU8 : BulkPullAccountFlags → UInt8
  | pendingHashAndAmount => 0x0
  | pendingAddressOnly => 0x1
  | pendingHashAmountAndAddress => 0x2

def fromU8 (v : UInt8) : Option BulkPullAccountFlags :=
  if v = 0x0 then some pendingHashAndAmount
  else if v = 0x1 then some pendingAddressOnly
  else if v = 0x2 then some pendingHashAmountAndAddress
  else none

@[simp] theorem fromU8_toU8 (flags : BulkPullAccountFlags) : fromU8 flags.toU8 = some flags := by
  cases flags <;> decide

end BulkPullAccountFlags

structure BulkPullAccount where
  account : Account
  minimumAmount : Amount
  flags : BulkPullAccountFlags

namespace BulkPullAccount

def serializedSize : Nat := 32 + 16 + 1

def serialize (pull : BulkPullAccount) : List UInt8 :=
  pull.account.bytes ++ writeAmount pull.minimumAmount ++ [pull.flags.toU8]

def deserialize : Decoder BulkPullAccount := do
  let account ← readFixed 32
  let minimumAmount ← readAmount
  let flags ← liftOption noPayload (BulkPullAccountFlags.fromU8 (← readU8))
  pure { account, minimumAmount, flags }

theorem length_serialize (pull : BulkPullAccount) : pull.serialize.length = serializedSize := by
  simp [serialize, serializedSize, writeAmount, FixedBytes.length_eq]

theorem deserialize_run (pull : BulkPullAccount) (rest : List UInt8) :
    deserialize.run (pull.serialize ++ rest) = .ok (pull, rest) := by
  rw [deserialize, serialize, List.append_assoc, List.append_assoc, List.singleton_append,
    run_bind_ok (readFixed_run _ _), run_bind_ok (readAmount_run _ _),
    run_bind_ok (readU8_run _ _), BulkPullAccountFlags.fromU8_toU8, liftOption_some,
    run_bind_ok (run_pure _ _)]
  rfl

end BulkPullAccount

/-! ## Ascending bootstrap pull requests -/

inductive HashType
  | account
  | block
deriving DecidableEq, Repr

namespace HashType

def toU8 : HashType → UInt8
  | account => 0
  | block => 1

def fromU8 (v : UInt8) : Option HashType :=
  if v = 0 then some account else if v = 1 then some block else none

@[simp] theorem fromU8_toU8 (t : HashType) : fromU8 t.toU8 = some t := by
  cases t <;> decide

def deserialize : Decoder HashType := do
  liftOption "target_type missing" (fromU8 (← readU8))

theorem deserialize_run (t : HashType) (rest : List UInt8) :
    deserialize.run (t.toU8 :: rest) = .ok (t, rest) := by
  rw [deserialize, run_bind_ok (readU8_run _ _), fromU8_toU8, liftOption_some]
  rfl

end HashType

inductive AscPullPayloadId
  | blocks
  | accountInfo
  | frontiers
deriving DecidableEq, Repr

namespace AscPullPayloadId

def toU8 : AscPullPayloadId → UInt8
  | blocks => 0x1
  | accountInfo => 0x2
  | frontiers => 0x3

def fromU8 (v : UInt8) : Option AscPullPayloadId :=
  if v = 0x1 then some blocks
  else if v = 0x2 then some accountInfo
  else if v = 0x3 then some frontiers
  else none

@[simp] theorem fromU8_toU8 (id : AscPullPayloadId) : fromU8 id.toU8 = some id := by
  cases id <;> decide

end AscPullPayloadId

structure BlocksReqPayload where
  startType : HashType
  start : HashOrAccount
  count : UInt8

structure AccountInfoReqPayload where
  target : HashOrAccount
  targetType : HashType

structure FrontiersReqPayload where
  start : Account
  count : UInt16

inductive AscPullReqType
  | blocks (payload : BlocksReqPayload)
  | accountInfo (payload : AccountInfoReqPayload)
  | frontiers (payload : FrontiersReqPayload)

namespace AscPullReqType

def serialize : AscPullReqType → List UInt8
  | blocks payload => payload.start.bytes ++ [payload.count, payload.startType.toU8]
  | accountInfo payload => payload.target.bytes ++ [payload.targetType.toU8]
  | frontiers payload => payload.start.bytes ++ writeU16BE payload.count

def deserializeBlocks : Decoder BlocksReqPayload := do
  let start ← readFixed 32
  let count ← readU8
  let startType ← HashType.deserialize
  pure { startType, start, count }

def deserializeAccountInfo : Decoder AccountInfoReqPayload := do
  let target ← readFixed 32
  let targetType ← HashType.deserialize
  pure { target := target, targetType := targetType }

def deserializeFrontiers : Decoder FrontiersReqPayload := do
  let start ← readFixed 32
  let count ← readU16BE
  pure { start := start, count := count }

end AscPullReqType

structure AscPullReq where
  id : UInt64
  reqType : AscPullReqType

namespace AscPullReq

def payloadType (req : AscPullReq) : AscPullPayloadId :=
  match req.reqType with
  | .blocks _ => .blocks
  | .accountInfo _ => .accountInfo
  | .frontiers _ => .frontiers

/-- Pull type and id, then the payload, whose length the header carries. -/
def serializedSize (extensions : UInt16) : Nat := 1 + 8 + extensions.toNat

def serialize (req : AscPullReq) : List UInt8 :=
  req.payloadType.toU8 :: writeU64BE req.id ++ req.reqType.serialize

def deserialize : Decoder AscPullReq := do
  let pullType ← liftOption noPayload (AscPullPayloadId.fromU8 (← readU8))
  let id ← readU64BE
  let reqType ← match pullType with
    | .blocks => AscPullReqType.blocks <$> AscPullReqType.deserializeBlocks
    | .accountInfo => AscPullReqType.accountInfo <$> AscPullReqType.deserializeAccountInfo
    | .frontiers => AscPullReqType.frontiers <$> AscPullReqType.deserializeFrontiers
  pure { id, reqType }

/-- The payload length the serializer passes, less the pull type and the id, in 16-bit
arithmetic. -/
def headerExtensions (payloadLen : UInt16) : UInt16 := payloadLen - 1 - 8

theorem length_serialize (req : AscPullReq) :
    req.serialize.length = 1 + 8 + req.reqType.serialize.length := by
  simp [serialize, writeU64BE]
  omega

theorem deserialize_run (req : AscPullReq) (rest : List UInt8) :
    deserialize.run (req.serialize ++ rest) = .ok (req, rest) := by
  obtain ⟨id, reqType⟩ := req
  simp only [deserialize, serialize, List.cons_append, List.append_assoc]
  rw [run_bind_ok (readU8_run _ _)]
  cases reqType with
  | blocks payload =>
    simp only [payloadType, AscPullPayloadId.fromU8_toU8, liftOption_some,
      AscPullReqType.serialize, AscPullReqType.deserializeBlocks, List.append_assoc,
      List.cons_append, List.nil_append]
    rw [run_bind_ok (run_pure _ _), run_bind_ok (readU64BE_run _ _), run_bind_ok (run_map_ok (
      by rw [run_bind_ok (readFixed_run _ _), run_bind_ok (readU8_run _ _),
        run_bind_ok (HashType.deserialize_run _ _)]; rfl))]
    rfl
  | accountInfo payload =>
    simp only [payloadType, AscPullPayloadId.fromU8_toU8, liftOption_some,
      AscPullReqType.serialize, AscPullReqType.deserializeAccountInfo, List.append_assoc,
      List.cons_append, List.nil_append]
    rw [run_bind_ok (run_pure _ _), run_bind_ok (readU64BE_run _ _), run_bind_ok (run_map_ok (
      by rw [run_bind_ok (readFixed_run _ _), run_bind_ok (HashType.deserialize_run _ _)]; rfl))]
    rfl
  | frontiers payload =>
    simp only [payloadType, AscPullPayloadId.fromU8_toU8, liftOption_some,
      AscPullReqType.serialize, AscPullReqType.deserializeFrontiers, List.append_assoc]
    rw [run_bind_ok (run_pure _ _), run_bind_ok (readU64BE_run _ _), run_bind_ok (run_map_ok (
      by rw [run_bind_ok (readFixed_run _ _), run_bind_ok (readU16BE_run _ _)]; rfl))]
    rfl

theorem length_serialize_lt (req : AscPullReq) : req.serialize.length < 65536 := by
  rw [length_serialize]
  cases req.reqType <;> simp [AscPullReqType.serialize, writeU16BE, FixedBytes.length_eq]

end AscPullReq

/-! ## Ascending bootstrap pull acknowledgements -/

structure Frontier where
  account : Account
  hash : BlockHash
deriving DecidableEq

instance : Inhabited Frontier := ⟨⟨FixedBytes.zero 32, FixedBytes.zero 32⟩⟩

namespace Frontier

def serialize (frontier : Frontier) : List UInt8 := frontier.account.bytes ++ frontier.hash.bytes

def deserialize : Decoder Frontier := do
  let account ← readFixed 32
  let hash ← readFixed 32
  pure { account := account, hash := hash }

theorem deserialize_run (frontier : Frontier) (rest : List UInt8) :
    deserialize.run (frontier.serialize ++ rest) = .ok (frontier, rest) := by
  rw [deserialize, serialize, List.append_assoc, run_bind_ok (readFixed_run _ _),
    run_bind_ok (readFixed_run _ _)]
  rfl

end Frontier

structure BlocksAckPayload where
  blocks : List Block

namespace BlocksAckPayload

/-- Header allows for 16 bit extensions; 65535 bytes / 500 bytes per block is about 131. -/
def maxBlocks : Nat := 128

/-- `BlocksAckPayload::new`, which refuses more than `MAX_BLOCKS` blocks. -/
def new (blocks : List Block) : Except String BlocksAckPayload :=
  if blocks.length > maxBlocks then
    throw ("too many blocks for BlocksAckPayload. Maximum is " ++ toString maxBlocks ++
      ", but was " ++ toString blocks.length)
  else pure ⟨blocks⟩

/-- Blocks ending with the null block terminator. -/
def serialize (payload : BlocksAckPayload) : List UInt8 :=
  payload.blocks.flatMap Block.serialize ++ [BlockType.notABlock.toU8]

/-- The loop of `deserialize`: blocks are read until one fails to read, which the terminator
does; a block past the first `room` ones is an error. -/
def readBlocks : Nat → Decoder (List Block)
  | 0 => do
    match ← attempt Block.deserialize with
    | none => pure []
    | some _ => throw "too many blocks"
  | room + 1 => do
    match ← attempt Block.deserialize with
    | none => pure []
    | some block => (block :: ·) <$> readBlocks room

def deserialize : Decoder BlocksAckPayload := BlocksAckPayload.mk <$> readBlocks maxBlocks

theorem deserialize_terminator (rest : List UInt8) :
    ∃ e, Block.deserialize.run (BlockType.notABlock.toU8 :: rest) = .error e :=
  ⟨_, rfl⟩

theorem readBlocks_run (blocks : List Block) {room : Nat} (hroom : blocks.length ≤ room)
    (rest : List UInt8) :
    (readBlocks room).run (blocks.flatMap Block.serialize ++ BlockType.notABlock.toU8 :: rest) =
      .ok (blocks, BlockType.notABlock.toU8 :: rest) := by
  obtain ⟨e, hterm⟩ := deserialize_terminator rest
  induction blocks generalizing room with
  | nil =>
    cases room <;>
      simp only [readBlocks, List.flatMap_nil, List.nil_append] <;>
      rw [run_bind_ok (attempt_run_error hterm)] <;> rfl
  | cons block blocks ih =>
    obtain ⟨room, rfl⟩ : ∃ r, room = r + 1 := ⟨room - 1, by simp at hroom; omega⟩
    rw [readBlocks, List.flatMap_cons, List.append_assoc,
      run_bind_ok (attempt_run_ok (Block.deserialize_run _ _))]
    exact run_map_ok (ih (by simp at hroom; omega))

end BlocksAckPayload

structure AccountInfoAckPayload where
  account : Account
  accountOpen : BlockHash
  accountHead : BlockHash
  accountBlockCount : UInt64
  accountConfFrontier : BlockHash
  accountConfHeight : UInt64

namespace AccountInfoAckPayload

def serialize (payload : AccountInfoAckPayload) : List UInt8 :=
  payload.account.bytes ++ payload.accountOpen.bytes ++ payload.accountHead.bytes ++
    writeU64BE payload.accountBlockCount ++ payload.accountConfFrontier.bytes ++
    writeU64BE payload.accountConfHeight

def deserialize : Decoder AccountInfoAckPayload := do
  let account ← readFixed 32
  let accountOpen ← readFixed 32
  let accountHead ← readFixed 32
  let accountBlockCount ← readU64BE
  let accountConfFrontier ← readFixed 32
  let accountConfHeight ← readU64BE
  pure
    { account := account, accountOpen := accountOpen, accountHead := accountHead,
      accountBlockCount := accountBlockCount, accountConfFrontier := accountConfFrontier,
      accountConfHeight := accountConfHeight }

theorem deserialize_run (payload : AccountInfoAckPayload) (rest : List UInt8) :
    deserialize.run (payload.serialize ++ rest) = .ok (payload, rest) := by
  simp only [deserialize, serialize, List.append_assoc]
  rw [run_bind_ok (readFixed_run _ _), run_bind_ok (readFixed_run _ _),
    run_bind_ok (readFixed_run _ _), run_bind_ok (readU64BE_run _ _),
    run_bind_ok (readFixed_run _ _), run_bind_ok (readU64BE_run _ _)]
  rfl

end AccountInfoAckPayload

inductive AscPullAckType
  | blocks (payload : BlocksAckPayload)
  | accountInfo (payload : AccountInfoAckPayload)
  | frontiers (frontiers : List Frontier)

structure AscPullAck where
  id : UInt64
  pullType : AscPullAckType

namespace AscPullAck

def maxFrontiers : Nat := 1000

def payloadType (ack : AscPullAck) : AscPullPayloadId :=
  match ack.pullType with
  | .blocks _ => .blocks
  | .accountInfo _ => .accountInfo
  | .frontiers _ => .frontiers

/-- Frontiers end with a default frontier as terminator. -/
def serializePullType (ack : AscPullAck) : List UInt8 :=
  match ack.pullType with
  | .blocks payload => payload.serialize
  | .accountInfo payload => payload.serialize
  | .frontiers frontiers => frontiers.flatMap Frontier.serialize ++ (default : Frontier).serialize

def serialize (ack : AscPullAck) : List UInt8 :=
  ack.payloadType.toU8 :: writeU64BE ack.id ++ ack.serializePullType

/-- The loop of `deserialize`: `current` is pushed and the next frontier read while it is not
the default frontier and fewer than `room` more are allowed. -/
def readFrontiers : Nat → Frontier → Decoder (List Frontier)
  | 0, _ => pure []
  | room + 1, current =>
    if current = default then pure []
    else do
      let next ← Frontier.deserialize
      (current :: ·) <$> readFrontiers room next

def deserialize : Decoder AscPullAck := do
  let pullTypeCode ← liftOption noPayload (AscPullPayloadId.fromU8 (← readU8))
  let id ← readU64BE
  let pullType ← match pullTypeCode with
    | .blocks => AscPullAckType.blocks <$> BlocksAckPayload.deserialize
    | .accountInfo => AscPullAckType.accountInfo <$> AccountInfoAckPayload.deserialize
    | .frontiers => do
      let current ← Frontier.deserialize
      AscPullAckType.frontiers <$> readFrontiers maxFrontiers current
  pure { id, pullType }

def serializedSize (extensions : UInt16) : Nat := 1 + 8 + extensions.toNat

def headerExtensions (payloadLen : UInt16) : UInt16 := payloadLen - 1 - 8

/-- The limits the constructors put on a payload: at most 128 blocks, at most 1000 frontiers,
and no default frontier, which would read as the terminator. -/
def WithinLimits (ack : AscPullAck) : Prop :=
  match ack.pullType with
  | .blocks payload => payload.blocks.length ≤ BlocksAckPayload.maxBlocks
  | .accountInfo _ => True
  | .frontiers frontiers => frontiers.length ≤ maxFrontiers ∧ ∀ f ∈ frontiers, f ≠ default

instance (ack : AscPullAck) : Decidable ack.WithinLimits :=
  match ack with
  | ⟨_, .blocks payload⟩ =>
    inferInstanceAs (Decidable (payload.blocks.length ≤ BlocksAckPayload.maxBlocks))
  | ⟨_, .accountInfo _⟩ => isTrue trivial
  | ⟨_, .frontiers frontiers⟩ =>
    inferInstanceAs (Decidable (frontiers.length ≤ maxFrontiers ∧ ∀ f ∈ frontiers, f ≠ default))

theorem readFrontiers_default (room : Nat) (s : List UInt8) :
    (readFrontiers room default).run s = .ok ([], s) := by
  cases room <;> rfl

theorem readFrontiers_run (frontiers : List Frontier) {room : Nat}
    (hroom : frontiers.length ≤ room) (hframe : ∀ f ∈ frontiers, f ≠ default) (rest : List UInt8) :
    (Frontier.deserialize >>= readFrontiers room).run
      (frontiers.flatMap Frontier.serialize ++ (default : Frontier).serialize ++ rest) =
      .ok (frontiers, rest) := by
  induction frontiers generalizing room with
  | nil =>
    rw [List.flatMap_nil, List.nil_append, run_bind_ok (Frontier.deserialize_run _ _)]
    exact readFrontiers_default room rest
  | cons frontier frontiers ih =>
    obtain ⟨room, rfl⟩ : ∃ r, room = r + 1 := ⟨room - 1, by simp at hroom; omega⟩
    have hne : frontier ≠ default := hframe frontier (List.mem_cons_self ..)
    rw [List.flatMap_cons, List.append_assoc, List.append_assoc,
      run_bind_ok (Frontier.deserialize_run _ _), readFrontiers, if_neg hne, ← map_bind,
      ← List.append_assoc]
    exact run_map_ok (ih (by simp at hroom; omega)
      (fun f hf => hframe f (List.mem_cons_of_mem _ hf)))

theorem deserialize_run {ack : AscPullAck} (h : ack.WithinLimits) (rest : List UInt8) :
    ∃ rest', deserialize.run (ack.serialize ++ rest) = .ok (ack, rest') := by
  obtain ⟨id, pullType⟩ := ack
  simp only [deserialize, serialize, List.cons_append, List.append_assoc]
  rw [run_bind_ok (readU8_run _ _)]
  cases pullType with
  | blocks payload =>
    refine ⟨BlockType.notABlock.toU8 :: rest, ?_⟩
    simp only [payloadType, AscPullPayloadId.fromU8_toU8, liftOption_some, serializePullType,
      BlocksAckPayload.serialize, BlocksAckPayload.deserialize, List.append_assoc,
      List.cons_append, List.nil_append]
    rw [run_bind_ok (run_pure _ _), run_bind_ok (readU64BE_run _ _),
      run_bind_ok (run_map_ok (run_map_ok (BlocksAckPayload.readBlocks_run _ h rest)))]
    rfl
  | accountInfo payload =>
    refine ⟨rest, ?_⟩
    simp only [payloadType, AscPullPayloadId.fromU8_toU8, liftOption_some, serializePullType]
    rw [run_bind_ok (run_pure _ _), run_bind_ok (readU64BE_run _ _),
      run_bind_ok (run_map_ok (AccountInfoAckPayload.deserialize_run _ _))]
    rfl
  | frontiers frontiers =>
    refine ⟨rest, ?_⟩
    simp only [payloadType, AscPullPayloadId.fromU8_toU8, liftOption_some, serializePullType]
    rw [run_bind_ok (run_pure _ _), run_bind_ok (readU64BE_run _ _)]
    dsimp only
    rw [← bind_assoc, ← map_bind,
      run_bind_ok (run_map_ok (readFrontiers_run _ h.1 h.2 rest))]
    rfl

theorem length_serialize (ack : AscPullAck) :
    ack.serialize.length = 1 + 8 + ack.serializePullType.length := by
  simp [serialize, writeU64BE]
  omega

/-- Within the limits an acknowledgement fits the sixteen-bit length the header carries. -/
theorem length_serialize_lt {ack : AscPullAck} (h : ack.WithinLimits) :
    ack.serialize.length < 65536 := by
  rw [length_serialize]
  obtain ⟨id, pullType⟩ := ack
  cases pullType with
  | blocks payload =>
    have hblock : ∀ b : Block, b.serialize.length ≤ 217 := fun b => by
      rw [Block.length_serialize]
      cases b.blockType <;> simp [Block.serializedBlockSize]
    have hsum : (payload.blocks.flatMap Block.serialize).length ≤ payload.blocks.length * 217 := by
      rw [List.length_flatMap]
      have := List.sum_le_card_nsmul (payload.blocks.map fun b => b.serialize.length) 217
        (fun x hx => by obtain ⟨b, -, rfl⟩ := List.mem_map.mp hx; exact hblock b)
      simpa using this
    have hcount : payload.blocks.length ≤ 128 := h
    simp only [serializePullType, BlocksAckPayload.serialize, List.length_append,
      List.length_singleton]
    omega
  | accountInfo payload =>
    simp [serializePullType, AccountInfoAckPayload.serialize, writeU64BE, FixedBytes.length_eq]
  | frontiers frontiers =>
    have hcount : frontiers.length ≤ 1000 := h.1
    simp only [serializePullType, List.length_append, List.length_flatMap]
    simp [Frontier.serialize, FixedBytes.length_eq]
    omega

end AscPullAck

end RsbanNode.Messages
