import RsbanNode.Ledger.Store
import RsbanNode.Core.BlockCodec
import RsbanNode.Library.Result

namespace RsbanNode.Ledger.BlockStore

open RsbanNode.ByteCodec RsbanNode.Primitives RsbanNode.Blocks RsbanNode.Result RsbanNode.FiniteMap

/-- The panic of `data[0]` on an empty entry. -/
def indexOutOfBounds : String := "index out of bounds: the len is 0 but the index is 0"

/-- The panic of a slice that ends past the entry. -/
def rangeEndOutOfRange (stop len : Nat) : String :=
  "range end index " ++ toString stop ++ " out of range for slice of length " ++ toString len

/-- `block_successor_offset`: the successor opens the sideband, which closes the entry. The
source subtracts in `usize`; a stored entry is never shorter than its sideband. -/
def blockSuccessorOffset (entrySize : Nat) (blockType : BlockType) : Nat :=
  entrySize - BlockSideband.serializedSize blockType

/-- `BlockType::from_u8(data[0]).unwrap()`. -/
def entryType (data : List UInt8) : Except String BlockType :=
  match data with
  | [] => .error indexOutOfBounds
  | b :: _ => unwrap (BlockType.fromU8 b)

/-- The successor bytes of a stored entry, as `successor` reads them; zero reads as none. -/
def readSuccessor (data : List UInt8) : Except String (Option BlockHash) := do
  let blockType ← entryType data
  let offset := blockSuccessorOffset data.length blockType
  if h : offset + 32 ≤ data.length then
    let successor : BlockHash := ⟨slice data offset 32, length_slice h⟩
    pure (if successor.isZero then none else some successor)
  else throw (rangeEndOutOfRange (offset + 32) data.length)

/-- `data[offset..offset + src.len()]` overwritten with `src` at the successor offset. -/
def patchSuccessor (data src : List UInt8) : Except String (List UInt8) := do
  let blockType ← entryType data
  let offset := blockSuccessorOffset data.length blockType
  if offset + src.length ≤ data.length then pure (patch data offset src)
  else throw (rangeEndOutOfRange (offset + src.length) data.length)

/-- The entry `successor_clear` writes back: the successor range filled with zeros. -/
def clearSuccessor (data : List UInt8) : Except String (List UInt8) :=
  patchSuccessor data (List.replicate 32 0)

/-- The entry `update_predecessor` writes back for the previous block. -/
def writeSuccessor (data : List UInt8) (hash : BlockHash) : Except String (List UInt8) :=
  patchSuccessor data hash.bytes

/-- The block table as LMDB holds it: each block's `serialize_with_sideband` bytes. -/
abbrev RawBlocks := Table BlockHash (List UInt8)

def successor (raw : RawBlocks) (hash : BlockHash) : Except String (Option BlockHash) :=
  match raw.lookup hash with
  | none => pure none
  | some data => readSuccessor data

def successorClear (raw : RawBlocks) (hash : BlockHash) : Except String RawBlocks := do
  let value ← unwrap (raw.lookup hash)
  let data ← clearSuccessor value
  pure (raw.insert hash data)

def updatePredecessor (c : Crypto) (raw : RawBlocks) (block : SavedBlock) :
    Except String RawBlocks :=
  if block.previous.isZero then pure raw
  else
    match raw.lookup block.previous with
    | none => throw "block not found by fill_value"
    | some value => do
      let data ← writeSuccessor value (block.hash c)
      pure (raw.insert block.previous data)

/-- `put`: the entry with its sideband, then the predecessor's successor. -/
def put (c : Crypto) (raw : RawBlocks) (block : SavedBlock) : Except String RawBlocks :=
  updatePredecessor c (raw.insert (block.hash c) block.serializeWithSideband) block

/-! ### The successor range of an encoded block -/

theorem serialize_successor (sb : BlockSideband) (t : BlockType) (h : BlockHash) :
    ({ sb with successor := h } : BlockSideband).serialize t =
      h.bytes ++ (sb.serialize t).drop 32 := by
  simp [BlockSideband.serialize, List.append_assoc, List.drop_left', sb.successor.length_eq]

theorem serializeWithSideband_successor (s : SavedBlock) (h : BlockHash) :
    ({ s with sideband.successor := h } : SavedBlock).serializeWithSideband =
      s.block.serialize ++ h.bytes ++ (s.sideband.serialize s.block.blockType).drop 32 := by
  rw [SavedBlock.serializeWithSideband, serialize_successor, List.append_assoc]

theorem serializeWithSideband_split (s : SavedBlock) :
    s.serializeWithSideband = s.block.serialize ++ s.sideband.successor.bytes ++
      (s.sideband.serialize s.block.blockType).drop 32 :=
  serializeWithSideband_successor s s.sideband.successor

theorem blockSuccessorOffset_eq (s : SavedBlock) :
    blockSuccessorOffset s.serializeWithSideband.length s.block.blockType =
      s.block.serialize.length := by
  rw [blockSuccessorOffset, SavedBlock.length_serializeWithSideband, Block.length_serialize]
  omega

theorem entryType_serializeWithSideband (s : SavedBlock) :
    entryType s.serializeWithSideband = .ok s.block.blockType := by
  simp [entryType, SavedBlock.serializeWithSideband, Block.serialize]

theorem successor_range_fits (s : SavedBlock) :
    s.block.serialize.length + 32 ≤ s.serializeWithSideband.length := by
  rw [serializeWithSideband_split]
  simp [s.sideband.successor.length_eq]

theorem patchSuccessor_eq (s : SavedBlock) {src : List UInt8} (hsrc : src.length = 32) :
    patchSuccessor s.serializeWithSideband src =
      .ok (s.block.serialize ++ src ++ (s.sideband.serialize s.block.blockType).drop 32) := by
  simp only [patchSuccessor, entryType_serializeWithSideband, ok_bind, blockSuccessorOffset_eq,
    hsrc, successor_range_fits, if_true]
  rw [serializeWithSideband_split, patch_append _ _ _ (by rw [hsrc, FixedBytes.length_eq])]
  rfl

theorem readSuccessor_serializeWithSideband (s : SavedBlock) :
    readSuccessor s.serializeWithSideband =
      .ok (if s.sideband.successor.isZero then none else some s.sideband.successor) := by
  have hslice : (⟨slice s.serializeWithSideband s.block.serialize.length 32,
      length_slice (successor_range_fits s)⟩ : BlockHash) = s.sideband.successor := by
    apply FixedBytes.ext
    have hmid := slice_append s.block.serialize s.sideband.successor.bytes
      ((s.sideband.serialize s.block.blockType).drop 32)
    rw [FixedBytes.length_eq] at hmid
    show slice s.serializeWithSideband s.block.serialize.length 32 = _
    rw [serializeWithSideband_split, hmid]
  simp only [readSuccessor, entryType_serializeWithSideband, ok_bind, blockSuccessorOffset_eq,
    dif_pos (successor_range_fits s), hslice]
  rfl

theorem writeSuccessor_serializeWithSideband (s : SavedBlock) (h : BlockHash) :
    writeSuccessor s.serializeWithSideband h =
      .ok ({ s with sideband.successor := h } : SavedBlock).serializeWithSideband := by
  rw [writeSuccessor, patchSuccessor_eq s (FixedBytes.length_eq h), serializeWithSideband_successor]

theorem clearSuccessor_serializeWithSideband (s : SavedBlock) :
    clearSuccessor s.serializeWithSideband =
      .ok ({ s with sideband.successor := FixedBytes.zero 32 } : SavedBlock).serializeWithSideband := by
  rw [clearSuccessor, patchSuccessor_eq s List.length_replicate, serializeWithSideband_successor]
  rfl

/-- The byte-level successor edits of the store agree with the block codec: the patched entry
decodes to the block with the new successor, `successor` reads that successor back, and
`successor_clear` writes the encoding of the block with a zero successor. -/
theorem successor_patch_agrees (s : SavedBlock) (hc : s.SidebandConsistent)
    (hh : s.sideband.height < 2 ^ 64) (h : BlockHash) :
    let patched := patch s.serializeWithSideband
      (blockSuccessorOffset s.serializeWithSideband.length s.block.blockType) h.bytes
    SavedBlock.deserialize.run patched = .ok ({ s with sideband.successor := h }, []) ∧
      readSuccessor patched = .ok (if h.isZero then none else some h) ∧
      clearSuccessor s.serializeWithSideband =
        .ok ({ s with sideband.successor := FixedBytes.zero 32 } : SavedBlock).serializeWithSideband := by
  intro patched
  have hpatched : patched = ({ s with sideband.successor := h } : SavedBlock).serializeWithSideband := by
    show patch _ _ _ = _
    rw [blockSuccessorOffset_eq, serializeWithSideband_split s, serializeWithSideband_successor,
      patch_append _ _ _ (by rw [FixedBytes.length_eq, FixedBytes.length_eq])]
  refine ⟨?_, ?_, clearSuccessor_serializeWithSideband s⟩
  · have hrun := SavedBlock.deserialize_run { s with sideband.successor := h } []
    rw [List.append_nil, SavedBlock.normalize_eq_self (s := { s with sideband.successor := h }) hc hh]
      at hrun
    rw [hpatched, hrun]
  · rw [hpatched, readSuccessor_serializeWithSideband]

/-- A consistent block one hash above zero, as a ledger's second block would be stored. -/
theorem successor_patch_agrees_receive :
    let s : SavedBlock :=
      ⟨.legacyReceive ⟨FixedBytes.zero 32, FixedBytes.zero 32, FixedBytes.zero 64, 0⟩,
        ⟨2, 0, FixedBytes.zero 32, FixedBytes.zero 32, 0, ⟨.epoch0, false, true, false⟩, .epoch0⟩⟩
    let h := FixedBytes.ofNat 32 1
    s.SidebandConsistent ∧ s.sideband.height < 2 ^ 64 ∧
    let patched := patch s.serializeWithSideband
      (blockSuccessorOffset s.serializeWithSideband.length s.block.blockType) h.bytes
    (SavedBlock.deserialize.run patched = .ok ({ s with sideband.successor := h }, []) ∧
      readSuccessor patched = .ok (if h.isZero then none else some h) ∧
      clearSuccessor s.serializeWithSideband =
        .ok ({ s with sideband.successor := FixedBytes.zero 32 } : SavedBlock).serializeWithSideband) := by
  intro s h
  exact ⟨⟨rfl, rfl⟩, by decide, successor_patch_agrees s ⟨rfl, rfl⟩ (by decide) h⟩

/-! ### The entry table refines the block table -/

/-- Every entry of the raw table is the encoding of the block the structured table holds under
the same hash. -/
def Encodes (raw : RawBlocks) (blocks : Table BlockHash SavedBlock) : Prop :=
  ∀ hash, raw.lookup hash = (blocks.lookup hash).map SavedBlock.serializeWithSideband

variable {raw : RawBlocks} {blocks : Table BlockHash SavedBlock}

theorem Encodes.insert (henc : Encodes raw blocks) (hash : BlockHash) (s : SavedBlock) :
    Encodes (raw.insert hash s.serializeWithSideband) (blocks.insert hash s) := by
  intro hash'
  by_cases hk : hash' = hash
  · subst hk
    simp
  · rw [AList.lookup_insert_ne hk, AList.lookup_insert_ne hk, henc hash']

theorem Encodes.successor (henc : Encodes raw blocks) (hash : BlockHash) :
    successor raw hash = .ok ((blocks.lookup hash).bind fun s =>
      if s.sideband.successor.isZero then none else some s.sideband.successor) := by
  rw [BlockStore.successor, henc hash]
  cases blocks.lookup hash with
  | none => rfl
  | some s => exact readSuccessor_serializeWithSideband s

theorem Encodes.successorClear {st : LedgerStore} (henc : Encodes raw st.blocks)
    {hash : BlockHash} (hs : (st.blocks.lookup hash).isSome) :
    ∃ raw', successorClear raw hash = .ok raw' ∧ Encodes raw' (st.successorClear hash).blocks := by
  obtain ⟨b, hb⟩ := Option.isSome_iff_exists.mp hs
  have hclear : (st.successorClear hash).blocks =
      st.blocks.insert hash { b with sideband.successor := FixedBytes.zero 32 } := by
    simp only [LedgerStore.successorClear, hb]
  refine ⟨_, ?_, hclear ▸ henc.insert hash _⟩
  rw [BlockStore.successorClear, henc hash, hb, Option.map_some, unwrap_some, ok_bind,
    clearSuccessor_serializeWithSideband, ok_bind]
  rfl

theorem Encodes.updatePredecessor (henc : Encodes raw blocks) (c : Crypto) (block : SavedBlock)
    (hprev : block.previous.isZero = false → (blocks.lookup block.previous).isSome) :
    ∃ raw', BlockStore.updatePredecessor c raw block = .ok raw' ∧
      Encodes raw' (LedgerStore.updatePredecessor blocks (block.hash c) block) := by
  unfold BlockStore.updatePredecessor LedgerStore.updatePredecessor
  cases hz : block.previous.isZero with
  | true => exact ⟨raw, rfl, henc⟩
  | false =>
    obtain ⟨p, hp⟩ := Option.isSome_iff_exists.mp (hprev hz)
    refine ⟨raw.insert block.previous
      ({ p with sideband.successor := block.hash c } : SavedBlock).serializeWithSideband, ?_, ?_⟩
    · simp only [Bool.false_eq_true, if_false, henc block.previous, hp, Option.map_some,
        writeSuccessor_serializeWithSideband, ok_bind]
      rfl
    · simp only [Bool.false_eq_true, if_false, hp]
      exact henc.insert block.previous _

/-- Writing a block's entry and patching its predecessor's is the structured `block_put`. -/
theorem Encodes.put {s : LedgerStore} (henc : Encodes raw s.blocks) (c : Crypto)
    (block : SavedBlock)
    (hprev : block.previous.isZero = false → (s.blocks.lookup block.previous).isSome) :
    ∃ raw', put c raw block = .ok raw' ∧ Encodes raw' (s.blockPut c block).blocks := by
  have hins : Encodes (raw.insert (block.hash c) block.serializeWithSideband)
      (s.blocks.insert (block.hash c) block.normalize) := by
    have hnorm := henc.insert (block.hash c) block.normalize
    rwa [SavedBlock.serializeWithSideband_normalize] at hnorm
  have hprev' : block.previous.isZero = false →
      ((s.blocks.insert (block.hash c) block.normalize).lookup block.previous).isSome := by
    intro hz
    by_cases hk : block.previous = block.hash c
    · rw [hk, AList.lookup_insert]
      rfl
    · rw [AList.lookup_insert_ne hk]
      exact hprev hz
  exact hins.updatePredecessor c block hprev'

end RsbanNode.Ledger.BlockStore
