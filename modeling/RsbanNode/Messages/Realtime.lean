import RsbanNode.Messages.Header
import RsbanNode.Transport.HandshakeProcess

namespace RsbanNode.Messages

open RsbanNode.ByteCodec RsbanNode.Primitives RsbanNode.BlockCodec RsbanNode.Blocks
  RsbanNode.Transport

/-- The error of a payload decoder that returns `None` with no error of its own. -/
def noPayload : String := "invalid message payload"

/-! ## Keepalive -/

structure Keepalive where
  peers : List SocketAddrV6
  length_peers : peers.length = 8

namespace Keepalive

/-- A peer as the wire carries it: address and port only. -/
def wirePeer (peer : SocketAddrV6) : SocketAddrV6 := { peer with flowinfo := 0, scopeId := 0 }

def serializedSize : Nat := 8 * (16 + 2)

def serializePeer (peer : SocketAddrV6) : List UInt8 := peer.ip.bytes ++ writeU16LE peer.port

def serialize (keepalive : Keepalive) : List UInt8 := keepalive.peers.flatMap serializePeer

/-- One turn of the loop of `deserialize`: `SocketAddrV6::new(ip_addr, port, 0, 0)`. -/
def readPeer : Decoder SocketAddrV6 := do
  let ip ← readFixed 16
  let port ← readU16LE
  pure { ip, port, flowinfo := 0, scopeId := 0 }

def readPeers : (n : Nat) → Decoder {peers : List SocketAddrV6 // peers.length = n}
  | 0 => pure ⟨[], rfl⟩
  | n + 1 => do
    let peer ← readPeer
    let peers ← readPeers n
    pure ⟨peer :: peers.1, congrArg Nat.succ peers.2⟩

def deserialize : Decoder Keepalive := do
  let peers ← readPeers 8
  pure ⟨peers.1, peers.2⟩

/-- The keepalive the receiver rebuilds. -/
def onWire (keepalive : Keepalive) : Keepalive :=
  ⟨keepalive.peers.map wirePeer, by rw [List.length_map, keepalive.length_peers]⟩

theorem length_serialize (keepalive : Keepalive) :
    keepalive.serialize.length = serializedSize := by
  obtain ⟨peers, hlen⟩ := keepalive
  simp [serialize, serializePeer, serializedSize, writeU16LE, List.length_flatMap,
    FixedBytes.length_eq, hlen]

theorem readPeer_run (peer : SocketAddrV6) (rest : List UInt8) :
    readPeer.run (serializePeer peer ++ rest) = .ok (wirePeer peer, rest) := by
  rw [readPeer, serializePeer, List.append_assoc, run_bind_ok (readFixed_run _ _),
    run_bind_ok (readU16LE_run _ _)]
  rfl

theorem readPeers_run (peers : List SocketAddrV6) {n : Nat} (hlen : peers.length = n)
    (rest : List UInt8) :
    (readPeers n).run (peers.flatMap serializePeer ++ rest) =
      .ok (⟨peers.map wirePeer, by rw [List.length_map, hlen]⟩, rest) := by
  induction peers generalizing n with
  | nil =>
    subst hlen
    rfl
  | cons peer peers ih =>
    cases n with
    | zero => simp at hlen
    | succ n =>
      rw [readPeers, List.flatMap_cons, List.append_assoc, run_bind_ok (readPeer_run _ _),
        run_bind_ok (ih (Nat.succ_injective hlen))]
      rfl

theorem deserialize_run (keepalive : Keepalive) (rest : List UInt8) :
    deserialize.run (keepalive.serialize ++ rest) = .ok (keepalive.onWire, rest) := by
  rw [deserialize, serialize, run_bind_ok (readPeers_run _ keepalive.length_peers rest)]
  rfl

theorem onWire_eq_self_iff (keepalive : Keepalive) :
    keepalive.onWire = keepalive ↔ ∀ peer ∈ keepalive.peers, peer.flowinfo = 0 ∧ peer.scopeId = 0 := by
  obtain ⟨peers, hlen⟩ := keepalive
  simp only [onWire, mk.injEq]
  conv_lhs => rhs; rw [← List.map_id peers]
  rw [List.map_inj_left]
  refine forall₂_congr fun peer _ => ?_
  cases peer
  simp [wirePeer, eq_comm]

end Keepalive

/-! ## Publish -/

structure Publish where
  block : Block
  digest : BitVec 128
  isOriginator : Bool

namespace Publish

def blockTypeMask : UInt16 := 0x0f00

def originatorFlag : UInt16 := (1 : UInt16) <<< 2

/-- The block type in bits 8 to 11. The source shifts a `BitArray` "left", towards index zero,
which in least-significant-first order is a right shift of the word. -/
def blockType (extensions : UInt16) : BlockType :=
  (BlockType.fromU8 ((extensions &&& blockTypeMask) >>> 8).toUInt8).getD .invalid

def serializedSize (extensions : UInt16) : Nat := Block.serializedBlockSize (blockType extensions)

def serialize (publish : Publish) : List UInt8 := publish.block.serializeWithoutBlockType

def deserialize (extensions : UInt16) (digest : BitVec 128) : Decoder Publish := do
  let block ← Block.deserializeBlockType (blockType extensions)
  pure { block, digest, isOriginator := extensions &&& originatorFlag > 0 }

def headerExtensions (publish : Publish) : UInt16 :=
  (publish.block.blockType.toU8.toUInt16 <<< 8) |||
    (if publish.isOriginator then originatorFlag else 0)

theorem headerExtensions_fields (t : BlockType) (isOriginator : Bool) :
    blockType ((t.toU8.toUInt16 <<< 8) ||| (if isOriginator then originatorFlag else 0)) = t ∧
      decide ((((t.toU8.toUInt16 <<< 8) ||| (if isOriginator then originatorFlag else 0)) &&&
        originatorFlag) > 0) = isOriginator := by
  cases t <;> cases isOriginator <;> decide +kernel

theorem serializedSize_headerExtensions (publish : Publish) :
    serializedSize publish.headerExtensions = publish.serialize.length := by
  have hlen := publish.block.length_serialize
  rw [Block.serialize, List.length_cons] at hlen
  rw [serializedSize, headerExtensions, (headerExtensions_fields _ _).1, serialize]
  omega

theorem deserialize_run (publish : Publish) (digest : BitVec 128) (rest : List UInt8) :
    (deserialize publish.headerExtensions digest).run (publish.serialize ++ rest) =
      .ok ({ publish with digest }, rest) := by
  obtain ⟨hblockType, horiginator⟩ := headerExtensions_fields publish.block.blockType
    publish.isOriginator
  rw [deserialize, headerExtensions, hblockType, serialize,
    run_bind_ok (Block.deserializeBlockType_run _ _)]
  simp only [horiginator]
  rfl

end Publish

/-! ## Confirmation requests -/

structure ConfirmReq where
  rootsHashes : List (BlockHash × Root)

namespace ConfirmReq

def hashesMax : Nat := 255

def countHighMask : UInt16 := 0b1111_0000_0000_0000

def countHighShift : UInt16 := 12

def blockTypeMask : UInt16 := 0b0000_1111_0000_0000

def blockTypeShift : UInt16 := 8

def countLowMask : UInt16 := 0b0000_0000_1111_0000

def countLowShift : UInt16 := 4

def v2Flag : UInt16 := 0b0000_0000_0000_0001

def blockType (extensions : UInt16) : BlockType :=
  (BlockType.fromU8 ((extensions &&& blockTypeMask) >>> blockTypeShift).toUInt8).getD .invalid

def hasV2Flag (bits : UInt16) : Bool := bits &&& v2Flag == v2Flag

def v1Count (bits : UInt16) : UInt8 := ((bits &&& countHighMask) >>> countHighShift).toUInt8

def v2Count (bits : UInt16) : UInt8 :=
  let left := (bits &&& countHighMask) >>> countHighShift
  let right := (bits &&& countLowMask) >>> countLowShift
  ((left <<< 4) ||| right).toUInt8

def count (extensions : UInt16) : UInt8 :=
  if hasV2Flag extensions then v2Count extensions else v1Count extensions

def splitCount (count : UInt8) : UInt8 × UInt8 := ((count >>> 4) &&& 0xf, count &&& 0xf)

/-- Counts below 16 keep the four-bit v1 layout of older protocol versions; larger ones set the
v2 flag and spread the eight bits over the high and the low nibble. -/
def countBits (count : UInt8) : UInt16 :=
  if count < 16 then count.toUInt16 <<< countHighShift
  else
    let (left, right) := splitCount count
    v2Flag ||| (left.toUInt16 <<< countHighShift) ||| (right.toUInt16 <<< countLowShift)

def serializedSize (extensions : UInt16) : Nat :=
  let count := count extensions
  let blockType := blockType extensions
  if blockType != .invalid && blockType != .notABlock then Block.serializedBlockSize blockType
  else if blockType == .notABlock then count.toNat * (32 + 32)
  else 0

def serialize (req : ConfirmReq) : List UInt8 :=
  req.rootsHashes.flatMap fun (hash, root) => hash.bytes ++ root.bytes

/-- The loop of `deserialize_roots`: a pair with a zero hash and a zero root is skipped. -/
def readRoots : Nat → Decoder (List (BlockHash × Root))
  | 0 => pure []
  | n + 1 => do
    let blockHash ← readFixed 32
    let root ← readFixed 32
    let rootsHashes ← readRoots n
    pure (if !blockHash.isZero || !root.isZero then (blockHash, root) :: rootsHashes
      else rootsHashes)

def deserializeRoots (extensions : UInt16) : Decoder (List (BlockHash × Root)) := do
  let count := (count extensions).toNat
  let rootsHashes ← readRoots count
  if rootsHashes.isEmpty || rootsHashes.length != count then
    throw "roots hashes empty or incorrect count"
  pure rootsHashes

/-- `new` panics above 255 pairs, which a count of one byte never reaches. -/
def deserialize (extensions : UInt16) : Decoder ConfirmReq :=
  ConfirmReq.mk <$> deserializeRoots extensions

/-- The count bits, and `NotABlock` as block type for older protocol versions. -/
def headerExtensions (req : ConfirmReq) : UInt16 :=
  countBits (UInt8.ofNat req.rootsHashes.length) |||
    (BlockType.notABlock.toU8.toUInt16 <<< blockTypeShift)

def WithinLimits (req : ConfirmReq) : Prop :=
  0 < req.rootsHashes.length ∧ req.rootsHashes.length ≤ hashesMax ∧
    ∀ pair ∈ req.rootsHashes, !pair.1.isZero || !pair.2.isZero

instance (req : ConfirmReq) : Decidable req.WithinLimits :=
  inferInstanceAs (Decidable (_ ∧ _ ∧ _))

theorem count_countBits_all :
    ∀ n < 256, count (countBits (UInt8.ofNat n) |||
        (BlockType.notABlock.toU8.toUInt16 <<< blockTypeShift)) = UInt8.ofNat n ∧
      blockType (countBits (UInt8.ofNat n) |||
        (BlockType.notABlock.toU8.toUInt16 <<< blockTypeShift)) = .notABlock := by
  decide +kernel

theorem count_headerExtensions (req : ConfirmReq) :
    count req.headerExtensions = UInt8.ofNat req.rootsHashes.length ∧
      blockType req.headerExtensions = .notABlock := by
  have h := count_countBits_all (UInt8.ofNat req.rootsHashes.length).toNat
    (UInt8.ofNat req.rootsHashes.length).toNat_lt
  rwa [UInt8.ofNat_toNat] at h

theorem length_serialize (req : ConfirmReq) :
    req.serialize.length = req.rootsHashes.length * (32 + 32) := by
  simp [serialize, List.length_flatMap, FixedBytes.length_eq, Nat.mul_comm]

theorem toNat_ofNat_length {req : ConfirmReq} (h : req.WithinLimits) :
    (UInt8.ofNat req.rootsHashes.length).toNat = req.rootsHashes.length := by
  have : req.rootsHashes.length < 256 := Nat.lt_succ_of_le h.2.1
  simp [Nat.mod_eq_of_lt this]

theorem serializedSize_headerExtensions {req : ConfirmReq} (h : req.WithinLimits) :
    serializedSize req.headerExtensions = req.serialize.length := by
  obtain ⟨hcount, hblockType⟩ := count_headerExtensions req
  rw [serializedSize, hcount, hblockType, toNat_ofNat_length h, length_serialize]
  rfl

theorem readRoots_run (pairs : List (BlockHash × Root))
    (hpairs : ∀ pair ∈ pairs, !pair.1.isZero || !pair.2.isZero) (rest : List UInt8) :
    (readRoots pairs.length).run
      ((pairs.flatMap fun (hash, root) => hash.bytes ++ root.bytes) ++ rest) =
      .ok (pairs, rest) := by
  induction pairs with
  | nil => rfl
  | cons pair pairs ih =>
    obtain ⟨hash, root⟩ := pair
    have hkept : (!hash.isZero || !root.isZero) = true := hpairs _ (List.mem_cons_self ..)
    rw [List.length_cons, readRoots, List.flatMap_cons, List.append_assoc, List.append_assoc,
      run_bind_ok (readFixed_run _ _), run_bind_ok (readFixed_run _ _),
      run_bind_ok (ih (fun p hp => hpairs p (List.mem_cons_of_mem _ hp)))]
    simp only [hkept, if_true]
    rfl

theorem deserialize_run {req : ConfirmReq} (h : req.WithinLimits) (rest : List UInt8) :
    (deserialize req.headerExtensions).run (req.serialize ++ rest) = .ok (req, rest) := by
  have hcount : (count req.headerExtensions).toNat = req.rootsHashes.length := by
    rw [(count_headerExtensions req).1, toNat_ofNat_length h]
  have hnonempty : req.rootsHashes.isEmpty = false := by
    simpa [List.isEmpty_iff, ← List.length_pos_iff] using h.1
  rw [deserialize, deserializeRoots, run_map_ok]
  rw [hcount, serialize, run_bind_ok (readRoots_run _ h.2.2 rest)]
  simp [hnonempty]

end ConfirmReq

/-! ## Votes and confirmation acknowledgements -/

inductive VoteSource
  | live
  | rebroadcast
  | cache
deriving DecidableEq, Repr

inductive VoteCode
  | invalid
  | replay
  | vote
  | indeterminate
  | ignored
deriving DecidableEq, Repr

structure Vote where
  timestamp : UInt64
  votingAccount : PublicKey
  signature : Signature
  hashes : List BlockHash

namespace Vote

def maxHashes : Nat := 255

def finalTimestamp : UInt64 := 0xFFFFFFFFFFFFFFFF

def timestampMask : UInt64 := 0xFFFFFFFFFFFFFFF0

def isFinal (vote : Vote) : Bool := vote.timestamp == finalTimestamp

/-- `Vote::timestamp()`: the duration bits masked off, except on a final vote. -/
def maskedTimestamp (vote : Vote) : UInt64 :=
  if vote.isFinal then vote.timestamp else vote.timestamp &&& timestampMask

def serializedSize (count : Nat) : Nat := 32 + 64 + 8 + 32 * count

def serialize (vote : Vote) : List UInt8 :=
  vote.votingAccount.bytes ++ vote.signature.bytes ++ writeU64LE vote.timestamp ++
    vote.hashes.flatMap (·.bytes)

/-- The loop of `deserialize`: hashes are read while input remains and fewer than `room` more
are allowed. -/
def readHashes : Nat → Decoder (List BlockHash)
  | 0 => pure []
  | room + 1 => do
    let remaining ← get
    if remaining.isEmpty then pure []
    else
      let hash ← readFixed 32
      let hashes ← readHashes room
      pure (hash :: hashes)

def deserialize : Decoder Vote := do
  let votingAccount ← readFixed 32
  let signature ← readFixed 64
  let timestamp ← readU64LE
  let hashes ← readHashes maxHashes
  pure
    { timestamp := timestamp, votingAccount := votingAccount, signature := signature,
      hashes := hashes }

theorem length_serialize (vote : Vote) :
    vote.serialize.length = serializedSize vote.hashes.length := by
  simp [serialize, serializedSize, writeU64LE, List.length_flatMap, FixedBytes.length_eq,
    Nat.mul_comm]
  omega

theorem readHashes_run (hashes : List BlockHash) {room : Nat} (hroom : hashes.length ≤ room) :
    (readHashes room).run (hashes.flatMap (·.bytes)) = .ok (hashes, []) := by
  induction hashes generalizing room with
  | nil =>
    cases room <;> rfl
  | cons hash hashes ih =>
    obtain ⟨room, rfl⟩ : ∃ r, room = r + 1 := ⟨room - 1, by simp at hroom; omega⟩
    have hne : (hash.bytes ++ hashes.flatMap (·.bytes)).isEmpty = false := by
      simp [FixedBytes.length_eq, ← List.length_pos_iff]
    rw [readHashes, List.flatMap_cons, run_get_bind, hne]
    simp only [Bool.false_eq_true, if_false]
    rw [run_bind_ok (readFixed_run _ _),
      run_bind_ok (ih (by simp at hroom; omega))]
    rfl

theorem deserialize_run {vote : Vote} (h : vote.hashes.length ≤ maxHashes) :
    deserialize.run vote.serialize = .ok (vote, []) := by
  rw [deserialize, serialize, List.append_assoc, List.append_assoc,
    run_bind_ok (readFixed_run _ _), run_bind_ok (readFixed_run _ _),
    run_bind_ok (readU64LE_run _ _), run_bind_ok (readHashes_run _ h)]
  rfl

end Vote

structure ConfirmAck where
  vote : Vote
  isRebroadcasted : Bool
  digest : BitVec 128

namespace ConfirmAck

def hashesMax : Nat := 255

def rebroadcastedFlag : Nat := 2

def serializedSize (extensions : UInt16) : Nat :=
  Vote.serializedSize (ConfirmReq.count extensions).toNat

def serialize (ack : ConfirmAck) : List UInt8 := ack.vote.serialize

/-- `new_with_own_vote` and `new_with_rebroadcasted_vote` assert at most 255 hashes, which the
vote reader never exceeds. -/
def deserialize (extensions : UInt16) (digest : BitVec 128) : Decoder ConfirmAck := do
  let vote ← Vote.deserialize
  pure { vote, isRebroadcasted := bit extensions rebroadcastedFlag, digest }

def headerExtensions (ack : ConfirmAck) : UInt16 :=
  setBit (ConfirmReq.countBits (UInt8.ofNat ack.vote.hashes.length)) rebroadcastedFlag
    ack.isRebroadcasted

theorem count_setBit_all :
    ∀ n < 256, ∀ b : Bool,
      ConfirmReq.count (setBit (ConfirmReq.countBits (UInt8.ofNat n)) 2 b) = UInt8.ofNat n ∧
        bit (setBit (ConfirmReq.countBits (UInt8.ofNat n)) 2 b) 2 = b := by
  decide +kernel

theorem count_headerExtensions (ack : ConfirmAck) :
    ConfirmReq.count ack.headerExtensions = UInt8.ofNat ack.vote.hashes.length ∧
      bit ack.headerExtensions rebroadcastedFlag = ack.isRebroadcasted := by
  have h := count_setBit_all (UInt8.ofNat ack.vote.hashes.length).toNat
    (UInt8.ofNat ack.vote.hashes.length).toNat_lt ack.isRebroadcasted
  rwa [UInt8.ofNat_toNat] at h

theorem serializedSize_headerExtensions {ack : ConfirmAck} (h : ack.vote.hashes.length ≤ hashesMax) :
    serializedSize ack.headerExtensions = ack.serialize.length := by
  have hlt : ack.vote.hashes.length < 256 := Nat.lt_succ_of_le h
  have hcount : (UInt8.ofNat ack.vote.hashes.length).toNat = ack.vote.hashes.length := by
    simp [Nat.mod_eq_of_lt hlt]
  rw [serializedSize, (count_headerExtensions ack).1, serialize, Vote.length_serialize, hcount]

theorem deserialize_run {ack : ConfirmAck} (h : ack.vote.hashes.length ≤ hashesMax)
    (digest : BitVec 128) :
    (deserialize ack.headerExtensions digest).run ack.serialize = .ok ({ ack with digest }, []) := by
  rw [deserialize, serialize, run_bind_ok (Vote.deserialize_run h),
    (count_headerExtensions ack).2]
  rfl

end ConfirmAck

/-! ## Telemetry -/

structure TelemetryData where
  signature : Signature
  nodeId : Account
  blockCount : UInt64
  cementedCount : UInt64
  uncheckedCount : UInt64
  accountCount : UInt64
  bandwidthCap : UInt64
  uptime : UInt64
  peerCount : UInt32
  protocolVersion : UInt8
  genesisBlock : BlockHash
  majorVersion : UInt8
  minorVersion : UInt8
  patchVersion : UInt8
  preReleaseVersion : UInt8
  maker : UInt8
  /-- A `SystemTime` at or after the Unix epoch, in whole milliseconds. -/
  timestamp : Nat
  activeDifficulty : UInt64
  unknownData : List UInt8

namespace TelemetryData

def sizeMask : UInt16 := 0x3ff

def serializedSizeOfKnownData : Nat :=
  64 + 32 + 8 + 8 + 8 + 8 + 8 + 4 + 1 + 8 + 32 + 1 + 1 + 1 + 1 + 1 + 8 + 8

/-- All values big endian; the timestamp is written as `as_millis() as u64`. -/
def serializeWithoutSignature (data : TelemetryData) : List UInt8 :=
  data.nodeId.bytes ++ writeU64BE data.blockCount ++ writeU64BE data.cementedCount ++
    writeU64BE data.uncheckedCount ++ writeU64BE data.accountCount ++
    writeU64BE data.bandwidthCap ++ writeU32BE data.peerCount ++ [data.protocolVersion] ++
    writeU64BE data.uptime ++ data.genesisBlock.bytes ++
    [data.majorVersion, data.minorVersion, data.patchVersion, data.preReleaseVersion,
      data.maker] ++
    writeU64BE (UInt64.ofNat data.timestamp) ++ writeU64BE data.activeDifficulty ++
    data.unknownData

/-- Whatever the payload holds beyond the known fields. -/
def readUnknownData (payloadLen : Nat) : Decoder (List UInt8) :=
  if payloadLen > serializedSizeOfKnownData then
    take notEnoughBytes (payloadLen - serializedSizeOfKnownData)
  else pure []

def deserialize (payloadLen : Nat) : Decoder TelemetryData := do
  let signature ← readFixed 64
  let nodeId ← readFixed 32
  let blockCount ← readU64BE
  let cementedCount ← readU64BE
  let uncheckedCount ← readU64BE
  let accountCount ← readU64BE
  let bandwidthCap ← readU64BE
  let peerCount ← readU32BE
  let protocolVersion ← readU8
  let uptime ← readU64BE
  let genesisBlock ← readFixed 32
  let majorVersion ← readU8
  let minorVersion ← readU8
  let patchVersion ← readU8
  let preReleaseVersion ← readU8
  let maker ← readU8
  let timestampMs ← readU64BE
  let activeDifficulty ← readU64BE
  let unknownData ← readUnknownData payloadLen
  pure
    { signature := signature, nodeId := nodeId, blockCount := blockCount,
      cementedCount := cementedCount, uncheckedCount := uncheckedCount,
      accountCount := accountCount, bandwidthCap := bandwidthCap, peerCount := peerCount,
      protocolVersion := protocolVersion, uptime := uptime, genesisBlock := genesisBlock,
      majorVersion := majorVersion, minorVersion := minorVersion, patchVersion := patchVersion,
      preReleaseVersion := preReleaseVersion, maker := maker, timestamp := timestampMs.toNat,
      activeDifficulty := activeDifficulty, unknownData := unknownData }

/-- The data the receiver rebuilds: the timestamp as the 64 bits the wire carries. -/
def onWire (data : TelemetryData) : TelemetryData := { data with timestamp := data.timestamp % 2 ^ 64 }

theorem length_serializeWithoutSignature (data : TelemetryData) :
    (data.signature.bytes ++ data.serializeWithoutSignature).length =
      serializedSizeOfKnownData + data.unknownData.length := by
  simp [serializeWithoutSignature, serializedSizeOfKnownData, writeU64BE, writeU32BE,
    FixedBytes.length_eq]
  omega

theorem readUnknownData_run (unknownData rest : List UInt8) :
    (readUnknownData (serializedSizeOfKnownData + unknownData.length)).run
      (unknownData ++ rest) = .ok (unknownData, rest) := by
  cases unknownData with
  | nil => rfl
  | cons b bs =>
    rw [readUnknownData, if_pos (by simp), Nat.add_sub_cancel_left]
    exact take_append notEnoughBytes rest rfl

theorem deserialize_run (data : TelemetryData) (rest : List UInt8) :
    (deserialize (serializedSizeOfKnownData + data.unknownData.length)).run
      (data.signature.bytes ++ data.serializeWithoutSignature ++ rest) = .ok (data.onWire, rest) := by
  have htimestamp : (UInt64.ofNat data.timestamp).toNat = data.timestamp % 2 ^ 64 :=
    UInt64.toNat_ofNat'
  simp only [serializeWithoutSignature, List.append_assoc, List.cons_append, List.nil_append]
  rw [deserialize, run_bind_ok (readFixed_run _ _), run_bind_ok (readFixed_run _ _),
    run_bind_ok (readU64BE_run _ _), run_bind_ok (readU64BE_run _ _),
    run_bind_ok (readU64BE_run _ _), run_bind_ok (readU64BE_run _ _),
    run_bind_ok (readU64BE_run _ _), run_bind_ok (readU32BE_run _ _),
    run_bind_ok (readU8_run _ _), run_bind_ok (readU64BE_run _ _),
    run_bind_ok (readFixed_run _ _), run_bind_ok (readU8_run _ _),
    run_bind_ok (readU8_run _ _), run_bind_ok (readU8_run _ _), run_bind_ok (readU8_run _ _),
    run_bind_ok (readU8_run _ _), run_bind_ok (readU64BE_run _ _),
    run_bind_ok (readU64BE_run _ _), run_bind_ok (readUnknownData_run _ _), htimestamp]
  rfl

theorem onWire_eq_self {data : TelemetryData} (hts : data.timestamp < 2 ^ 64) :
    data.onWire = data := by
  rw [onWire, Nat.mod_eq_of_lt hts]

end TelemetryData

structure TelemetryAck where
  data : Option TelemetryData

namespace TelemetryAck

def serializedSize (extensions : UInt16) : Nat := (extensions &&& TelemetryData.sizeMask).toNat

def deserialize (extensions : UInt16) : Decoder TelemetryAck :=
  let payloadLength := serializedSize extensions
  if payloadLength = 0 then pure ⟨none⟩
  else (fun data => ⟨some data⟩) <$> TelemetryData.deserialize payloadLength

def serialize (ack : TelemetryAck) : List UInt8 :=
  match ack.data with
  | some data => data.signature.bytes ++ data.serializeWithoutSignature
  | none => []

/-- The payload length, in a field of ten bits; the sum is taken in sixteen-bit arithmetic. -/
def headerExtensions (ack : TelemetryAck) : UInt16 :=
  match ack.data with
  | some data =>
    UInt16.ofNat TelemetryData.serializedSizeOfKnownData + UInt16.ofNat data.unknownData.length
  | none => 0

def WithinLimits (ack : TelemetryAck) : Prop :=
  ∀ data, ack.data = some data →
    data.unknownData.length ≤ 0x3ff - TelemetryData.serializedSizeOfKnownData

instance (ack : TelemetryAck) : Decidable ack.WithinLimits :=
  match h : ack.data with
  | some data => decidable_of_iff
      (data.unknownData.length ≤ 0x3ff - TelemetryData.serializedSizeOfKnownData)
      (by simp [WithinLimits, h])
  | none => isTrue (by simp [WithinLimits, h])

theorem serializedSize_lengths :
    ∀ n < 0x3ff - TelemetryData.serializedSizeOfKnownData + 1,
      serializedSize (UInt16.ofNat TelemetryData.serializedSizeOfKnownData + UInt16.ofNat n) =
        TelemetryData.serializedSizeOfKnownData + n := by
  decide +kernel

theorem serializedSize_headerExtensions {ack : TelemetryAck} (h : ack.WithinLimits) :
    serializedSize ack.headerExtensions = ack.serialize.length := by
  cases hd : ack.data with
  | none => simp [headerExtensions, serialize, hd, serializedSize]
  | some data =>
    simp only [headerExtensions, serialize, hd]
    rw [serializedSize_lengths _ (Nat.lt_succ_of_le (h data hd)),
      TelemetryData.length_serializeWithoutSignature]

/-- The acknowledgement the receiver rebuilds. -/
def onWire (ack : TelemetryAck) : TelemetryAck := ⟨ack.data.map TelemetryData.onWire⟩

theorem deserialize_run {ack : TelemetryAck} (h : ack.WithinLimits) (rest : List UInt8) :
    (deserialize ack.headerExtensions).run (ack.serialize ++ rest) = .ok (ack.onWire, rest) := by
  obtain ⟨data⟩ := ack
  cases data with
  | none => rfl
  | some data =>
    have hsize := serializedSize_lengths _ (Nat.lt_succ_of_le (h data rfl))
    simp only [deserialize, headerExtensions, serialize] at hsize ⊢
    simp only [hsize]
    rw [if_neg (by simp [TelemetryData.serializedSizeOfKnownData]),
      run_map_ok (TelemetryData.deserialize_run data rest)]
    rfl

theorem onWire_eq_self {ack : TelemetryAck}
    (hts : ∀ data, ack.data = some data → data.timestamp < 2 ^ 64) : ack.onWire = ack := by
  obtain ⟨data⟩ := ack
  cases data with
  | none => rfl
  | some data => simp [onWire, TelemetryData.onWire_eq_self (hts data rfl)]

end TelemetryAck

end RsbanNode.Messages

/-! ## Node id handshakes

The codec of the handshake types the transport layer uses. -/

namespace RsbanNode.Transport

open RsbanNode.ByteCodec RsbanNode.Primitives RsbanNode.BlockCodec RsbanNode.Messages

namespace NodeIdHandshake

def queryFlag : Nat := 0

def responseFlag : Nat := 1

def v2Flag : Nat := 2

def isQuery (extensions : UInt16) : Bool := bit extensions queryFlag

def isResponse (extensions : UInt16) : Bool := bit extensions responseFlag

def hasV2Flag (extensions : UInt16) : Bool := bit extensions v2Flag

end NodeIdHandshake

namespace NodeIdHandshakeResponse

def serializedSize (extensions : UInt16) : Nat :=
  if NodeIdHandshake.hasV2Flag extensions then 32 + 32 + 32 + 64 else 32 + 64

def serialize (response : NodeIdHandshakeResponse) : List UInt8 :=
  match response.v2 with
  | some v2 => response.nodeId.bytes ++ v2.salt.bytes ++ v2.genesis.bytes ++
      response.signature.bytes
  | none => response.nodeId.bytes ++ response.signature.bytes

/-- The layout is chosen by the header's v2 flag, not by the response. -/
def deserialize (extensions : UInt16) : Decoder NodeIdHandshakeResponse :=
  if NodeIdHandshake.hasV2Flag extensions then do
    let nodeId ← readFixed 32
    let salt ← readFixed 32
    let genesis ← readFixed 32
    let signature ← readFixed 64
    pure { nodeId, signature, v2 := some { salt := salt, genesis := genesis } }
  else do
    let nodeId ← readFixed 32
    let signature ← readFixed 64
    pure { nodeId, signature, v2 := none }

theorem length_serialize {response : NodeIdHandshakeResponse} {extensions : UInt16}
    (hv2 : response.v2.isSome = NodeIdHandshake.hasV2Flag extensions) :
    response.serialize.length = serializedSize extensions := by
  rw [serializedSize, ← hv2, serialize]
  cases response.v2 <;> simp [FixedBytes.length_eq]

theorem deserialize_run {response : NodeIdHandshakeResponse} {extensions : UInt16}
    (hv2 : response.v2.isSome = NodeIdHandshake.hasV2Flag extensions) (rest : List UInt8) :
    (deserialize extensions).run (response.serialize ++ rest) = .ok (response, rest) := by
  obtain ⟨nodeId, signature, v2⟩ := response
  rw [deserialize, ← hv2]
  cases v2 with
  | none =>
    simp only [serialize, Option.isSome_none, Bool.false_eq_true, if_false, List.append_assoc]
    rw [run_bind_ok (readFixed_run _ _), run_bind_ok (readFixed_run _ _)]
    rfl
  | some v2 =>
    simp only [serialize, Option.isSome_some, if_true, List.append_assoc]
    rw [run_bind_ok (readFixed_run _ _), run_bind_ok (readFixed_run _ _),
      run_bind_ok (readFixed_run _ _), run_bind_ok (readFixed_run _ _)]
    rfl

end NodeIdHandshakeResponse

namespace NodeIdHandshake

def serializedSize (extensions : UInt16) : Nat :=
  (if isQuery extensions then 32 else 0) +
    (if isResponse extensions then NodeIdHandshakeResponse.serializedSize extensions else 0)

def serialize (handshake : NodeIdHandshake) : List UInt8 :=
  (handshake.query.map (·.cookie.bytes)).getD [] ++
    (handshake.response.map NodeIdHandshakeResponse.serialize).getD []

def deserialize (extensions : UInt16) : Decoder NodeIdHandshake := do
  let query ← readIf (isQuery extensions) ((fun cookie => some ⟨cookie⟩) <$> readFixed 32) none
  let response ← readIf (isResponse extensions)
    (some <$> NodeIdHandshakeResponse.deserialize extensions) none
  pure { query, response, isV2 := hasV2Flag extensions }

def headerExtensions (handshake : NodeIdHandshake) : UInt16 :=
  setBit (setBit (setBit 0 queryFlag handshake.query.isSome) responseFlag
    handshake.response.isSome) v2Flag handshake.isV2

/-- A response carries the v2 payload exactly when the handshake is flagged v2. -/
def WithinLimits (handshake : NodeIdHandshake) : Prop :=
  ∀ response, handshake.response = some response → response.v2.isSome = handshake.isV2

instance (handshake : NodeIdHandshake) : Decidable handshake.WithinLimits :=
  match h : handshake.response with
  | some response => decidable_of_iff (response.v2.isSome = handshake.isV2)
      (by simp [WithinLimits, h])
  | none => isTrue (by simp [WithinLimits, h])

theorem headerExtensions_flags (handshake : NodeIdHandshake) :
    isQuery handshake.headerExtensions = handshake.query.isSome ∧
      isResponse handshake.headerExtensions = handshake.response.isSome ∧
      hasV2Flag handshake.headerExtensions = handshake.isV2 :=
  bit_setBit_three _ _ _

theorem serializedSize_headerExtensions {handshake : NodeIdHandshake}
    (h : handshake.WithinLimits) :
    serializedSize handshake.headerExtensions = handshake.serialize.length := by
  obtain ⟨hquery, hresponse, hv2⟩ := headerExtensions_flags handshake
  rw [serializedSize, hquery, hresponse, serialize, List.length_append]
  congr 1
  · cases handshake.query <;> simp [FixedBytes.length_eq]
  · cases hr : handshake.response with
    | none => rfl
    | some response =>
      simp only [Option.isSome_some, if_true]
      exact (NodeIdHandshakeResponse.length_serialize ((h response hr).trans hv2.symm)).symm

theorem deserialize_run {handshake : NodeIdHandshake} (h : handshake.WithinLimits)
    (rest : List UInt8) :
    (deserialize handshake.headerExtensions).run (handshake.serialize ++ rest) =
      .ok (handshake, rest) := by
  obtain ⟨hquery, hresponse, hv2⟩ := headerExtensions_flags handshake
  rw [deserialize, hquery, hresponse, hv2, serialize, List.append_assoc]
  generalize handshake.headerExtensions = extensions at hv2 ⊢
  obtain ⟨isV2, query, response⟩ := handshake
  dsimp only at h hv2 ⊢
  -- the cookie, when there is a query
  have hreadQuery : ∀ rest', (readIf query.isSome
      ((fun cookie => some ⟨cookie⟩) <$> readFixed 32) none).run
      ((query.map (·.cookie.bytes)).getD [] ++ rest') = .ok (query, rest') := by
    intro rest'
    cases query with
    | none => rfl
    | some query => exact run_map_ok (readFixed_run query.cookie rest')
  -- the response, in the layout the v2 flag selects
  have hreadResponse : ∀ rest', (readIf response.isSome
      (some <$> NodeIdHandshakeResponse.deserialize extensions) none).run
      ((response.map NodeIdHandshakeResponse.serialize).getD [] ++ rest') =
      .ok (response, rest') := by
    intro rest'
    cases hr : response with
    | none => rfl
    | some r =>
      exact run_map_ok (NodeIdHandshakeResponse.deserialize_run ((h r hr).trans hv2.symm) rest')
  rw [run_bind_ok (hreadQuery _), run_bind_ok (hreadResponse rest)]
  rfl

end NodeIdHandshake

end RsbanNode.Transport
