import RsbanNode.Core.BlockCodec

namespace RsbanNode.Messages

open RsbanNode.ByteCodec RsbanNode.Primitives RsbanNode.BlockCodec

/-! ## Fixed-width integers of the message streams -/

/-- An unsigned integer of `width` bytes, in the byte order `decode` reads. -/
def readUInt {α : Type} (width : Nat) (decode : List UInt8 → Nat) (ofNat : Nat → α) :
    Decoder α :=
  (fun l => ofNat (decode l.1)) <$> takeExact notEnoughBytes width

theorem readUInt_run {α : Type} {width : Nat} {decode : List UInt8 → Nat} {ofNat : Nat → α}
    {bytes : List UInt8} {v : α} (hlen : bytes.length = width) (hv : ofNat (decode bytes) = v)
    (rest : List UInt8) : (readUInt width decode ofNat).run (bytes ++ rest) = .ok (v, rest) := by
  unfold readUInt
  rw [run_map_ok (takeExact_append notEnoughBytes rest hlen), hv]

def readU16LE : Decoder UInt16 := readUInt 2 ofBytesLE UInt16.ofNat

def readU16BE : Decoder UInt16 := readUInt 2 ofBytesBE UInt16.ofNat

def readU32LE : Decoder UInt32 := readUInt 4 ofBytesLE UInt32.ofNat

def readU32BE : Decoder UInt32 := readUInt 4 ofBytesBE UInt32.ofNat

def writeU16LE (v : UInt16) : List UInt8 := toBytesLE 2 v.toNat

def writeU16BE (v : UInt16) : List UInt8 := toBytesBE 2 v.toNat

def writeU32LE (v : UInt32) : List UInt8 := toBytesLE 4 v.toNat

def writeU32BE (v : UInt32) : List UInt8 := toBytesBE 4 v.toNat

theorem readU16LE_run (v : UInt16) (rest : List UInt8) :
    readU16LE.run (writeU16LE v ++ rest) = .ok (v, rest) :=
  readUInt_run (length_toBytesLE 2 _)
    (by rw [ofBytesLE_toBytesLE, Nat.mod_eq_of_lt (by simpa using v.toNat_lt), UInt16.ofNat_toNat])
    rest

theorem readU16BE_run (v : UInt16) (rest : List UInt8) :
    readU16BE.run (writeU16BE v ++ rest) = .ok (v, rest) :=
  readUInt_run (length_toBytesBE 2 _)
    (by rw [ofBytesBE_toBytesBE, Nat.mod_eq_of_lt (by simpa using v.toNat_lt), UInt16.ofNat_toNat])
    rest

theorem readU32LE_run (v : UInt32) (rest : List UInt8) :
    readU32LE.run (writeU32LE v ++ rest) = .ok (v, rest) :=
  readUInt_run (length_toBytesLE 4 _)
    (by rw [ofBytesLE_toBytesLE, Nat.mod_eq_of_lt (by simpa using v.toNat_lt), UInt32.ofNat_toNat])
    rest

theorem readU32BE_run (v : UInt32) (rest : List UInt8) :
    readU32BE.run (writeU32BE v ++ rest) = .ok (v, rest) :=
  readUInt_run (length_toBytesBE 4 _)
    (by rw [ofBytesBE_toBytesBE, Nat.mod_eq_of_lt (by simpa using v.toNat_lt), UInt32.ofNat_toNat])
    rest

/-- A decoded value that the source maps through a partial conversion (`from_u8`, `from_u16`),
failing with `err` where the conversion has no value. -/
def liftOption {α : Type} (err : String) : Option α → Decoder α
  | some a => pure a
  | none => throw err

@[simp] theorem liftOption_some {α : Type} (err : String) (a : α) :
    liftOption err (some a) = pure a := rfl

/-! ## Header extensions

`BitArray<u16>` in its default least-significant-first order: `extensions[i]` is bit `i` of the
16-bit word. -/

def bit (extensions : UInt16) (i : Nat) : Bool := (extensions >>> i.toUInt16) &&& 1 != 0

def setBit (extensions : UInt16) (i : Nat) (value : Bool) : UInt16 :=
  if value then extensions ||| ((1 : UInt16) <<< i.toUInt16)
  else extensions &&& ~~~((1 : UInt16) <<< i.toUInt16)

theorem bit_setBit_three (a b c : Bool) :
    bit (setBit (setBit (setBit 0 0 a) 1 b) 2 c) 0 = a ∧
      bit (setBit (setBit (setBit 0 0 a) 1 b) 2 c) 1 = b ∧
      bit (setBit (setBit (setBit 0 0 a) 1 b) 2 c) 2 = c := by
  cases a <;> cases b <;> cases c <;> decide

/-! ## The common header -/

inductive Networks
  | invalid
  | bananoDevNetwork
  | bananoBetaNetwork
  | bananoLiveNetwork
  | bananoTestNetwork
deriving DecidableEq, Repr

namespace Networks

def toU16 : Networks → UInt16
  | invalid => 0x0
  | bananoDevNetwork => 0x4241
  | bananoBetaNetwork => 0x4242
  | bananoLiveNetwork => 0x4258
  | bananoTestNetwork => 0x4243

def fromU16 (v : UInt16) : Option Networks :=
  if v = 0x0 then some invalid
  else if v = 0x4241 then some bananoDevNetwork
  else if v = 0x4242 then some bananoBetaNetwork
  else if v = 0x4258 then some bananoLiveNetwork
  else if v = 0x4243 then some bananoTestNetwork
  else none

@[simp] theorem fromU16_toU16 (n : Networks) : fromU16 n.toU16 = some n := by
  cases n <;> decide

end Networks

/-- Message types are serialized to the network, with the values the source fixes. -/
inductive MessageType
  | invalid
  | notAType
  | keepalive
  | publish
  | confirmReq
  | confirmAck
  | bulkPull
  | bulkPush
  | frontierReq
  | nodeIdHandshake
  | bulkPullAccount
  | telemetryReq
  | telemetryAck
  | ascPullReq
  | ascPullAck
deriving DecidableEq, Repr

namespace MessageType

def toU8 : MessageType → UInt8
  | invalid => 0x0
  | notAType => 0x1
  | keepalive => 0x2
  | publish => 0x3
  | confirmReq => 0x4
  | confirmAck => 0x5
  | bulkPull => 0x6
  | bulkPush => 0x7
  | frontierReq => 0x8
  | nodeIdHandshake => 0x0a
  | bulkPullAccount => 0x0b
  | telemetryReq => 0x0c
  | telemetryAck => 0x0d
  | ascPullReq => 0x0e
  | ascPullAck => 0x0f

def fromU8 (v : UInt8) : Option MessageType :=
  if v = 0x0 then some invalid
  else if v = 0x1 then some notAType
  else if v = 0x2 then some keepalive
  else if v = 0x3 then some publish
  else if v = 0x4 then some confirmReq
  else if v = 0x5 then some confirmAck
  else if v = 0x6 then some bulkPull
  else if v = 0x7 then some bulkPush
  else if v = 0x8 then some frontierReq
  else if v = 0x0a then some nodeIdHandshake
  else if v = 0x0b then some bulkPullAccount
  else if v = 0x0c then some telemetryReq
  else if v = 0x0d then some telemetryAck
  else if v = 0x0e then some ascPullReq
  else if v = 0x0f then some ascPullAck
  else none

@[simp] theorem fromU8_toU8 (t : MessageType) : fromU8 t.toU8 = some t := by
  cases t <;> decide

end MessageType

structure ProtocolInfo where
  versionUsing : UInt8
  versionMax : UInt8
  versionMin : UInt8
  network : Networks
deriving DecidableEq, Repr

instance : Inhabited ProtocolInfo :=
  ⟨{ versionUsing := 0x15, versionMax := 0x15, versionMin := 0x14,
     network := .bananoLiveNetwork }⟩

structure MessageHeader where
  messageType : MessageType
  protocol : ProtocolInfo
  extensions : UInt16
deriving DecidableEq, Repr

namespace MessageHeader

def serializedSize : Nat := 8

/-- Network (big endian), maximum, used and minimum version, type, extensions (little endian). -/
def serialize (header : MessageHeader) : List UInt8 :=
  writeU16BE header.protocol.network.toU16 ++
    [header.protocol.versionMax, header.protocol.versionUsing, header.protocol.versionMin,
      header.messageType.toU8] ++ writeU16LE header.extensions

def deserialize : Decoder MessageHeader := do
  let network ← liftOption "invalid network" (Networks.fromU16 (← readU16BE))
  let versionMax ← readU8
  let versionUsing ← readU8
  let versionMin ← readU8
  let messageType ← liftOption "invalid message type" (MessageType.fromU8 (← readU8))
  let extensions ← readU16LE
  pure { messageType, protocol := { versionUsing, versionMax, versionMin, network }, extensions }

theorem length_serialize (header : MessageHeader) : header.serialize.length = serializedSize := by
  simp [serialize, serializedSize, writeU16BE, writeU16LE]

theorem deserialize_run (header : MessageHeader) (rest : List UInt8) :
    deserialize.run (header.serialize ++ rest) = .ok (header, rest) := by
  simp only [serialize, deserialize, List.append_assoc, List.cons_append, List.nil_append]
  rw [run_bind_ok (readU16BE_run _ _), Networks.fromU16_toU16, liftOption_some,
    run_bind_ok (run_pure _ _), run_bind_ok (readU8_run _ _), run_bind_ok (readU8_run _ _),
    run_bind_ok (readU8_run _ _), run_bind_ok (readU8_run _ _), MessageType.fromU8_toU8,
    liftOption_some, run_bind_ok (run_pure _ _), run_bind_ok (readU16LE_run _ _)]
  rfl

def isValidMessageType (header : MessageHeader) : Bool :=
  !(header.messageType == .invalid || header.messageType == .notAType)

end MessageHeader

end RsbanNode.Messages
