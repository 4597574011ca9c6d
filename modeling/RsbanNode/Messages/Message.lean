import RsbanNode.Messages.Bootstrap

namespace RsbanNode.Messages

open RsbanNode.ByteCodec RsbanNode.Primitives RsbanNode.BlockCodec RsbanNode.Blocks
  RsbanNode.Transport

inductive Message
  | keepalive (keepalive : Keepalive)
  | publish (publish : Publish)
  | ascPullAck (ack : AscPullAck)
  | ascPullReq (req : AscPullReq)
  | bulkPull (pull : BulkPull)
  | bulkPullAccount (pull : BulkPullAccount)
  | bulkPush
  | confirmAck (ack : ConfirmAck)
  | confirmReq (req : ConfirmReq)
  | frontierReq (req : FrontierReq)
  | nodeIdHandshake (handshake : NodeIdHandshake)
  | telemetryAck (ack : TelemetryAck)
  | telemetryReq

namespace Message

def maxMessageSize : Nat := 1024 * 65

def messageType : Message → MessageType
  | keepalive _ => .keepalive
  | publish _ => .publish
  | ascPullAck _ => .ascPullAck
  | ascPullReq _ => .ascPullReq
  | bulkPull _ => .bulkPull
  | bulkPullAccount _ => .bulkPullAccount
  | bulkPush => .bulkPush
  | confirmAck _ => .confirmAck
  | confirmReq _ => .confirmReq
  | frontierReq _ => .frontierReq
  | nodeIdHandshake _ => .nodeIdHandshake
  | telemetryAck _ => .telemetryAck
  | telemetryReq => .telemetryReq

/-- The payload; `BulkPush` and `TelemetryReq` have no message variant and write nothing. -/
def serialize : Message → List UInt8
  | keepalive k => k.serialize
  | publish p => p.serialize
  | ascPullAck ack => ack.serialize
  | ascPullReq req => req.serialize
  | bulkPull pull => pull.serialize
  | bulkPullAccount pull => pull.serialize
  | bulkPush => []
  | confirmAck ack => ack.serialize
  | confirmReq req => req.serialize
  | frontierReq req => req.serialize
  | nodeIdHandshake handshake => handshake.serialize
  | telemetryAck ack => ack.serialize
  | telemetryReq => []

/-- Variants without extensions of their own keep the default, zero. -/
def headerExtensions (message : Message) (payloadLen : UInt16) : UInt16 :=
  match message with
  | publish p => p.headerExtensions
  | ascPullAck _ => AscPullAck.headerExtensions payloadLen
  | ascPullReq _ => AscPullReq.headerExtensions payloadLen
  | bulkPull pull => pull.headerExtensions
  | confirmAck ack => ack.headerExtensions
  | confirmReq req => req.headerExtensions
  | frontierReq req => req.headerExtensions
  | nodeIdHandshake handshake => handshake.headerExtensions
  | telemetryAck ack => ack.headerExtensions
  | keepalive _ | bulkPullAccount _ | bulkPush | telemetryReq => 0

/-- The payload decoder the header's type selects; the digest is stored in the variants that
carry one. -/
def deserializePayload (header : MessageHeader) (digest : BitVec 128) : Decoder Message :=
  match header.messageType with
  | .keepalive => keepalive <$> Keepalive.deserialize
  | .publish => publish <$> Publish.deserialize header.extensions digest
  | .ascPullAck => ascPullAck <$> AscPullAck.deserialize
  | .ascPullReq => ascPullReq <$> AscPullReq.deserialize
  | .bulkPull => bulkPull <$> BulkPull.deserialize header.extensions
  | .bulkPullAccount => bulkPullAccount <$> BulkPullAccount.deserialize
  | .bulkPush => pure bulkPush
  | .confirmAck => confirmAck <$> ConfirmAck.deserialize header.extensions digest
  | .confirmReq => confirmReq <$> ConfirmReq.deserialize header.extensions
  | .frontierReq => frontierReq <$> FrontierReq.deserialize header.extensions
  | .nodeIdHandshake => nodeIdHandshake <$> NodeIdHandshake.deserialize header.extensions
  | .telemetryAck => telemetryAck <$> TelemetryAck.deserialize header.extensions
  | .telemetryReq => pure telemetryReq
  | .invalid | .notAType => throw noPayload

/-- `Message::deserialize`: the payload need not be read to its end. -/
def deserialize (payloadBytes : List UInt8) (header : MessageHeader) (digest : BitVec 128) :
    Option Message :=
  match (deserializePayload header digest).run payloadBytes with
  | .ok (message, _) => some message
  | .error _ => none

/-- The message with the digest a receiver passes to `deserialize`. -/
def withDigest (digest : BitVec 128) : Message → Message
  | publish p => publish { p with digest }
  | confirmAck ack => confirmAck { ack with digest }
  | message => message

/-- The message a receiver rebuilds from a serialized one: keepalive peers and telemetry
timestamps as the wire carries them, and the receiver's digest. -/
def received (digest : BitVec 128) : Message → Message
  | keepalive k => keepalive k.onWire
  | telemetryAck ack => telemetryAck ack.onWire
  | message => message.withDigest digest

def WithinLimits : Message → Prop
  | confirmReq req => req.WithinLimits
  | confirmAck ack => ack.vote.hashes.length ≤ ConfirmAck.hashesMax
  | ascPullAck ack => ack.WithinLimits
  | telemetryAck ack => ack.WithinLimits
  | nodeIdHandshake handshake => handshake.WithinLimits
  | _ => True

instance (message : Message) : Decidable message.WithinLimits :=
  match message with
  | confirmReq req => inferInstanceAs (Decidable req.WithinLimits)
  | confirmAck ack => inferInstanceAs (Decidable (ack.vote.hashes.length ≤ ConfirmAck.hashesMax))
  | ascPullAck ack => inferInstanceAs (Decidable ack.WithinLimits)
  | telemetryAck ack => inferInstanceAs (Decidable ack.WithinLimits)
  | nodeIdHandshake handshake => inferInstanceAs (Decidable handshake.WithinLimits)
  | keepalive _ | publish _ | ascPullReq _ | bulkPull _ | bulkPullAccount _ | bulkPush
  | frontierReq _ | telemetryReq => isTrue trivial

/-- What the wire format carries beyond those limits: keepalive peers have neither flow label nor
scope id, and telemetry timestamps stay below 2^64 milliseconds. -/
def Representable : Message → Prop
  | keepalive k => ∀ peer ∈ k.peers, peer.flowinfo = 0 ∧ peer.scopeId = 0
  | telemetryAck ack => ∀ data, ack.data = some data → data.timestamp < 2 ^ 64
  | _ => True

theorem deserialize_of_map {α : Type} {f : α → Message} {decoder : Decoder α}
    {payloadBytes rest : List UInt8} {header : MessageHeader} {digest : BitVec 128} {a : α}
    (hdecoder : deserializePayload header digest = f <$> decoder)
    (hrun : decoder.run (payloadBytes ++ []) = .ok (a, rest)) :
    deserialize payloadBytes header digest = some (f a) := by
  rw [List.append_nil] at hrun
  rw [deserialize, hdecoder, run_map_ok hrun]

theorem received_eq_withDigest {message : Message} (h : message.Representable)
    (digest : BitVec 128) : message.received digest = message.withDigest digest := by
  cases message with
  | keepalive k => exact congrArg keepalive ((Keepalive.onWire_eq_self_iff k).mpr h)
  | telemetryAck ack => exact congrArg telemetryAck (TelemetryAck.onWire_eq_self h)
  | _ => rfl

end Message

namespace MessageHeader

/-- The payload length the header announces, which the receiver reads before the payload. -/
def payloadLength (header : MessageHeader) : Nat :=
  match header.messageType with
  | .keepalive => Keepalive.serializedSize
  | .publish => Publish.serializedSize header.extensions
  | .confirmReq => ConfirmReq.serializedSize header.extensions
  | .confirmAck => ConfirmAck.serializedSize header.extensions
  | .bulkPull => BulkPull.serializedSize header.extensions
  | .bulkPush | .telemetryReq => 0
  | .frontierReq => FrontierReq.serializedSize
  | .nodeIdHandshake => NodeIdHandshake.serializedSize header.extensions
  | .bulkPullAccount => BulkPullAccount.serializedSize
  | .telemetryAck => TelemetryAck.serializedSize header.extensions
  | .ascPullReq => AscPullReq.serializedSize header.extensions
  | .ascPullAck => AscPullAck.serializedSize header.extensions
  -- a debug assertion in the source
  | .invalid | .notAType => 0

end MessageHeader

inductive ParseMessageError
  | other (message : String)
  | insufficientWork
  | invalidHeader
  | invalidMessageType
  | invalidMessage (messageType : MessageType)
  | invalidNetwork
  | outdatedVersion
  | duplicatePublishMessage
  | duplicateConfirmAckMessage
  | messageSizeTooBig
  | stopped
deriving DecidableEq

def validateHeader (header : MessageHeader) (expectedProtocol : ProtocolInfo) :
    Except ParseMessageError Unit :=
  if header.protocol.network ≠ expectedProtocol.network then .error .invalidNetwork
  else if header.protocol.versionUsing < expectedProtocol.versionMin then .error .outdatedVersion
  else if !header.isValidMessageType then .error .invalidHeader
  else if header.payloadLength > Message.maxMessageSize then .error .messageSizeTooBig
  else .ok ()

structure MessageSerializer where
  protocol : ProtocolInfo

namespace MessageSerializer

/-- The header that goes with a message: its type, the serializer's protocol, and the
extensions computed from the payload length (cast to sixteen bits). -/
def header (serializer : MessageSerializer) (message : Message) : MessageHeader :=
  { messageType := message.messageType, protocol := serializer.protocol,
    extensions := message.headerExtensions (UInt16.ofNat message.serialize.length) }

/-- The header followed by the payload. The source writes both into a buffer of
8 + 65 · 1024 bytes, which every message within the limits fits. -/
def serialize (serializer : MessageSerializer) (message : Message) : List UInt8 :=
  (serializer.header message).serialize ++ message.serialize

theorem take_serialize (serializer : MessageSerializer) (message : Message) :
    (serializer.serialize message).take MessageHeader.serializedSize =
      (serializer.header message).serialize := by
  rw [serialize, List.take_left' (MessageHeader.length_serialize _)]

theorem drop_serialize (serializer : MessageSerializer) (message : Message) :
    (serializer.serialize message).drop MessageHeader.serializedSize = message.serialize := by
  rw [serialize, List.drop_left' (MessageHeader.length_serialize _)]

theorem header_deserialize (serializer : MessageSerializer) (message : Message) :
    MessageHeader.deserialize.run ((serializer.serialize message).take
      MessageHeader.serializedSize) = .ok (serializer.header message, []) := by
  rw [take_serialize, ← List.append_nil (serializer.header message).serialize]
  exact MessageHeader.deserialize_run _ []

theorem pullLength_roundtrip {n : Nat} (hlow : 9 ≤ n) (hhigh : n < 65536) :
    1 + 8 + (UInt16.ofNat n - 1 - 8).toNat = n := by
  have hn : (UInt16.ofNat n).toNat = n := by simp [Nat.mod_eq_of_lt hhigh]
  have hone : (UInt16.ofNat n - 1).toNat = n - 1 := by
    rw [UInt16.toNat_sub_of_le _ _ (by rw [UInt16.le_iff_toNat_le, hn]; simp; omega), hn]
    rfl
  rw [UInt16.toNat_sub_of_le _ _ (by rw [UInt16.le_iff_toNat_le, hone]; simp; omega), hone]
  simp
  omega

theorem payloadLength_header (serializer : MessageSerializer) {message : Message}
    (h : message.WithinLimits) :
    (serializer.header message).payloadLength = message.serialize.length := by
  cases message <;>
    simp only [header, MessageHeader.payloadLength, Message.messageType,
      Message.headerExtensions, Message.serialize]
  case keepalive k => exact k.length_serialize.symm
  case publish p => exact p.serializedSize_headerExtensions
  case ascPullAck ack =>
    have hlow : 9 ≤ ack.serialize.length := by rw [AscPullAck.length_serialize]; omega
    exact pullLength_roundtrip hlow (AscPullAck.length_serialize_lt h)
  case ascPullReq req =>
    have hlow : 9 ≤ req.serialize.length := by rw [AscPullReq.length_serialize]; omega
    exact pullLength_roundtrip hlow req.length_serialize_lt
  case bulkPull pull => exact pull.length_serialize.symm
  case bulkPullAccount pull => exact pull.length_serialize.symm
  case confirmAck ack => exact ConfirmAck.serializedSize_headerExtensions h
  case confirmReq req => exact ConfirmReq.serializedSize_headerExtensions h
  case frontierReq req => exact req.length_serialize.symm
  case nodeIdHandshake handshake => exact NodeIdHandshake.serializedSize_headerExtensions h
  case telemetryAck ack => exact TelemetryAck.serializedSize_headerExtensions h
  all_goals rfl

/-- The payload reads back under the header that announces it, as the message the receiver
rebuilds. -/
theorem deserialize_payload (serializer : MessageSerializer) {message : Message}
    (h : message.WithinLimits) (digest : BitVec 128) :
    Message.deserialize message.serialize (serializer.header message) digest =
      some (message.received digest) := by
  cases message with
  | keepalive k => exact Message.deserialize_of_map (f := .keepalive) rfl (k.deserialize_run [])
  | publish p => exact Message.deserialize_of_map (f := .publish) rfl (p.deserialize_run digest [])
  | ascPullAck ack =>
    obtain ⟨rest', hrun⟩ := AscPullAck.deserialize_run h []
    exact Message.deserialize_of_map (f := .ascPullAck) rfl hrun
  | ascPullReq req => exact Message.deserialize_of_map (f := .ascPullReq) rfl (req.deserialize_run [])
  | bulkPull pull => exact Message.deserialize_of_map (f := .bulkPull) rfl (pull.deserialize_run [])
  | bulkPullAccount pull => exact Message.deserialize_of_map (f := .bulkPullAccount) rfl (pull.deserialize_run [])
  | bulkPush => rfl
  | confirmAck ack =>
    exact Message.deserialize_of_map (f := .confirmAck) rfl
      (by rw [List.append_nil]; exact ConfirmAck.deserialize_run h digest)
  | confirmReq req => exact Message.deserialize_of_map (f := .confirmReq) rfl (ConfirmReq.deserialize_run h [])
  | frontierReq req => exact Message.deserialize_of_map (f := .frontierReq) rfl (req.deserialize_run [])
  | nodeIdHandshake handshake =>
    exact Message.deserialize_of_map (f := .nodeIdHandshake) rfl
      (NodeIdHandshake.deserialize_run h [])
  | telemetryAck ack =>
    exact Message.deserialize_of_map (f := .telemetryAck) rfl (TelemetryAck.deserialize_run h [])
  | telemetryReq => rfl

end MessageSerializer

/-- What a serializer writes, a receiver reads back: the eight header bytes give a header of the
message's type that announces the payload's length, and the payload gives the message. -/
theorem serialize_roundtrip (protocol : ProtocolInfo) (message : Message)
    (hlimits : message.WithinLimits) (hwire : message.Representable) (digest : BitVec 128) :
    ∃ header, MessageHeader.deserialize.run
        (((MessageSerializer.mk protocol).serialize message).take MessageHeader.serializedSize) =
        .ok (header, []) ∧
      header.messageType = message.messageType ∧
      header.payloadLength =
        (((MessageSerializer.mk protocol).serialize message).drop
          MessageHeader.serializedSize).length ∧
      Message.deserialize (((MessageSerializer.mk protocol).serialize message).drop
        MessageHeader.serializedSize) header digest = some (message.withDigest digest) := by
  refine ⟨(MessageSerializer.mk protocol).header message,
    MessageSerializer.header_deserialize _ _, rfl, ?_, ?_⟩
  · rw [MessageSerializer.drop_serialize]
    exact MessageSerializer.payloadLength_header _ hlimits
  · rw [MessageSerializer.drop_serialize, MessageSerializer.deserialize_payload _ hlimits,
      Message.received_eq_withDigest hwire]

theorem serialize_roundtrip_confirmReq :
    (Message.confirmReq ⟨[(FixedBytes.ofNat 32 1, FixedBytes.ofNat 32 2)]⟩).WithinLimits ∧
      (Message.confirmReq ⟨[(FixedBytes.ofNat 32 1, FixedBytes.ofNat 32 2)]⟩).Representable ∧
      ∃ header, MessageHeader.deserialize.run
          (((MessageSerializer.mk default).serialize
            (.confirmReq ⟨[(FixedBytes.ofNat 32 1, FixedBytes.ofNat 32 2)]⟩)).take
            MessageHeader.serializedSize) = .ok (header, []) ∧
        header.messageType = .confirmReq ∧
        header.payloadLength =
          (((MessageSerializer.mk default).serialize
            (.confirmReq ⟨[(FixedBytes.ofNat 32 1, FixedBytes.ofNat 32 2)]⟩)).drop
            MessageHeader.serializedSize).length ∧
        Message.deserialize (((MessageSerializer.mk default).serialize
            (.confirmReq ⟨[(FixedBytes.ofNat 32 1, FixedBytes.ofNat 32 2)]⟩)).drop
            MessageHeader.serializedSize) header 0 =
          some (.confirmReq ⟨[(FixedBytes.ofNat 32 1, FixedBytes.ofNat 32 2)]⟩) :=
  ⟨by decide, trivial, serialize_roundtrip default
    (.confirmReq ⟨[(FixedBytes.ofNat 32 1, FixedBytes.ofNat 32 2)]⟩) (by decide) trivial 0⟩

/-- A keepalive whose first peer carries flow label 1, as a link-local peer may. -/
def flowLabelKeepalive : Keepalive :=
  ⟨{ ip := FixedBytes.zero 16, port := 0, flowinfo := 1, scopeId := 0 } ::
    List.replicate 7 { ip := FixedBytes.zero 16, port := 0, flowinfo := 0, scopeId := 0 }, rfl⟩

/-- The keepalive is within every limit, its header reads back and announces its payload, but
the payload reads back with the flow label cleared, so not as the message that was sent. -/
theorem keepalive_flowinfo_lost :
    (Message.keepalive flowLabelKeepalive).WithinLimits ∧
      ∃ header, MessageHeader.deserialize.run
          (((MessageSerializer.mk default).serialize (.keepalive flowLabelKeepalive)).take
            MessageHeader.serializedSize) = .ok (header, []) ∧
        header.messageType = .keepalive ∧
        header.payloadLength =
          (((MessageSerializer.mk default).serialize (.keepalive flowLabelKeepalive)).drop
            MessageHeader.serializedSize).length ∧
        Message.deserialize
            (((MessageSerializer.mk default).serialize (.keepalive flowLabelKeepalive)).drop
              MessageHeader.serializedSize) header 0 =
          some (.keepalive flowLabelKeepalive.onWire) ∧
        flowLabelKeepalive.onWire ≠ flowLabelKeepalive := by
  have hlimits : (Message.keepalive flowLabelKeepalive).WithinLimits := trivial
  refine ⟨hlimits, (MessageSerializer.mk default).header (.keepalive flowLabelKeepalive),
    MessageSerializer.header_deserialize _ _, rfl, ?_, ?_, ?_⟩
  · rw [MessageSerializer.drop_serialize]
    exact MessageSerializer.payloadLength_header _ hlimits
  · rw [MessageSerializer.drop_serialize]
    exact MessageSerializer.deserialize_payload _ hlimits 0
  · -- the first peer's flow label is not the zero the receiver puts there
    intro h
    have hfirst := (Keepalive.onWire_eq_self_iff _).mp h _ (List.mem_cons_self ..)
    exact absurd hfirst.1 (by decide)

end RsbanNode.Messages
