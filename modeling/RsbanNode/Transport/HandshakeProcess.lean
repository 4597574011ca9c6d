import RsbanNode.Transport.SynCookies

namespace RsbanNode.Transport

open RsbanNode.Primitives RsbanNode.FiniteMap RsbanNode.Result

structure NodeIdHandshakeQuery where
  cookie : Cookie

structure V2Payload where
  salt : U256
  genesis : BlockHash

structure NodeIdHandshakeResponse where
  nodeId : Account
  signature : Signature
  v2 : Option V2Payload

namespace NodeIdHandshakeResponse

/-- The cookie, followed for a v2 response by its salt and genesis hash. -/
def dataToSign (response : NodeIdHandshakeResponse) (cookie : Cookie) : List UInt8 :=
  match response.v2 with
  | some v2 => cookie.bytes ++ v2.salt.bytes ++ v2.genesis.bytes
  | none => cookie.bytes

def validate (response : NodeIdHandshakeResponse) (c : Crypto) (cookie : Cookie) :
    Except String Unit :=
  if c.verify response.nodeId (response.dataToSign cookie) response.signature then .ok ()
  else .error "could not verify message"

end NodeIdHandshakeResponse

structure NodeIdHandshake where
  isV2 : Bool
  query : Option NodeIdHandshakeQuery
  response : Option NodeIdHandshakeResponse

inductive HandshakeResponseError
  | ownNodeId
  | invalidGenesis
  | missingCookie
  | invalidSignature

inductive HandshakeStatus
  | abort
  | abortOwnNodeId
  | handshake
  | realtime (nodeId : Account)
deriving DecidableEq

/-- The handshake state of one connection; the cookie store is shared between connections. -/
structure HandshakeProcess where
  genesisHash : BlockHash
  nodeId : Account
  handshakeReceived : Bool
  remoteEndpoint : SocketAddrV6

namespace HandshakeProcess

/-- `verify_response`: the own-id and genesis checks come before the cookie is taken, so only a
response that gets that far consumes it. The error is a panic of the cookie store. -/
def verifyResponse (self : HandshakeProcess) (c : Crypto) (cookies : SynCookies)
    (response : NodeIdHandshakeResponse) (remoteEndpoint : SocketAddrV6) :
    Except String (Except HandshakeResponseError Unit × SynCookies) :=
  if response.nodeId = self.nodeId then .ok (.error .ownNodeId, cookies)
  else if (response.v2.map (·.genesis != self.genesisHash)).getD false then
    .ok (.error .invalidGenesis, cookies)
  else do
    let (cookie, cookies) ← cookies.cookie remoteEndpoint
    match cookie with
    | none => pure (.error .missingCookie, cookies)
    | some cookie =>
      match response.validate c cookie with
      | .error _ => pure (.error .invalidSignature, cookies)
      | .ok () => pure (.ok (), cookies)

/-- `process_handshake`. A query is answered with our own query, whose cookie `assign` draws
(`fresh` is the random value, `now` the time); `sendOk` says whether the answer went out. -/
def processHandshake (self : HandshakeProcess) (c : Crypto) (cookies : SynCookies)
    (message : NodeIdHandshake) (fresh : Cookie) (now : Nat) (sendOk : Bool) :
    Except String (HandshakeStatus × HandshakeProcess × SynCookies) :=
  if message.query.isNone && message.response.isNone then .ok (.abort, self, cookies)
  else if message.query.isSome && self.handshakeReceived then .ok (.abort, self, cookies)
  else
    let self := { self with handshakeReceived := true }
    -- `send_response` assigns the cookie of our own query before sending
    let cookies :=
      if message.query.isSome then (cookies.assign self.remoteEndpoint fresh now).2 else cookies
    if message.query.isSome && !sendOk then .ok (.abort, self, cookies)
    else
      match message.response with
      | some response => do
        let (result, cookies) ← self.verifyResponse c cookies response self.remoteEndpoint
        match result with
        | .ok () => pure (.realtime response.nodeId, self, cookies)
        | .error .ownNodeId => pure (.abortOwnNodeId, self, cookies)
        | .error _ => pure (.abort, self, cookies)
      | none => .ok (.handshake, self, cookies)

section Verify

variable {self : HandshakeProcess} {c : Crypto} {cookies cookies' : SynCookies}
  {response : NodeIdHandshakeResponse} {remoteEndpoint : SocketAddrV6}

theorem verifyResponse_eq_ok
    (h : self.verifyResponse c cookies response remoteEndpoint = .ok (.ok (), cookies')) :
    response.nodeId ≠ self.nodeId ∧
      (∀ v2, response.v2 = some v2 → v2.genesis = self.genesisHash) ∧
      ∃ info, cookies.data.cookies.lookup remoteEndpoint = some info ∧
        c.verify response.nodeId (response.dataToSign info.cookie) response.signature = true ∧
        cookies'.data.cookies = cookies.data.cookies.erase remoteEndpoint := by
  unfold verifyResponse at h
  split_ifs at h with hown hgenesis
  · simp at h
  · simp at h
  obtain ⟨⟨value?, taken⟩, hcookie, h⟩ := bind_eq_ok.mp h
  cases value? with
  | none => simp [pure, Except.pure] at h
  | some value =>
    obtain ⟨info, hinfo, rfl, herase⟩ := SynCookies.cookie_eq_ok_some hcookie
    have hgen : ∀ v2, response.v2 = some v2 → v2.genesis = self.genesisHash := by
      intro v2 hv2
      simpa [hv2] using hgenesis
    by_cases hverify :
        c.verify response.nodeId (response.dataToSign info.cookie) response.signature = true
    · simp only [NodeIdHandshakeResponse.validate, hverify, if_true, pure, Except.pure,
        Except.ok.injEq, Prod.mk.injEq, true_and] at h
      subst h
      exact ⟨hown, hgen, info, hinfo, hverify, herase⟩
    · simp [NodeIdHandshakeResponse.validate, hverify, pure, Except.pure] at h

end Verify

/-- A connection switches to realtime only for a response that passed `verify_response`
against the cookie store as it was when the response was checked: after the answer to a
query, if the message carried one. -/
theorem processHandshake_realtime {self self' : HandshakeProcess} {c : Crypto}
    {cookies cookies' : SynCookies} {message : NodeIdHandshake} {fresh : Cookie} {now : Nat}
    {sendOk : Bool} {id : Account}
    (h : self.processHandshake c cookies message fresh now sendOk =
      .ok (.realtime id, self', cookies')) :
    ∃ response, message.response = some response ∧ response.nodeId = id ∧
      self.verifyResponse c
        (if message.query.isSome then (cookies.assign self.remoteEndpoint fresh now).2 else cookies)
        response self.remoteEndpoint = .ok (.ok (), cookies') := by
  unfold processHandshake at h
  by_cases hnone : (message.query.isNone && message.response.isNone) = true
  · simp [hnone] at h
  by_cases hdup : (message.query.isSome && self.handshakeReceived) = true
  · simp [hnone, hdup] at h
  by_cases hsend : (message.query.isSome && !sendOk) = true
  · simp [hnone, hdup, hsend] at h
  rw [if_neg hnone, if_neg hdup] at h
  dsimp only at h
  rw [if_neg hsend] at h
  cases hresponse : message.response with
  | none => simp [hresponse] at h
  | some response =>
    rw [hresponse] at h
    obtain ⟨⟨result, taken⟩, hverify, h⟩ := bind_eq_ok.mp h
    -- only an accepted response switches to realtime
    rcases result with (_ | _ | _ | _) | ⟨⟩
    all_goals simp only [pure, Except.pure, Except.ok.injEq, Prod.mk.injEq,
      reduceCtorEq, false_and] at h
    obtain ⟨⟨rfl⟩, -, rfl⟩ := h
    exact ⟨response, rfl, rfl, hverify⟩

/-- A realtime connection is authenticated: the peer is not this node, names this genesis, and
signed the cookie this node had stored for its endpoint, which is now consumed. -/
theorem processHandshake_authenticates {self self' : HandshakeProcess} {c : Crypto}
    {cookies cookies' : SynCookies} {message : NodeIdHandshake} {fresh : Cookie} {now : Nat}
    {sendOk : Bool} {id : Account}
    (h : self.processHandshake c cookies message fresh now sendOk =
      .ok (.realtime id, self', cookies')) :
    id ≠ self.nodeId ∧ ∃ response info, message.response = some response ∧
      response.nodeId = id ∧ (∀ v2, response.v2 = some v2 → v2.genesis = self.genesisHash) ∧
      (if message.query.isSome then (cookies.assign self.remoteEndpoint fresh now).2
        else cookies).data.cookies.lookup self.remoteEndpoint = some info ∧
      c.verify id (response.dataToSign info.cookie) response.signature = true ∧
      self.remoteEndpoint ∉ cookies'.data.cookies := by
  obtain ⟨response, hresponse, rfl, hverify⟩ := processHandshake_realtime h
  obtain ⟨hown, hgen, info, hinfo, hsig, herase⟩ := verifyResponse_eq_ok hverify
  refine ⟨hown, response, info, hresponse, rfl, hgen, hinfo, hsig, ?_⟩
  simp [herase]

/-- A first message carrying a query and a v1 response from node `2`, on a fresh cookie store
and under a signature check that accepts everything: the answer to the query draws cookie `7`,
the response is checked against it, and the connection goes realtime. -/
theorem processHandshake_authenticates_query_response :
    let c : Crypto := ⟨fun bytes => FixedBytes.ofNat 32 bytes.length, fun _ => FixedBytes.zero 5,
      fun _ _ _ => true, fun _ _ => 0⟩
    let self : HandshakeProcess :=
      ⟨FixedBytes.zero 32, FixedBytes.ofNat 32 1, false, ⟨FixedBytes.zero 16, 7075, 0, 0⟩⟩
    let message : NodeIdHandshake :=
      ⟨false, some ⟨FixedBytes.ofNat 32 5⟩, some ⟨FixedBytes.ofNat 32 2, FixedBytes.zero 64, none⟩⟩
    ∃ self' cookies', self.processHandshake c (SynCookies.new 1) message (FixedBytes.ofNat 32 7) 0
        true = .ok (.realtime (FixedBytes.ofNat 32 2), self', cookies') ∧
      FixedBytes.ofNat 32 2 ≠ self.nodeId ∧ ∃ response info, message.response = some response ∧
        response.nodeId = FixedBytes.ofNat 32 2 ∧
        (∀ v2, response.v2 = some v2 → v2.genesis = self.genesisHash) ∧
        (if message.query.isSome then ((SynCookies.new 1).assign self.remoteEndpoint
          (FixedBytes.ofNat 32 7) 0).2 else SynCookies.new 1).data.cookies.lookup
            self.remoteEndpoint = some info ∧
        c.verify (FixedBytes.ofNat 32 2) (response.dataToSign info.cookie) response.signature = true ∧
        self.remoteEndpoint ∉ cookies'.data.cookies := by
  intro c self message
  obtain ⟨self', cookies', h⟩ : ∃ self' cookies', self.processHandshake c (SynCookies.new 1) message
      (FixedBytes.ofNat 32 7) 0 true = .ok (.realtime (FixedBytes.ofNat 32 2), self', cookies') :=
    ⟨_, _, rfl⟩
  exact ⟨self', cookies', h, processHandshake_authenticates h⟩

end HandshakeProcess

end RsbanNode.Transport
