import RsbanNode.Messages.Bootstrap
import RsbanNode.Ledger.Store
import RsbanNode.Library.Result

namespace RsbanNode.Bootstrap

open RsbanNode.Primitives RsbanNode.Blocks RsbanNode.Messages RsbanNode.Ledger RsbanNode.Result
  RsbanNode.FiniteMap

/-! ## The client: tags, requests and the check of responses -/

inductive QueryType
  | invalid
  | blocksByHash
  | blocksByAccount
  | accountInfoByHash
deriving DecidableEq

/-- `AsyncTag`, without the query source and the timestamp, which no modelled function reads. -/
structure AsyncTag where
  queryType : QueryType
  start : HashOrAccount
  account : Account
  hash : BlockHash
  count : Nat
  id : UInt64

inductive VerifyResult
  | ok
  | nothingNew
  | invalid
deriving DecidableEq

namespace BootstrapAscending

/-- The tag of `create_blocks_request`: from the head when the account is known, else by
account. -/
def createBlocksRequestTag (maxPullCount : Nat) (id : UInt64) (account : Account)
    (accountInfo : Option AccountInfo) (count : Nat) : AsyncTag :=
  let count := min count maxPullCount
  match accountInfo with
  | some info => ⟨.blocksByHash, info.head, account, info.head, count, id⟩
  | none => ⟨.blocksByAccount, account, account, FixedBytes.zero 32, count, id⟩

/-- `create_asc_pull_request`; registering the tag with the client is left out. -/
def createAscPullRequest (tag : AsyncTag) : Except String AscPullReq :=
  match tag.queryType with
  | .blocksByHash | .blocksByAccount =>
    let startType := if tag.queryType = .blocksByHash then HashType.block else HashType.account
    pure ⟨tag.id, .blocks ⟨startType, tag.start, UInt8.ofNat tag.count⟩⟩
  | .accountInfoByHash => pure ⟨tag.id, .accountInfo ⟨tag.start, .block⟩⟩
  | .invalid => throw "invalid query type"

/-- The chain check of `verify_response`: each block's previous is the hash of the one before. -/
def linked (c : Crypto) : BlockHash → List Block → Bool
  | _, [] => true
  | previousHash, block :: rest => block.previous == previousHash && linked c (block.hash c) rest

/-- `verify_response`; the first block of a pull by account must carry an account field. -/
def verifyResponse (c : Crypto) (response : BlocksAckPayload) (tag : AsyncTag) :
    Except String VerifyResult :=
  match response.blocks with
  | [] => pure .nothingNew
  | first :: rest =>
    if rest.isEmpty && first.hash c == tag.start then pure .nothingNew
    else if (first :: rest).length > tag.count then pure .invalid
    else do
      let startOk ← match tag.queryType with
        | .blocksByHash => pure (first.hash c == tag.start)
        | .blocksByAccount => do
          let account ← unwrap first.accountField
          pure (account == tag.start)
        | .accountInfoByHash | .invalid => pure false
      if !startOk then pure .invalid
      else if linked c (first.hash c) rest then pure .ok
      else pure .invalid

end BootstrapAscending

/-! ## The server -/

namespace BootstrapServer

def maxBlocks : Nat := 128

def maxFrontiers : Nat := 1000

def verify (message : AscPullReq) : Bool :=
  match message.reqType with
  | .blocks i => 0 < i.count.toNat && i.count.toNat ≤ maxBlocks
  | .accountInfo i => !i.target.isZero
  | .frontiers i => 0 < i.count.toNat && i.count.toNat ≤ maxFrontiers

/-- The loop of `prepare_blocks`: take the current block, stop at `count` blocks, else go on
with its successor; `fuel` bounds the rounds. -/
def prepareBlocksLoop (s : LedgerStore) (count : Nat) :
    Nat → Option SavedBlock → List Block → Except String (List Block)
  | _, none, result => pure result
  | 0, some _, _ => throw "prepare_blocks did not finish"
  | fuel + 1, some c, result =>
    let successor := c.sideband.successor
    let result := result ++ [c.block]
    if result.length = count then pure result
    else prepareBlocksLoop s count fuel (s.getBlock successor) result

def prepareBlocks (s : LedgerStore) (startBlock : BlockHash) (count fuel : Nat) :
    Except String (List Block) :=
  if startBlock.isZero then pure [] else prepareBlocksLoop s count fuel (s.getBlock startBlock) []

def prepareResponse (s : LedgerStore) (id : UInt64) (startBlock : BlockHash) (count fuel : Nat) :
    Except String AscPullAck := do
  let blocks ← prepareBlocks s startBlock count fuel
  let payload ← BlocksAckPayload.new blocks
  pure ⟨id, .blocks payload⟩

def prepareEmptyBlocksResponse (id : UInt64) : AscPullAck := ⟨id, .blocks ⟨[]⟩⟩

/-- `process_blocks`: from the account's open block or from the block asked for; an unknown
start gets the empty response. -/
def processBlocks (s : LedgerStore) (id : UInt64) (request : BlocksReqPayload) (fuel : Nat) :
    Except String AscPullAck :=
  let count := min request.count.toNat maxBlocks
  match request.startType with
  | .account =>
    match s.accountInfo request.start with
    | some info => prepareResponse s id info.openBlock count fuel
    | none => pure (prepareEmptyBlocksResponse id)
  | .block =>
    if s.blockExists request.start then prepareResponse s id request.start count fuel
    else pure (prepareEmptyBlocksResponse id)

end BootstrapServer

/-! ## Agreement over a linked ledger -/

/-- What the server's walk relies on: every block is stored under its own hash and none under
the zero hash, a stored successor names its predecessor as previous, and an account's open block
carries the account. -/
structure ChainLinked (c : Crypto) (s : LedgerStore) : Prop where
  hash_eq : ∀ h b, s.getBlock h = some b → b.hash c = h
  zero_absent : s.getBlock (FixedBytes.zero 32) = none
  successor_previous : ∀ h b b', s.getBlock h = some b →
    s.getBlock b.sideband.successor = some b' → b'.previous = h
  open_account : ∀ a info b, s.accountInfo a = some info → s.getBlock info.openBlock = some b →
    b.block.accountField = some a

/-- Where a pull of `tag` starts on the ledger: at the block asked for, or at the open block of
the account asked for. -/
def pullStart (s : LedgerStore) (tag : AsyncTag) : Option SavedBlock :=
  match tag.queryType with
  | .blocksByHash => s.getBlock tag.start
  | .blocksByAccount => (s.accountInfo tag.start).bind fun info => s.getBlock info.openBlock
  | .accountInfoByHash | .invalid => none

/-- What a response to `tag` should be: the walk from where the pull starts, so empty exactly
when the ledger has no such start; at most `count` blocks; a first block that is the block
asked for or carries the account asked for; blocks linked by previous. -/
def AnswersTag (c : Crypto) (s : LedgerStore) (tag : AsyncTag) (blocks : List Block) : Prop :=
  blocks.head? = (pullStart s tag).map (·.block) ∧ blocks.length ≤ tag.count ∧
    ∀ first rest, blocks = first :: rest →
      (match tag.queryType with
        | .blocksByHash => first.hash c = tag.start
        | .blocksByAccount => first.accountField = some tag.start
        | .accountInfoByHash | .invalid => False) ∧
      BootstrapAscending.linked c (first.hash c) rest = true

namespace BootstrapAscending

variable {c : Crypto}

theorem verifyResponse_of_answersTag {s : LedgerStore} {tag : AsyncTag} {blocks : List Block}
    (h : AnswersTag c s tag blocks) :
    verifyResponse c ⟨blocks⟩ tag = .ok .ok ∨ verifyResponse c ⟨blocks⟩ tag = .ok .nothingNew := by
  cases blocks with
  | nil => exact .inr rfl
  | cons first rest =>
    obtain ⟨-, hlen, hfirst⟩ := h
    obtain ⟨hstart, hlinked⟩ := hfirst first rest rfl
    unfold verifyResponse
    by_cases hnothing : (rest.isEmpty && first.hash c == tag.start) = true
    · exact .inr (by simp only [if_pos hnothing]; rfl)
    left
    simp only [if_neg hnothing, if_neg (not_lt.mpr hlen)]
    cases hq : tag.queryType with
    | blocksByHash =>
      rw [hq] at hstart
      rw [hstart] at hlinked
      simp [hstart, hlinked]
    | blocksByAccount =>
      rw [hq] at hstart
      simp [hstart, hlinked]
    | accountInfoByHash => rw [hq] at hstart; exact hstart.elim
    | invalid => rw [hq] at hstart; exact hstart.elim

theorem createAscPullRequest_blocks {tag : AsyncTag}
    (hq : tag.queryType = .blocksByHash ∨ tag.queryType = .blocksByAccount)
    (hcount : 1 ≤ tag.count) (hmax : tag.count ≤ BootstrapServer.maxBlocks) :
    ∃ payload : BlocksReqPayload,
      createAscPullRequest tag = .ok ⟨tag.id, .blocks payload⟩ ∧
      payload.startType = (if tag.queryType = .blocksByHash then .block else .account) ∧
      payload.start = tag.start ∧ payload.count.toNat = tag.count ∧
      BootstrapServer.verify ⟨tag.id, .blocks payload⟩ = true := by
  -- `count as u8` keeps a count of at most 128
  have hnarrow : (UInt8.ofNat tag.count).toNat = tag.count :=
    UInt8.toNat_ofNat_of_lt' (lt_of_le_of_lt hmax (by decide))
  refine ⟨⟨if tag.queryType = .blocksByHash then .block else .account, tag.start,
    UInt8.ofNat tag.count⟩, ?_, rfl, rfl, hnarrow, ?_⟩
  · rcases hq with hq | hq <;> simp [createAscPullRequest, hq]
  · simp [BootstrapServer.verify, hnarrow]
    exact ⟨hcount, hmax⟩

end BootstrapAscending

namespace BootstrapServer

variable {c : Crypto} {s : LedgerStore}

theorem prepareBlocksLoop_spec (hs : ChainLinked c s) {count : Nat} (fuel : Nat) :
    ∀ (h : BlockHash) (b : SavedBlock) (result : List Block), s.getBlock h = some b →
      result.length < count → count ≤ result.length + fuel →
      ∃ walk, prepareBlocksLoop s count fuel (some b) result = .ok (result ++ b.block :: walk) ∧
        BootstrapAscending.linked c (b.block.hash c) walk = true ∧
        result.length + walk.length + 1 ≤ count := by
  induction fuel with
  | zero => intro h b result _ hlt hle; omega
  | succ fuel ih =>
    intro h b result hb hlt hle
    by_cases hfull : result.length + 1 = count
    · refine ⟨[], ?_, rfl, ?_⟩
      · simp [prepareBlocksLoop, hfull]
      · simp
        omega
    · cases hnext : s.getBlock b.sideband.successor with
      | none =>
        refine ⟨[], ?_, rfl, by simp; omega⟩
        simp [prepareBlocksLoop, hfull, hnext]
      | some b' =>
        have hlen : (result ++ [b.block]).length < count := by
          simp
          omega
        obtain ⟨walk, hloop, hlinked, hcount⟩ :=
          ih b.sideband.successor b' (result ++ [b.block]) hnext hlen (by simp; omega)
        refine ⟨b'.block :: walk, ?_, ?_, ?_⟩
        · simp [prepareBlocksLoop, hfull, hnext, hloop]
        · have hprev : b'.previous = h := hs.successor_previous h b b' hb hnext
          have hhash : b.hash c = h := hs.hash_eq h b hb
          simp only [SavedBlock.previous, SavedBlock.hash] at hprev hhash
          simp [BootstrapAscending.linked, hprev, hhash, hlinked]
        · simp at hcount ⊢
          omega

theorem prepareBlocks_spec (hs : ChainLinked c s) (start : BlockHash) {count fuel : Nat}
    (hcount : 0 < count) (hfuel : count ≤ fuel) :
    ∃ blocks, prepareBlocks s start count fuel = .ok blocks ∧ blocks.length ≤ count ∧
      blocks.head? = (s.getBlock start).map (·.block) ∧
      ∀ first rest, blocks = first :: rest →
        BootstrapAscending.linked c (first.hash c) rest = true := by
  unfold prepareBlocks
  by_cases hz : start.isZero = true
  · -- nothing is stored under the zero hash
    have hzero : start = FixedBytes.zero 32 := (FixedBytes.isZero_iff start).1 hz
    refine ⟨[], by simp [hz], by simp, ?_, fun _ _ h => nomatch h⟩
    rw [hzero, hs.zero_absent]
    rfl
  rw [if_neg hz]
  cases hb : s.getBlock start with
  | none => exact ⟨[], by simp [prepareBlocksLoop], by simp, rfl, fun _ _ h => nomatch h⟩
  | some b =>
    obtain ⟨walk, hloop, hlinked, hlen⟩ :=
      prepareBlocksLoop_spec hs fuel start b [] hb (by simpa using hcount) (by simpa using hfuel)
    refine ⟨b.block :: walk, by simpa using hloop, by simp at hlen ⊢; omega, rfl, ?_⟩
    intro first rest heq
    obtain ⟨rfl, rfl⟩ := List.cons.inj heq
    exact hlinked

theorem prepareResponse_spec (hs : ChainLinked c s) (id : UInt64) (start : BlockHash)
    {count fuel : Nat} (hcount : 0 < count) (hmax : count ≤ maxBlocks) (hfuel : count ≤ fuel) :
    ∃ blocks, prepareResponse s id start count fuel = .ok ⟨id, .blocks ⟨blocks⟩⟩ ∧
      blocks.length ≤ count ∧ blocks.head? = (s.getBlock start).map (·.block) ∧
      ∀ first rest, blocks = first :: rest →
        BootstrapAscending.linked c (first.hash c) rest = true := by
  obtain ⟨blocks, hblocks, hlen, hhead, hlinked⟩ := prepareBlocks_spec hs start hcount hfuel
  have hnew : BlocksAckPayload.new blocks = .ok ⟨blocks⟩ := by
    have hle : ¬ blocks.length > BlocksAckPayload.maxBlocks := by
      simp only [BlocksAckPayload.maxBlocks, maxBlocks] at hmax ⊢
      omega
    simp [BlocksAckPayload.new, hle, pure, Except.pure]
  refine ⟨blocks, ?_, hlen, hhead, hlinked⟩
  simp [prepareResponse, hblocks, hnew]

/-- Where `process_blocks` walks from: the block asked for, or the open block of the account
asked for. -/
def requestStart (s : LedgerStore) (request : BlocksReqPayload) : Option SavedBlock :=
  match request.startType with
  | .block => s.getBlock request.start
  | .account => (s.accountInfo request.start).bind fun info => s.getBlock info.openBlock

/-- `process_blocks` on a linked ledger: the walk from where the request says, empty when the
ledger has no such start, of at most `count` blocks linked by previous. -/
theorem processBlocks_spec (hs : ChainLinked c s) (id : UInt64) (request : BlocksReqPayload)
    (fuel : Nat) (hcount : 0 < request.count.toNat) (hmax : request.count.toNat ≤ maxBlocks)
    (hfuel : request.count.toNat ≤ fuel) :
    ∃ blocks, processBlocks s id request fuel = .ok ⟨id, .blocks ⟨blocks⟩⟩ ∧
      blocks.length ≤ request.count.toNat ∧
      blocks.head? = (requestStart s request).map (·.block) ∧
      ∀ first rest, blocks = first :: rest →
        BootstrapAscending.linked c (first.hash c) rest = true := by
  have hmin : min request.count.toNat maxBlocks = request.count.toNat := min_eq_left hmax
  cases htype : request.startType with
  | account =>
    cases hinfo : s.accountInfo request.start with
    | none =>
      refine ⟨[], ?_, by simp, by simp [requestStart, htype, hinfo], fun _ _ h => nomatch h⟩
      simp [processBlocks, htype, hinfo, prepareEmptyBlocksResponse]
    | some info =>
      obtain ⟨blocks, hresp, hlen, hhead, hlinked⟩ :=
        prepareResponse_spec hs id info.openBlock hcount hmax hfuel
      refine ⟨blocks, by simp [processBlocks, htype, hinfo, hmin, hresp], hlen, ?_, hlinked⟩
      simp [requestStart, htype, hinfo, hhead]
  | block =>
    by_cases hexists : s.blockExists request.start = true
    · obtain ⟨blocks, hresp, hlen, hhead, hlinked⟩ :=
        prepareResponse_spec hs id request.start hcount hmax hfuel
      refine ⟨blocks, by simp [processBlocks, htype, hexists, hmin, hresp], hlen, ?_, hlinked⟩
      simp [requestStart, htype, hhead]
    · have hnone : s.getBlock request.start = none := by
        simpa [LedgerStore.blockExists, LedgerStore.getBlock] using hexists
      refine ⟨[], ?_, by simp, by simp [requestStart, htype, hnone], fun _ _ h => nomatch h⟩
      simp [processBlocks, htype, hexists, prepareEmptyBlocksResponse]

end BootstrapServer

theorem answersTag_of_walk {c : Crypto} {s : LedgerStore} (hs : ChainLinked c s) {tag : AsyncTag}
    {blocks : List Block} (hq : tag.queryType = .blocksByHash ∨ tag.queryType = .blocksByAccount)
    (hhead : blocks.head? = (pullStart s tag).map (·.block)) (hlen : blocks.length ≤ tag.count)
    (hlinked : ∀ first rest, blocks = first :: rest →
      BootstrapAscending.linked c (first.hash c) rest = true) :
    AnswersTag c s tag blocks := by
  refine ⟨hhead, hlen, fun first rest heq => ⟨?_, hlinked first rest heq⟩⟩
  subst heq
  obtain ⟨b, hb, rfl⟩ := Option.map_eq_some_iff.mp hhead.symm
  rcases hq with hq | hq
  · rw [hq]
    simp only [pullStart, hq] at hb
    exact hs.hash_eq _ b hb
  · rw [hq]
    simp only [pullStart, hq, Option.bind_eq_some_iff] at hb
    obtain ⟨info, hinfo, hb⟩ := hb
    exact hs.open_account _ info b hinfo hb

/-- The client and the server of ascending bootstrap agree: a pull of blocks by hash or by
account with a count from 1 to 128 is accepted by the server, which answers on a linked ledger
with the walk from the block asked for or from the account's open block; that answers the tag,
and the client never finds it invalid. -/
theorem ascending_pull_agrees (c : Crypto) (s : LedgerStore) (hs : ChainLinked c s)
    (tag : AsyncTag) (hq : tag.queryType = .blocksByHash ∨ tag.queryType = .blocksByAccount)
    (hcount : 1 ≤ tag.count) (hmax : tag.count ≤ BootstrapServer.maxBlocks) (fuel : Nat)
    (hfuel : tag.count ≤ fuel) :
    ∃ payload blocks,
      BootstrapAscending.createAscPullRequest tag = .ok ⟨tag.id, .blocks payload⟩ ∧
      BootstrapServer.verify ⟨tag.id, .blocks payload⟩ = true ∧
      BootstrapServer.processBlocks s tag.id payload fuel = .ok ⟨tag.id, .blocks ⟨blocks⟩⟩ ∧
      AnswersTag c s tag blocks ∧
      (BootstrapAscending.verifyResponse c ⟨blocks⟩ tag = .ok .ok ∨
        BootstrapAscending.verifyResponse c ⟨blocks⟩ tag = .ok .nothingNew) := by
  obtain ⟨payload, hreq, htype, hstart, hcount', hverify⟩ :=
    BootstrapAscending.createAscPullRequest_blocks hq hcount hmax
  obtain ⟨blocks, hprocess, hlen, hhead, hlinked⟩ := BootstrapServer.processBlocks_spec hs tag.id
    payload fuel (by omega) (by omega) (by omega)
  -- the request carries the tag's start type and start, so the server walks from the pull's start
  have hfrom : BootstrapServer.requestStart s payload = pullStart s tag := by
    rcases hq with hq | hq
    · rw [hq, if_pos rfl] at htype
      simp [BootstrapServer.requestStart, htype, hstart, pullStart, hq]
    · rw [hq, if_neg (by decide)] at htype
      simp [BootstrapServer.requestStart, htype, hstart, pullStart, hq]
  have hanswers : AnswersTag c s tag blocks :=
    answersTag_of_walk hs hq (hfrom ▸ hhead) (hcount' ▸ hlen) hlinked
  exact ⟨payload, blocks, hreq, hverify, hprocess, hanswers,
    BootstrapAscending.verifyResponse_of_answersTag hanswers⟩

/-- One legacy open block for account 1, under a hash that counts bytes: a pull by account. -/
theorem ascending_pull_agrees_open_block :
    let c : Crypto := ⟨fun bytes => FixedBytes.ofNat 32 bytes.length, fun _ => FixedBytes.zero 5,
      fun _ _ _ => true, fun _ _ => 0⟩
    let b : SavedBlock := ⟨.legacyOpen ⟨FixedBytes.zero 32, FixedBytes.zero 32,
      FixedBytes.ofNat 32 1, FixedBytes.zero 64, 0⟩,
      ⟨1, 0, FixedBytes.zero 32, FixedBytes.ofNat 32 1, 0, ⟨.epoch0, false, true, false⟩, .epoch0⟩⟩
    let s : LedgerStore := ⟨(∅ : Table BlockHash SavedBlock).insert (b.hash c) b,
      (∅ : Table Account AccountInfo).insert (FixedBytes.ofNat 32 1)
        ⟨b.hash c, FixedBytes.zero 32, b.hash c, 0, 0, 1, .epoch0⟩, ∅, ∅, ∅, [], ∅, 1, 1, 0⟩
    let tag : AsyncTag :=
      ⟨.blocksByAccount, FixedBytes.ofNat 32 1, FixedBytes.ofNat 32 1, FixedBytes.zero 32, 2, 0⟩
    ChainLinked c s ∧
    ∃ payload blocks,
      BootstrapAscending.createAscPullRequest tag = .ok ⟨tag.id, .blocks payload⟩ ∧
      BootstrapServer.verify ⟨tag.id, .blocks payload⟩ = true ∧
      BootstrapServer.processBlocks s tag.id payload 2 = .ok ⟨tag.id, .blocks ⟨blocks⟩⟩ ∧
      AnswersTag c s tag blocks ∧
      (BootstrapAscending.verifyResponse c ⟨blocks⟩ tag = .ok .ok ∨
        BootstrapAscending.verifyResponse c ⟨blocks⟩ tag = .ok .nothingNew) := by
  intro c b s tag
  have hhash : b.hash c = FixedBytes.ofNat 32 96 := by
    simp [c, b, SavedBlock.hash, Block.hash, Block.hashableBytes, FixedBytes.length_eq]
  have hne : b.hash c ≠ FixedBytes.zero 32 := by
    intro h
    have hnat := congrArg FixedBytes.toNat (hhash.symm.trans h)
    simp [FixedBytes.toNat_ofNat] at hnat
  have hblocks : ∀ h b', s.getBlock h = some b' → h = b.hash c ∧ b' = b := by
    intro h b' hb'
    simp only [s, LedgerStore.getBlock] at hb'
    by_cases hh : h = b.hash c
    · rw [hh, AList.lookup_insert] at hb'
      exact ⟨hh, (Option.some.inj hb').symm⟩
    · rw [AList.lookup_insert_ne hh] at hb'
      simp at hb'
  have hs : ChainLinked c s := by
    refine ⟨fun h b' hb' => ?_, ?_, fun h b' b'' hb' hb'' => ?_, fun a info b' hinfo hb' => ?_⟩
    · obtain ⟨rfl, rfl⟩ := hblocks h b' hb'
      rfl
    · cases hzero : s.getBlock (FixedBytes.zero 32) with
      | none => rfl
      | some b' => exact absurd (hblocks _ b' hzero).1.symm hne
    · obtain ⟨rfl, rfl⟩ := hblocks h b' hb'
      obtain ⟨hz, -⟩ := hblocks _ b'' hb''
      exact absurd hz.symm hne
    · obtain ⟨-, rfl⟩ := hblocks _ b' hb'
      simp only [s, LedgerStore.accountInfo] at hinfo
      by_cases ha : a = FixedBytes.ofNat 32 1
      · rw [ha]
        rfl
      · rw [AList.lookup_insert_ne ha] at hinfo
        simp at hinfo
  exact ⟨hs, ascending_pull_agrees c s hs tag (.inr rfl) (by decide) (by decide) 2 (by decide)⟩

/-! ## Responses from any peer -/

namespace BootstrapAscending

/-- The only panic of `verify_response`: a by-account pull answered with a first block that has
no account field, which the comment before the `unwrap` takes to be impossible. -/
theorem verifyResponse_eq_error {c : Crypto} {response : BlocksAckPayload} {tag : AsyncTag}
    {e : String} (h : verifyResponse c response tag = .error e) :
    e = noneUnwrapped ∧ tag.queryType = .blocksByAccount ∧
      ∃ first rest, response.blocks = first :: rest ∧ first.accountField = none := by
  unfold verifyResponse at h
  split at h
  · cases h
  · rename_i first rest hblocks
    by_cases hone : (rest.isEmpty && first.hash c == tag.start) = true
    · rw [if_pos hone] at h
      simp at h
    rw [if_neg hone] at h
    by_cases hcount : (first :: rest).length > tag.count
    · rw [if_pos hcount] at h
      simp at h
    rw [if_neg hcount] at h
    cases hq : tag.queryType
    case blocksByAccount =>
      cases hfield : first.accountField with
      | none =>
        simp only [hq, hfield, unwrap, error_bind] at h
        exact ⟨(Except.error.inj h).symm, rfl, first, rest, hblocks, hfield⟩
      | some account =>
        simp only [hq, hfield, unwrap_some, ok_bind, pure_eq_ok] at h
        split_ifs at h
    all_goals
      simp only [hq, ok_bind, pure_eq_ok] at h
      split_ifs at h

/-- A by-account pull answered with a legacy send, receive or change block first (and not just
the start block, within the count) reaches that `unwrap` and panics. -/
theorem verifyResponse_panics_without_account_field (c : Crypto) (tag : AsyncTag) (first : Block)
    (rest : List Block) (hq : tag.queryType = .blocksByAccount)
    (hfield : first.accountField = none) (hstart : rest = [] → first.hash c ≠ tag.start)
    (hcount : rest.length + 1 ≤ tag.count) :
    verifyResponse c ⟨first :: rest⟩ tag = .error noneUnwrapped := by
  have hone : (rest.isEmpty && first.hash c == tag.start) = false := by
    cases hr : rest with
    | nil => simpa using hstart hr
    | cons _ _ => rfl
  have hlen : ¬(first :: rest).length > tag.count := by
    simp only [List.length_cons]
    omega
  simp only [verifyResponse, hone, Bool.false_eq_true, hlen, if_false, hq, hfield, unwrap,
    error_bind]

/-- Two legacy sends answer a pull by account 1. -/
theorem verifyResponse_panics_without_account_field_sends :
    let c : Crypto := ⟨fun bytes => FixedBytes.ofNat 32 bytes.length, fun _ => FixedBytes.zero 5,
      fun _ _ _ => true, fun _ _ => 0⟩
    let send : Block :=
      .legacySend ⟨FixedBytes.zero 32, FixedBytes.ofNat 32 2, 0, FixedBytes.zero 64, 0⟩
    let tag := createBlocksRequestTag 128 0 (FixedBytes.ofNat 32 1) none 16
    verifyResponse c ⟨[send, send]⟩ tag = .error noneUnwrapped :=
  verifyResponse_panics_without_account_field _ _ _ _ rfl rfl (fun h => absurd h (by simp))
    (by decide)

end BootstrapAscending

end RsbanNode.Bootstrap
