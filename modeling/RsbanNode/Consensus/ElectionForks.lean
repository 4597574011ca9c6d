import RsbanNode.Consensus.Election
import RsbanNode.Consensus.LocalVoteHistory

namespace RsbanNode.Consensus.Voting

open RsbanNode.Primitives RsbanNode.Blocks RsbanNode.Messages RsbanNode.OrderedMap OrdMap
  RsbanNode.Result

/-- `VoteInfo`; `time` is the `SystemTime` the vote was recorded at, in milliseconds. -/
structure VoteInfo where
  time : Int
  timestamp : UInt64
  hash : BlockHash
deriving DecidableEq

/-- `ElectionStatus`, without `election_end`, `election_duration` and `election_status_type`,
which no modelled function reads. -/
structure ElectionStatus where
  winner : Option MaybeSavedBlock
  tally : Amount
  finalTally : Amount
  confirmationRequestCount : UInt32
  blockCount : UInt32
  voterCount : UInt32

/-- `ElectionData`, all of what the vote path and `publish` read and write under the election's
mutex. `lastVote` is the `Instant` of the node's last vote for the election, in milliseconds;
`state_start` and `last_block_hash` are left out. -/
structure ElectionData where
  status : ElectionStatus
  state : ElectionState
  lastBlocks : OrdMap BlockHash MaybeSavedBlock
  lastVotes : OrdMap PublicKey VoteInfo
  finalWeight : Amount
  lastTally : OrdMap BlockHash Amount
  lastVote : Option Nat

/-- `Election`: the roots, the `is_quorum` flag and the request counter beside the data under
the mutex. Its times, behavior and callbacks are left out. -/
structure Election where
  root : Root
  qualifiedRoot : QualifiedRoot
  isQuorum : Bool
  confirmationRequestCount : UInt32
  data : ElectionData

/-- What a call asks of the rest of the node, in the order it asks. -/
inductive Effect
  /-- `live_vote_action`, for a vote that did not come from the vote cache. -/
  | liveVote (rep : PublicKey)
  /-- `BlockProcessor::force` of a fork that became the winner. -/
  | force (block : MaybeSavedBlock)
  | generateFinalVote (root : Root) (hash : BlockHash)
  | generateNonFinalVote (root : Root) (hash : BlockHash)
  /-- `RecentlyConfirmedCache::put`. -/
  | recentlyConfirmed (root : QualifiedRoot) (hash : BlockHash)
  /-- `ConfirmingSet::add_with_election`. -/
  | confirmingSetAdd (hash : BlockHash)
  /-- The task `confirm_once` pushes to the workers: `process_confirmed` of the winner, then
  the election's `confirmation_action`. -/
  | processConfirmed (winner : MaybeSavedBlock)
  /-- `clear_publish_filter`. -/
  | clearPublishFilter (block : Block)
  /-- `VoteRouter::disconnect`. -/
  | disconnect (hash : BlockHash)
  /-- `flood` of a `Publish` of the block. -/
  | flood (block : Block)
deriving DecidableEq

/-- `Election::new`: the block is the winner and the only fork, with one vote of weight-free
`not_an_account_key` for it. `now` is the `SystemTime` of the vote. -/
def Election.new (c : Crypto) (notAnAccountKey : PublicKey) (block : SavedBlock) (now : Int) :
    Election where
  root := block.block.root
  qualifiedRoot := block.block.qualifiedRoot
  isQuorum := false
  confirmationRequestCount := 0
  data :=
    { status := ⟨some (.saved block), 0, 0, 0, 1, 0⟩
      state := .passive
      lastBlocks := empty.insert (block.hash c) (.saved block)
      lastVotes := empty.insert notAnAccountKey ⟨now, 0, block.hash c⟩
      finalWeight := 0
      lastTally := empty
      lastVote := none }

/-! ## Forks leaving and joining an election -/

/-- `ActiveElections::remove_block`: a fork other than the winner leaves with the votes for it,
and its bytes leave the publish filter. -/
def removeBlock (c : Crypto) (d : ElectionData) (hash : BlockHash) :
    Except String (ElectionData × List Effect) := do
  let winner ← unwrap d.status.winner
  if winner.hash c != hash then
    match d.lastBlocks.find? hash with
    | some existing =>
      pure ({ d with
          lastBlocks := d.lastBlocks.erase hash
          lastVotes := d.lastVotes.retain fun _ v => v.hash != hash },
        [.clearPublishFilter existing.block])
    | none => pure (d, [])
  else pure (d, [])

def electionMaxBlocks : Nat := 10

/-- What stands for a call that locks a `Mutex` its own thread holds: `std` says only that such a
call never returns. -/
def relockHeld : String := "deadlock: Mutex::lock by the thread that holds the lock"

/-- `sort_by(|left, right| right.cmp(left))` of `(hash, amount)` pairs: descending in the tuple
order, hash first. -/
def sortDescending (l : List (BlockHash × Amount)) : List (BlockHash × Amount) :=
  l.mergeSort fun a b => decide (toLex (b.1, b.2.toNat) ≤ toLex (a.1, a.2.toNat))

def votesTally (weight : PublicKey → Amount) (votes : List Vote) : Amount :=
  votes.foldl (fun result vote => result + weight vote.votingAccount) 0

/-- The fork `replace_by_weight` picks when the new block's cached tally is positive and at least
ten forks have a tally: the first in the sorted order, or the second when the first is the
winner; zero when the tally does not beat it. -/
def replacedByTally (winnerHash : BlockHash) (inactiveTally : Amount) :
    List (BlockHash × Amount) → BlockHash
  | first :: second :: _ =>
    if inactiveTally > first.2 then
      if first.1 != winnerHash then first.1
      else if inactiveTally > second.2 then second.1 else FixedBytes.zero 32
    else FixedBytes.zero 32
  -- unreachable from `replaceByWeight`, which comes here with at least ten entries
  | _ => FixedBytes.zero 32

/-- `ActiveElections::replace_by_weight`, given the vote cache's votes for the new block: whether a
fork was removed to make room. The mutex is released while the tallies are sorted and locked
again after. When fewer than ten forks have a tally, the guard taken to look for a fork without
one is still alive when the mutex is locked again, and the call does not return. -/
def replaceByWeight (c : Crypto) (weight : PublicKey → Amount) (d : ElectionData)
    (inactiveExisting : List Vote) : Except String (Bool × ElectionData × List Effect) := do
  let winner ← unwrap d.status.winner
  let sorted := sortDescending d.lastTally.entries
  let inactiveTally := votesTally weight inactiveExisting
  if inactiveTally > 0 ∧ sorted.length < electionMaxBlocks then
    .error relockHeld
  else
    let replacedBlock :=
      if inactiveTally > 0 then replacedByTally (winner.hash c) inactiveTally sorted
      else FixedBytes.zero 32
    if replacedBlock.isZero then pure (false, d, [])
    else do
      let (d, effects) ← removeBlock c d replacedBlock
      pure (true, d, .disconnect replacedBlock :: effects)

/-- The tail of `publish` when the block is taken: it is stored as unsaved, and when its hash is
the winner's, it becomes the winner and is flooded. Returns whether the hash was held before. -/
def publishInsert (c : Crypto) (d : ElectionData) (block : Block) :
    Except String (Bool × ElectionData × List Effect) := do
  let hash := block.hash c
  if (d.lastBlocks.find? hash).isSome then
    let d := { d with lastBlocks := d.lastBlocks.insert hash (.unsaved block) }
    let winner ← unwrap d.status.winner
    if winner.hash c = hash then
      pure (true, { d with status := { d.status with winner := some (.unsaved block) } },
        [.flood block])
    else pure (true, d, [])
  else pure (false, { d with lastBlocks := d.lastBlocks.insert hash (.unsaved block) }, [])

/-- `ActiveElections::publish`, given the vote cache's votes for the block: `true` when the block
was not taken as a new fork. -/
def publish (c : Crypto) (weight : PublicKey → Amount) (d : ElectionData) (block : Block)
    (inactiveExisting : List Vote) : Except String (Bool × ElectionData × List Effect) :=
  if d.state.isConfirmed then .ok (true, d, [])
  else if d.lastBlocks.size ≥ electionMaxBlocks ∧ d.lastBlocks.contains (block.hash c) = false then
    do
    let (replaced, d, effects) ← replaceByWeight c weight d inactiveExisting
    if replaced then do
      let (result, d, effects') ← publishInsert c d block
      pure (result, d, effects ++ effects')
    else pure (true, d, effects ++ [.clearPublishFilter block])
  else publishInsert c d block

def Effect.isConfirmingSetAdd : Effect → Bool
  | .confirmingSetAdd _ => true
  | _ => false

/-! ## What every reachable election keeps -/

/-- Every fork is stored under its own hash, and the winner is one of the stored forks. -/
structure ElectionData.Wf (c : Crypto) (d : ElectionData) : Prop where
  keyed : ∀ h b, d.lastBlocks.find? h = some b → b.hash c = h
  winner : ∃ w, d.status.winner = some w ∧ d.lastBlocks.find? (w.hash c) = some w

variable {c : Crypto} {d d' : ElectionData}

theorem ElectionData.Wf.of_eq (hw : d.Wf c) (hblocks : d'.lastBlocks = d.lastBlocks)
    (hwinner : d'.status.winner = d.status.winner) : d'.Wf c where
  keyed h b hb := hw.keyed h b (hblocks ▸ hb)
  winner := by
    obtain ⟨w, hw₁, hw₂⟩ := hw.winner
    exact ⟨w, hwinner.trans hw₁, hblocks ▸ hw₂⟩

theorem new_wf (c : Crypto) (notAnAccountKey : PublicKey) (block : SavedBlock) (now : Int) :
    (Election.new c notAnAccountKey block now).data.Wf c where
  keyed h b hb := by
    simp only [Election.new, find?_insert, find?_empty] at hb
    split_ifs at hb with hh
    · cases hb
      exact hh.symm
  winner := ⟨.saved block, rfl, by simp [Election.new]; rfl⟩

/-! ### A small election

Hashes are the sum of the hashed bytes, so the change blocks below, which differ only in their
representative, are forks of one another with distinct hashes. -/

def sumCrypto : Crypto :=
  ⟨fun bytes => FixedBytes.ofNat 32 (bytes.map UInt8.toNat).sum, fun _ => FixedBytes.zero 5,
    fun _ _ _ => true, fun _ _ => 0⟩

/-- The change of the account at zero to representative `rep`; its hash is `rep`. -/
def changeTo (rep : Nat) : Block :=
  .legacyChange ⟨FixedBytes.zero 32, FixedBytes.ofNat 32 rep, FixedBytes.zero 64, 0⟩

def savedChangeTo (rep : Nat) : SavedBlock :=
  ⟨changeTo rep, ⟨1, 0, FixedBytes.zero 32, FixedBytes.zero 32, 0, ⟨.epoch0, false, false, false⟩,
    .epoch0⟩⟩

def newElection : Election := Election.new sumCrypto (FixedBytes.zero 32) (savedChangeTo 0) 0

theorem removeBlock_spec (hw : d.Wf c) (hash : BlockHash) :
    ∃ d' effects, removeBlock c d hash = .ok (d', effects) ∧ d'.Wf c ∧ d'.status = d.status ∧
      d'.state = d.state ∧ d'.finalWeight = d.finalWeight ∧
      (∀ h, h ≠ hash → d'.lastBlocks.find? h = d.lastBlocks.find? h) ∧
      (∀ rep v, d'.lastVotes.find? rep = some v → d.lastVotes.find? rep = some v) ∧
      (∀ rep v, d.lastVotes.find? rep = some v → v.hash ≠ hash → d'.lastVotes.find? rep = some v) ∧
      effects.countP Effect.isConfirmingSetAdd = 0 := by
  obtain ⟨w, hwin, hstored⟩ := hw.winner
  by_cases hwh : w.hash c = hash
  · refine ⟨d, [], by simp [removeBlock, hwin, hwh], hw, rfl, rfl, rfl, fun _ _ => rfl,
      fun _ _ h => h, fun _ _ h _ => h, rfl⟩
  cases hfind : d.lastBlocks.find? hash with
  | none =>
    refine ⟨d, [], by simp [removeBlock, hwin, hfind], hw, rfl, rfl, rfl, fun _ _ => rfl,
      fun _ _ h => h, fun _ _ h _ => h, rfl⟩
  | some existing =>
    refine ⟨{ d with
        lastBlocks := d.lastBlocks.erase hash
        lastVotes := d.lastVotes.retain fun _ v => v.hash != hash },
      [.clearPublishFilter existing.block], by simp [removeBlock, hwin, hwh, hfind], ?_, rfl, rfl,
      rfl, fun h hne => find?_erase_ne _ hne, fun rep v hv => ?_, fun rep v hv hne => ?_, rfl⟩
    · refine ⟨fun h b hb => hw.keyed h b ?_, w, hwin, ?_⟩
      · by_cases hh : h = hash
        · simp [hh] at hb
        · rwa [find?_erase_ne _ hh] at hb
      · rw [find?_erase_ne _ hwh, hstored]
    · rw [find?_retain] at hv
      exact (Option.filter_eq_some_iff.mp hv).1
    · rw [find?_retain, hv]
      simp [hne]

theorem publishInsert_spec (hw : d.Wf c) (block : Block) :
    ∃ result d' effects, publishInsert c d block = .ok (result, d', effects) ∧ d'.Wf c ∧
      d'.state = d.state ∧ d'.lastVotes = d.lastVotes ∧ d'.finalWeight = d.finalWeight ∧
      d'.status.winner.map (·.hash c) = d.status.winner.map (·.hash c) ∧
      d'.lastBlocks.find? (block.hash c) = some (.unsaved block) ∧
      effects.countP Effect.isConfirmingSetAdd = 0 := by
  obtain ⟨w, hwin, hstored⟩ := hw.winner
  have hkeyed : ∀ h b, (d.lastBlocks.insert (block.hash c) (.unsaved block)).find? h = some b →
      b.hash c = h := by
    intro h b hb
    rw [find?_insert] at hb
    split_ifs at hb with hh
    · cases hb
      exact hh.symm
    · exact hw.keyed h b hb
  by_cases hheld : (d.lastBlocks.find? (block.hash c)).isSome
  · by_cases hwh : w.hash c = block.hash c
    · refine ⟨true, { d with
          lastBlocks := d.lastBlocks.insert (block.hash c) (.unsaved block)
          status := { d.status with winner := some (.unsaved block) } }, [.flood block],
        by simp [publishInsert, hheld, hwin, hwh],
        ⟨hkeyed, .unsaved block, rfl, by simp [MaybeSavedBlock.hash, MaybeSavedBlock.block]⟩,
        rfl, rfl, rfl, by rw [hwin]; exact congrArg some hwh.symm, by simp, rfl⟩
    · refine ⟨true, { d with lastBlocks := d.lastBlocks.insert (block.hash c) (.unsaved block) },
        [], by simp [publishInsert, hheld, hwin, hwh],
        ⟨hkeyed, w, hwin, by rw [find?_insert, if_neg hwh, hstored]⟩, rfl, rfl, rfl, rfl,
        by simp, rfl⟩
  · have hwh : w.hash c ≠ block.hash c := by
      intro heq
      rw [← heq, hstored] at hheld
      exact hheld rfl
    refine ⟨false, { d with lastBlocks := d.lastBlocks.insert (block.hash c) (.unsaved block) },
      [], by simp [publishInsert, hheld],
      ⟨hkeyed, w, hwin, by rw [find?_insert, if_neg hwh, hstored]⟩, rfl, rfl, rfl, rfl,
      by simp, rfl⟩

/-- `replace_by_weight` on a well-formed election either does not return, exactly when the
cached tally is positive and fewer than ten forks have a tally, or returns having removed at most
one fork by `remove_block`. -/
theorem replaceByWeight_spec (hw : d.Wf c) (weight : PublicKey → Amount) (inactive : List Vote) :
    (0 < votesTally weight inactive ∧ d.lastTally.size < electionMaxBlocks ∧
        replaceByWeight c weight d inactive = .error relockHeld) ∨
      (¬ (0 < votesTally weight inactive ∧ d.lastTally.size < electionMaxBlocks) ∧
        ∃ replaced d' effects, replaceByWeight c weight d inactive = .ok (replaced, d', effects) ∧
          ((d' = d ∧ effects = []) ∨
            ∃ hash effs, removeBlock c d hash = .ok (d', effs) ∧ effects = .disconnect hash :: effs)) := by
  obtain ⟨w, hwin, -⟩ := hw.winner
  have hlen : (sortDescending d.lastTally.entries).length = d.lastTally.size := List.length_mergeSort _
  by_cases hdead : 0 < votesTally weight inactive ∧ d.lastTally.size < electionMaxBlocks
  · refine .inl ⟨hdead.1, hdead.2, ?_⟩
    simp only [replaceByWeight, hwin, unwrap_some, ok_bind, hlen]
    rw [if_pos hdead]
  · refine .inr ⟨hdead, ?_⟩
    simp only [replaceByWeight, hwin, unwrap_some, ok_bind, hlen]
    rw [if_neg hdead]
    generalize (if 0 < votesTally weight inactive then
      replacedByTally (w.hash c) (votesTally weight inactive) (sortDescending d.lastTally.entries)
      else FixedBytes.zero 32) = replacedBlock
    split_ifs with hzero
    · exact ⟨false, d, [], rfl, .inl ⟨rfl, rfl⟩⟩
    · obtain ⟨d', effs, hremove, -⟩ := removeBlock_spec hw replacedBlock
      exact ⟨true, d', .disconnect replacedBlock :: effs, by rw [hremove]; rfl,
        .inr ⟨replacedBlock, effs, hremove, rfl⟩⟩

/-- `publish` on a well-formed election fails in one way only: the deadlock of
`replace_by_weight`, which happens exactly when the election is not confirmed, holds ten forks
and not the new one, the vote cache gives the new one a positive tally, and fewer than ten
forks have a tally. -/
theorem publish_error_iff (hw : d.Wf c) (weight : PublicKey → Amount) (block : Block)
    (inactive : List Vote) :
    (∀ msg, publish c weight d block inactive = .error msg → msg = relockHeld) ∧
      (publish c weight d block inactive = .error relockHeld ↔
        d.state.isConfirmed = false ∧ electionMaxBlocks ≤ d.lastBlocks.size ∧
          d.lastBlocks.contains (block.hash c) = false ∧ 0 < votesTally weight inactive ∧
          d.lastTally.size < electionMaxBlocks) := by
  have hinsert : ∀ d', d'.Wf c → ∃ r, publishInsert c d' block = .ok r := fun d' hw' => by
    obtain ⟨result, d'', effects, h, -⟩ := publishInsert_spec hw' block
    exact ⟨_, h⟩
  unfold publish
  by_cases hconf : d.state.isConfirmed = true
  · simp [hconf]
  by_cases hfull : d.lastBlocks.size ≥ electionMaxBlocks ∧ d.lastBlocks.contains (block.hash c) = false
  · rw [if_neg hconf, if_pos hfull]
    rcases replaceByWeight_spec hw weight inactive with ⟨hpos, hsize, herr⟩ | ⟨hno, replaced, d', effects, hok, hd'⟩
    · rw [herr]
      exact ⟨fun msg h => (Except.error.inj h).symm, by simp_all⟩
    · have hw' : d'.Wf c := by
        rcases hd' with ⟨rfl, -⟩ | ⟨hash, effs, hremove, -⟩
        · exact hw
        · obtain ⟨d'', effs', hremove', hw'', -⟩ := removeBlock_spec hw hash
          rw [hremove] at hremove'
          cases hremove'
          exact hw''
      obtain ⟨⟨result, d'', effects'⟩, hr⟩ := hinsert d' hw'
      rw [hok]
      cases replaced <;> simp only [hr, ok_bind, Bool.false_eq_true, if_false, if_true] <;>
        exact ⟨fun msg h => (by cases h), fun h => (by cases h), fun h => absurd ⟨h.2.2.2.1, h.2.2.2.2⟩ hno⟩
  · rw [if_neg hconf, if_neg hfull]
    obtain ⟨r, hr⟩ := hinsert d hw
    rw [hr]
    exact ⟨fun msg h => (by cases h), fun h => (by cases h), fun h => absurd ⟨h.2.1, h.2.2.1⟩ hfull⟩

def cachedVote : Vote := ⟨0, FixedBytes.ofNat 32 1, FixedBytes.zero 64, [(changeTo 10).hash sumCrypto]⟩

/-- A fresh election that has received nine more forks never returns from `publish` of a tenth
that the vote cache has a vote for. -/
theorem publish_deadlocks_on_tenth_fork :
    ∃ d, (List.range 9).foldlM (fun d n => (·.2.1) <$> publishInsert sumCrypto d (changeTo (n + 1)))
        newElection.data = .ok d ∧ d.Wf sumCrypto ∧
      publish sumCrypto (fun _ => 1) d (changeTo 10) [cachedVote] = .error relockHeld := by
  have hinv := foldlM_invariant (ElectionData.Wf sumCrypto) (fun _ => False)
    (f := fun d n => (·.2.1) <$> publishInsert sumCrypto d (changeTo (n + 1)))
    (fun d n (_ : n ∈ List.range 9) hw => by
      obtain ⟨result, d', effects, hok, hw', -⟩ := publishInsert_spec hw (changeTo (n + 1))
      exact .inl ⟨d', by rw [hok]; rfl, hw'⟩)
    (s := newElection.data) (new_wf sumCrypto (FixedBytes.zero 32) (savedChangeTo 0) 0)
  rcases hinv with ⟨d, hfold, hw⟩ | ⟨_, _, hfalse⟩
  · have hcheck : ((List.range 9).foldlM
        (fun d n => (·.2.1) <$> publishInsert sumCrypto d (changeTo (n + 1))) newElection.data).toOption.map
        (fun d => (d.state.isConfirmed, d.lastBlocks.size, d.lastBlocks.contains ((changeTo 10).hash sumCrypto),
          d.lastTally.size)) = some (false, 10, false, 0) := by decide
    rw [hfold] at hcheck
    simp only [Except.toOption, Option.map_some, Option.some.injEq, Prod.mk.injEq] at hcheck
    obtain ⟨hconf, hsize, hnew, htally⟩ := hcheck
    refine ⟨d, hfold, hw, (publish_error_iff hw _ _ _).2.mpr ⟨hconf, ?_, hnew, by decide, ?_⟩⟩
    · rw [hsize]
      decide
    · rw [htally]
      decide
  · exact hfalse.elim

/-! ## The calls on the forks, together -/

/-- `d'` follows from `d` by calls on the forks: it is well formed, in the same state, with a
winner of the same hash and some of the votes of `d`, and nothing was handed over. -/
structure ForksStep (c : Crypto) (d d' : ElectionData) (effects : List Effect) : Prop where
  wf : d'.Wf c
  state : d'.state = d.state
  winner : d'.status.winner.map (·.hash c) = d.status.winner.map (·.hash c)
  votes : ∀ rep v, d'.lastVotes.find? rep = some v → d.lastVotes.find? rep = some v
  quiet : effects.countP Effect.isConfirmingSetAdd = 0

theorem ForksStep.refl (hw : d.Wf c) : ForksStep c d d [] :=
  ⟨hw, rfl, rfl, fun _ _ h => h, rfl⟩

theorem ForksStep.trans {d'' : ElectionData} {effects effects' : List Effect}
    (h₁ : ForksStep c d d' effects) (h₂ : ForksStep c d' d'' effects') :
    ForksStep c d d'' (effects ++ effects') where
  wf := h₂.wf
  state := h₂.state.trans h₁.state
  winner := h₂.winner.trans h₁.winner
  votes := fun rep v hv => h₁.votes rep v (h₂.votes rep v hv)
  quiet := by rw [List.countP_append, h₁.quiet, h₂.quiet]

theorem ForksStep.append_quiet {effects extra : List Effect} (h : ForksStep c d d' effects)
    (hextra : extra.countP Effect.isConfirmingSetAdd = 0) : ForksStep c d d' (effects ++ extra) :=
  { h with quiet := by rw [List.countP_append, h.quiet, hextra] }

theorem removeBlock_forksStep (hw : d.Wf c) {hash : BlockHash} {effects : List Effect}
    (h : removeBlock c d hash = .ok (d', effects)) : ForksStep c d d' effects := by
  obtain ⟨d'', effects', h', hw', hstatus, hstate, -, -, hvotes, -, hquiet⟩ := removeBlock_spec hw hash
  rw [h] at h'
  obtain ⟨rfl, rfl⟩ := Prod.mk.inj (Except.ok.inj h')
  exact ⟨hw', hstate, by rw [hstatus], hvotes, hquiet⟩

theorem publishInsert_forksStep (hw : d.Wf c) {block : Block} {result : Bool}
    {effects : List Effect} (h : publishInsert c d block = .ok (result, d', effects)) :
    ForksStep c d d' effects := by
  obtain ⟨result', d'', effects', h', hw', hstate, hvotes, -, hwinner, -, hquiet⟩ :=
    publishInsert_spec hw block
  rw [h] at h'
  cases h'
  exact ⟨hw', hstate, hwinner, fun rep v hv => hvotes ▸ hv, hquiet⟩

theorem publish_forksStep (hw : d.Wf c) {weight : PublicKey → Amount} {block : Block}
    {inactive : List Vote} {result : Bool} {effects : List Effect}
    (h : publish c weight d block inactive = .ok (result, d', effects)) :
    ForksStep c d d' effects := by
  unfold publish at h
  split_ifs at h with hconf hfull
  · cases h
    exact ForksStep.refl hw
  · obtain ⟨⟨replaced, d₁, effects₁⟩, hreplace, h⟩ := bind_eq_ok.mp h
    have hstep₁ : ForksStep c d d₁ effects₁ := by
      rcases replaceByWeight_spec hw weight inactive with ⟨-, -, herr⟩ | ⟨-, r, d₂, effs, hok, hd₂⟩
      · rw [herr] at hreplace
        cases hreplace
      · rw [hok] at hreplace
        cases hreplace
        rcases hd₂ with ⟨rfl, rfl⟩ | ⟨hash, effs', hremove, rfl⟩
        · exact ForksStep.refl hw
        · have hs := removeBlock_forksStep hw hremove
          exact ⟨hs.wf, hs.state, hs.winner, hs.votes, by simpa [Effect.isConfirmingSetAdd] using hs.quiet⟩
    cases replaced with
    | true =>
      obtain ⟨⟨result', d₂, effects₂⟩, hinsert, h⟩ := bind_eq_ok.mp h
      cases h
      exact hstep₁.trans (publishInsert_forksStep hstep₁.wf hinsert)
    | false =>
      cases h
      exact hstep₁.append_quiet rfl
  · exact publishInsert_forksStep hw h

end RsbanNode.Consensus.Voting
