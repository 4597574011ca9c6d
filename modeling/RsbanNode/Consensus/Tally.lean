import RsbanNode.Consensus.VoteApplier
import RsbanNode.Library.Sums

namespace RsbanNode.Consensus.Voting

open RsbanNode.Primitives RsbanNode.Blocks RsbanNode.Messages RsbanNode.OrderedMap OrdMap
  RsbanNode.Result RsbanNode.Sums

/-! ## Elections for the examples -/

/-- The small election after a second fork, the change to representative `1`, was published. -/
def twoForks : Election :=
  { newElection with data := { newElection.data with
    lastBlocks := newElection.data.lastBlocks.insert ((changeTo 1).hash sumCrypto) (.unsaved (changeTo 1)) } }

theorem twoForks_wf : twoForks.data.Wf sumCrypto := by
  have h : publishInsert sumCrypto newElection.data (changeTo 1) = .ok (false, twoForks.data, []) :=
    rfl
  exact (publishInsert_forksStep (new_wf sumCrypto _ _ _) h).wf

/-- A node that votes, with an online weight of `100`, where representative `1` has weight `100`. -/
def votingEnv : VoteEnv where
  weight rep := if rep = FixedBytes.ofNat 32 1 then 100 else 0
  onlineReps := ⟨100, 0, 0⟩
  isDevNetwork := false
  enableVoting := true
  votingRepsCount := 1
  now := 0
  instant := 0
  voteBroadcastInterval := 0
  tallyOrder := HashOrder.asGiven _

/-- A dev network node that does not vote, where no representative has weight. -/
def devEnv : VoteEnv := { votingEnv with weight := fun _ => 0, isDevNetwork := true, enableVoting := false }

/-- The node where representatives `1` and `2` have weight `100` and the online weight is
`100`. -/
def tieEnv : VoteEnv :=
  { votingEnv with weight := fun rep =>
      if rep = FixedBytes.ofNat 32 1 ∨ rep = FixedBytes.ofNat 32 2 then 100 else 0 }

/-! ## What a tally counts -/

/-- The weight behind a fork: the weights of the representatives whose last vote is for it,
added with wrapping. -/
def blockTally (weight : PublicKey → Amount) (votes : OrdMap PublicKey VoteInfo) (hash : BlockHash) :
    Amount :=
  ((votes.entries.filter fun v => v.2.hash = hash).map fun v => weight v.1).sum

def finalTally (weight : PublicKey → Amount) (votes : OrdMap PublicKey VoteInfo) (hash : BlockHash) :
    Amount :=
  (((votes.entries.filter fun v => v.2.timestamp = u64Max).filter fun v => v.2.hash = hash).map
    fun v => weight v.1).sum

def Voted (votes : OrdMap PublicKey VoteInfo) (hash : BlockHash) : Prop :=
  ∃ v ∈ votes.entries, v.2.hash = hash

def FinalVoted (votes : OrdMap PublicKey VoteInfo) (hash : BlockHash) : Prop :=
  ∃ v ∈ votes.entries, v.2.timestamp = u64Max ∧ v.2.hash = hash

instance (votes : OrdMap PublicKey VoteInfo) (hash : BlockHash) : Decidable (FinalVoted votes hash) :=
  inferInstanceAs (Decidable (∃ v ∈ votes.entries, v.2.timestamp = u64Max ∧ v.2.hash = hash))

theorem TallyKey.le_iff {k k' : TallyKey} : k ≤ k' ↔ k'.amount ≤ k.amount := by
  show TallyKey.key k ≤ TallyKey.key k' ↔ _
  rw [TallyKey.key, TallyKey.key, OrderDual.toDual_le_toDual, BitVec.le_def]

section Tally

variable (c : Crypto) (env : VoteEnv) (d : ElectionData)

theorem foldl_addVoteWeight (weight : PublicKey → Amount) (l : List (PublicKey × VoteInfo))
    (acc : OrdMap BlockHash Amount × OrdMap BlockHash Amount) :
    l.foldl (addVoteWeight weight) acc =
      (l.foldl (fun m v => m.addAt v.2.hash (weight v.1)) acc.1,
        (l.filter fun v => v.2.timestamp = u64Max).foldl
          (fun m v => m.addAt v.2.hash (weight v.1)) acc.2) := by
  induction l generalizing acc with
  | nil => rfl
  | cons v l ih =>
    rw [List.foldl_cons, ih, List.foldl_cons, List.filter_cons]
    by_cases hv : v.2.timestamp = u64Max <;> simp [addVoteWeight, hv]

theorem blockWeights_spec (weight : PublicKey → Amount) (votes : OrdMap PublicKey VoteInfo)
    (h : BlockHash) :
    let blockWeights := (votes.entries.foldl (addVoteWeight weight) (empty, empty)).1
    ((blockWeights.find? h).isSome ↔ Voted votes h) ∧
      (blockWeights.find? h).getD 0 = blockTally weight votes h := by
  obtain ⟨hsome, hsum⟩ := foldl_addAt votes.entries (fun v => v.2.hash) (fun v => weight v.1) empty h
  rw [foldl_addVoteWeight]
  refine ⟨hsome.trans ?_, hsum.trans ?_⟩
  · simp [Voted]
  · rw [find?_empty, Option.getD_none, zero_add, blockTally]
    congr
    funext v
    exact decide_eq_decide.mpr Iff.rfl

theorem finalWeights_spec (weight : PublicKey → Amount) (votes : OrdMap PublicKey VoteInfo)
    (h : BlockHash) :
    let finalWeights := (votes.entries.foldl (addVoteWeight weight) (empty, empty)).2
    ((finalWeights.find? h).isSome ↔ FinalVoted votes h) ∧
      (finalWeights.find? h).getD 0 = finalTally weight votes h := by
  obtain ⟨hsome, hsum⟩ := foldl_addAt (votes.entries.filter fun v => v.2.timestamp = u64Max)
    (fun v => v.2.hash) (fun v => weight v.1) empty h
  rw [foldl_addVoteWeight]
  refine ⟨hsome.trans ?_, hsum.trans ?_⟩
  · simp [FinalVoted, and_assoc]
  · rw [find?_empty, Option.getD_none, zero_add, finalTally]
    congr
    funext v
    exact decide_eq_decide.mpr Iff.rfl

theorem find?_of_spec {m : OrdMap BlockHash Amount} {P : Prop} {w : Amount} {h : BlockHash}
    (hsome : (m.find? h).isSome ↔ P) (hsum : (m.find? h).getD 0 = w) (hP : P) :
    m.find? h = some w := by
  obtain ⟨v, hv⟩ := Option.isSome_iff_exists.mp (hsome.mpr hP)
  rw [hv] at hsum ⊢
  rw [← hsum]
  rfl

@[simp] theorem tallyImpl_status : (tallyImpl c env d).2.status = d.status := rfl
@[simp] theorem tallyImpl_state : (tallyImpl c env d).2.state = d.state := rfl
@[simp] theorem tallyImpl_lastBlocks : (tallyImpl c env d).2.lastBlocks = d.lastBlocks := rfl
@[simp] theorem tallyImpl_lastVotes : (tallyImpl c env d).2.lastVotes = d.lastVotes := rfl
@[simp] theorem tallyImpl_lastVote : (tallyImpl c env d).2.lastVote = d.lastVote := rfl

theorem tallyImpl_lastTally :
    (tallyImpl c env d).2.lastTally =
      (d.lastVotes.entries.foldl (addVoteWeight env.weight) (empty, empty)).1 :=
  foldl_insert_of_perm (env.tallyOrder.perm _)

theorem tallyImpl_fst :
    (tallyImpl c env d).1 =
      ((env.tallyOrder.visit (d.lastVotes.entries.foldl (addVoteWeight env.weight)
        (empty, empty)).1.entries).filterMap fun e =>
          (d.lastBlocks.find? e.1).map fun block => (TallyKey.mk e.2, block)).foldl
        (fun r e => r.insert e.1 e.2) empty := rfl

theorem tallyImpl_find?_eq_some {k : TallyKey} {b : MaybeSavedBlock}
    (hk : (tallyImpl c env d).1.find? k = some b) :
    ∃ h, d.lastBlocks.find? h = some b ∧ Voted d.lastVotes h ∧
      blockTally env.weight d.lastVotes h = k.amount := by
  rw [tallyImpl_fst] at hk
  obtain ⟨e, he, hfe⟩ := List.mem_filterMap.mp (mem_of_find?_foldl_insert hk)
  obtain ⟨block, hblock, hpair⟩ := Option.map_eq_some_iff.mp hfe
  obtain ⟨rfl, rfl⟩ := Prod.mk.inj hpair
  have hentry := find?_eq_some_iff_mem.mpr ((env.tallyOrder.perm _).mem_iff.mp he)
  obtain ⟨hsome, hsum⟩ := blockWeights_spec env.weight d.lastVotes e.1
  refine ⟨e.1, hblock, hsome.mp (by rw [hentry]; rfl), ?_⟩
  rw [← hsum, hentry]
  rfl

theorem isSome_tallyImpl_find? {h : BlockHash} {b : MaybeSavedBlock}
    (hb : d.lastBlocks.find? h = some b) (hv : Voted d.lastVotes h) :
    ((tallyImpl c env d).1.find? ⟨blockTally env.weight d.lastVotes h⟩).isSome := by
  obtain ⟨hsome, hsum⟩ := blockWeights_spec env.weight d.lastVotes h
  have hentry := find?_eq_some_iff_mem.mp (find?_of_spec hsome hsum hv)
  rw [tallyImpl_fst, ← mem_keys_iff, mem_keys_foldl_insert]
  refine .inl (List.mem_map.mpr ⟨(⟨blockTally env.weight d.lastVotes h⟩, b), ?_, rfl⟩)
  exact List.mem_filterMap.mpr ⟨_, (env.tallyOrder.perm _).mem_iff.mpr hentry, by simp [hb]⟩

theorem le_of_tallyImpl_first? {k : TallyKey} {b : MaybeSavedBlock}
    (hfirst : (tallyImpl c env d).1.first? = some (k, b)) {h : BlockHash} {b' : MaybeSavedBlock}
    (hb : d.lastBlocks.find? h = some b') (hv : Voted d.lastVotes h) :
    blockTally env.weight d.lastVotes h ≤ k.amount := by
  obtain ⟨v, hv'⟩ := Option.isSome_iff_exists.mp (isSome_tallyImpl_find? c env d hb hv)
  exact TallyKey.le_iff.mp (le_of_first? hfirst hv')

/-- The final weight after `tally_impl`: the final votes for the leading fork when it has any;
otherwise the old value stays, even when it was counted for another fork. -/
theorem tallyImpl_finalWeight :
    (tallyImpl c env d).2.finalWeight =
      match (tallyImpl c env d).1.first? with
      | some (_, winner) =>
        if FinalVoted d.lastVotes (winner.hash c) then
          finalTally env.weight d.lastVotes (winner.hash c)
        else d.finalWeight
      | none => d.finalWeight := by
  set finalWeights := (d.lastVotes.entries.foldl (addVoteWeight env.weight) (empty, empty)).2
    with hfinal
  have hread : ∀ h, (finalWeights.find? h).getD d.finalWeight =
      if FinalVoted d.lastVotes h then finalTally env.weight d.lastVotes h else d.finalWeight := by
    intro h
    obtain ⟨hsome, hsum⟩ := finalWeights_spec env.weight d.lastVotes h
    split_ifs with hv
    · rw [find?_of_spec hsome hsum hv]
      rfl
    · rw [Option.not_isSome_iff_eq_none.mp (fun hs => hv (hsome.mp hs))]
      rfl
  -- an empty `final_weights` means no fork has a final vote, so the early exit agrees
  have hempty : finalWeights.entries.isEmpty = true → ∀ h, ¬ FinalVoted d.lastVotes h := by
    intro he h hv
    obtain ⟨hsome, -⟩ := finalWeights_spec env.weight d.lastVotes h
    have hs := hsome.mpr hv
    simp only [← hfinal, find?, List.isEmpty_iff.mp he, List.lookup_nil] at hs
    exact Bool.false_ne_true hs
  dsimp only [tallyImpl]
  rw [← tallyImpl_fst c env d, ← hfinal]
  cases hfirst : (tallyImpl c env d).1.first? with
  | none => split_ifs <;> rfl
  | some e =>
    dsimp only
    split_ifs with he hv hv
    · exact absurd hv (hempty he _)
    · rfl
    · rw [hread, if_pos hv]
    · rw [hread, if_neg hv]

theorem haveQuorum_spec (o : OnlineReps) {tally : OrdMap TallyKey MaybeSavedBlock}
    (hq : haveQuorum o tally = true) {k : TallyKey} {b : MaybeSavedBlock}
    (hfirst : tally.first? = some (k, b)) {k' : TallyKey} (hk' : k' ∈ tally.keys) (hne : k' ≠ k) :
    k'.amount ≤ k.amount ∧ o.quorumDelta.toNat + k'.amount.toNat ≤ k.amount.toNat := by
  have hsorted := tally.keys_sorted
  obtain ⟨rest, hrest⟩ := keys_eq_cons_of_first? hfirst
  unfold haveQuorum at hq
  rw [hrest] at hk' hsorted hq
  have hk'rest : k' ∈ rest := (List.mem_cons.mp hk').resolve_left hne
  obtain ⟨second, rest', rfl⟩ : ∃ second rest', rest = second :: rest' := by
    cases rest with
    | nil => simp at hk'rest
    | cons x rest' => exact ⟨x, rest', rfl⟩
  obtain ⟨hhead, htail⟩ := List.pairwise_cons.mp hsorted
  have hsecond : second.amount ≤ k.amount := TallyKey.le_iff.mp (le_of_lt (hhead second (by simp)))
  have hk'second : k'.amount ≤ second.amount := by
    rcases List.mem_cons.mp hk'rest with rfl | hmem
    · exact BitVec.le_refl _
    · exact TallyKey.le_iff.mp (le_of_lt ((List.pairwise_cons.mp htail).1 k' hmem))
  have hgap : o.quorumDelta ≤ k.amount - second.amount := by
    simpa using hq
  rw [BitVec.le_def, BitVec.toNat_sub_of_le hsecond] at hgap
  rw [BitVec.le_def] at hsecond hk'second
  exact ⟨BitVec.le_def.mpr (by omega), by omega⟩

theorem quorumDelta_le_of_haveQuorum {o : OnlineReps} {tally : OrdMap TallyKey MaybeSavedBlock}
    (hq : haveQuorum o tally = true) {k : TallyKey} {b : MaybeSavedBlock}
    (hfirst : tally.first? = some (k, b)) : o.quorumDelta ≤ k.amount := by
  have hsorted := tally.keys_sorted
  obtain ⟨rest, hrest⟩ := keys_eq_cons_of_first? hfirst
  unfold haveQuorum at hq
  rw [hrest] at hq hsorted
  cases rest with
  | nil => simpa using hq
  | cons second rest =>
    have hsecond : second.amount ≤ k.amount :=
      TallyKey.le_iff.mp (le_of_lt ((List.pairwise_cons.mp hsorted).1 second (by simp)))
    have hgap : o.quorumDelta ≤ k.amount - second.amount := by simpa using hq
    rw [BitVec.le_def, BitVec.toNat_sub_of_le hsecond] at hgap
    rw [BitVec.le_def]
    omega

theorem tallySum_eq_sum (tally : OrdMap TallyKey MaybeSavedBlock) :
    tallySum tally = (tally.keys.map (·.amount)).sum := by
  unfold tallySum
  rw [List.sum_eq_foldl, List.foldl_map]

theorem le_tallySum {tally : OrdMap TallyKey MaybeSavedBlock}
    (hsum : (tally.keys.map (·.amount.toNat)).sum < 2 ^ 128) {k : TallyKey} (hk : k ∈ tally.keys) :
    k.amount ≤ tallySum tally := by
  rw [tallySum_eq_sum, BitVec.le_def, toNat_sum_of_lt _ _ hsum]
  exact List.le_sum_of_mem (List.mem_map_of_mem hk)

theorem mem_keys_tallyImpl (k : TallyKey) :
    k ∈ (tallyImpl c env d).1.keys ↔ ∃ h b, d.lastBlocks.find? h = some b ∧ Voted d.lastVotes h ∧
      blockTally env.weight d.lastVotes h = k.amount := by
  rw [mem_keys_iff]
  constructor
  · intro hk
    obtain ⟨b, hb⟩ := Option.isSome_iff_exists.mp hk
    obtain ⟨h, hheld, hv, heq⟩ := tallyImpl_find?_eq_some c env d hb
    exact ⟨h, b, hheld, hv, heq⟩
  · rintro ⟨h, b, hheld, hv, heq⟩
    have hk : (⟨blockTally env.weight d.lastVotes h⟩ : TallyKey) = k := by
      rw [heq]
    exact hk ▸ isSome_tallyImpl_find? c env d hheld hv

theorem sum_keys_le_sum_votes (hw : d.Wf c) :
    ((tallyImpl c env d).1.keys.map (·.amount.toNat)).sum ≤
      (d.lastVotes.entries.map fun v => (env.weight v.1).toNat).sum := by
  set tally := (tallyImpl c env d).1
  let hashOf : TallyKey → BlockHash := fun k => ((tally.find? k).map (·.hash c)).getD default
  have hhash : ∀ k ∈ tally.keys, blockTally env.weight d.lastVotes (hashOf k) = k.amount := by
    intro k hk
    obtain ⟨b, hb⟩ := Option.isSome_iff_exists.mp (mem_keys_iff.mp hk)
    obtain ⟨h, hheld, -, heq⟩ := tallyImpl_find?_eq_some c env d hb
    have : hashOf k = h := by
      simp only [hashOf, hb, Option.map_some, Option.getD_some]
      exact hw.keyed h b hheld
    rw [this, heq]
  have hnodup : (tally.keys.map hashOf).Nodup := by
    refine tally.keys_sorted.nodup.map_on fun k hk k' hk' heq => ?_
    have := (hhash k hk).symm.trans (heq ▸ hhash k' hk')
    cases k
    cases k'
    simp_all
  calc (tally.keys.map (·.amount.toNat)).sum
      = (tally.keys.map fun k => (blockTally env.weight d.lastVotes (hashOf k)).toNat).sum := by
        congr 1
        exact List.map_congr_left fun k hk => by rw [hhash k hk]
    _ ≤ ((tally.keys.map hashOf).map fun h => ((d.lastVotes.entries.filter
          fun (v : PublicKey × VoteInfo) => v.2.hash = h).map fun v => (env.weight v.1).toNat).sum).sum := by
        rw [List.map_map]
        exact List.sum_le_sum fun k _ => toNat_sum_le _ _
    _ ≤ (d.lastVotes.entries.map fun v => (env.weight v.1).toNat).sum :=
        sum_map_sum_filter_le (fun (v : PublicKey × VoteInfo) => v.2.hash) _ _ hnodup

/-- `tally_impl`, whatever order the hash maps are visited in, ranks exactly the forks the
election holds with a vote, each under the weight behind it, the heaviest first; and
`last_tally` becomes the weight behind every fork with a vote, held or not. -/
theorem tallyImpl_ranks_voted_forks :
    (∀ k b, (tallyImpl c env d).1.find? k = some b → ∃ h, d.lastBlocks.find? h = some b ∧
      Voted d.lastVotes h ∧ blockTally env.weight d.lastVotes h = k.amount) ∧
    (∀ h b, d.lastBlocks.find? h = some b → Voted d.lastVotes h →
      ((tallyImpl c env d).1.find? ⟨blockTally env.weight d.lastVotes h⟩).isSome) ∧
    (∀ k b, (tallyImpl c env d).1.first? = some (k, b) → ∀ h b', d.lastBlocks.find? h = some b' →
      Voted d.lastVotes h → blockTally env.weight d.lastVotes h ≤ k.amount) ∧
    ∀ h, (((tallyImpl c env d).2.lastTally.find? h).isSome ↔ Voted d.lastVotes h) ∧
      ((tallyImpl c env d).2.lastTally.find? h).getD 0 = blockTally env.weight d.lastVotes h := by
  refine ⟨fun k b hk => tallyImpl_find?_eq_some c env d hk,
    fun h b hb hv => isSome_tallyImpl_find? c env d hb hv,
    fun k b hfirst h b' hb hv => le_of_tallyImpl_first? c env d hfirst hb hv, fun h => ?_⟩
  rw [tallyImpl_lastTally]
  exact blockWeights_spec env.weight d.lastVotes h

/-- The order the hash maps are visited in changes neither which weights are ranked nor
`last_tally`; it decides only which of two forks with the same weight is kept. -/
theorem tallyImpl_keys_independent_of_order (o o' : HashOrder (BlockHash × Amount)) :
    (tallyImpl c { env with tallyOrder := o } d).1.keys =
        (tallyImpl c { env with tallyOrder := o' } d).1.keys ∧
      (tallyImpl c { env with tallyOrder := o } d).2.lastTally =
        (tallyImpl c { env with tallyOrder := o' } d).2.lastTally := by
  refine ⟨keys_eq_of_mem_iff fun k => ?_, ?_⟩
  · rw [mem_keys_tallyImpl, mem_keys_tallyImpl]
  · rw [tallyImpl_lastTally, tallyImpl_lastTally]

/-- With quorum, every fork the election holds with a vote either has exactly the leading
weight, and then shares its key and is not ranked, or lags it by at least the quorum. -/
theorem haveQuorum_separates_forks (hq : haveQuorum env.onlineReps (tallyImpl c env d).1 = true)
    {k : TallyKey} {b : MaybeSavedBlock} (hfirst : (tallyImpl c env d).1.first? = some (k, b))
    {h : BlockHash} {b' : MaybeSavedBlock} (hb : d.lastBlocks.find? h = some b')
    (hv : Voted d.lastVotes h) :
    blockTally env.weight d.lastVotes h = k.amount ∨
      env.onlineReps.quorumDelta.toNat + (blockTally env.weight d.lastVotes h).toNat ≤
        k.amount.toNat := by
  by_cases hk : (⟨blockTally env.weight d.lastVotes h⟩ : TallyKey) = k
  · exact .inl (by rw [← hk])
  · have hmem : (⟨blockTally env.weight d.lastVotes h⟩ : TallyKey) ∈ (tallyImpl c env d).1.keys :=
      mem_keys_iff.mpr (isSome_tallyImpl_find? c env d hb hv)
    exact .inr (haveQuorum_spec env.onlineReps hq hfirst hmem hk).2

end Tally

end RsbanNode.Consensus.Voting
