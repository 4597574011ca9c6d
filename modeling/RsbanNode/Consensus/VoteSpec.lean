import RsbanNode.Consensus.Tally

namespace RsbanNode.Consensus.Voting

open RsbanNode.Primitives RsbanNode.Blocks RsbanNode.Messages RsbanNode.OrderedMap OrdMap
  RsbanNode.Result

section Spec

open RsbanNode.Consensus.LocalVoteHistory

variable {c : Crypto} {env : VoteEnv} {d : ElectionData} {history : LocalVoteHistory}

theorem removeVotes_of_ok {root : Root} {hash : BlockHash} {d' : ElectionData}
    {history' : LocalVoteHistory} (h : removeVotes env root d history hash = .ok (d', history')) :
    d' = { d with lastVotes := d'.lastVotes } ∧
      (∀ rep v, d'.lastVotes.find? rep = some v → d.lastVotes.find? rep = some v) ∧
      (env.voting = false → d' = d ∧ history' = history) ∧
      (history' = history ∨ history' = history.erase root) := by
  unfold removeVotes at h
  split_ifs at h with hv
  · obtain ⟨l, -, h⟩ := bind_eq_ok.mp h
    cases h
    refine ⟨rfl, fun rep v hfind => ?_, fun hf => absurd (hv.symm.trans hf) (by decide),
      .inr rfl⟩
    rw [← List.foldl_map, find?_foldl_erase] at hfind
    split_ifs at hfind
    exact hfind
  · cases h
    exact ⟨rfl, fun _ _ hfind => hfind, fun _ => ⟨rfl, rfl⟩, .inl rfl⟩

theorem wf_of_eq_or_erase (hh : history.Wf) {history' : LocalVoteHistory} {root : Root}
    (h : history' = history ∨ history' = history.erase root) : history'.Wf := by
  rcases h with rfl | rfl
  · exact hh
  · exact (erase_wf hh root).1

variable (env) in
theorem removeVotes_spec (hh : history.Wf) (root : Root) (d : ElectionData) (hash : BlockHash) :
    ∃ d' history', removeVotes env root d history hash = .ok (d', history') ∧ history'.Wf ∧
      d' = { d with lastVotes := d'.lastVotes } ∧
      (∀ rep v, d'.lastVotes.find? rep = some v → d.lastVotes.find? rep = some v) ∧
      (env.voting = false → d' = d ∧ history' = history) := by
  obtain ⟨d', history', hok⟩ :
      ∃ d' history', removeVotes env root d history hash = .ok (d', history') := by
    unfold removeVotes
    cases env.voting with
    | false => exact ⟨d, history, rfl⟩
    | true =>
      obtain ⟨l, hl, -⟩ := votes_spec hh root hash false
      exact ⟨_, _, by rw [if_pos rfl, hl, ok_bind]; rfl⟩
  obtain ⟨hd, hfind, hoff, hshape⟩ := removeVotes_of_ok hok
  exact ⟨d', history', hok, wf_of_eq_or_erase hh hshape, hd, hfind, hoff⟩

theorem confirmOnce_spec (hw : d.Wf c) (e : Election) :
    ∃ d' effects, confirmOnce c e d = .ok (d', effects) ∧ d'.Wf c ∧ d'.state = .confirmed ∧
      d'.lastBlocks = d.lastBlocks ∧ d'.lastVotes = d.lastVotes ∧
      d'.status.winner = d.status.winner ∧
      effects.countP Effect.isConfirmingSetAdd = (if d.state = .confirmed then 0 else 1) ∧
      (∀ h, .confirmingSetAdd h ∈ effects → ∃ w, d.status.winner = some w ∧ w.hash c = h) ∧
      ∀ r h, .generateFinalVote r h ∉ effects := by
  obtain ⟨w, hwin, -⟩ := hw.winner
  by_cases hs : d.state = .confirmed
  · refine ⟨{ d with state := .confirmed }, [], by simp [confirmOnce, hs], hw.of_eq rfl rfl, rfl,
      rfl, rfl, rfl, by simp [hs], fun h hh => (by cases hh), fun r h hh => by cases hh⟩
  · refine ⟨updateStatusToConfirmed e.confirmationRequestCount { d with state := .confirmed },
      [.recentlyConfirmed e.qualifiedRoot (w.hash c), .confirmingSetAdd (w.hash c),
        .processConfirmed w], ?_, hw.of_eq rfl rfl, rfl, rfl, rfl, rfl, ?_, ?_, by simp⟩
    · simp [confirmOnce, hs, updateStatusToConfirmed, hwin]
    · simp [hs, List.countP_cons, Effect.isConfirmingSetAdd]
    · intro h hh
      simp only [List.mem_cons, reduceCtorEq, Effect.confirmingSetAdd.injEq, List.not_mem_nil,
        or_false, false_or] at hh
      exact ⟨w, hwin, hh.symm⟩

theorem switchWinner_of_ok (hw : d.Wf c) {root : Root} {tally : OrdMap TallyKey MaybeSavedBlock}
    {block : MaybeSavedBlock} (hblock : d.lastBlocks.find? (block.hash c) = some block)
    {statusWinnerHash : BlockHash} {d' : ElectionData} {history' : LocalVoteHistory}
    {forced : List Effect}
    (h : switchWinner c env root tally block statusWinnerHash d history = .ok (d', history', forced)) :
    d'.Wf c ∧ d'.state = d.state ∧ d'.lastBlocks = d.lastBlocks ∧
      d'.finalWeight = d.finalWeight ∧
      d'.status.winner = (if tallySum tally ≥ env.onlineReps.quorumDelta ∧
        block.hash c ≠ statusWinnerHash then some block else d.status.winner) ∧
      (∀ rep v, d'.lastVotes.find? rep = some v → d.lastVotes.find? rep = some v) ∧
      (∀ x ∈ forced, x = .force block) ∧
      (env.voting = false → d'.lastVotes = d.lastVotes ∧ history' = history) ∧
      (history' = history ∨ history' = history.erase root) := by
  unfold switchWinner at h
  split_ifs at h ⊢ with hswitch
  · obtain ⟨⟨d₁, history₁⟩, hremove, h⟩ := bind_eq_ok.mp h
    cases h
    obtain ⟨hframe, hsub, hquiet, hhist⟩ := removeVotes_of_ok hremove
    have hblocks : d'.lastBlocks = d.lastBlocks := by rw [hframe]
    have hwinner : d'.status.winner = some block := by rw [hframe]
    refine ⟨⟨fun h b hb => hw.keyed h b (hblocks ▸ hb), block, hwinner, hblocks ▸ hblock⟩,
      by rw [hframe], hblocks, by rw [hframe], hwinner, hsub, fun x hx => List.mem_singleton.mp hx,
      fun hv => ?_, hhist⟩
    obtain ⟨hd, rfl⟩ := hquiet hv
    exact ⟨by rw [hd], rfl⟩
  · cases h
    exact ⟨hw, rfl, rfl, rfl, rfl, fun _ _ h => h, fun x hx => (by cases hx), fun _ => ⟨rfl, rfl⟩,
      .inl rfl⟩

variable (env) in
theorem switchWinner_spec (hw : d.Wf c) (hh : history.Wf) (root : Root)
    (tally : OrdMap TallyKey MaybeSavedBlock) {block : MaybeSavedBlock}
    (hblock : d.lastBlocks.find? (block.hash c) = some block) (statusWinnerHash : BlockHash) :
    ∃ d' history' forced,
      switchWinner c env root tally block statusWinnerHash d history = .ok (d', history', forced) ∧
      d'.Wf c ∧ history'.Wf ∧ d'.state = d.state ∧ d'.lastBlocks = d.lastBlocks ∧
      d'.finalWeight = d.finalWeight ∧
      d'.status.winner = (if tallySum tally ≥ env.onlineReps.quorumDelta ∧
        block.hash c ≠ statusWinnerHash then some block else d.status.winner) ∧
      (∀ rep v, d'.lastVotes.find? rep = some v → d.lastVotes.find? rep = some v) ∧
      (∀ x ∈ forced, x = .force block) ∧
      (env.voting = false → d'.lastVotes = d.lastVotes ∧ history' = history) := by
  obtain ⟨r, hr⟩ : ∃ r, switchWinner c env root tally block statusWinnerHash d history = .ok r := by
    unfold switchWinner
    split_ifs
    · obtain ⟨d₁, history₁, hremove, -⟩ := removeVotes_spec env hh root
        { d with status := { d.status with winner := some block } } statusWinnerHash
      exact ⟨_, by simp only [hremove, ok_bind]; rfl⟩
    · exact ⟨_, rfl⟩
  obtain ⟨hw', hstate, hblocks, hfw, hwinner, hsub, hforced, hquiet, hhist⟩ :=
    switchWinner_of_ok hw hblock hr
  exact ⟨r.1, r.2.1, r.2.2, hr, hw', wf_of_eq_or_erase hh hhist, hstate, hblocks, hfw, hwinner, hsub,
    hforced, hquiet⟩

/-- Whether `confirm_if_quorum` confirms on a tally: the quorum between the first two tallies
and in final votes. -/
def quorumReached (o : OnlineReps) (tally : OrdMap TallyKey MaybeSavedBlock) (finalWeight : Amount) :
    Bool :=
  haveQuorum o tally && decide (finalWeight ≥ o.quorumDelta)

variable (env) in
theorem confirmOnQuorum_spec (hw : d.Wf c) (e : Election) (tally : OrdMap TallyKey MaybeSavedBlock)
    (statusWinnerHash : BlockHash) :
    ∃ e' effects, confirmOnQuorum c env e tally statusWinnerHash d = .ok (e', effects) ∧
      e'.data.Wf c ∧ e'.root = e.root ∧ e'.data.lastBlocks = d.lastBlocks ∧
      e'.data.lastVotes = d.lastVotes ∧ e'.data.status.winner = d.status.winner ∧
      e'.data.state = (if quorumReached env.onlineReps tally d.finalWeight then .confirmed
        else d.state) ∧
      effects.countP Effect.isConfirmingSetAdd =
        (if quorumReached env.onlineReps tally d.finalWeight ∧ d.state ≠ .confirmed then 1 else 0) ∧
      (∀ h, .confirmingSetAdd h ∈ effects → quorumReached env.onlineReps tally d.finalWeight ∧
        ∃ w, d.status.winner = some w ∧ w.hash c = h) ∧
      ∀ r h, .generateFinalVote r h ∈ effects → h = statusWinnerHash := by
  set finalVote := if !e.isQuorum && env.voting then
    [Effect.generateFinalVote e.root statusWinnerHash] else [] with hfinalVote
  have hfinal : ∀ r h, Effect.generateFinalVote r h ∈ finalVote → h = statusWinnerHash := by
    intro r h hh
    rw [hfinalVote] at hh
    split_ifs at hh
    · simp only [List.mem_singleton, Effect.generateFinalVote.injEq] at hh
      exact hh.2
    · cases hh
  have hquiet : finalVote.countP Effect.isConfirmingSetAdd = 0 ∧
      ∀ h, Effect.confirmingSetAdd h ∉ finalVote := by
    rw [hfinalVote]
    split_ifs <;> simp [Effect.isConfirmingSetAdd]
  unfold confirmOnQuorum
  by_cases hreached : quorumReached env.onlineReps tally d.finalWeight = true
  · obtain ⟨hq, hfw⟩ : haveQuorum env.onlineReps tally = true ∧
        d.finalWeight ≥ env.onlineReps.quorumDelta := by
      simpa [quorumReached] using hreached
    obtain ⟨d', confirmed, hconfirm, hw', hstate, hblocks, hvotes, hwinner, hcountc, hhanded,
      hconfirmVote⟩ := confirmOnce_spec hw { e with isQuorum := true }
    refine ⟨{ e with isQuorum := true, data := d' }, finalVote ++ confirmed,
      by simp only [hq, if_true, hfw, hconfirm, ok_bind]; rfl, hw', rfl, hblocks,
      hvotes, hwinner, by rw [if_pos hreached]; exact hstate, ?_, fun h hh => ?_,
      fun r h hh => ?_⟩
    · rw [List.countP_append, hquiet.1, hcountc]
      by_cases hs : d.state = .confirmed <;> simp [hs, hreached]
    · rcases List.mem_append.mp hh with hh | hh
      · exact absurd hh (hquiet.2 h)
      · exact ⟨hreached, hhanded h hh⟩
    · rcases List.mem_append.mp hh with hh | hh
      · exact hfinal r h hh
      · exact absurd hh (hconfirmVote r h)
  · simp only [hreached, Bool.false_eq_true, false_and, if_false]
    by_cases hq : haveQuorum env.onlineReps tally = true
    · have hfw : ¬ d.finalWeight ≥ env.onlineReps.quorumDelta := by simpa [quorumReached, hq] using hreached
      refine ⟨{ e with isQuorum := true, data := d }, finalVote, by simp only [hq, if_true, hfw, if_false]; rfl,
        hw, rfl, rfl, rfl, rfl, rfl, hquiet.1, fun h hh => absurd hh (hquiet.2 h), hfinal⟩
    · refine ⟨{ e with data := d }, [], by simp only [hq, Bool.false_eq_true, if_false]; rfl,
        hw, rfl, rfl, rfl, rfl, rfl, rfl, fun h hh => (by cases hh), fun r h hh => by cases hh⟩

theorem lastBlocks_find?_of_first? {d : ElectionData} (hw : d.Wf c) {k : TallyKey}
    {block : MaybeSavedBlock} (hfirst : (tallyImpl c env d).1.first? = some (k, block)) :
    d.lastBlocks.find? (block.hash c) = some block := by
  obtain ⟨h, hheld, -, -⟩ := tallyImpl_find?_eq_some c env d (find?_of_first? hfirst)
  rwa [hw.keyed h block hheld]

variable (env) in
theorem confirmIfQuorum_of_ok {e e' : Election} {history' : LocalVoteHistory}
    {effects : List Effect} (hw : e.data.Wf c)
    (h : confirmIfQuorum c env e history = .ok (e', history', effects)) :
    ∃ k block, (tallyImpl c env e.data).1.first? = some (k, block) ∧
      e'.data.Wf c ∧ e'.root = e.root ∧
      e'.data.lastBlocks = e.data.lastBlocks ∧
      (∀ rep v, e'.data.lastVotes.find? rep = some v → e.data.lastVotes.find? rep = some v) ∧
      (env.voting = false → e'.data.lastVotes = e.data.lastVotes ∧ history' = history) ∧
      e'.data.status.winner = (if tallySum (tallyImpl c env e.data).1 ≥ env.onlineReps.quorumDelta ∧
        some (block.hash c) ≠ e.data.status.winner.map (·.hash c) then some block
        else e.data.status.winner) ∧
      e'.data.state = (if quorumReached env.onlineReps (tallyImpl c env e.data).1
        (tallyImpl c env e.data).2.finalWeight then .confirmed else e.data.state) ∧
      effects.countP Effect.isConfirmingSetAdd = (if quorumReached env.onlineReps
        (tallyImpl c env e.data).1 (tallyImpl c env e.data).2.finalWeight ∧
        e.data.state ≠ .confirmed then 1 else 0) ∧
      (∀ h, .confirmingSetAdd h ∈ effects → quorumReached env.onlineReps
        (tallyImpl c env e.data).1 (tallyImpl c env e.data).2.finalWeight ∧
        e'.data.status.winner.map (·.hash c) = some h) ∧
      (∀ r h, .generateFinalVote r h ∈ effects → e.data.status.winner.map (·.hash c) = some h) ∧
      (history' = history ∨ history' = history.erase e.root) := by
  obtain ⟨w, hwin, -⟩ := hw.winner
  cases hfirst : (tallyImpl c env e.data).1.first? with
  | none =>
    simp only [confirmIfQuorum, hfirst] at h
    cases h
  | some kb =>
    obtain ⟨k, block⟩ := kb
    refine ⟨k, block, rfl, ?_⟩
    have hunwrap : unwrap (tallyImpl c env e.data).2.status.winner = .ok w := by
      rw [tallyImpl_status, hwin, unwrap_some]
    simp only [confirmIfQuorum, hfirst, unwrap_some, ok_bind] at h
    rw [hunwrap, ok_bind] at h
    obtain ⟨⟨d₂, history₂, forced⟩, hswitch, h⟩ := bind_eq_ok.mp h
    obtain ⟨⟨e₃, effects₃⟩, hconfirm, h⟩ := bind_eq_ok.mp h
    cases h
    obtain ⟨hw₂, hstate₂, hblocks₂, hfw₂, hwinner₂, hsub₂, hforced, hquiet₂, hhist⟩ :=
      switchWinner_of_ok (by exact hw.of_eq rfl rfl) (by exact lastBlocks_find?_of_first? hw hfirst)
        hswitch
    obtain ⟨e₄, effects₄, hconfirm', hw₃, hroot₃, hblocks₃, hvotes₃, hwinner₃, hstate₃, hcount₃,
      hhanded₃, hfinal₃⟩ := confirmOnQuorum_spec env hw₂ e (tallyImpl c env e.data).1 (w.hash c)
    rw [hconfirm'] at hconfirm
    cases hconfirm
    have hcond : (tallySum (tallyImpl c env e.data).1 ≥ env.onlineReps.quorumDelta ∧
        block.hash c ≠ w.hash c) ↔ (tallySum (tallyImpl c env e.data).1 ≥ env.onlineReps.quorumDelta ∧
        some (block.hash c) ≠ e.data.status.winner.map (·.hash c)) := by
      simp [hwin]
    refine ⟨hw₃, hroot₃, hblocks₃.trans hblocks₂, fun rep v hv => hsub₂ rep v (hvotes₃ ▸ hv),
      fun hv => ?_, ?_, ?_, ?_, ?_, ?_, hhist⟩
    · obtain ⟨hvotes₂, rfl⟩ := hquiet₂ hv
      exact ⟨hvotes₃.trans hvotes₂, rfl⟩
    · rw [hwinner₃, hwinner₂]
      exact if_congr hcond rfl rfl
    · rw [hstate₃, hfw₂, hstate₂]
      rfl
    · have hforced₀ : forced.countP Effect.isConfirmingSetAdd = 0 :=
        List.countP_eq_zero.mpr fun x hx => by simp [hforced x hx, Effect.isConfirmingSetAdd]
      rw [List.countP_append, hforced₀, hcount₃, hfw₂, hstate₂, Nat.zero_add]
      rfl
    · intro h hh
      rcases List.mem_append.mp hh with hh | hh
      · cases hforced _ hh
      · obtain ⟨hreached, w', hw', rfl⟩ := hhanded₃ h hh
        refine ⟨hfw₂ ▸ hreached, ?_⟩
        rw [hwinner₃, hw']
        rfl
    · intro r h hh
      rcases List.mem_append.mp hh with hh | hh
      · cases hforced _ hh
      · rw [hfinal₃ r h hh, hwin]
        rfl

variable (env) in
/-- `confirm_if_quorum` on a well-formed election fails only on an empty tally, when no fork it
holds has a vote. Otherwise it returns, keeps the history well formed, and does what
`confirmIfQuorum_of_ok` says. -/
theorem confirmIfQuorum_spec {e : Election} (hw : e.data.Wf c) (hh : history.Wf) :
    ((tallyImpl c env e.data).1.first? = none ∧
        confirmIfQuorum c env e history = .error noneUnwrapped) ∨
      ∃ k block, (tallyImpl c env e.data).1.first? = some (k, block) ∧
      ∃ e' history' effects, confirmIfQuorum c env e history = .ok (e', history', effects) ∧
        e'.data.Wf c ∧ history'.Wf ∧ e'.root = e.root ∧
        e'.data.lastBlocks = e.data.lastBlocks ∧
        (∀ rep v, e'.data.lastVotes.find? rep = some v → e.data.lastVotes.find? rep = some v) ∧
        (env.voting = false → e'.data.lastVotes = e.data.lastVotes ∧ history' = history) ∧
        e'.data.status.winner = (if tallySum (tallyImpl c env e.data).1 ≥ env.onlineReps.quorumDelta ∧
          some (block.hash c) ≠ e.data.status.winner.map (·.hash c) then some block
          else e.data.status.winner) ∧
        e'.data.state = (if quorumReached env.onlineReps (tallyImpl c env e.data).1
          (tallyImpl c env e.data).2.finalWeight then .confirmed else e.data.state) ∧
        effects.countP Effect.isConfirmingSetAdd = (if quorumReached env.onlineReps
          (tallyImpl c env e.data).1 (tallyImpl c env e.data).2.finalWeight ∧
          e.data.state ≠ .confirmed then 1 else 0) ∧
        (∀ h, .confirmingSetAdd h ∈ effects → quorumReached env.onlineReps
          (tallyImpl c env e.data).1 (tallyImpl c env e.data).2.finalWeight ∧
          e'.data.status.winner.map (·.hash c) = some h) ∧
        ∀ r h, .generateFinalVote r h ∈ effects → e.data.status.winner.map (·.hash c) = some h := by
  obtain ⟨w, hwin, -⟩ := hw.winner
  cases hfirst : (tallyImpl c env e.data).1.first? with
  | none =>
    refine .inl ⟨rfl, ?_⟩
    simp only [confirmIfQuorum, hfirst]
    rfl
  | some kb =>
    obtain ⟨k, block⟩ := kb
    refine .inr ⟨k, block, rfl, ?_⟩
    obtain ⟨d₂, history₂, forced, hswitch, hw₂, -⟩ := switchWinner_spec env (c := c)
      (d := { (tallyImpl c env e.data).2 with status := { (tallyImpl c env e.data).2.status with
        tally := k.amount, finalTally := (tallyImpl c env e.data).2.finalWeight } })
      (hw.of_eq rfl rfl) hh e.root (tallyImpl c env e.data).1 (lastBlocks_find?_of_first? hw hfirst)
      (w.hash c)
    obtain ⟨e₃, effects, hconfirm, -⟩ :=
      confirmOnQuorum_spec env hw₂ e (tallyImpl c env e.data).1 (w.hash c)
    have hunwrap : unwrap (tallyImpl c env e.data).2.status.winner = .ok w := by
      rw [tallyImpl_status, hwin, unwrap_some]
    have hok : confirmIfQuorum c env e history = .ok (e₃, history₂, forced ++ effects) := by
      simp only [confirmIfQuorum, hfirst, unwrap_some, ok_bind]
      rw [hunwrap, ok_bind, hswitch, ok_bind, hconfirm]
      rfl
    obtain ⟨k', block', hfirst', hw', hroot, hblocks, hsub, hquiet, hwinner, hstate, hcount,
      hhanded, hfinal, hhist⟩ := confirmIfQuorum_of_ok env hw hok
    obtain ⟨rfl, rfl⟩ := Prod.mk.inj (Option.some.inj (hfirst.symm.trans hfirst'))
    exact ⟨e₃, history₂, forced ++ effects, hok, hw', wf_of_eq_or_erase hh hhist, hroot, hblocks,
      hsub, hquiet, hwinner, hstate, hcount, hhanded, hfinal⟩

theorem confirmIfQuorum_confirms_leader {e : Election} (hw : e.data.Wf c) (hh : history.Wf)
    (hsum : (e.data.lastVotes.entries.map fun v => (env.weight v.1).toNat).sum < 2 ^ 128)
    {r : Election × LocalVoteHistory × List Effect} (h : confirmIfQuorum c env e history = .ok r)
    {hash : BlockHash} (hmem : .confirmingSetAdd hash ∈ r.2.2) :
    ∃ k block, (tallyImpl c env e.data).1.first? = some (k, block) ∧ block.hash c = hash ∧
      quorumReached env.onlineReps (tallyImpl c env e.data).1 (tallyImpl c env e.data).2.finalWeight := by
  rcases confirmIfQuorum_spec env hw hh with
    ⟨-, herr⟩ | ⟨k, block, hfirst, e', history', effects, hok, -, -, -, -, -, -, hwinner, -, -,
      hhanded, -⟩
  · rw [herr] at h
    cases h
  rw [hok] at h
  cases h
  obtain ⟨hreached, hhash⟩ := hhanded hash hmem
  refine ⟨k, block, hfirst, ?_, hreached⟩
  have hq : haveQuorum env.onlineReps (tallyImpl c env e.data).1 = true := by
    simp only [quorumReached, Bool.and_eq_true] at hreached
    exact hreached.1
  have hkey : k ∈ (tallyImpl c env e.data).1.keys :=
    mem_keys_iff.mpr (by rw [find?_of_first? hfirst]; rfl)
  have hswitch : tallySum (tallyImpl c env e.data).1 ≥ env.onlineReps.quorumDelta :=
    BitVec.le_trans (quorumDelta_le_of_haveQuorum hq hfirst)
      (le_tallySum (lt_of_le_of_lt (sum_keys_le_sum_votes c env e.data hw) hsum) hkey)
  rw [hwinner] at hhash
  by_cases hnew : some (block.hash c) ≠ e.data.status.winner.map (·.hash c)
  · rw [if_pos ⟨hswitch, hnew⟩] at hhash
    exact Option.some.inj hhash
  · rw [if_neg (fun hc => hnew hc.2)] at hhash
    exact Option.some.inj ((not_not.mp hnew).trans hhash)

/-- A vote for `hash` at `timestamp` is newer than a recorded one: a later timestamp, or the
same timestamp and a greater hash. -/
def Newer (last : VoteInfo) (timestamp : UInt64) (hash : BlockHash) : Prop :=
  last.timestamp < timestamp ∨ (last.timestamp = timestamp ∧ last.hash < hash)

instance (last : VoteInfo) (timestamp : UInt64) (hash : BlockHash) :
    Decidable (Newer last timestamp hash) :=
  inferInstanceAs (Decidable (last.timestamp < timestamp ∨
    (last.timestamp = timestamp ∧ last.hash < hash)))

theorem not_newer_iff {last : VoteInfo} {timestamp : UInt64} {hash : BlockHash} :
    ¬ Newer last timestamp hash ↔
      last.timestamp > timestamp ∨ (last.timestamp = timestamp ∧ ¬ last.hash < hash) := by
  unfold Newer
  constructor
  · intro h
    rcases UInt64.lt_or_le timestamp last.timestamp with hgt | hle
    · exact .inl hgt
    · rcases UInt64.lt_or_eq_of_le hle with hlt | heq
      · exact absurd (.inl hlt) h
      · exact .inr ⟨heq, fun hh => h (.inr ⟨heq, hh⟩)⟩
  · rintro (hgt | ⟨heq, hh⟩) (hlt | ⟨heq', hh'⟩)
    · exact UInt64.lt_asymm hlt hgt
    · rw [heq'] at hgt
      exact UInt64.lt_irrefl _ hgt
    · rw [heq] at hlt
      exact UInt64.lt_irrefl _ hlt
    · exact hh hh'

theorem checkLastVote_eq (weight : Amount) (last : VoteInfo) (timestamp : UInt64)
    (blockHash : BlockHash) (source : VoteSource) :
    checkLastVote env weight last timestamp blockHash source =
      if Newer last timestamp blockHash then
        if (timestamp = u64Max ∧ last.timestamp < timestamp) ∨ source = .cache ∨
            last.time ≤ env.now - cooldownTime env.onlineReps weight * 1000 then none
        else some .ignored
      else some .replay := by
  unfold checkLastVote
  by_cases hnewer : Newer last timestamp blockHash
  · have hchecks := mt not_newer_iff.mpr (not_not.mpr hnewer)
    rw [if_neg fun h => hchecks (.inl h), if_neg fun h => hchecks (.inr h), if_pos hnewer]
    dsimp only
    by_cases hsource : source = .cache
    · simp [hsource]
    rw [if_pos hsource]
    by_cases hmax : timestamp = u64Max ∧ last.timestamp < timestamp
    · rw [decide_eq_true hmax]
      simp only [Bool.not_true, Bool.false_and, Bool.false_eq_true, if_false]
      rw [if_pos (Or.inl hmax)]
    by_cases hcool : last.time ≤ env.now - cooldownTime env.onlineReps weight * 1000
    · rw [decide_eq_true hcool]
      simp only [Bool.not_true, Bool.and_false, Bool.false_eq_true, if_false]
      rw [if_pos (Or.inr (Or.inr hcool))]
    · rw [decide_eq_false hmax, decide_eq_false hcool]
      simp only [Bool.not_false, Bool.and_true, if_true]
      rw [if_neg (by simp [hmax, hsource, hcool])]
  · rw [if_neg hnewer]
    rcases not_newer_iff.mp hnewer with hgt | hsame
    · rw [if_pos hgt]
    · rw [if_neg fun hgt => by rw [hsame.1] at hgt; exact UInt64.lt_irrefl _ hgt, if_pos hsame]

theorem newer_of_checkLastVote {weight : Amount} {last : VoteInfo} {timestamp : UInt64}
    {blockHash : BlockHash} {source : VoteSource}
    (h : checkLastVote env weight last timestamp blockHash source = none) :
    Newer last timestamp blockHash := by
  rw [checkLastVote_eq] at h
  split_ifs at h with hnewer
  exact hnewer

variable (env) in
/-- What `vote` does: it turns the vote away with another code and no change, or records it,
newer than the representative's last, and then on an unconfirmed election runs
`confirm_if_quorum`. -/
theorem vote_cases (e : Election) (history : LocalVoteHistory) (rep : PublicKey)
    (timestamp : UInt64) (blockHash : BlockHash) (source : VoteSource) :
    (∃ code, code ≠ .vote ∧
        vote c env e history rep timestamp blockHash source = .ok (code, e, history, [])) ∨
      (¬ (env.isDevNetwork = false ∧ env.weight rep ≤ env.onlineReps.minimumPrincipalWeight) ∧
        (∀ last, e.data.lastVotes.find? rep = some last →
          checkLastVote env (env.weight rep) last timestamp blockHash source = none) ∧
        (∀ last, e.data.lastVotes.find? rep = some last → Newer last timestamp blockHash) ∧
        let e₁ : Election := { e with data := { e.data with
          lastVotes := e.data.lastVotes.insert rep ⟨env.now, timestamp, blockHash⟩ } }
        let live := if source ≠ .cache then [Effect.liveVote rep] else []
        ((e.data.state.isConfirmed = true ∧
            vote c env e history rep timestamp blockHash source = .ok (.vote, e₁, history, live)) ∨
          (e.data.state.isConfirmed = false ∧
            vote c env e history rep timestamp blockHash source =
              (fun r => (VoteCode.vote, r.1, r.2.1, live ++ r.2.2)) <$>
                confirmIfQuorum c env e₁ history))) := by
  unfold vote
  by_cases hlight : (!env.isDevNetwork && decide (env.weight rep ≤
      env.onlineReps.minimumPrincipalWeight)) = true
  · exact .inl ⟨.indeterminate, by decide, by rw [if_pos hlight]⟩
  rw [if_neg hlight]
  cases hcheck : (e.data.lastVotes.find? rep).bind
      (fun last => checkLastVote env (env.weight rep) last timestamp blockHash source) with
  | some code =>
    refine .inl ⟨code, ?_, rfl⟩
    obtain ⟨last, -, hlast⟩ := Option.bind_eq_some_iff.mp hcheck
    unfold checkLastVote at hlast
    dsimp only at hlast
    split_ifs at hlast <;> cases hlast <;> decide
  | none =>
    have hpass : ∀ last, e.data.lastVotes.find? rep = some last →
        checkLastVote env (env.weight rep) last timestamp blockHash source = none := by
      intro last hlast
      rwa [hlast, Option.bind_some] at hcheck
    refine .inr ⟨by simpa using hlight, hpass, fun last hlast => newer_of_checkLastVote
      (hpass last hlast), ?_⟩
    · dsimp only
      cases hconf : e.data.state.isConfirmed with
      | true => exact .inl ⟨rfl, rfl⟩
      | false =>
        refine .inr ⟨rfl, ?_⟩
        rw [if_neg Bool.false_ne_true]
        cases confirmIfQuorum c env _ history <;> rfl

variable (env) in
theorem tallyImpl_first?_eq_none_iff (d : ElectionData) :
    (tallyImpl c env d).1.first? = none ↔
      ∀ h b, d.lastBlocks.find? h = some b → ¬ Voted d.lastVotes h := by
  constructor
  · intro hnone h b hb hv
    obtain ⟨v, hv'⟩ := Option.isSome_iff_exists.mp (isSome_tallyImpl_find? c env d hb hv)
    obtain ⟨e, he⟩ := Option.isSome_iff_exists.mp (first?_isSome_of_find? hv')
    rw [hnone] at he
    cases he
  · intro hall
    cases hfirst : (tallyImpl c env d).1.first? with
    | none => rfl
    | some kb =>
      obtain ⟨h, hb, hv, -⟩ := tallyImpl_find?_eq_some c env d (find?_of_first? hfirst)
      exact absurd hv (hall h _ hb)

theorem eq_liveVote_of_mem_live {rep : PublicKey} {source : VoteSource} {x : Effect}
    (hx : x ∈ (if source ≠ .cache then [Effect.liveVote rep] else [])) : x = .liveVote rep := by
  split_ifs at hx
  · exact List.mem_singleton.mp hx
  · cases hx

theorem countP_confirmingSetAdd_live (rep : PublicKey) (source : VoteSource) :
    (if source ≠ .cache then [Effect.liveVote rep] else []).countP Effect.isConfirmingSetAdd = 0 :=
  List.countP_eq_zero.mpr fun x hx => by simp [eq_liveVote_of_mem_live hx, Effect.isConfirmingSetAdd]

variable (env) in
theorem vote_of_ok {e e' : Election} {history' : LocalVoteHistory} {rep : PublicKey}
    {timestamp : UInt64} {blockHash : BlockHash} {source : VoteSource} {code : VoteCode}
    {effects : List Effect} (hw : e.data.Wf c)
    (h : vote c env e history rep timestamp blockHash source = .ok (code, e', history', effects)) :
    e'.data.Wf c ∧ e'.root = e.root ∧ e'.data.lastBlocks = e.data.lastBlocks ∧
      ((effects.countP Effect.isConfirmingSetAdd = 0 ∧ e'.data.state = e.data.state) ∨
        (effects.countP Effect.isConfirmingSetAdd = 1 ∧ e.data.state.isConfirmed = false ∧
          e'.data.state = .confirmed)) ∧
      (e.data.state.isConfirmed = true → e'.data.status.winner = e.data.status.winner) ∧
      (∀ h, .confirmingSetAdd h ∈ effects →
        e'.data.status.winner.map (·.hash c) = some h ∧ e'.data.state = .confirmed) ∧
      (∀ r v', e'.data.lastVotes.find? r = some v' → ∀ v, e.data.lastVotes.find? r = some v →
        v' = v ∨ Newer v v'.timestamp v'.hash) ∧
      (∀ r h, .generateFinalVote r h ∈ effects → e.data.status.winner.map (·.hash c) = some h) ∧
      (history' = history ∨ history' = history.erase e.root) := by
  rcases vote_cases (c := c) env e history rep timestamp blockHash source with
    ⟨code₀, -, hvote⟩ | ⟨-, -, hnewer, hrecorded⟩
  · rw [hvote] at h
    cases h
    exact ⟨hw, rfl, rfl, .inl ⟨rfl, rfl⟩, fun _ => rfl, fun h hh => (by cases hh),
      fun r v' hv' v hv => .inl (Option.some.inj (hv'.symm.trans hv)), fun r h hh => (by cases hh),
      .inl rfl⟩
  have hforward : ∀ r v', (e.data.lastVotes.insert rep ⟨env.now, timestamp, blockHash⟩).find? r =
      some v' → ∀ v, e.data.lastVotes.find? r = some v → v' = v ∨ Newer v v'.timestamp v'.hash := by
    intro r v' hv' v hv
    rw [find?_insert] at hv'
    split_ifs at hv' with hr
    · subst hr
      cases hv'
      exact .inr (hnewer v hv)
    · exact .inl (Option.some.inj (hv'.symm.trans hv))
  have hw₁ : ElectionData.Wf c { e.data with
      lastVotes := e.data.lastVotes.insert rep ⟨env.now, timestamp, blockHash⟩ } := hw.of_eq rfl rfl
  rcases hrecorded with ⟨hconf, hvote⟩ | ⟨hconf, hvote⟩
  · rw [hvote] at h
    cases h
    exact ⟨hw₁, rfl, rfl, .inl ⟨countP_confirmingSetAdd_live rep source, rfl⟩, fun _ => rfl,
      fun h hh => absurd (eq_liveVote_of_mem_live hh) (by simp), hforward,
      fun r h hh => absurd (eq_liveVote_of_mem_live hh) (by simp), .inl rfl⟩
  · have hnotConfirmed : e.data.state ≠ .confirmed := fun hs => by
      rw [hs] at hconf
      cases hconf
    rw [hvote] at h
    obtain ⟨⟨e₁, history₁, effects₁⟩, hok, hr⟩ := map_eq_ok.mp h
    simp only [Prod.mk.injEq] at hr
    obtain ⟨rfl, rfl, rfl, rfl⟩ := hr
    obtain ⟨k, block, -, hw', hroot, hblocks, hsub, -, -, hstate, hcount, hhanded, hfinal, hhist⟩ :=
      confirmIfQuorum_of_ok env hw₁ hok
    refine ⟨hw', hroot, hblocks, ?_, fun h => absurd h (by simp [hconf]), fun h hh => ?_,
      fun r v' hv' v hv => hforward r v' (hsub r v' hv') v hv, fun r h hh => ?_, hhist⟩
    · rw [List.countP_append, countP_confirmingSetAdd_live, Nat.zero_add, hcount, hstate]
      split_ifs with hq₁ hq₂ hq₂
      · exact .inr ⟨rfl, hconf, rfl⟩
      · exact absurd hq₁.1 hq₂
      · exact absurd ⟨hq₂, hnotConfirmed⟩ hq₁
      · exact .inl ⟨rfl, rfl⟩
    · rcases List.mem_append.mp hh with hh | hh
      · exact absurd (eq_liveVote_of_mem_live hh) (by simp)
      · obtain ⟨hq, hwinner⟩ := hhanded h hh
        exact ⟨hwinner, by rw [hstate, if_pos hq]⟩
    · rcases List.mem_append.mp hh with hh | hh
      · exact absurd (eq_liveVote_of_mem_live hh) (by simp)
      · exact hfinal r h hh

variable (env) in
/-- `vote` on a well-formed election fails only when it records a vote on an unconfirmed
election in which no fork it holds then has a vote. Otherwise it returns, keeps the history well
formed, and does what `vote_of_ok` says. -/
theorem vote_spec {e : Election} (hw : e.data.Wf c) (hh : history.Wf) (rep : PublicKey)
    (timestamp : UInt64) (blockHash : BlockHash) (source : VoteSource) :
    (vote c env e history rep timestamp blockHash source = .error noneUnwrapped ∧
        e.data.state.isConfirmed = false ∧
        ∀ h b, e.data.lastBlocks.find? h = some b →
          ¬ Voted (e.data.lastVotes.insert rep ⟨env.now, timestamp, blockHash⟩) h) ∨
      ∃ code e' history' effects,
        vote c env e history rep timestamp blockHash source = .ok (code, e', history', effects) ∧
        e'.data.Wf c ∧ history'.Wf ∧ e'.root = e.root ∧ e'.data.lastBlocks = e.data.lastBlocks ∧
        ((effects.countP Effect.isConfirmingSetAdd = 0 ∧ e'.data.state = e.data.state) ∨
          (effects.countP Effect.isConfirmingSetAdd = 1 ∧ e.data.state.isConfirmed = false ∧
            e'.data.state = .confirmed)) ∧
        (e.data.state.isConfirmed = true → e'.data.status.winner = e.data.status.winner) ∧
        (∀ h, .confirmingSetAdd h ∈ effects →
          e'.data.status.winner.map (·.hash c) = some h ∧ e'.data.state = .confirmed) ∧
        (∀ r v', e'.data.lastVotes.find? r = some v' → ∀ v, e.data.lastVotes.find? r = some v →
          v' = v ∨ Newer v v'.timestamp v'.hash) ∧
        ∀ r h, .generateFinalVote r h ∈ effects → e.data.status.winner.map (·.hash c) = some h := by
  have hret : (vote c env e history rep timestamp blockHash source = .error noneUnwrapped ∧
      e.data.state.isConfirmed = false ∧ ∀ h b, e.data.lastBlocks.find? h = some b →
        ¬ Voted (e.data.lastVotes.insert rep ⟨env.now, timestamp, blockHash⟩) h) ∨
      ∃ r, vote c env e history rep timestamp blockHash source = .ok r := by
    rcases vote_cases (c := c) env e history rep timestamp blockHash source with
      ⟨code, -, hvote⟩ | ⟨-, -, -, ⟨-, hvote⟩ | ⟨hconf, hvote⟩⟩
    · exact .inr ⟨_, hvote⟩
    · exact .inr ⟨_, hvote⟩
    · rcases confirmIfQuorum_spec env (e := { e with data := { e.data with
          lastVotes := e.data.lastVotes.insert rep ⟨env.now, timestamp, blockHash⟩ } })
          (hw.of_eq rfl rfl) hh with ⟨hnone, herr⟩ | ⟨k, block, -, e', history', effects, hok, -⟩
      · exact .inl ⟨by rw [hvote, herr]; rfl, hconf, (tallyImpl_first?_eq_none_iff env _).mp hnone⟩
      · exact .inr ⟨_, by rw [hvote, hok]; rfl⟩
  rcases hret with herr | ⟨⟨code, e', history', effects⟩, hok⟩
  · exact .inl herr
  obtain ⟨hw', hroot, hblocks, hconfirms, hwinner, hhanded, hforward, hfinal, hhist⟩ :=
    vote_of_ok env hw hok
  exact .inr ⟨code, e', history', effects, hok, hw', wf_of_eq_or_erase hh hhist, hroot, hblocks,
    hconfirms, hwinner, hhanded, hforward, hfinal⟩

/-- `vote` on a well-formed election fails exactly when it takes the vote on an unconfirmed
election in which no fork it holds then has a vote: `confirm_if_quorum` unwraps an empty tally.
So a vote for a fork the election holds never fails. -/
theorem vote_error_iff {e : Election} (hw : e.data.Wf c) (hh : history.Wf) (rep : PublicKey)
    (timestamp : UInt64) (blockHash : BlockHash) (source : VoteSource) (msg : String) :
    vote c env e history rep timestamp blockHash source = .error msg ↔
      msg = noneUnwrapped ∧
        ¬ (env.isDevNetwork = false ∧ env.weight rep ≤ env.onlineReps.minimumPrincipalWeight) ∧
        (∀ last, e.data.lastVotes.find? rep = some last →
          checkLastVote env (env.weight rep) last timestamp blockHash source = none) ∧
        e.data.state.isConfirmed = false ∧
        ∀ h b, e.data.lastBlocks.find? h = some b →
          ¬ Voted (e.data.lastVotes.insert rep ⟨env.now, timestamp, blockHash⟩) h := by
  have hw₁ : ElectionData.Wf c { e.data with
      lastVotes := e.data.lastVotes.insert rep ⟨env.now, timestamp, blockHash⟩ } := hw.of_eq rfl rfl
  have hquorum := confirmIfQuorum_spec env (e := { e with data := { e.data with
    lastVotes := e.data.lastVotes.insert rep ⟨env.now, timestamp, blockHash⟩ } }) hw₁ hh
  constructor
  · intro h
    rcases vote_cases (c := c) env e history rep timestamp blockHash source with
      ⟨code, -, hvote⟩ | ⟨hlight, hpass, -, ⟨-, hvote⟩ | ⟨hconf, hvote⟩⟩
    · rw [hvote] at h
      cases h
    · rw [hvote] at h
      cases h
    rw [hvote] at h
    rcases hquorum with ⟨hnone, herr⟩ | ⟨k, block, -, e', history', effects, hok, -⟩
    · rw [herr] at h
      exact ⟨(Except.error.inj h).symm, hlight, hpass, hconf,
        (tallyImpl_first?_eq_none_iff env _).mp hnone⟩
    · rw [hok] at h
      cases h
  · rintro ⟨rfl, hlight, hpass, hconf, hnotVoted⟩
    have hnone := (tallyImpl_first?_eq_none_iff (c := c) env { e.data with
      lastVotes := e.data.lastVotes.insert rep ⟨env.now, timestamp, blockHash⟩ }).mpr hnotVoted
    rcases hquorum with ⟨-, herr⟩ | ⟨k, block, hfirst, -⟩
    · unfold vote
      rw [if_neg (by simpa using hlight), Option.bind_eq_none_iff.mpr hpass]
      dsimp only
      rw [if_neg (by simp [hconf]), herr]
      rfl
    · rw [hfirst] at hnone
      cases hnone

/-- The cached vote of `not_an_account_key` on a dev network moves the only vote of a fresh
election off its only fork, to a block it does not hold: the tally is empty and `vote` panics. -/
theorem vote_panics_without_held_votes :
    vote sumCrypto devEnv newElection LocalVoteHistory.empty (FixedBytes.zero 32) 1
        (FixedBytes.ofNat 32 5) .cache = .error noneUnwrapped ∧
      newElection.data.state.isConfirmed = false ∧
      ∀ h b, newElection.data.lastBlocks.find? h = some b →
        ¬ Voted (newElection.data.lastVotes.insert (FixedBytes.zero 32)
          ⟨devEnv.now, 1, FixedBytes.ofNat 32 5⟩) h := by
  have hvote : vote sumCrypto devEnv newElection LocalVoteHistory.empty (FixedBytes.zero 32) 1
      (FixedBytes.ofNat 32 5) .cache = .error noneUnwrapped := rfl
  obtain ⟨-, -, -, hconf, hnotVoted⟩ :=
    (vote_error_iff (new_wf sumCrypto _ _ _) LocalVoteHistory.empty_wf _ _ _ _ _).mp hvote
  exact ⟨hvote, hconf, hnotVoted⟩

theorem tryConfirm_spec {e : Election} (hw : e.data.Wf c) (hash : BlockHash) :
    ∃ e' effects, tryConfirm c e hash = .ok (e', effects) ∧ e'.data.Wf c ∧ e'.root = e.root ∧
      e'.data.lastBlocks = e.data.lastBlocks ∧ e'.data.lastVotes = e.data.lastVotes ∧
      e'.data.status.winner = e.data.status.winner ∧
      ((effects.countP Effect.isConfirmingSetAdd = 0 ∧ e'.data.state = e.data.state) ∨
        (effects.countP Effect.isConfirmingSetAdd = 1 ∧ e.data.state.isConfirmed = false ∧
          e'.data.state = .confirmed)) ∧
      (∀ h, .confirmingSetAdd h ∈ effects →
        e'.data.status.winner.map (·.hash c) = some h ∧ e'.data.state = .confirmed) ∧
      ∀ r h, .generateFinalVote r h ∉ effects := by
  obtain ⟨w, hwin, -⟩ := hw.winner
  by_cases hcond : w.hash c = hash ∧ e.data.state.isConfirmed = false
  · have hnotConfirmed : e.data.state ≠ .confirmed := fun hs => by
      rw [hs] at hcond
      cases hcond.2
    obtain ⟨d', effects, hconfirm, hw', hstate, hblocks, hvotes, hwinner, hcount, hhanded,
      hfinal⟩ := confirmOnce_spec hw e
    refine ⟨{ e with data := d' }, effects, ?_, hw', rfl, hblocks, hvotes, hwinner,
      .inr ⟨by rw [hcount, if_neg hnotConfirmed], hcond.2, hstate⟩, fun h hh => ?_, hfinal⟩
    · simp only [tryConfirm, hwin, if_pos hcond, hconfirm, ok_bind]
      rfl
    · obtain ⟨w', hw'', rfl⟩ := hhanded h hh
      exact ⟨by rw [hwinner, hw'']; rfl, hstate⟩
  · refine ⟨e, [], by simp only [tryConfirm, hwin, if_neg hcond], hw, rfl, rfl, rfl, rfl,
      .inl ⟨rfl, rfl⟩, fun h hh => (by cases hh), fun r h hh => (by cases hh)⟩

variable (env) in
theorem broadcastVoteLocked_spec {e : Election} (hw : e.data.Wf c) :
    ∃ e' effects, broadcastVoteLocked c env e = .ok (e', effects) ∧ e'.data.Wf c ∧
      e'.root = e.root ∧ e'.data.state = e.data.state ∧ e'.data.lastBlocks = e.data.lastBlocks ∧
      e'.data.lastVotes = e.data.lastVotes ∧ e'.data.status.winner = e.data.status.winner ∧
      (∀ h, .confirmingSetAdd h ∉ effects) ∧
      ∀ r h, .generateFinalVote r h ∈ effects → e.data.status.winner.map (·.hash c) = some h := by
  obtain ⟨w, hwin, -⟩ := hw.winner
  unfold broadcastVoteLocked
  split_ifs with hsoon hvoting
  · exact ⟨e, [], rfl, hw, rfl, rfl, rfl, rfl, rfl, fun h hh => (by cases hh),
      fun r h hh => (by cases hh)⟩
  · obtain ⟨isFinal, d, hpair, hstate, hblocks, hvotes, hwinner⟩ : ∃ isFinal d,
        (if ({ e.data with lastVote := some env.instant } : ElectionData).state.isConfirmed then
          (true, { e.data with lastVote := some env.instant })
        else ((haveQuorum env.onlineReps (tallyImpl c env { e.data with lastVote := some env.instant }).1),
          (tallyImpl c env { e.data with lastVote := some env.instant }).2)) = (isFinal, d) ∧
        d.state = e.data.state ∧ d.lastBlocks = e.data.lastBlocks ∧ d.lastVotes = e.data.lastVotes ∧
        d.status.winner = e.data.status.winner := by
      split_ifs
      · exact ⟨_, _, rfl, rfl, rfl, rfl, rfl⟩
      · exact ⟨_, _, rfl, rfl, rfl, rfl, rfl⟩
    have hwin' : d.status.winner = some w := hwinner.trans hwin
    refine ⟨{ e with data := d }, [if isFinal then .generateFinalVote e.root (w.hash c)
      else .generateNonFinalVote e.root (w.hash c)], ?_, hw.of_eq hblocks hwinner, rfl, hstate,
      hblocks, hvotes, hwinner, fun h hh => ?_, fun r h hh => ?_⟩
    · simp only [hpair, hwin', unwrap_some, ok_bind]
      rfl
    · split_ifs at hh <;> simp at hh
    · split_ifs at hh
      · simp only [List.mem_singleton, Effect.generateFinalVote.injEq] at hh
        rw [hwin, hh.2]
        rfl
      · simp at hh
  · exact ⟨_, [], rfl, hw.of_eq rfl rfl, rfl, rfl, rfl, rfl, rfl, fun h hh => (by cases hh),
      fun r h hh => (by cases hh)⟩

variable (env) in
theorem broadcastVote_spec {e : Election} (hw : e.data.Wf c) :
    ∃ e' effects, broadcastVote c env e = .ok (e', effects) ∧ e'.data.Wf c ∧
      e'.root = e.root ∧ e'.data.state = e.data.state ∧ e'.data.lastBlocks = e.data.lastBlocks ∧
      e'.data.lastVotes = e.data.lastVotes ∧ e'.data.status.winner = e.data.status.winner ∧
      (∀ h, .confirmingSetAdd h ∉ effects) ∧
      ∀ r h, .generateFinalVote r h ∈ effects → e.data.status.winner.map (·.hash c) = some h := by
  unfold broadcastVote
  split_ifs
  · obtain ⟨e', effects, hb, hw', hroot, hstate, hblocks, hvotes, hwinner, hhanded, hfinal⟩ :=
      broadcastVoteLocked_spec env hw
    exact ⟨{ e' with data := { e'.data with lastVote := some env.instant } }, effects,
      by rw [hb]; rfl, hw'.of_eq rfl rfl, hroot, hstate, hblocks, hvotes, hwinner, hhanded, hfinal⟩
  · exact ⟨e, [], rfl, hw, rfl, rfl, rfl, rfl, rfl, fun h hh => (by cases hh),
      fun r h hh => (by cases hh)⟩

/-! ## Votes, over every election and every vote -/

/-- A vote replaces a representative's recorded vote only by a newer one. -/
theorem vote_replaces_votes_only_by_newer {e : Election} (hw : e.data.Wf c) (hh : history.Wf)
    {rep : PublicKey} {timestamp : UInt64} {blockHash : BlockHash} {source : VoteSource}
    {r : VoteCode × Election × LocalVoteHistory × List Effect}
    (h : vote c env e history rep timestamp blockHash source = .ok r) :
    ∀ rep' v', r.2.1.data.lastVotes.find? rep' = some v' → ∀ v,
      e.data.lastVotes.find? rep' = some v → v' = v ∨ Newer v v'.timestamp v'.hash := by
  rcases vote_spec env hw hh rep timestamp blockHash source with
    ⟨herr, -⟩ | ⟨code, e', history', effects, hok, -, -, -, -, -, -, -, hforward, -⟩
  · rw [herr] at h
    cases h
  · rw [hok] at h
    cases h
    exact hforward

/-- The vote of representative `1` on the two forks records it, the only change to the votes. -/
theorem vote_replaces_votes_on_two_forks :
    ∃ r, vote sumCrypto votingEnv twoForks LocalVoteHistory.empty (FixedBytes.ofNat 32 1) 1
        ((changeTo 1).hash sumCrypto) .live = .ok r ∧
      r.2.1.data.lastVotes.find? (FixedBytes.ofNat 32 1) = some ⟨0, 1, (changeTo 1).hash sumCrypto⟩ ∧
      ∀ rep' v', r.2.1.data.lastVotes.find? rep' = some v' → ∀ v,
        twoForks.data.lastVotes.find? rep' = some v → v' = v ∨ Newer v v'.timestamp v'.hash := by
  have hrun : (vote sumCrypto votingEnv twoForks LocalVoteHistory.empty (FixedBytes.ofNat 32 1) 1
      ((changeTo 1).hash sumCrypto) .live).toOption.map
        (fun r => r.2.1.data.lastVotes.find? (FixedBytes.ofNat 32 1)) =
      some (some ⟨0, 1, (changeTo 1).hash sumCrypto⟩) := by
    decide
  cases hvote : vote sumCrypto votingEnv twoForks LocalVoteHistory.empty (FixedBytes.ofNat 32 1) 1
      ((changeTo 1).hash sumCrypto) .live with
  | error msg =>
    rw [hvote] at hrun
    cases hrun
  | ok r =>
    rw [hvote] at hrun
    simp only [Except.toOption, Option.map_some, Option.some.injEq] at hrun
    exact ⟨r, rfl, hrun, vote_replaces_votes_only_by_newer twoForks_wf LocalVoteHistory.empty_wf hvote⟩

/-- The final vote a vote makes the node generate is for the winner before the vote: when the
same vote moves the winner to another fork, the node votes final for the fork it left. -/
theorem vote_final_vote_for_winner_before {e : Election} (hw : e.data.Wf c) (hh : history.Wf)
    {rep : PublicKey} {timestamp : UInt64} {blockHash : BlockHash} {source : VoteSource}
    {r : VoteCode × Election × LocalVoteHistory × List Effect}
    (h : vote c env e history rep timestamp blockHash source = .ok r) :
    ∀ root hash, .generateFinalVote root hash ∈ r.2.2.2 →
      e.data.status.winner.map (·.hash c) = some hash := by
  rcases vote_spec env hw hh rep timestamp blockHash source with
    ⟨herr, -⟩ | ⟨code, e', history', effects, hok, -, -, -, -, -, -, -, -, hfinal⟩
  · rw [herr] at h
    cases h
  · rw [hok] at h
    cases h
    exact hfinal

/-- The vote of representative `1` on the two forks: it moves the winner to fork `1`, with all
the weight, and the node votes final for fork `0`. -/
theorem vote_final_vote_after_switch :
    ∃ r, vote sumCrypto votingEnv twoForks LocalVoteHistory.empty (FixedBytes.ofNat 32 1) 1
        ((changeTo 1).hash sumCrypto) .live = .ok r ∧
      Effect.generateFinalVote twoForks.root ((changeTo 0).hash sumCrypto) ∈ r.2.2.2 ∧
      r.2.1.data.status.winner.map (·.hash sumCrypto) = some ((changeTo 1).hash sumCrypto) ∧
      twoForks.data.status.winner.map (·.hash sumCrypto) = some ((changeTo 0).hash sumCrypto) := by
  have hrun : (vote sumCrypto votingEnv twoForks LocalVoteHistory.empty (FixedBytes.ofNat 32 1) 1
      ((changeTo 1).hash sumCrypto) .live).toOption.map
        (fun r => (decide (Effect.generateFinalVote twoForks.root ((changeTo 0).hash sumCrypto) ∈ r.2.2.2),
          r.2.1.data.status.winner.map (·.hash sumCrypto))) =
      some (true, some ((changeTo 1).hash sumCrypto)) := by
    decide
  cases hvote : vote sumCrypto votingEnv twoForks LocalVoteHistory.empty (FixedBytes.ofNat 32 1) 1
      ((changeTo 1).hash sumCrypto) .live with
  | error msg =>
    rw [hvote] at hrun
    cases hrun
  | ok r =>
    rw [hvote] at hrun
    simp only [Except.toOption, Option.map_some, Option.some.injEq, Prod.mk.injEq,
      decide_eq_true_eq] at hrun
    obtain ⟨hmem, hwinner⟩ := hrun
    exact ⟨r, rfl, hmem, hwinner, vote_final_vote_for_winner_before twoForks_wf
      LocalVoteHistory.empty_wf hvote _ _ hmem⟩

/-- A vote confirms only a fork that leads by the quorum. When the weights of the votes do not
wrap around, the fork it hands over is one the election holds with a vote, the weight `tally_impl`
found in final votes reaches the quorum, and every other fork the election holds with a vote
has the same weight behind it or at least the quorum less: forks of equal weight share one key
of the tally. -/
theorem vote_confirms_only_leading_fork {e : Election} (hw : e.data.Wf c) (hh : history.Wf)
    {rep : PublicKey} {timestamp : UInt64} {blockHash : BlockHash} {source : VoteSource}
    {r : VoteCode × Election × LocalVoteHistory × List Effect}
    (h : vote c env e history rep timestamp blockHash source = .ok r)
    (hsum : ((e.data.lastVotes.insert rep ⟨env.now, timestamp, blockHash⟩).entries.map
      fun v => (env.weight v.1).toNat).sum < 2 ^ 128)
    {hash : BlockHash} (hmem : .confirmingSetAdd hash ∈ r.2.2.2) :
    let votes := e.data.lastVotes.insert rep ⟨env.now, timestamp, blockHash⟩
    (∃ b, e.data.lastBlocks.find? hash = some b) ∧ Voted votes hash ∧
      env.onlineReps.quorumDelta ≤
        (if FinalVoted votes hash then finalTally env.weight votes hash else e.data.finalWeight) ∧
      ∀ h' b', e.data.lastBlocks.find? h' = some b' → Voted votes h' →
        blockTally env.weight votes h' = blockTally env.weight votes hash ∨
          env.onlineReps.quorumDelta.toNat + (blockTally env.weight votes h').toNat ≤
            (blockTally env.weight votes hash).toNat := by
  intro votes
  rcases vote_cases (c := c) env e history rep timestamp blockHash source with
    ⟨code, -, hvote⟩ | ⟨-, -, -, hrecorded⟩
  · rw [hvote] at h
    cases h
    cases hmem
  rcases hrecorded with ⟨-, hvote⟩ | ⟨-, hvote⟩
  · rw [hvote] at h
    cases h
    exact absurd (eq_liveVote_of_mem_live hmem) (by simp)
  rw [hvote] at h
  obtain ⟨r', hr', rfl⟩ := map_eq_ok.mp h
  have hmem' : .confirmingSetAdd hash ∈ r'.2.2 := by
    rcases List.mem_append.mp hmem with hmem | hmem
    · exact absurd (eq_liveVote_of_mem_live hmem) (by simp)
    · exact hmem
  set d₁ : ElectionData := { e.data with lastVotes := votes }
  have hw₁ : d₁.Wf c := hw.of_eq rfl rfl
  obtain ⟨k, block, hfirst, rfl, hreached⟩ := confirmIfQuorum_confirms_leader hw₁ hh hsum hr' hmem'
  obtain ⟨h₀, hheld, hvoted, htally⟩ := tallyImpl_find?_eq_some c env d₁ (find?_of_first? hfirst)
  obtain rfl : block.hash c = h₀ := hw₁.keyed h₀ block hheld
  have hq : haveQuorum env.onlineReps (tallyImpl c env d₁).1 = true ∧
      (tallyImpl c env d₁).2.finalWeight ≥ env.onlineReps.quorumDelta := by
    simpa [quorumReached] using hreached
  refine ⟨⟨block, hheld⟩, hvoted, ?_, fun h' b' hb' hv' => ?_⟩
  · have hfinal := tallyImpl_finalWeight c env d₁
    rw [hfirst] at hfinal
    dsimp only at hfinal
    rw [← hfinal]
    exact hq.2
  · rw [htally]
    exact haveQuorum_separates_forks c env d₁ hq.1 hfirst hb' hv'

/-- The two forks, with a final vote of representative `2` for fork `0`. -/
def finalForFork0 : Election :=
  { twoForks with data := { twoForks.data with lastVotes := (empty.insert (FixedBytes.ofNat 32 2)
      ⟨0, u64Max, (changeTo 0).hash sumCrypto⟩) } }

/-- Forks of equal weight with final votes: the final vote of representative `1` for fork `1`
confirms fork `1`, while fork `0` has the same weight behind it in final votes. -/
theorem vote_confirms_one_of_two_tied_forks :
    ∃ r, vote sumCrypto tieEnv finalForFork0 LocalVoteHistory.empty (FixedBytes.ofNat 32 1) u64Max
        ((changeTo 1).hash sumCrypto) .live = .ok r ∧
      Effect.confirmingSetAdd ((changeTo 1).hash sumCrypto) ∈ r.2.2.2 ∧
      let votes := finalForFork0.data.lastVotes.insert (FixedBytes.ofNat 32 1)
        ⟨tieEnv.now, u64Max, (changeTo 1).hash sumCrypto⟩
      FinalVoted votes ((changeTo 0).hash sumCrypto) ∧
        blockTally tieEnv.weight votes ((changeTo 0).hash sumCrypto) =
          blockTally tieEnv.weight votes ((changeTo 1).hash sumCrypto) := by
  have hrun : (vote sumCrypto tieEnv finalForFork0 LocalVoteHistory.empty (FixedBytes.ofNat 32 1)
      u64Max ((changeTo 1).hash sumCrypto) .live).toOption.map
        (fun r => decide (Effect.confirmingSetAdd ((changeTo 1).hash sumCrypto) ∈ r.2.2.2)) =
      some true := by
    decide
  cases hvote : vote sumCrypto tieEnv finalForFork0 LocalVoteHistory.empty (FixedBytes.ofNat 32 1)
      u64Max ((changeTo 1).hash sumCrypto) .live with
  | error msg =>
    rw [hvote] at hrun
    cases hrun
  | ok r =>
    rw [hvote] at hrun
    simp only [Except.toOption, Option.map_some, Option.some.injEq, decide_eq_true_eq] at hrun
    obtain ⟨-, -, -, hother⟩ := vote_confirms_only_leading_fork
      (show finalForFork0.data.Wf sumCrypto from twoForks_wf.of_eq rfl rfl) LocalVoteHistory.empty_wf
      hvote (by decide) hrun
    have hkept : (FixedBytes.ofNat 32 2, (⟨0, u64Max, (changeTo 0).hash sumCrypto⟩ : VoteInfo)) ∈
        (finalForFork0.data.lastVotes.insert (FixedBytes.ofNat 32 1)
          ⟨tieEnv.now, u64Max, (changeTo 1).hash sumCrypto⟩).entries := by
      decide
    refine ⟨r, rfl, hrun, ⟨_, hkept, rfl, rfl⟩, ?_⟩
    rcases hother _ (.saved (savedChangeTo 0)) rfl ⟨_, hkept, rfl⟩ with htie | hgap
    · exact htie
    · exact absurd hgap (by decide)

end Spec

end RsbanNode.Consensus.Voting
