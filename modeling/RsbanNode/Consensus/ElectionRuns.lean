import RsbanNode.Consensus.VoteSpec

namespace RsbanNode.Consensus.Voting

open RsbanNode.Primitives RsbanNode.Blocks RsbanNode.Messages RsbanNode.OrderedMap OrdMap
  RsbanNode.Result

/-! ## The calls on one election -/

def transitionActive (e : Election) : Election :=
  match (Consensus.ElectionData.mk e.data.state).stateChange .passive .active with
  | .ok d => { e with data := { e.data with state := d.state } }
  | .error _ => e

def cancel (e : Election) : Election :=
  match (Consensus.ElectionData.mk e.data.state).stateChange e.data.state .cancelled with
  | .ok d => { e with data := { e.data with state := d.state } }
  | .error _ => e

/-- `ActiveElections::transition_time`: an active election first broadcasts the node's vote;
the state then changes as `ActiveElections.transitionTime` has it. Returns whether the election
is to be cleaned up. -/
def transitionTime (c : Crypto) (env : VoteEnv) (passiveOver ttlOver : Bool) (e : Election) :
    Except String (Bool × Election × List Effect) := do
  let (e, effects) ← (if e.data.state = .active then broadcastVote c env e else pure (e, []) :
    Except String (Election × List Effect))
  let (result, d) ← ActiveElections.transitionTime passiveOver ttlOver ⟨e.data.state⟩
  pure (result, { e with data := { e.data with state := d.state } }, effects)

/-- The calls the node makes on one election, each under the election's mutex, and those of the
vote generator on the shared history of the node's own votes. `publish` is one call;
`remove_block` and the insertion that ends `publish` are calls of their own too, because
`replace_by_weight` releases the mutex between them. -/
inductive Call
  | vote (env : VoteEnv) (rep : PublicKey) (timestamp : UInt64) (blockHash : BlockHash)
      (source : VoteSource)
  | tryConfirm (hash : BlockHash)
  | broadcastVote (env : VoteEnv)
  | transitionActive
  | cancel
  | transitionTime (env : VoteEnv) (passiveOver ttlOver : Bool)
  | removeBlock (hash : BlockHash)
  | publishInsert (block : Block)
  | publish (weight : PublicKey → Amount) (block : Block) (inactiveExisting : List Vote)
  | localHistory (maxCache : Nat) (call : LocalVoteHistory.Call)

/-- One call on the election and the history, with what it asks of the rest of the node. -/
def Call.apply (c : Crypto) :
    Call → Election × LocalVoteHistory → Except String (Election × LocalVoteHistory × List Effect)
  | .vote env rep timestamp blockHash source, (e, history) =>
    (fun r => (r.2.1, r.2.2.1, r.2.2.2)) <$>
      Voting.vote c env e history rep timestamp blockHash source
  | .tryConfirm hash, (e, history) => (fun r => (r.1, history, r.2)) <$> Voting.tryConfirm c e hash
  | .broadcastVote env, (e, history) =>
    (fun r => (r.1, history, r.2)) <$> Voting.broadcastVote c env e
  | .transitionActive, (e, history) => .ok (Voting.transitionActive e, history, [])
  | .cancel, (e, history) => .ok (Voting.cancel e, history, [])
  | .transitionTime env passiveOver ttlOver, (e, history) =>
    (fun r => (r.2.1, history, r.2.2)) <$> Voting.transitionTime c env passiveOver ttlOver e
  | .removeBlock hash, (e, history) =>
    (fun r => ({ e with data := r.1 }, history, r.2)) <$> Voting.removeBlock c e.data hash
  | .publishInsert block, (e, history) =>
    (fun r => ({ e with data := r.2.1 }, history, r.2.2)) <$> Voting.publishInsert c e.data block
  | .publish weight block inactiveExisting, (e, history) =>
    (fun r => ({ e with data := r.2.1 }, history, r.2.2)) <$>
      Voting.publish c weight e.data block inactiveExisting
  | .localHistory maxCache call, (e, history) => (fun h => (e, h, [])) <$> call.apply maxCache history

def run (c : Crypto) :
    List Call → Election × LocalVoteHistory → Except String (Election × LocalVoteHistory × List Effect)
  | [], (e, history) => .ok (e, history, [])
  | call :: calls, s => do
    let (e, history, effects) ← call.apply c s
    let (e, history, effects') ← run c calls (e, history)
    pure (e, history, effects ++ effects')

/-- The election of the state machine of `Election.lean` that an election is. -/
def Election.abstract (e : Election) : Consensus.ElectionData := ⟨e.data.state⟩

/-! ## What every call keeps -/

structure Inv (c : Crypto) (s : Election × LocalVoteHistory) : Prop where
  wf : s.1.data.Wf c
  history : s.2.Wf

/-- What calls from a well-formed election do, whichever they are and whatever the history:
the election stays well formed; the state machine of `Election.lean` makes the same change of state by calls of its
own, with the same hand-overs to the confirming set; a confirmed election keeps its winner; and
every hash handed over is the winner of a confirmed election. -/
structure Step (c : Crypto) (s s' : Election × LocalVoteHistory) (effects : List Effect) : Prop where
  wf : s'.1.data.Wf c
  root : s'.1.root = s.1.root
  abstract : ∃ calls,
    runCalls calls s.1.abstract = .ok (effects.countP Effect.isConfirmingSetAdd, s'.1.abstract)
  confirmedWinner : s.1.data.state.isConfirmed = true →
    s'.1.data.status.winner.map (·.hash c) = s.1.data.status.winner.map (·.hash c)
  handed : ∀ h, .confirmingSetAdd h ∈ effects →
    s'.1.data.status.winner.map (·.hash c) = some h ∧ s'.1.data.state.isConfirmed = true

variable {c : Crypto} {s s' s'' : Election × LocalVoteHistory} {effects effects' : List Effect}

theorem Step.refl (hw : s.1.data.Wf c) : Step c s s [] where
  wf := hw
  root := rfl
  abstract := ⟨[], rfl⟩
  confirmedWinner := fun _ => rfl
  handed := fun _ h => by cases h

theorem Step.isConfirmed (h : Step c s s' effects) (hs : s.1.data.state.isConfirmed = true) :
    s'.1.data.state.isConfirmed = true := by
  obtain ⟨calls, hcalls⟩ := h.abstract
  exact runCalls_isConfirmed hcalls hs

theorem Step.trans (h₁ : Step c s s' effects) (h₂ : Step c s' s'' effects') :
    Step c s s'' (effects ++ effects') where
  wf := h₂.wf
  root := h₂.root.trans h₁.root
  abstract := by
    obtain ⟨calls₁, hcalls₁⟩ := h₁.abstract
    obtain ⟨calls₂, hcalls₂⟩ := h₂.abstract
    exact ⟨calls₁ ++ calls₂, by rw [List.countP_append]; exact runCalls_append hcalls₁ hcalls₂⟩
  confirmedWinner := fun hs => (h₂.confirmedWinner (h₁.isConfirmed hs)).trans (h₁.confirmedWinner hs)
  handed := by
    intro h hh
    rcases List.mem_append.mp hh with hh | hh
    · obtain ⟨hwinner, hconfirmed⟩ := h₁.handed h hh
      exact ⟨(h₂.confirmedWinner hconfirmed).trans hwinner, h₂.isConfirmed hconfirmed⟩
    · exact h₂.handed h hh

theorem ForksStep.not_handed {d d' : ElectionData} (h : ForksStep c d d' effects) (hash : BlockHash) :
    .confirmingSetAdd hash ∉ effects := fun hh => by
  have := List.countP_eq_zero.mp h.quiet _ hh
  simp [Effect.isConfirmingSetAdd] at this

theorem Step.of_forksStep (hforks : ForksStep c s.1.data s'.1.data effects)
    (hroot : s'.1.root = s.1.root) : Step c s s' effects where
  wf := hforks.wf
  root := hroot
  abstract := ⟨[], by rw [hforks.quiet, Election.abstract, Election.abstract, hforks.state]; rfl⟩
  confirmedWinner := fun _ => hforks.winner
  handed := fun h hh => absurd hh (hforks.not_handed h)

theorem abstract_of_confirms {e e' : Election} {n : Nat}
    (h : (n = 0 ∧ e'.data.state = e.data.state) ∨
      (n = 1 ∧ e.data.state.isConfirmed = false ∧ e'.data.state = .confirmed)) :
    ∃ calls, runCalls calls e.abstract = .ok (n, e'.abstract) := by
  rcases h with ⟨rfl, hstate⟩ | ⟨rfl, hconf, hstate⟩
  · exact ⟨[], by rw [Election.abstract, Election.abstract, hstate]; rfl⟩
  · refine ⟨[.vote true], ?_⟩
    have hne : e.data.state ≠ .confirmed := fun hs => by
      rw [hs] at hconf
      cases hconf
    simp [runCalls, ElectionCall.apply, Election.abstract, hconf, Consensus.ElectionData.confirmOnce,
      hne, hstate]

/-! ## Each call -/

section Calls

variable {e e' : Election}

theorem transitionActive_data (e : Election) :
    transitionActive e = { e with data := { e.data with state := (transitionActive e).data.state } } := by
  unfold transitionActive
  split <;> rfl

theorem cancel_data (e : Election) :
    cancel e = { e with data := { e.data with state := (cancel e).data.state } } := by
  unfold cancel
  split <;> rfl

theorem transitionActive_abstract (e : Election) :
    ElectionCall.transitionActive.apply e.abstract = .ok (false, (transitionActive e).abstract) := by
  unfold transitionActive Election.abstract
  simp only [ElectionCall.apply]
  cases (Consensus.ElectionData.mk e.data.state).stateChange .passive .active <;> rfl

theorem cancel_abstract (e : Election) :
    ElectionCall.cancel.apply e.abstract = .ok (false, (cancel e).abstract) := by
  unfold cancel Election.abstract
  simp only [ElectionCall.apply]
  cases (Consensus.ElectionData.mk e.data.state).stateChange e.data.state .cancelled <;> rfl

theorem transitionTime_spec (hw : e.data.Wf c) {env : VoteEnv} {passiveOver ttlOver result : Bool}
    (h : transitionTime c env passiveOver ttlOver e = .ok (result, e', effects)) :
    ActiveElections.transitionTime passiveOver ttlOver e.abstract = .ok (result, e'.abstract) ∧
      ForksStep c e.data { e'.data with state := e.data.state } effects ∧ e'.root = e.root := by
  unfold transitionTime at h
  obtain ⟨⟨e₁, effects₁⟩, hbroadcast, h⟩ := bind_eq_ok.mp h
  have hstep₁ : ForksStep c e.data e₁.data effects₁ ∧ e₁.root = e.root := by
    split_ifs at hbroadcast
    · obtain ⟨e₂, effects₂, hb, hw₂, hroot, hstate, -, hvotes, hwinner, hhanded, -⟩ :=
        broadcastVote_spec env hw
      rw [hb] at hbroadcast
      cases hbroadcast
      exact ⟨⟨hw₂, hstate, by rw [hwinner], fun rep v hv => hvotes ▸ hv,
        List.countP_eq_zero.mpr fun x hx => by
          cases x <;> simp_all [Effect.isConfirmingSetAdd]⟩, hroot⟩
    · cases hbroadcast
      exact ⟨ForksStep.refl hw, rfl⟩
  obtain ⟨⟨result', d⟩, htime, h⟩ := bind_eq_ok.mp h
  cases h
  refine ⟨by rw [Election.abstract, ← hstep₁.1.state]; exact htime, ?_, hstep₁.2⟩
  exact ⟨hstep₁.1.wf.of_eq rfl rfl, rfl, hstep₁.1.winner, hstep₁.1.votes, hstep₁.1.quiet⟩

end Calls

/-! ## Every call, every run -/

theorem Call.apply_step (hw : s.1.data.Wf c) {call : Call}
    {r : Election × LocalVoteHistory × List Effect} (h : call.apply c s = .ok r) :
    Step c s (r.1, r.2.1) r.2.2 := by
  obtain ⟨e, history⟩ := s
  cases call with
  | vote env rep timestamp blockHash source =>
    obtain ⟨⟨code, e₁, history₁, effects₁⟩, hvote, rfl⟩ := map_eq_ok.mp h
    obtain ⟨hw₁, hroot, -, hconfirms, hwinner, hhanded, -, -, -⟩ := vote_of_ok env hw hvote
    exact ⟨hw₁, hroot, abstract_of_confirms hconfirms,
      fun hconf => by rw [hwinner hconf],
      fun h hh => ⟨(hhanded h hh).1, by rw [(hhanded h hh).2]; rfl⟩⟩
  | tryConfirm hash =>
    obtain ⟨r, htry, rfl⟩ := map_eq_ok.mp h
    obtain ⟨e₁, effects₁, hok, hw₁, hroot, -, -, hwinner, hconfirms, hhanded, -⟩ :=
      tryConfirm_spec hw hash
    rw [hok] at htry
    cases htry
    exact ⟨hw₁, hroot, abstract_of_confirms hconfirms,
      fun _ => by rw [hwinner], fun h hh => ⟨(hhanded h hh).1, by rw [(hhanded h hh).2]; rfl⟩⟩
  | broadcastVote env =>
    obtain ⟨r, hb, rfl⟩ := map_eq_ok.mp h
    obtain ⟨e₁, effects₁, hok, hw₁, hroot, hstate, -, hvotes, hwinner, hhanded, -⟩ :=
      broadcastVote_spec env hw
    rw [hok] at hb
    cases hb
    refine Step.of_forksStep ⟨hw₁, hstate, by rw [hwinner], fun rep v hv => hvotes ▸ hv, ?_⟩ hroot
    exact List.countP_eq_zero.mpr fun x hx => by cases x <;> simp_all [Effect.isConfirmingSetAdd]
  | transitionActive =>
    cases h
    have hdata := transitionActive_data e
    refine ⟨?_, by rw [hdata], ⟨[.transitionActive], ?_⟩, fun _ => by rw [hdata],
      fun h hh => by cases hh⟩
    · rw [hdata]
      exact hw.of_eq rfl rfl
    · simp [runCalls, transitionActive_abstract]
  | cancel =>
    cases h
    have hdata := cancel_data e
    refine ⟨?_, by rw [hdata], ⟨[.cancel], ?_⟩, fun _ => by rw [hdata],
      fun h hh => by cases hh⟩
    · rw [hdata]
      exact hw.of_eq rfl rfl
    · simp [runCalls, cancel_abstract]
  | transitionTime env passiveOver ttlOver =>
    obtain ⟨⟨result, e₁, effects₁⟩, htime, rfl⟩ := map_eq_ok.mp h
    obtain ⟨habstract, hforks, hroot⟩ := transitionTime_spec hw htime
    refine ⟨hforks.wf.of_eq rfl rfl, hroot, ⟨[.transitionTime passiveOver ttlOver], ?_⟩,
      fun _ => hforks.winner, fun h hh => absurd hh (hforks.not_handed h)⟩
    simp [runCalls, ElectionCall.apply, habstract, hforks.quiet, Except.map]
  | removeBlock hash =>
    obtain ⟨⟨d₁, effects₁⟩, hremove, rfl⟩ := map_eq_ok.mp h
    exact Step.of_forksStep (removeBlock_forksStep hw hremove) rfl
  | publishInsert block =>
    obtain ⟨⟨result, d₁, effects₁⟩, hinsert, rfl⟩ := map_eq_ok.mp h
    exact Step.of_forksStep (publishInsert_forksStep hw hinsert) rfl
  | publish weight block inactiveExisting =>
    obtain ⟨⟨result, d₁, effects₁⟩, hpublish, rfl⟩ := map_eq_ok.mp h
    exact Step.of_forksStep (publish_forksStep hw hpublish) rfl
  | localHistory maxCache call =>
    obtain ⟨history₁, -, rfl⟩ := map_eq_ok.mp h
    exact Step.of_forksStep (ForksStep.refl hw) rfl

/-- Every run from a well-formed election is a step, whatever the history. -/
theorem run_step {calls : List Call} (hw : s.1.data.Wf c)
    {r : Election × LocalVoteHistory × List Effect} (h : run c calls s = .ok r) :
    Step c s (r.1, r.2.1) r.2.2 := by
  induction calls generalizing s r with
  | nil =>
    obtain ⟨e, history⟩ := s
    cases h
    exact Step.refl hw
  | cons call calls ih =>
    obtain ⟨⟨e₁, history₁, effects₁⟩, happly, h⟩ := bind_eq_ok.mp h
    obtain ⟨⟨e₂, history₂, effects₂⟩, hrun, h⟩ := bind_eq_ok.mp h
    cases h
    have hstep₁ := Call.apply_step hw happly
    exact hstep₁.trans (ih hstep₁.wf hrun)

/-- The adds of the vote generator to the history, the one call that takes a history id. -/
def Call.historyAdds : Call → Nat
  | .localHistory _ (.add ..) => 1
  | _ => 0

def historyAdds (calls : List Call) : Nat := (calls.map Call.historyAdds).sum

open LocalVoteHistory in
theorem Call.apply_history (hs : Inv c s) {call : Call}
    (hid : idsEnd s.2.history + call.historyAdds ≤ 2 ^ 64)
    {r : Election × LocalVoteHistory × List Effect} (h : call.apply c s = .ok r) :
    r.2.1.Wf ∧ idsEnd r.2.1.history ≤ idsEnd s.2.history + call.historyAdds := by
  obtain ⟨e, history⟩ := s
  have hkept : ∀ {history'}, history' = history ∨ history' = history.erase e.root →
      history'.Wf ∧ idsEnd history'.history ≤ idsEnd history.history + call.historyAdds := by
    intro history' hhist
    refine ⟨wf_of_eq_or_erase hs.history hhist, ?_⟩
    rcases hhist with rfl | rfl
    · exact Nat.le_add_right _ _
    · exact (idsEnd_le_of_shrinks (erase_wf hs.history e.root).2.1).trans (Nat.le_add_right _ _)
  cases call with
  | vote env rep timestamp blockHash source =>
    obtain ⟨⟨code, e₁, history₁, effects₁⟩, hvote, rfl⟩ := map_eq_ok.mp h
    exact hkept (vote_of_ok env hs.wf hvote).2.2.2.2.2.2.2.2
  | tryConfirm hash =>
    obtain ⟨r, -, rfl⟩ := map_eq_ok.mp h
    exact hkept (.inl rfl)
  | broadcastVote env =>
    obtain ⟨r, -, rfl⟩ := map_eq_ok.mp h
    exact hkept (.inl rfl)
  | transitionActive =>
    cases h
    exact hkept (.inl rfl)
  | cancel =>
    cases h
    exact hkept (.inl rfl)
  | transitionTime env passiveOver ttlOver =>
    obtain ⟨r, -, rfl⟩ := map_eq_ok.mp h
    exact hkept (.inl rfl)
  | removeBlock hash =>
    obtain ⟨r, -, rfl⟩ := map_eq_ok.mp h
    exact hkept (.inl rfl)
  | publishInsert block =>
    obtain ⟨r, -, rfl⟩ := map_eq_ok.mp h
    exact hkept (.inl rfl)
  | publish weight block inactiveExisting =>
    obtain ⟨r, -, rfl⟩ := map_eq_ok.mp h
    exact hkept (.inl rfl)
  | localHistory maxCache call =>
    obtain ⟨history₁, hcall, rfl⟩ := map_eq_ok.mp h
    cases call with
    | add root hash vote =>
      dsimp only [Call.historyAdds] at hid ⊢
      obtain ⟨d', hadd, hw', -, hend, -⟩ :=
        add_wf maxCache hs.history (show idsEnd history.history < 2 ^ 64 by omega) root hash vote
      rw [LocalVoteHistory.Call.apply, hadd] at hcall
      cases hcall
      exact ⟨hw', hend⟩
    | erase root =>
      cases hcall
      obtain ⟨hw', hshrinks, -⟩ := erase_wf hs.history root
      exact ⟨hw', (idsEnd_le_of_shrinks hshrinks).trans (Nat.le_add_right _ _)⟩

open LocalVoteHistory in
/-- Every run from a state with the invariant whose adds keep the history ids below `2 ^ 64`
keeps the invariant. -/
theorem run_inv {calls : List Call} (hs : Inv c s)
    (hid : idsEnd s.2.history + historyAdds calls ≤ 2 ^ 64)
    {r : Election × LocalVoteHistory × List Effect} (h : run c calls s = .ok r) :
    Inv c (r.1, r.2.1) := by
  induction calls generalizing s r with
  | nil =>
    obtain ⟨e, history⟩ := s
    cases h
    exact hs
  | cons call calls ih =>
    obtain ⟨⟨e₁, history₁, effects₁⟩, happly, h⟩ := bind_eq_ok.mp h
    obtain ⟨⟨e₂, history₂, effects₂⟩, hrun, h⟩ := bind_eq_ok.mp h
    cases h
    have hadds : historyAdds (call :: calls) = call.historyAdds + historyAdds calls := by
      simp [historyAdds]
    rw [hadds] at hid
    obtain ⟨hh₁, hend₁⟩ := Call.apply_history hs (by omega) happly
    exact ih (r := (e₂, history₂, effects₂)) ⟨(Call.apply_step hs.wf happly).wf, hh₁⟩
      (by simp only at hend₁ ⊢; omega) hrun

/-! ## A run for the examples -/

/-- The small election, activated, gets fork `1`; representative `1` votes for it and the node
switches to it; it is cemented and confirms; a later vote for fork `0` is in the cooldown, and
the cancel comes too late. -/
def sampleRun : List Call :=
  [.transitionActive, .publishInsert (changeTo 1),
    .vote votingEnv (FixedBytes.ofNat 32 1) 1 ((changeTo 1).hash sumCrypto) .live,
    .tryConfirm ((changeTo 1).hash sumCrypto),
    .vote votingEnv (FixedBytes.ofNat 32 1) 2 ((changeTo 0).hash sumCrypto) .live, .cancel]

theorem newElection_inv : Inv sumCrypto (newElection, LocalVoteHistory.empty) :=
  ⟨new_wf sumCrypto _ _ _, LocalVoteHistory.empty_wf⟩

def confirmedElection : Election := { newElection with data := { newElection.data with state := .confirmed } }

theorem confirmedElection_inv : Inv sumCrypto (confirmedElection, LocalVoteHistory.empty) :=
  ⟨(new_wf sumCrypto (FixedBytes.zero 32) (savedChangeTo 0) 0).of_eq rfl rfl, LocalVoteHistory.empty_wf⟩

theorem exists_of_toOption_isSome {x : Except String (Election × LocalVoteHistory × List Effect)}
    (h : x.toOption.isSome = true) : ∃ r, x = .ok r := by
  cases x with
  | error e => cases h
  | ok r => exact ⟨r, rfl⟩

/-! ## Over every run -/

section Runs

variable {calls : List Call} {r : Election × LocalVoteHistory × List Effect}

/-- Every run from a well-formed election and history whose adds keep the history ids below
`2 ^ 64` keeps both well formed, and the state machine of `Election.lean` makes the same change
of state by calls of its own, with as many hand-overs to the confirming set. -/
theorem run_keeps_invariant_and_refines (hs : Inv c s)
    (hid : LocalVoteHistory.idsEnd s.2.history + historyAdds calls ≤ 2 ^ 64)
    (h : run c calls s = .ok r) :
    Inv c (r.1, r.2.1) ∧ ∃ calls', runCalls calls' s.1.abstract =
      .ok (r.2.2.countP Effect.isConfirmingSetAdd, r.1.abstract) :=
  ⟨run_inv hs hid h, (run_step hs.wf h).abstract⟩

theorem sampleRun_keeps_invariant_and_refines :
    ∃ r, run sumCrypto sampleRun (newElection, LocalVoteHistory.empty) = .ok r ∧
      Inv sumCrypto (r.1, r.2.1) ∧ ∃ calls', runCalls calls' newElection.abstract =
        .ok (r.2.2.countP Effect.isConfirmingSetAdd, r.1.abstract) := by
  obtain ⟨r, h⟩ := exists_of_toOption_isSome (by decide :
    (run sumCrypto sampleRun (newElection, LocalVoteHistory.empty)).toOption.isSome = true)
  exact ⟨r, h, run_keeps_invariant_and_refines newElection_inv (by decide) h⟩

/-- Over every run the winner goes to the confirming set at most once, and never when the
election was confirmed to begin with; a hash handed over is the hash of the winner the election
ends with, confirmed. -/
theorem run_hands_over_winner_once (hs : Inv c s) (h : run c calls s = .ok r) :
    r.2.2.countP Effect.isConfirmingSetAdd ≤ (if s.1.data.state.isConfirmed then 0 else 1) ∧
      ∀ hash, .confirmingSetAdd hash ∈ r.2.2 →
        r.1.data.status.winner.map (·.hash c) = some hash ∧ r.1.data.state.isConfirmed = true := by
  have hstep := run_step hs.wf h
  obtain ⟨calls', hcalls⟩ := hstep.abstract
  exact ⟨runCalls_handed_le calls' _ _ _ hcalls, hstep.handed⟩

/-- The sample run hands fork `1` over, once. -/
theorem sampleRun_hands_over_winner_once :
    ∃ r, run sumCrypto sampleRun (newElection, LocalVoteHistory.empty) = .ok r ∧
      r.2.2.countP Effect.isConfirmingSetAdd = 1 ∧
      .confirmingSetAdd ((changeTo 1).hash sumCrypto) ∈ r.2.2 ∧
      r.1.data.status.winner.map (·.hash sumCrypto) = some ((changeTo 1).hash sumCrypto) ∧
      r.1.data.state.isConfirmed = true := by
  have hrun : (run sumCrypto sampleRun (newElection, LocalVoteHistory.empty)).toOption.map
      (fun r => (r.2.2.countP Effect.isConfirmingSetAdd,
        decide (Effect.confirmingSetAdd ((changeTo 1).hash sumCrypto) ∈ r.2.2))) = some (1, true) := by
    decide
  cases h : run sumCrypto sampleRun (newElection, LocalVoteHistory.empty) with
  | error msg =>
    rw [h] at hrun
    cases hrun
  | ok r =>
    rw [h] at hrun
    simp only [Except.toOption, Option.map_some, Option.some.injEq, Prod.mk.injEq,
      decide_eq_true_eq] at hrun
    obtain ⟨hcount, hmem⟩ := hrun
    exact ⟨r, rfl, hcount, hmem, (run_hands_over_winner_once newElection_inv h).2 _ hmem⟩

/-- A confirmed election stays confirmed over every run, with a winner of the same hash. -/
theorem run_keeps_confirmed_winner (hs : Inv c s) (h : run c calls s = .ok r)
    (hconf : s.1.data.state.isConfirmed = true) :
    r.1.data.state.isConfirmed = true ∧
      r.1.data.status.winner.map (·.hash c) = s.1.data.status.winner.map (·.hash c) :=
  ⟨(run_step hs.wf h).isConfirmed hconf, (run_step hs.wf h).confirmedWinner hconf⟩

/-- The sample run from the confirmed election keeps fork `0`, though representative `1` votes for
fork `1` and fork `1` is cemented. -/
theorem sampleRun_keeps_confirmed_winner :
    ∃ r, run sumCrypto sampleRun (confirmedElection, LocalVoteHistory.empty) = .ok r ∧
      r.1.data.state.isConfirmed = true ∧
      r.1.data.status.winner.map (·.hash sumCrypto) = some ((changeTo 0).hash sumCrypto) := by
  obtain ⟨r, h⟩ := exists_of_toOption_isSome (by decide :
    (run sumCrypto sampleRun (confirmedElection, LocalVoteHistory.empty)).toOption.isSome = true)
  exact ⟨r, h, run_keeps_confirmed_winner confirmedElection_inv h rfl⟩

end Runs

end RsbanNode.Consensus.Voting
