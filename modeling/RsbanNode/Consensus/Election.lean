import RsbanNode.Library.Result

namespace RsbanNode.Consensus

open RsbanNode.Result

inductive ElectionState
  | passive
  | active
  | confirmed
  | expiredConfirmed
  | expiredUnconfirmed
  | cancelled
deriving DecidableEq, Repr

namespace ElectionState

/-- `ElectionData::valid_change`: the transitions `state_change` permits. -/
def validChange : ElectionState → ElectionState → Bool
  | passive, active | passive, confirmed | passive, expiredUnconfirmed | passive, cancelled => true
  | active, confirmed | active, expiredUnconfirmed | active, cancelled => true
  | confirmed, expiredConfirmed => true
  | _, _ => false

def isConfirmed : ElectionState → Bool
  | confirmed | expiredConfirmed => true
  | _ => false

def isExpired : ElectionState → Bool
  | expiredConfirmed | expiredUnconfirmed => true
  | _ => false

end ElectionState

open ElectionState

structure ElectionData where
  state : ElectionState
deriving DecidableEq, Repr

namespace ElectionData

/-- `state_change`: move from `expected` to `desired` when that is a valid change and the
election is in `expected`. -/
def stateChange (d : ElectionData) (expected desired : ElectionState) : Except Unit ElectionData :=
  if validChange expected desired then
    if d.state = expected then .ok { d with state := desired } else .error ()
  else .error ()

/-- `confirm_once`: writes `Confirmed` directly; the winner goes to the confirming set when the
election was not `Confirmed` before. -/
def confirmOnce (d : ElectionData) : Bool × ElectionData :=
  (d.state != confirmed, { d with state := confirmed })

end ElectionData

open ElectionData

/-- The calls that change an election's state, each made under the election's mutex. -/
inductive ElectionCall
  | transitionActive
  | cancel
  /-- `VoteApplier::vote`: `quorum` is whether `confirm_if_quorum` finds quorum and enough final
  weight, which its tallies decide. -/
  | vote (quorum : Bool)
  /-- `ActiveElections::try_confirm`: `winnerMatches` is whether the hash is the winner's. -/
  | tryConfirm (winnerMatches : Bool)
  /-- `ActiveElections::transition_time`: whether the passive period and the time to live are
  over. -/
  | transitionTime (passiveOver ttlOver : Bool)

def unreachableCode : String := "internal error: entered unreachable code"

def unwrapErr : String := "called Result::unwrap() on an Err value"

/-- The tail of `transition_time`: expire an unconfirmed election whose time is up. -/
def expireIfOver (ttlOver : Bool) (result : Bool) (d : ElectionData) : Bool × ElectionData :=
  if !d.state.isConfirmed && ttlOver then
    match d.stateChange d.state expiredUnconfirmed with
    | .ok d => (true, d)
    | .error _ => (result, d)
  else (result, d)

/-- `ActiveElections::transition_time`: returns whether the election is to be cleaned up. -/
def ActiveElections.transitionTime (passiveOver ttlOver : Bool) (d : ElectionData) :
    Except String (Bool × ElectionData) :=
  match d.state with
  | passive =>
    if passiveOver then
      match d.stateChange passive active with
      | .ok d => .ok (expireIfOver ttlOver false d)
      | .error _ => .error unwrapErr
    else .ok (expireIfOver ttlOver false d)
  | active => .ok (expireIfOver ttlOver false d)
  | confirmed =>
    match d.stateChange confirmed expiredConfirmed with
    | .ok d => .ok (expireIfOver ttlOver true d)
    | .error _ => .error unwrapErr
  | expiredConfirmed | expiredUnconfirmed => .error unreachableCode
  | cancelled => .ok (true, d)

/-- One call: whether it handed the winner to the confirming set, and the new data. -/
def ElectionCall.apply : ElectionCall → ElectionData → Except String (Bool × ElectionData)
  | .transitionActive, d =>
    match d.stateChange passive active with
    | .ok d => .ok (false, d)
    | .error _ => .ok (false, d)
  | .cancel, d =>
    match d.stateChange d.state cancelled with
    | .ok d => .ok (false, d)
    | .error _ => .ok (false, d)
  | .vote quorum, d => .ok (if !d.state.isConfirmed && quorum then d.confirmOnce else (false, d))
  | .tryConfirm winnerMatches, d =>
    .ok (if winnerMatches && !d.state.isConfirmed then d.confirmOnce else (false, d))
  | .transitionTime passiveOver ttlOver, d =>
    (ActiveElections.transitionTime passiveOver ttlOver d).map fun (_, d) => (false, d)

def runCalls : List ElectionCall → ElectionData → Except String (Nat × ElectionData)
  | [], d => .ok (0, d)
  | c :: cs, d => do
    let (handed, d) ← c.apply d
    let (n, d) ← runCalls cs d
    pure ((if handed then 1 else 0) + n, d)

/-! ## Which changes of state happen -/

/-- `t` follows from `s` by changes that `valid_change` permits, one `state_change` at a time. -/
def Reaches (s t : ElectionState) : Prop := Relation.ReflTransGen (fun a b => validChange a b = true) s t

theorem Reaches.single {s t : ElectionState} (h : validChange s t = true) : Reaches s t :=
  Relation.ReflTransGen.single h

theorem Reaches.eq_of_final {s t : ElectionState}
    (hs : s = .cancelled ∨ s = .expiredConfirmed ∨ s = .expiredUnconfirmed) (h : Reaches s t) :
    t = s := by
  induction h with
  | refl => rfl
  | tail _ hstep ih =>
    subst ih
    rcases hs with rfl | rfl | rfl <;> simp [validChange] at hstep

namespace ElectionData

theorem stateChange_eq_ok {d d' : ElectionData} {expected desired : ElectionState}
    (h : d.stateChange expected desired = .ok d') :
    validChange expected desired = true ∧ d.state = expected ∧ d' = ⟨desired⟩ := by
  unfold stateChange at h
  split_ifs at h with hvalid hstate
  cases h
  exact ⟨hvalid, hstate, rfl⟩

theorem reaches_stateChange {d d' : ElectionData} {expected desired : ElectionState}
    (h : d.stateChange expected desired = .ok d') : Reaches d.state d'.state := by
  obtain ⟨hvalid, rfl, rfl⟩ := stateChange_eq_ok h
  exact Reaches.single hvalid

end ElectionData

theorem reaches_expireIfOver (ttlOver result : Bool) (d : ElectionData) :
    Reaches d.state (expireIfOver ttlOver result d).2.state := by
  unfold expireIfOver
  split
  · split
    · rename_i h
      exact reaches_stateChange h
    · exact Relation.ReflTransGen.refl
  · exact Relation.ReflTransGen.refl

theorem transitionTime_eq_ok {passiveOver ttlOver : Bool} {d d' : ElectionData} {r : Bool}
    (h : ActiveElections.transitionTime passiveOver ttlOver d = .ok (r, d')) :
    (d.state = .passive ∧ (r, d') = expireIfOver ttlOver false (if passiveOver then ⟨.active⟩ else d)) ∨
    (d.state = .active ∧ (r, d') = expireIfOver ttlOver false d) ∨
    (d.state = .confirmed ∧ (r, d') = expireIfOver ttlOver true ⟨.expiredConfirmed⟩) ∨
    (d.state = .cancelled ∧ r = true ∧ d' = d) := by
  unfold ActiveElections.transitionTime at h
  cases hs : d.state with
  | passive =>
    left
    refine ⟨rfl, ?_⟩
    cases passiveOver with
    | true =>
      have hchange : d.stateChange .passive .active = .ok ⟨.active⟩ := by
        simp [stateChange, validChange, hs]
      simp only [hs, if_true, hchange, Except.ok.injEq] at h
      exact h.symm
    | false =>
      simp only [hs, Bool.false_eq_true, if_false, Except.ok.injEq] at h
      exact h.symm
  | active =>
    simp only [hs, Except.ok.injEq] at h
    exact .inr (.inl ⟨rfl, h.symm⟩)
  | confirmed =>
    have hchange : d.stateChange .confirmed .expiredConfirmed = .ok ⟨.expiredConfirmed⟩ := by
      simp [stateChange, validChange, hs]
    simp only [hs, hchange, Except.ok.injEq] at h
    exact .inr (.inr (.inl ⟨rfl, h.symm⟩))
  | expiredConfirmed => simp [hs] at h
  | expiredUnconfirmed => simp [hs] at h
  | cancelled =>
    simp only [hs, Except.ok.injEq, Prod.mk.injEq] at h
    exact .inr (.inr (.inr ⟨rfl, h.1.symm, h.2.symm⟩))

theorem reaches_transitionTime {passiveOver ttlOver : Bool} {d d' : ElectionData} {r : Bool}
    (h : ActiveElections.transitionTime passiveOver ttlOver d = .ok (r, d')) :
    Reaches d.state d'.state := by
  rcases transitionTime_eq_ok h with ⟨hs, he⟩ | ⟨hs, he⟩ | ⟨hs, he⟩ | ⟨hs, -, rfl⟩
  · have hd' : d' = (expireIfOver ttlOver false (if passiveOver then ⟨.active⟩ else d)).2 :=
      (Prod.mk.inj he).2
    subst hd'
    cases passiveOver with
    | true =>
      exact (Reaches.single (t := .active) (by rw [hs]; rfl)).trans
        (reaches_expireIfOver ttlOver false ⟨.active⟩)
    | false => exact reaches_expireIfOver _ _ _
  · rw [(Prod.mk.inj he).2]
    exact reaches_expireIfOver _ _ _
  · rw [(Prod.mk.inj he).2]
    exact (Reaches.single (t := .expiredConfirmed) (by rw [hs]; rfl)).trans
      (reaches_expireIfOver ttlOver true ⟨.expiredConfirmed⟩)
  · exact Relation.ReflTransGen.refl

theorem expireIfOver_isExpired {ttlOver result : Bool} {d : ElectionData}
    (h : (expireIfOver ttlOver result d).2.state.isExpired = true) :
    d.state.isExpired = true ∨ (expireIfOver ttlOver result d).1 = true := by
  unfold expireIfOver at h ⊢
  by_cases hcond : (!d.state.isConfirmed && ttlOver) = true
  · rw [if_pos hcond] at h ⊢
    cases hchange : d.stateChange d.state .expiredUnconfirmed with
    | ok d₁ => exact .inr rfl
    | error e =>
      rw [hchange] at h
      exact .inl h
  · rw [if_neg hcond] at h ⊢
    exact .inl h

/-- An election enters an expired state only in a `transition_time` that returns true, so the
request loop cleans it up before `transition_time` can see it again. -/
theorem transitionTime_expired {passiveOver ttlOver : Bool} {d d' : ElectionData} {r : Bool}
    (h : ActiveElections.transitionTime passiveOver ttlOver d = .ok (r, d'))
    (hexp : d'.state.isExpired = true) : r = true := by
  rcases transitionTime_eq_ok h with ⟨hs, he⟩ | ⟨hs, he⟩ | ⟨hs, he⟩ | ⟨-, hr, -⟩
  · have hd₁ : (if passiveOver then (⟨.active⟩ : ElectionData) else d).state.isExpired = false := by
      cases passiveOver <;> simp [hs, isExpired]
    rw [(Prod.mk.inj he).2] at hexp
    rcases expireIfOver_isExpired hexp with hbad | hres
    · rw [hd₁] at hbad
      cases hbad
    · exact (Prod.mk.inj he).1.trans hres
  · rw [(Prod.mk.inj he).2] at hexp
    rcases expireIfOver_isExpired hexp with hbad | hres
    · simp [hs, isExpired] at hbad
    · exact (Prod.mk.inj he).1.trans hres
  · rw [(Prod.mk.inj he).1]
  · exact hr

theorem reaches_confirmed_iff (s : ElectionState) :
    Reaches s .confirmed ↔ s = .passive ∨ s = .active ∨ s = .confirmed := by
  constructor
  · intro h
    cases s with
    | passive => exact .inl rfl
    | active => exact .inr (.inl rfl)
    | confirmed => exact .inr (.inr rfl)
    | expiredConfirmed => cases Reaches.eq_of_final (.inr (.inl rfl)) h
    | expiredUnconfirmed => cases Reaches.eq_of_final (.inr (.inr rfl)) h
    | cancelled => cases Reaches.eq_of_final (.inl rfl) h
  · rintro (rfl | rfl | rfl)
    · exact Reaches.single rfl
    · exact Reaches.single rfl
    · exact Relation.ReflTransGen.refl

theorem reaches_apply {c : ElectionCall} {d d' : ElectionData} {handed : Bool}
    (h : c.apply d = .ok (handed, d'))
    (hfinal : d.state ≠ .cancelled ∧ d.state ≠ .expiredUnconfirmed) :
    Reaches d.state d'.state := by
  have hconfirm : ∀ (b : Bool), (b = true → d.state.isConfirmed = false) →
      (if b then d.confirmOnce else (false, d)) = (handed, d') → Reaches d.state d'.state := by
    intro b hbc hb
    split at hb
    · rename_i hbt
      obtain ⟨-, rfl⟩ := Prod.mk.inj hb
      apply (reaches_confirmed_iff d.state).mpr
      have := hbc hbt
      cases hs : d.state <;> simp_all [isConfirmed]
    · obtain ⟨-, rfl⟩ := Prod.mk.inj hb
      exact Relation.ReflTransGen.refl
  cases c with
  | transitionActive =>
    simp only [ElectionCall.apply] at h
    split at h
    · rename_i hchange
      obtain ⟨-, rfl⟩ := Prod.mk.inj (Except.ok.inj h)
      exact reaches_stateChange hchange
    · obtain ⟨-, rfl⟩ := Prod.mk.inj (Except.ok.inj h)
      exact Relation.ReflTransGen.refl
  | cancel =>
    simp only [ElectionCall.apply] at h
    split at h
    · rename_i hchange
      obtain ⟨-, rfl⟩ := Prod.mk.inj (Except.ok.inj h)
      exact reaches_stateChange hchange
    · obtain ⟨-, rfl⟩ := Prod.mk.inj (Except.ok.inj h)
      exact Relation.ReflTransGen.refl
  | vote quorum =>
    exact hconfirm _ (fun hb => by simpa using (Bool.and_eq_true_iff.mp hb).1) (Except.ok.inj h)
  | tryConfirm winnerMatches =>
    exact hconfirm _ (fun hb => by simpa using (Bool.and_eq_true_iff.mp hb).2) (Except.ok.inj h)
  | transitionTime passiveOver ttlOver =>
    obtain ⟨⟨r, d₁⟩, htime, hmap⟩ := map_eq_ok.mp h
    obtain ⟨-, rfl⟩ := Prod.mk.inj hmap
    exact reaches_transitionTime htime

/-! ## The winner is handed over at most once -/

theorem apply_handed {c : ElectionCall} {d d' : ElectionData} (h : c.apply d = .ok (true, d')) :
    d.state.isConfirmed = false ∧ d'.state = .confirmed := by
  have hconfirm : ∀ (b : Bool), (b = true → d.state.isConfirmed = false) →
      (if b then d.confirmOnce else (false, d)) = (true, d') →
      d.state.isConfirmed = false ∧ d'.state = .confirmed := by
    intro b hb heq
    split at heq
    · rename_i hbt
      obtain ⟨-, rfl⟩ := Prod.mk.inj heq
      exact ⟨hb hbt, rfl⟩
    · cases (Prod.mk.inj heq).1
  cases c with
  | transitionActive =>
    simp only [ElectionCall.apply] at h
    split at h <;> cases (Prod.mk.inj (Except.ok.inj h)).1
  | cancel =>
    simp only [ElectionCall.apply] at h
    split at h <;> cases (Prod.mk.inj (Except.ok.inj h)).1
  | vote quorum =>
    exact hconfirm _ (fun hb => by simpa using (Bool.and_eq_true_iff.mp hb).1) (Except.ok.inj h)
  | tryConfirm winnerMatches =>
    exact hconfirm _ (fun hb => by simpa using (Bool.and_eq_true_iff.mp hb).2) (Except.ok.inj h)
  | transitionTime passiveOver ttlOver =>
    obtain ⟨⟨r, d₁⟩, -, hmap⟩ := map_eq_ok.mp h
    cases (Prod.mk.inj hmap).1

theorem apply_isConfirmed {c : ElectionCall} {d d' : ElectionData} {handed : Bool}
    (h : c.apply d = .ok (handed, d')) (hd : d.state.isConfirmed = true) :
    d'.state.isConfirmed = true := by
  have hs : d.state = .confirmed ∨ d.state = .expiredConfirmed := by
    cases hst : d.state <;> simp_all [isConfirmed]
  have hreach := reaches_apply h (by rcases hs with hs | hs <;> rw [hs] <;> simp)
  rcases hs with hs | hs
  · rw [hs] at hreach
    cases Relation.ReflTransGen.cases_head hreach with
    | inl heq => rw [← heq]; rfl
    | inr hstep =>
      obtain ⟨b, hb, hrest⟩ := hstep
      have hb' : b = .expiredConfirmed := by cases b <;> simp_all [validChange]
      subst hb'
      rw [Reaches.eq_of_final (.inr (.inl rfl)) hrest]
      rfl
  · rw [hs] at hreach
    rw [Reaches.eq_of_final (.inr (.inl rfl)) hreach]
    rfl

/-- Over any sequence of calls, the winner is handed to the confirming set at most once, and
never again once the election is confirmed. -/
theorem runCalls_handed_le :
    ∀ (cs : List ElectionCall) (d d' : ElectionData) (n : Nat), runCalls cs d = .ok (n, d') →
      n ≤ if d.state.isConfirmed then 0 else 1 := by
  intro cs
  induction cs with
  | nil =>
    intro d d' n h
    cases h
    exact Nat.zero_le _
  | cons c cs ih =>
    intro d d' n h
    obtain ⟨⟨handed, d₁⟩, happly, h⟩ := bind_eq_ok.mp h
    obtain ⟨⟨m, d₂⟩, hrun, h⟩ := bind_eq_ok.mp h
    obtain ⟨rfl, -⟩ := Prod.mk.inj (Except.ok.inj h)
    have hrest := ih d₁ d₂ m hrun
    cases handed with
    | true =>
      obtain ⟨hbefore, hafter⟩ := apply_handed happly
      rw [hafter] at hrest
      have hm : m ≤ 0 := by simpa [isConfirmed] using hrest
      rw [hbefore]
      simp only [Bool.false_eq_true, if_false, if_true]
      omega
    | false =>
      cases hd : d.state.isConfirmed with
      | true =>
        rw [apply_isConfirmed happly hd] at hrest
        simpa using hrest
      | false =>
        have hm : m ≤ 1 := by split at hrest <;> omega
        simp only [Bool.false_eq_true, if_false]
        omega

theorem runCalls_append {cs cs' : List ElectionCall} {d d₁ d₂ : ElectionData} {n m : Nat}
    (h₁ : runCalls cs d = .ok (n, d₁)) (h₂ : runCalls cs' d₁ = .ok (m, d₂)) :
    runCalls (cs ++ cs') d = .ok (n + m, d₂) := by
  induction cs generalizing d n with
  | nil =>
    obtain ⟨rfl, rfl⟩ := Prod.mk.inj (Except.ok.inj h₁)
    rw [List.nil_append, h₂, Nat.zero_add]
  | cons c cs ih =>
    obtain ⟨⟨handed, d'⟩, happly, h⟩ := bind_eq_ok.mp h₁
    obtain ⟨⟨k, d''⟩, hrun, h⟩ := bind_eq_ok.mp h
    obtain ⟨rfl, rfl⟩ := Prod.mk.inj (Except.ok.inj h)
    simp only [List.cons_append, runCalls, happly, ok_bind, ih hrun, Nat.add_assoc]
    rfl

theorem runCalls_isConfirmed {cs : List ElectionCall} {d d' : ElectionData} {n : Nat}
    (h : runCalls cs d = .ok (n, d')) (hd : d.state.isConfirmed = true) :
    d'.state.isConfirmed = true := by
  induction cs generalizing d n with
  | nil =>
    obtain ⟨-, rfl⟩ := Prod.mk.inj (Except.ok.inj h)
    exact hd
  | cons c cs ih =>
    obtain ⟨⟨handed, d₁⟩, happly, h⟩ := bind_eq_ok.mp h
    obtain ⟨⟨k, d₂⟩, hrun, h⟩ := bind_eq_ok.mp h
    obtain ⟨-, rfl⟩ := Prod.mk.inj (Except.ok.inj h)
    exact ih hrun (apply_isConfirmed happly hd)

/-- `vote` and `try_confirm` check only `is_confirmed` before `confirm_once`: an election cancelled
while passive is confirmed by the next vote reaching quorum, and its winner handed to the
confirming set, although `valid_change` permits no change out of `Cancelled`. -/
theorem cancel_then_vote_confirms :
    runCalls [.cancel, .vote true] ⟨.passive⟩ = .ok (1, ⟨.confirmed⟩) ∧
      runCalls [.cancel, .tryConfirm true] ⟨.passive⟩ = .ok (1, ⟨.confirmed⟩) ∧
      ¬ Reaches .cancelled .confirmed := by
  refine ⟨rfl, rfl, fun h => ?_⟩
  cases Reaches.eq_of_final (.inl rfl) h

end RsbanNode.Consensus
