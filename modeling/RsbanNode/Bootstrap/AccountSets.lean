import RsbanNode.Bootstrap.OrderedSets
import RsbanNode.Ledger.Validator

namespace RsbanNode.Bootstrap

open RsbanNode.Primitives RsbanNode.Blocks RsbanNode.Ledger RsbanNode.OrderedMap RsbanNode.Result

structure AccountSetsConfig where
  considerationCount : Nat
  prioritiesMax : Nat
  blockingMax : Nat
  /-- Milliseconds. -/
  cooldown : Nat

def AccountSetsConfig.default : AccountSetsConfig := ⟨4, 256 * 1024, 256 * 1024, 3000⟩

structure AccountSets where
  config : AccountSetsConfig
  priorities : OrderedPriorities
  blocking : OrderedBlocking

inductive PriorityUpResult
  | inserted
  | updated
  | invalidAccount
  | accountBlocked
deriving DecidableEq, Repr

inductive PriorityDownResult
  | deprioritized
  | erased
  | accountNotFound
  | invalidAccount
deriving DecidableEq, Repr

/-- `while len() > max { pop_front(); }`, for at most `fuel` rounds: each round removes an entry,
so a fuel of `len()` always reaches the exit condition (`len_trimLoop_le`). -/
def trimLoop {σ : Type} (len : σ → Nat) (popFront : σ → σ) (max : Nat) : Nat → σ → σ
  | 0, o => o
  | fuel + 1, o => if len o > max then trimLoop len popFront max fuel (popFront o) else o

namespace AccountSets

def priorityInitial : Priority := 2

def priorityIncrease : Priority := 2

def priorityDivide : ℚ := 2

def priorityMax : Priority := 128

def priorityCutoff : Priority := 3 / 20

def new (config : AccountSetsConfig) : AccountSets := ⟨config, .empty, .empty⟩

def blocked (s : AccountSets) (account : Account) : Bool := s.blocking.contains account

def prioritized (s : AccountSets) (account : Account) : Bool := s.priorities.contains account

def trimOverflow (s : AccountSets) : AccountSets :=
  { s with
    priorities := trimLoop OrderedPriorities.len (·.popFront.2) s.config.prioritiesMax
      s.priorities.len s.priorities
    blocking := trimLoop OrderedBlocking.len (·.popFront.2) s.config.blockingMax
      s.blocking.len s.blocking }

def higherPriority (priority : Priority) : Option Priority :=
  some (min (priority + priorityIncrease) priorityMax)

/-- If the account is not blocked, raise its priority, or insert it at the initial priority. -/
def priorityUp (s : AccountSets) (account : Account) : PriorityUpResult × AccountSets :=
  if account.isZero then (.invalidAccount, s)
  else if !s.blocked account then
    match s.priorities.changePriority account higherPriority with
    | (.updated, priorities) | (.deleted, priorities) => (.updated, { s with priorities := priorities })
    | (.notFound, priorities) =>
      let priorities := (priorities.insert (PriorityEntry.new account priorityInitial)).2
      (.inserted, { s with priorities := priorities }.trimOverflow)
  else (.accountBlocked, s)

def lowerPriority (priority : Priority) : Option Priority :=
  let priorityNew := priority / priorityDivide
  if priorityNew ≤ priorityCutoff then none else some priorityNew

def priorityDown (s : AccountSets) (account : Account) : PriorityDownResult × AccountSets :=
  if account.isZero then (.invalidAccount, s)
  else
    let (changeResult, priorities) := s.priorities.changePriority account lowerPriority
    let result : PriorityDownResult :=
      match changeResult with
      | .updated => .deprioritized
      | .deleted => .erased
      | .notFound => .accountNotFound
    (result, { s with priorities := priorities })

def prioritySetImpl (account : Account) (blocking : OrderedBlocking)
    (priorities : OrderedPriorities) : Bool × OrderedPriorities :=
  if account.isZero then (false, priorities)
  else if !blocking.contains account && !priorities.contains account then
    (true, (priorities.insert (PriorityEntry.new account priorityInitial)).2)
  else (false, priorities)

def prioritySet (s : AccountSets) (account : Account) : Bool × AccountSets :=
  let (inserted, priorities) := prioritySetImpl account s.blocking s.priorities
  (inserted, { s with priorities := priorities }.trimOverflow)

/-- The account leaves the priority set and is filed as blocked on `dependency`; an account that
was not prioritized is filed with a placeholder entry of priority zero. Its
`debug_assert!(!account.is_zero())` is not part of release builds. -/
def block (s : AccountSets) (account : Account) (dependency : BlockHash) : AccountSets :=
  let (removed, priorities) := s.priorities.remove account
  let entry := removed.getD (PriorityEntry.new account 0)
  let blocking := (s.blocking.insert ⟨dependency, entry, FixedBytes.zero 32⟩).2
  { s with priorities := priorities, blocking := blocking }.trimOverflow

/-- Unblock when the dependency matches, putting the saved entry back into the priority set. -/
def unblock (s : AccountSets) (account : Account) (hash : Option BlockHash) : Bool × AccountSets :=
  if account.isZero then (false, s)
  else
    match s.blocking.get account with
    | none => (false, s)
    | some existing =>
      let hashMatches :=
        match hash with
        | some hash => hash == existing.dependency
        | none => true
      if hashMatches then
        let priorities :=
          if !existing.originalEntry.account.isZero then (s.priorities.insert existing.originalEntry).2
          else (s.priorities.insert (PriorityEntry.new account priorityInitial)).2
        (true, { s with priorities := priorities, blocking := (s.blocking.remove account).2 }.trimOverflow)
      else (false, s)

def timestampSet (s : AccountSets) (account : Account) (now : Timestamp) : AccountSets :=
  { s with priorities := s.priorities.changeTimestamp account (some now) }

def timestampReset (s : AccountSets) (account : Account) : AccountSets :=
  { s with priorities := s.priorities.changeTimestamp account none }

def dependencyUpdate (s : AccountSets) (dependency : BlockHash) (dependencyAccount : Account) :
    Nat × AccountSets :=
  let (updated, blocking) := s.blocking.modifyDependencyAccount dependency dependencyAccount
  (updated, { s with blocking := blocking })

def nextPriority (s : AccountSets) (now : Timestamp) (filter : Account → Bool) : Account :=
  if s.priorities.isEmpty then FixedBytes.zero 32
  else (s.priorities.nextPriority (now - s.config.cooldown) filter).getD default

def nextBlocking (s : AccountSets) (filter : BlockHash → Bool) : BlockHash :=
  if s.blocking.len = 0 then FixedBytes.zero 32 else (s.blocking.next filter).getD default

/-- The loop of `sync_dependencies` over the blocking entries with a known dependency account,
counting the insertions that succeeded and failed. -/
def syncLoop (s : AccountSets) :
    List BlockingEntry → Nat × Nat × OrderedPriorities → Nat × Nat × OrderedPriorities
  | [], acc => acc
  | entry :: rest, (inserted, insertFailed, priorities) =>
    if priorities.len ≥ s.config.prioritiesMax then (inserted, insertFailed, priorities)
    else if !s.blocking.contains entry.dependencyAccount &&
        !priorities.contains entry.dependencyAccount then
      match prioritySetImpl entry.dependencyAccount s.blocking priorities with
      | (true, priorities) => syncLoop s rest (inserted + 1, insertFailed, priorities)
      | (false, priorities) => syncLoop s rest (inserted, insertFailed + 1, priorities)
    else syncLoop s rest (inserted, insertFailed, priorities)

/-- Prioritize the accounts that blocked accounts depend on. The iteration starts at
`Account::zero().inc()`. -/
def syncDependencies (s : AccountSets) : (Nat × Nat) × AccountSets :=
  let (inserted, insertFailed, priorities) :=
    s.syncLoop (s.blocking.iterStartDepAccount (FixedBytes.ofNat 32 1)) (0, 0, s.priorities)
  ((inserted, insertFailed), { s with priorities := priorities }.trimOverflow)

def priorityHalfFull (s : AccountSets) : Bool := s.priorities.len > s.config.prioritiesMax / 2

def blockedHalfFull (s : AccountSets) : Bool := s.blocking.len > s.config.blockingMax / 2

/-- Blocked and unknown accounts read as priority zero. -/
def priority (s : AccountSets) (account : Account) : Priority :=
  if !s.blocked account then
    match s.priorities.get account with
    | some existing => existing.priority
    | none => 0
  else 0

end AccountSets

section Trim

variable {σ : Type} {len : σ → Nat} {popFront : σ → σ} {max : Nat}

theorem len_trimLoop_le (hpop : ∀ o, 0 < len o → len (popFront o) < len o) (fuel : Nat) (o : σ)
    (h : len o ≤ fuel + max) : len (trimLoop len popFront max fuel o) ≤ max := by
  induction fuel generalizing o with
  | zero => simpa [trimLoop] using h
  | succ fuel ih =>
    simp only [trimLoop]
    split_ifs with hgt
    · apply ih
      have hlt := hpop o (by omega)
      omega
    · omega

theorem trimLoop_induction {P : σ → Prop} (hpop : ∀ o, P o → P (popFront o)) (fuel : Nat) (o : σ)
    (h : P o) : P (trimLoop len popFront max fuel o) := by
  induction fuel generalizing o with
  | zero => exact h
  | succ fuel ih =>
    simp only [trimLoop]
    split_ifs
    · exact ih _ (hpop o h)
    · exact h

end Trim

namespace AccountSets

/-- Where a prioritized or saved priority may lie: zero, the placeholder of `block`, or inside
`(PRIORITY_CUTOFF, PRIORITY_MAX]`. -/
def PriorityOk (p : Priority) : Prop := p = 0 ∨ (priorityCutoff < p ∧ p ≤ priorityMax)

/-- The account-set invariant, apart from the capacity bounds that `trim_overflow` restores. -/
structure Sound (s : AccountSets) : Prop where
  priorities_consistent : s.priorities.Consistent
  blocking_consistent : s.blocking.Consistent
  disjoint : ∀ a e e', s.priorities.get a = some e → s.blocking.get a = some e' → False
  zero_not_prioritized : s.priorities.get (FixedBytes.zero 32) = none
  priority_ok : ∀ a e, s.priorities.get a = some e → PriorityOk e.priority
  original_ok : ∀ a e, s.blocking.get a = some e → PriorityOk e.originalEntry.priority

structure Valid (s : AccountSets) : Prop extends s.Sound where
  priorities_len : s.priorities.len ≤ s.config.prioritiesMax
  blocking_len : s.blocking.len ≤ s.config.blockingMax

theorem new_valid (config : AccountSetsConfig) : (new config).Valid where
  priorities_consistent := OrderedPriorities.empty_consistent
  blocking_consistent := OrderedBlocking.empty_consistent
  disjoint a e e' h := by simp [new, OrderedPriorities.get, OrderedPriorities.empty] at h
  zero_not_prioritized := rfl
  priority_ok a e h := by simp [new, OrderedPriorities.get, OrderedPriorities.empty] at h
  original_ok a e h := by simp [new, OrderedBlocking.get, OrderedBlocking.empty] at h
  priorities_len := Nat.zero_le _
  blocking_len := Nat.zero_le _

variable {s s' : AccountSets}

theorem Sound.of_subset (h : s.Sound) (hp : s'.priorities.Consistent)
    (hb : s'.blocking.Consistent)
    (hps : ∀ a e, s'.priorities.get a = some e → s.priorities.get a = some e)
    (hbs : ∀ a e, s'.blocking.get a = some e → s.blocking.get a = some e) : s'.Sound where
  priorities_consistent := hp
  blocking_consistent := hb
  disjoint a e e' he he' := h.disjoint a e e' (hps a e he) (hbs a e' he')
  zero_not_prioritized := by
    cases hz : s'.priorities.get (FixedBytes.zero 32) with
    | none => rfl
    | some e =>
      have hold := hps _ e hz
      simp [h.zero_not_prioritized] at hold
  priority_ok a e he := h.priority_ok a e (hps a e he)
  original_ok a e he := h.original_ok a e (hbs a e he)

theorem trimPriorities_spec {o : OrderedPriorities} (hc : o.Consistent) (max fuel : Nat) :
    (trimLoop OrderedPriorities.len (·.popFront.2) max fuel o).Consistent ∧
      ∀ a e, (trimLoop OrderedPriorities.len (·.popFront.2) max fuel o).get a = some e →
        o.get a = some e := by
  have hstep : ∀ o' : OrderedPriorities, (o'.Consistent ∧ ∀ a e, o'.get a = some e → o.get a = some e) →
      (o'.popFront.2.Consistent ∧ ∀ a e, o'.popFront.2.get a = some e → o.get a = some e) := by
    rintro o' ⟨hc', hsub⟩
    exact ⟨OrderedPriorities.popFront_consistent hc', fun a e h => hsub a e (OrderedPriorities.get_popFront hc' h)⟩
  exact trimLoop_induction (P := fun o' : OrderedPriorities => o'.Consistent ∧ ∀ a e, o'.get a = some e → o.get a = some e)
    hstep fuel o ⟨hc, fun a e h => h⟩

theorem trimBlocking_spec {o : OrderedBlocking} (hc : o.Consistent) (max fuel : Nat) :
    (trimLoop OrderedBlocking.len (·.popFront.2) max fuel o).Consistent ∧
      ∀ a e, (trimLoop OrderedBlocking.len (·.popFront.2) max fuel o).get a = some e →
        o.get a = some e := by
  have hstep : ∀ o' : OrderedBlocking, (o'.Consistent ∧ ∀ a e, o'.get a = some e → o.get a = some e) →
      (o'.popFront.2.Consistent ∧ ∀ a e, o'.popFront.2.get a = some e → o.get a = some e) := by
    rintro o' ⟨hc', hsub⟩
    exact ⟨OrderedBlocking.popFront_consistent hc', fun a e h => hsub a e (OrderedBlocking.get_popFront hc' h)⟩
  exact trimLoop_induction (P := fun o' : OrderedBlocking => o'.Consistent ∧ ∀ a e, o'.get a = some e → o.get a = some e)
    hstep fuel o ⟨hc, fun a e h => h⟩

/-- `trim_overflow` keeps the invariant and restores both capacity bounds. -/
theorem trimOverflow_valid (h : s.Sound) : s.trimOverflow.Valid := by
  obtain ⟨hpc, hps⟩ := trimPriorities_spec h.priorities_consistent s.config.prioritiesMax s.priorities.len
  obtain ⟨hbc, hbs⟩ := trimBlocking_spec h.blocking_consistent s.config.blockingMax s.blocking.len
  refine ⟨h.of_subset hpc hbc hps hbs, ?_, ?_⟩
  · exact len_trimLoop_le (fun o ho => o.len_popFront_lt ho) _ _ (Nat.le_add_right _ _)
  · exact len_trimLoop_le (fun o ho => o.len_popFront_lt ho) _ _ (Nat.le_add_right _ _)


theorem Sound.removePriority (h : s.Sound) (a : Account) :
    ({ s with priorities := (s.priorities.remove a).2 } : AccountSets).Sound :=
  h.of_subset (OrderedPriorities.remove_consistent h.priorities_consistent a) h.blocking_consistent
    (fun b e hb => by
      rw [OrderedPriorities.get_remove] at hb
      split_ifs at hb
      exact hb)
    (fun b e hb => hb)

theorem Sound.removeBlocking (h : s.Sound) (a : Account) :
    ({ s with blocking := (s.blocking.remove a).2 } : AccountSets).Sound :=
  h.of_subset h.priorities_consistent (OrderedBlocking.remove_consistent h.blocking_consistent a)
    (fun b e hb => hb)
    (fun b e hb => by
      rw [OrderedBlocking.get_remove] at hb
      split_ifs at hb
      exact hb)

theorem Sound.insertPriority (h : s.Sound) {e : PriorityEntry}
    (hz : e.account ≠ FixedBytes.zero 32) (hb : s.blocking.get e.account = none)
    (hok : PriorityOk e.priority) :
    ({ s with priorities := (s.priorities.insert e).2 } : AccountSets).Sound := by
  cases hk : s.priorities.contains e.account
  · have hget := OrderedPriorities.get_insert hk
    refine ⟨OrderedPriorities.insert_consistent h.priorities_consistent e, h.blocking_consistent,
      fun a e₁ e₂ h₁ h₂ => ?_, ?_, fun a e₁ h₁ => ?_, h.original_ok⟩
    · simp only [hget] at h₁
      split_ifs at h₁ with ha
      · subst ha
        simp [hb] at h₂
      · exact h.disjoint a e₁ e₂ h₁ h₂
    · simp only [hget]
      rw [if_neg (Ne.symm hz)]
      exact h.zero_not_prioritized
    · simp only [hget] at h₁
      split_ifs at h₁
      · rw [← Option.some.inj h₁]
        exact hok
      · exact h.priority_ok a e₁ h₁
  · rw [OrderedPriorities.insert_of_contains hk]
    exact h

theorem Sound.insertBlocking (h : s.Sound) {e : BlockingEntry}
    (hp : s.priorities.get e.account = none) (hok : PriorityOk e.originalEntry.priority) :
    ({ s with blocking := (s.blocking.insert e).2 } : AccountSets).Sound := by
  cases hk : s.blocking.contains e.account
  · have hget := OrderedBlocking.get_insert hk
    refine ⟨h.priorities_consistent, OrderedBlocking.insert_consistent h.blocking_consistent e,
      fun a e₁ e₂ h₁ h₂ => ?_, h.zero_not_prioritized, h.priority_ok, fun a e₁ h₁ => ?_⟩
    · simp only [hget] at h₂
      split_ifs at h₂ with ha
      · subst ha
        simp [hp] at h₁
      · exact h.disjoint a e₁ e₂ h₁ h₂
    · simp only [hget] at h₁
      split_ifs at h₁
      · rw [← Option.some.inj h₁]
        exact hok
      · exact h.original_ok a e₁ h₁
  · rw [OrderedBlocking.insert_of_contains hk]
    exact h

theorem Sound.changePriority (h : s.Sound) (a : Account) {f : Priority → Option Priority}
    (hf : ∀ p q, PriorityOk p → f p = some q → PriorityOk q) :
    ({ s with priorities := (s.priorities.changePriority a f).2 } : AccountSets).Sound := by
  rcases OrderedPriorities.changePriority_cases (Prod.mk.eta (p := s.priorities.changePriority a f)).symm with
    ⟨-, -, ho⟩ | ⟨e, p, hget, hfp, -, hby, -, -⟩ | ⟨e, -, -, -, ho⟩
  · rw [ho]
    exact h
  · have hget' : ∀ b, (s.priorities.changePriority a f).2.get b =
        if b = a then some { e with priority := p } else s.priorities.get b := by
      intro b
      simp [OrderedPriorities.get, hby]
    refine ⟨OrderedPriorities.changePriority_consistent h.priorities_consistent a f,
      h.blocking_consistent, fun b e₁ e₂ h₁ h₂ => ?_, ?_, fun b e₁ h₁ => ?_, h.original_ok⟩
    · simp only [hget'] at h₁
      split_ifs at h₁ with hb
      · subst hb
        exact h.disjoint _ e e₂ hget h₂
      · exact h.disjoint b e₁ e₂ h₁ h₂
    · simp only [hget']
      split_ifs with hz
      · rw [← hz, h.zero_not_prioritized] at hget
        cases hget
      · exact h.zero_not_prioritized
    · simp only [hget'] at h₁
      split_ifs at h₁
      · rw [← Option.some.inj h₁]
        exact hf _ _ (h.priority_ok a e hget) hfp
      · exact h.priority_ok b e₁ h₁
  · rw [ho]
    exact h.removePriority a

theorem Sound.changeTimestamp (h : s.Sound) (a : Account) (ts : Option Timestamp) :
    ({ s with priorities := s.priorities.changeTimestamp a ts } : AccountSets).Sound := by
  have hget := OrderedPriorities.get_changeTimestamp s.priorities a ts
  refine ⟨OrderedPriorities.changeTimestamp_consistent h.priorities_consistent a ts,
    h.blocking_consistent, fun b e₁ e₂ h₁ h₂ => ?_, ?_, fun b e₁ h₁ => ?_, h.original_ok⟩
  · simp only [hget] at h₁
    split_ifs at h₁ with hb
    · subst hb
      obtain ⟨e, he, -⟩ := Option.map_eq_some_iff.1 h₁
      exact h.disjoint _ e e₂ he h₂
    · exact h.disjoint b e₁ e₂ h₁ h₂
  · simp only [hget]
    split_ifs with hz
    · rw [← hz, h.zero_not_prioritized]
      rfl
    · exact h.zero_not_prioritized
  · simp only [hget] at h₁
    split_ifs at h₁
    · obtain ⟨e, he, rfl⟩ := Option.map_eq_some_iff.1 h₁
      exact h.priority_ok _ e he
    · exact h.priority_ok b e₁ h₁

theorem higherPriority_ok (p q : Priority) (hp : PriorityOk p) (h : higherPriority p = some q) :
    PriorityOk q := by
  have hnonneg : 0 ≤ p := by
    rcases hp with rfl | ⟨hlt, -⟩
    · exact le_refl 0
    · exact le_of_lt (lt_trans (by norm_num [priorityCutoff]) hlt)
  rw [higherPriority, Option.some.injEq] at h
  subst h
  refine .inr ⟨lt_min ?_ (by norm_num [priorityCutoff, priorityMax]), min_le_right _ _⟩
  rw [priorityIncrease, priorityCutoff]
  linarith

theorem lowerPriority_ok (p q : Priority) (hp : PriorityOk p) (h : lowerPriority p = some q) :
    PriorityOk q := by
  dsimp only [lowerPriority] at h
  split_ifs at h with hcut
  rw [Option.some.injEq] at h
  subst h
  rcases hp with rfl | ⟨-, hle⟩
  · exact absurd (by norm_num [priorityCutoff]) hcut
  · refine .inr ⟨lt_of_not_ge hcut, ?_⟩
    rw [priorityDivide]
    rw [priorityMax] at hle ⊢
    linarith


theorem priorityInitial_ok : PriorityOk priorityInitial :=
  .inr ⟨by norm_num [priorityCutoff, priorityInitial], by norm_num [priorityInitial, priorityMax]⟩

theorem Sound.prioritySetImpl (h : s.Sound) (a : Account) :
    ({ s with priorities := (prioritySetImpl a s.blocking s.priorities).2 } : AccountSets).Sound := by
  unfold AccountSets.prioritySetImpl
  split_ifs with hz hnew
  · exact h
  · simp only [Bool.and_eq_true, Bool.not_eq_true'] at hnew
    have hz' : a ≠ FixedBytes.zero 32 := by simpa using hz
    exact h.insertPriority (e := PriorityEntry.new a priorityInitial) hz'
      (OrderedBlocking.contains_eq_false_iff.1 hnew.1) priorityInitial_ok
  · exact h

theorem changePriority_valid (h : s.Valid) (a : Account) {f : Priority → Option Priority}
    (hf : ∀ p q, PriorityOk p → f p = some q → PriorityOk q) :
    ({ s with priorities := (s.priorities.changePriority a f).2 } : AccountSets).Valid :=
  ⟨h.toSound.changePriority a hf,
    le_trans (OrderedPriorities.len_changePriority_le _ _ _) h.priorities_len, h.blocking_len⟩

theorem priorityUp_valid (h : s.Valid) (a : Account) : (s.priorityUp a).2.Valid := by
  unfold priorityUp
  split_ifs with hz hb
  · exact h
  · have hz' : a ≠ FixedBytes.zero 32 := by simpa using hz
    have hnb : s.blocking.get a = none :=
      OrderedBlocking.contains_eq_false_iff.1 (by simpa [blocked] using hb)
    have hup := changePriority_valid h a higherPriority_ok
    rcases hcp : s.priorities.changePriority a higherPriority with ⟨r, o⟩
    rw [hcp] at hup
    rcases OrderedPriorities.changePriority_cases hcp with
      ⟨-, rfl, rfl⟩ | ⟨e, p, -, -, rfl, -⟩ | ⟨e, -, -, rfl, -⟩
    · exact trimOverflow_valid (h.toSound.insertPriority (e := PriorityEntry.new a priorityInitial)
        hz' hnb priorityInitial_ok)
    · exact hup
    · exact hup
  · exact h

theorem priorityDown_valid (h : s.Valid) (a : Account) : (s.priorityDown a).2.Valid := by
  unfold priorityDown
  split_ifs
  · exact h
  · have hdown := changePriority_valid h a lowerPriority_ok
    rcases hcp : s.priorities.changePriority a lowerPriority with ⟨r, o⟩
    rw [hcp] at hdown
    exact hdown

theorem prioritySet_valid (h : s.Valid) (a : Account) : (s.prioritySet a).2.Valid :=
  trimOverflow_valid (h.toSound.prioritySetImpl a)

theorem block_eq (s : AccountSets) (a : Account) (dependency : BlockHash) :
    s.block a dependency =
      ({ s with
         priorities := (s.priorities.remove a).2
         blocking := (s.blocking.insert ⟨dependency, (s.priorities.get a).getD (PriorityEntry.new a 0),
           FixedBytes.zero 32⟩).2 } : AccountSets).trimOverflow := by
  rw [← OrderedPriorities.fst_remove]
  rfl

theorem block_valid (h : s.Valid) (a : Account) (dependency : BlockHash) :
    (s.block a dependency).Valid := by
  rw [block_eq]
  apply trimOverflow_valid
  have hentry : ((s.priorities.get a).getD (PriorityEntry.new a 0)).account = a ∧
      PriorityOk ((s.priorities.get a).getD (PriorityEntry.new a 0)).priority := by
    cases hg : s.priorities.get a with
    | none => exact ⟨rfl, .inl rfl⟩
    | some e => exact ⟨h.priorities_consistent.account_eq a e hg, h.priority_ok a e hg⟩
  refine (h.toSound.removePriority a).insertBlocking ?_ hentry.2
  change (s.priorities.remove a).2.get ((s.priorities.get a).getD _).account = none
  rw [hentry.1, OrderedPriorities.get_remove, if_pos rfl]

theorem unblock_valid (h : s.Valid) (a : Account) (hash : Option BlockHash) :
    (s.unblock a hash).2.Valid := by
  unfold unblock
  split_ifs with hz
  · exact h
  · have hz' : a ≠ FixedBytes.zero 32 := by simpa using hz
    have hgone : (s.blocking.remove a).2.get a = none := by
      rw [OrderedBlocking.get_remove, if_pos rfl]
    cases hget : s.blocking.get a with
    | none => exact h
    | some existing =>
      simp only
      split_ifs with hm hnz
      · have hacc : existing.originalEntry.account = a :=
          h.blocking_consistent.account_eq a existing hget
        apply trimOverflow_valid
        refine (h.toSound.removeBlocking a).insertPriority (by simpa [hacc] using hz') ?_
          (h.original_ok a existing hget)
        rw [hacc]
        exact hgone
      · exact trimOverflow_valid ((h.toSound.removeBlocking a).insertPriority
          (e := PriorityEntry.new a priorityInitial) hz' hgone priorityInitial_ok)
      · exact h

theorem timestampSet_valid (h : s.Valid) (a : Account) (now : Timestamp) :
    (s.timestampSet a now).Valid :=
  ⟨h.toSound.changeTimestamp a (some now),
    (OrderedPriorities.len_changeTimestamp _ _ _).trans_le h.priorities_len, h.blocking_len⟩

theorem timestampReset_valid (h : s.Valid) (a : Account) : (s.timestampReset a).Valid :=
  ⟨h.toSound.changeTimestamp a none,
    (OrderedPriorities.len_changeTimestamp _ _ _).trans_le h.priorities_len, h.blocking_len⟩

theorem dependencyUpdate_valid (h : s.Valid) (dependency : BlockHash) (dependencyAccount : Account) :
    (s.dependencyUpdate dependency dependencyAccount).2.Valid := by
  obtain ⟨hc, hseq, hkeep⟩ :=
    OrderedBlocking.modifyDependencyAccount_spec h.blocking_consistent dependency dependencyAccount
  have hsub : ∀ a e, (s.blocking.modifyDependencyAccount dependency dependencyAccount).2.get a = some e →
      ∃ e', s.blocking.get a = some e' ∧ e'.originalEntry = e.originalEntry := by
    intro a e he
    have hk := hkeep a
    rw [he, Option.map_some] at hk
    exact Option.map_eq_some_iff.1 hk.symm
  refine ⟨⟨h.priorities_consistent, hc, fun a e₁ e₂ h₁ h₂ => ?_, h.zero_not_prioritized,
    h.priority_ok, fun a e₁ h₁ => ?_⟩, h.priorities_len, ?_⟩
  · obtain ⟨e₃, he₃, -⟩ := hsub a e₂ h₂
    exact h.disjoint a e₁ e₃ h₁ he₃
  · obtain ⟨e₃, he₃, heq⟩ := hsub a e₁ h₁
    rw [← heq]
    exact h.original_ok a e₃ he₃
  · change (s.blocking.modifyDependencyAccount dependency dependencyAccount).2.sequenced.length ≤ _
    rw [hseq]
    exact h.blocking_len

theorem syncLoop_sound (entries : List BlockingEntry) (acc : Nat × Nat × OrderedPriorities)
    (h : ({ s with priorities := acc.2.2 } : AccountSets).Sound) :
    ({ s with priorities := (s.syncLoop entries acc).2.2 } : AccountSets).Sound := by
  induction entries generalizing acc with
  | nil => exact h
  | cons entry rest ih =>
    obtain ⟨inserted, insertFailed, o⟩ := acc
    have hstep := h.prioritySetImpl entry.dependencyAccount
    dsimp only at hstep
    simp only [syncLoop]
    split_ifs
    · exact h
    · rcases hps : prioritySetImpl entry.dependencyAccount s.blocking o with ⟨inserted', o'⟩
      rw [hps] at hstep
      cases inserted'
      · exact ih _ hstep
      · exact ih _ hstep
    · exact ih _ h

theorem syncDependencies_valid (h : s.Valid) : s.syncDependencies.2.Valid :=
  trimOverflow_valid (syncLoop_sound _ (0, 0, s.priorities) h.toSound)

/-- The account-set operations the bootstrap drives, each with any arguments. -/
inductive Step : AccountSets → AccountSets → Prop
  | priorityUp (s : AccountSets) (a : Account) : Step s (s.priorityUp a).2
  | priorityDown (s : AccountSets) (a : Account) : Step s (s.priorityDown a).2
  | prioritySet (s : AccountSets) (a : Account) : Step s (s.prioritySet a).2
  | block (s : AccountSets) (a : Account) (dependency : BlockHash) : Step s (s.block a dependency)
  | unblock (s : AccountSets) (a : Account) (hash : Option BlockHash) : Step s (s.unblock a hash).2
  | timestampSet (s : AccountSets) (a : Account) (now : Timestamp) : Step s (s.timestampSet a now)
  | timestampReset (s : AccountSets) (a : Account) : Step s (s.timestampReset a)
  | dependencyUpdate (s : AccountSets) (dependency : BlockHash) (dependencyAccount : Account) :
      Step s (s.dependencyUpdate dependency dependencyAccount).2
  | syncDependencies (s : AccountSets) : Step s s.syncDependencies.2

theorem step_valid (hs : Step s s') (h : s.Valid) : s'.Valid := by
  cases hs with
  | priorityUp a => exact priorityUp_valid h a
  | priorityDown a => exact priorityDown_valid h a
  | prioritySet a => exact prioritySet_valid h a
  | block a dependency => exact block_valid h a dependency
  | unblock a hash => exact unblock_valid h a hash
  | timestampSet a now => exact timestampSet_valid h a now
  | timestampReset a => exact timestampReset_valid h a
  | dependencyUpdate dependency dependencyAccount =>
    exact dependencyUpdate_valid h dependency dependencyAccount
  | syncDependencies => exact syncDependencies_valid h

theorem run_valid (hrun : Relation.ReflTransGen Step s s') (h : s.Valid) : s'.Valid := by
  induction hrun with
  | refl => exact h
  | tail _ hstep ih => exact step_valid hstep ih


theorem isZero_eq_false {a : Account} (h : a ≠ FixedBytes.zero 32) : a.isZero = false := by
  rw [Bool.eq_false_iff, ne_eq, FixedBytes.isZero_iff]
  exact h

theorem trimLoop_of_le {σ : Type} {len : σ → Nat} {popFront : σ → σ} {max : Nat} (fuel : Nat)
    (o : σ) (h : len o ≤ max) : trimLoop len popFront max fuel o = o := by
  cases fuel with
  | zero => rfl
  | succ fuel => simp [trimLoop, not_lt.2 h]

theorem trimOverflow_of_le (hp : s.priorities.len ≤ s.config.prioritiesMax)
    (hb : s.blocking.len ≤ s.config.blockingMax) : s.trimOverflow = s := by
  simp only [trimOverflow, trimLoop_of_le _ _ hp, trimLoop_of_le _ _ hb]

theorem priority_of_get {e : PriorityEntry} (hb : s.blocking.contains a = false)
    (hp : s.priorities.get a = some e) : s.priority a = e.priority := by
  simp [priority, blocked, hb, hp]

theorem unblock_none_of_get {existing : BlockingEntry} (hz : a ≠ FixedBytes.zero 32)
    (hget : s.blocking.get a = some existing)
    (hsaved : existing.originalEntry.account ≠ FixedBytes.zero 32) :
    s.unblock a none =
      (true, ({ s with
                priorities := (s.priorities.insert existing.originalEntry).2
                blocking := (s.blocking.remove a).2 } : AccountSets).trimOverflow) := by
  simp only [unblock, isZero_eq_false hz, hget, isZero_eq_false hsaved, Bool.not_false, if_true,
    Bool.false_eq_true, if_false]

/-- An account that is blocked while it is not prioritized, then unblocked, is prioritized
again with the placeholder's priority zero, below `PRIORITY_CUTOFF`. -/
theorem unblock_restores_placeholder (a dependency : Account) (ha : a ≠ FixedBytes.zero 32)
    (hp : s.priorities.get a = none) (hb : s.blocking.get a = none)
    (hroomP : s.priorities.len < s.config.prioritiesMax)
    (hroomB : s.blocking.len < s.config.blockingMax) :
    ((s.block a dependency).unblock a none).1 = true ∧
      ((s.block a dependency).unblock a none).2.priorities.get a = some (PriorityEntry.new a 0) ∧
      ((s.block a dependency).unblock a none).2.prioritized a = true ∧
      ((s.block a dependency).unblock a none).2.priority a = 0 ∧
      ¬ priorityCutoff < ((s.block a dependency).unblock a none).2.priority a := by
  let entry : BlockingEntry := ⟨dependency, PriorityEntry.new a 0, FixedBytes.zero 32⟩
  have hacc : entry.account = a := rfl
  have horig : entry.originalEntry = PriorityEntry.new a 0 := rfl
  have hnotB : s.blocking.contains entry.account = false := OrderedBlocking.contains_eq_false_iff.2 hb
  have hblock : s.block a dependency = { s with blocking := (s.blocking.insert entry).2 } := by
    rw [block_eq, hp, OrderedPriorities.remove_of_get_none hp]
    exact trimOverflow_of_le (le_of_lt hroomP) ((OrderedBlocking.len_insert_le _ _).trans hroomB)
  have hgetE : (s.blocking.insert entry).2.get a = some entry := by
    rw [OrderedBlocking.get_insert hnotB, if_pos hacc.symm]
  have hnotP : s.priorities.contains entry.originalEntry.account = false :=
    OrderedPriorities.contains_eq_false_iff.2 hp
  have hunblock := unblock_none_of_get (s := { s with blocking := (s.blocking.insert entry).2 }) ha hgetE ha
  have hlenP : (s.priorities.insert entry.originalEntry).2.len ≤ s.config.prioritiesMax :=
    (OrderedPriorities.len_insert_le _ _).trans hroomP
  have hlenB : ((s.blocking.insert entry).2.remove a).2.len ≤ s.config.blockingMax :=
    (OrderedBlocking.len_remove_le _ _).trans ((OrderedBlocking.len_insert_le _ _).trans hroomB)
  rw [trimOverflow_of_le hlenP hlenB] at hunblock
  have hgetA : (s.priorities.insert entry.originalEntry).2.get a = some entry.originalEntry := by
    rw [OrderedPriorities.get_insert hnotP, if_pos (show a = entry.originalEntry.account from rfl)]
  have hunblocked : ((s.blocking.insert entry).2.remove a).2.contains a = false := by
    rw [OrderedBlocking.contains_eq_false_iff, OrderedBlocking.get_remove, if_pos rfl]
  rw [hblock, hunblock]
  dsimp only
  refine ⟨rfl, hgetA, OrderedPriorities.contains_iff_get.2 ⟨_, hgetA⟩, ?_, ?_⟩
  · rw [priority_of_get hunblocked hgetA, horig]
    rfl
  · rw [priority_of_get hunblocked hgetA, horig]
    norm_num [PriorityEntry.new, priorityCutoff]


theorem unblock_restores_placeholder_account_one :
    (((new .default).block (FixedBytes.ofNat 32 1) (FixedBytes.ofNat 32 2)).unblock
        (FixedBytes.ofNat 32 1) none).1 = true ∧
      (((new .default).block (FixedBytes.ofNat 32 1) (FixedBytes.ofNat 32 2)).unblock
        (FixedBytes.ofNat 32 1) none).2.priorities.get (FixedBytes.ofNat 32 1) =
        some (PriorityEntry.new (FixedBytes.ofNat 32 1) 0) ∧
      (((new .default).block (FixedBytes.ofNat 32 1) (FixedBytes.ofNat 32 2)).unblock
        (FixedBytes.ofNat 32 1) none).2.prioritized (FixedBytes.ofNat 32 1) = true ∧
      (((new .default).block (FixedBytes.ofNat 32 1) (FixedBytes.ofNat 32 2)).unblock
        (FixedBytes.ofNat 32 1) none).2.priority (FixedBytes.ofNat 32 1) = 0 ∧
      ¬ priorityCutoff < (((new .default).block (FixedBytes.ofNat 32 1) (FixedBytes.ofNat 32 2)).unblock
        (FixedBytes.ofNat 32 1) none).2.priority (FixedBytes.ofNat 32 1) :=
  unblock_restores_placeholder (s := new .default) (FixedBytes.ofNat 32 1) (FixedBytes.ofNat 32 2)
    (by decide) rfl rfl (by decide) (by decide)

end AccountSets

end RsbanNode.Bootstrap
