import Mathlib

namespace RsbanNode.Result

variable {ε α β : Type}

theorem bind_eq_ok {x : Except ε α} {f : α → Except ε β} {b : β} :
    x >>= f = .ok b ↔ ∃ a, x = .ok a ∧ f a = .ok b := by
  cases x with
  | error e => simp [bind, Except.bind]
  | ok a => simp [bind, Except.bind]

theorem seq_eq_ok {x : Except ε Unit} {y : Except ε β} {b : β} :
    (x >>= fun _ => y) = .ok b ↔ x = .ok () ∧ y = .ok b := by
  rw [bind_eq_ok]
  constructor
  · rintro ⟨⟨⟩, hx, hy⟩
    exact ⟨hx, hy⟩
  · rintro ⟨hx, hy⟩
    exact ⟨(), hx, hy⟩

@[simp] theorem pure_eq_ok (a : α) : (pure a : Except ε α) = .ok a := rfl

@[simp] theorem ok_bind (a : α) (f : α → Except ε β) : (Except.ok a >>= f) = f a := rfl

@[simp] theorem error_bind (e : ε) (f : α → Except ε β) :
    (Except.error e >>= f) = Except.error e := rfl

@[simp] theorem map_ok (a : α) (f : α → β) : (f <$> Except.ok a : Except ε β) = .ok (f a) := rfl

theorem map_eq_ok {x : Except ε α} {f : α → β} {b : β} :
    f <$> x = .ok b ↔ ∃ a, x = .ok a ∧ f a = b := by
  cases x with
  | error e => simp [Functor.map, Except.map]
  | ok a => simp [Functor.map, Except.map]

/-- A loop in `Except` keeps an invariant when every step from a state that has it either
succeeds into one that has it or fails with an error of the allowed kind. -/
theorem foldlM_invariant {σ γ : Type} {f : σ → γ → Except ε σ} {xs : List γ} (P : σ → Prop)
    (E : ε → Prop)
    (hstep : ∀ s x, x ∈ xs → P s → (∃ s', f s x = .ok s' ∧ P s') ∨ ∃ e, f s x = .error e ∧ E e)
    {s : σ} (hs : P s) :
    (∃ s', xs.foldlM f s = .ok s' ∧ P s') ∨ ∃ e, xs.foldlM f s = .error e ∧ E e := by
  induction xs generalizing s with
  | nil => exact .inl ⟨s, rfl, hs⟩
  | cons x xs ih =>
    rw [List.foldlM_cons]
    rcases hstep s x List.mem_cons_self hs with ⟨s', hs', hP⟩ | ⟨e, he, hE⟩
    · rw [hs', ok_bind]
      exact ih (fun s y hy => hstep s y (List.mem_cons_of_mem _ hy)) hP
    · rw [he, error_bind]
      exact .inr ⟨e, rfl, hE⟩

theorem foldlM_append_singleton {σ γ : Type} (f : σ → γ → Except ε σ) (xs : List γ) (x : γ)
    (s : σ) : (xs ++ [x]).foldlM f s = xs.foldlM f s >>= fun s => f s x := by
  rw [List.foldlM_append]
  congr 1
  funext s'
  simp only [List.foldlM_cons, List.foldlM_nil]
  cases f s' x <;> rfl

/-- A loop in `Except` whose steps each spend `w x` of a budget `N` keeps an invariant indexed
by what it has spent, as long as the whole loop fits the budget. -/
theorem foldlM_invariant_budget {σ γ : Type} {f : σ → γ → Except ε σ} (w : γ → Nat) (N : Nat)
    (P : Nat → σ → Prop) (E : ε → Prop)
    (hstep : ∀ n s x, n + w x ≤ N → P n s →
      (∃ s', f s x = .ok s' ∧ P (n + w x) s') ∨ ∃ e, f s x = .error e ∧ E e) :
    ∀ (xs : List γ) {n : Nat} {s : σ}, n + (xs.map w).sum ≤ N → P n s →
      (∃ s', xs.foldlM f s = .ok s' ∧ P (n + (xs.map w).sum) s') ∨
        ∃ e, xs.foldlM f s = .error e ∧ E e := by
  intro xs
  induction xs with
  | nil =>
    intro n s _ hs
    exact .inl ⟨s, rfl, by simpa using hs⟩
  | cons x xs ih =>
    intro n s hn hs
    simp only [List.map_cons, List.sum_cons] at hn ⊢
    rw [List.foldlM_cons]
    rcases hstep n s x (by omega) hs with ⟨s', hs', hP⟩ | ⟨e, he, hE⟩
    · rw [hs', ok_bind]
      have h := ih (n := n + w x) (by omega) hP
      rwa [Nat.add_assoc] at h
    · rw [he, error_bind]
      exact .inr ⟨e, rfl, hE⟩

def noneUnwrapped : String := "called Option::unwrap() on a None value"

/-- `Option::unwrap`, its panic as an error. -/
def unwrap : Option α → Except String α
  | some a => .ok a
  | none => .error noneUnwrapped

@[simp] theorem unwrap_some (a : α) : unwrap (some a) = .ok a := rfl

theorem unwrap_eq_ok {o : Option α} {a : α} : unwrap o = .ok a ↔ o = some a := by
  cases o <;> simp [unwrap]

theorem mapM_unwrap_of_isSome {f : β → Option α} {l : List β} (h : ∀ x ∈ l, (f x).isSome) :
    l.mapM (fun x => unwrap (f x)) = .ok (l.filterMap f) := by
  induction l with
  | nil => rfl
  | cons x l ih =>
    obtain ⟨y, hy⟩ := Option.isSome_iff_exists.mp (h x List.mem_cons_self)
    rw [List.mapM_cons, hy, unwrap_some, ok_bind, ih fun x' hx' => h x' (List.mem_cons_of_mem _ hx'),
      List.filterMap_cons_some hy]
    rfl

/-- `Option::expect`, its panic with the given message as an error. -/
def expect : Option α → String → Except String α
  | some a, _ => .ok a
  | none, msg => .error msg

@[simp] theorem expect_some (a : α) (msg : String) : expect (some a) msg = .ok a := rfl

def subtractOverflow : String := "attempt to subtract with overflow"

def checkedSub (a b : Nat) : Except String Nat :=
  if b ≤ a then .ok (a - b) else .error subtractOverflow

theorem checkedSub_of_le {a b : Nat} (h : b ≤ a) : checkedSub a b = .ok (a - b) := if_pos h

end RsbanNode.Result
