import Mathlib.Logic.Relation

/-! # Walks along a right-unique relation

A walk follows a relation `r` with at most one step from each point, as a linked list or a
chain of back pointers does. `Nearest r P a b` says that `b` is the first point of the walk
from `a`, `a` itself included, that satisfies `P`. -/

namespace RsbanNode.Walk

open Relation

variable {α : Type} {r : α → α → Prop} {P : α → Prop} {a a' b b₁ b₂ : α}

/-- `b` is reached from `a`, satisfies `P`, and no point before it on the walk from `a` does. -/
structure Nearest (r : α → α → Prop) (P : α → Prop) (a b : α) : Prop where
  reaches : ReflTransGen r a b
  holds : P b
  first : ∀ x, ReflTransGen r a x → TransGen r x b → ¬ P x

theorem nearest_self (hp : P a) (hacyclic : ¬ TransGen r a a) : Nearest r P a a :=
  ⟨.refl, hp, fun _ hax hxa _ => hacyclic (TransGen.trans_right hax hxa)⟩

theorem Nearest.head (hr : Relator.RightUnique r) (hstep : r a a') (hna : ¬ P a)
    (h : Nearest r P a' b) : Nearest r P a b := by
  refine ⟨.head hstep h.reaches, h.holds, fun x hax hxb => ?_⟩
  rcases hax.cases_head with rfl | ⟨c, hac, hcx⟩
  · exact hna
  · obtain rfl : c = a' := hr hac hstep
    exact h.first x hcx hxb

theorem Nearest.unique (hr : Relator.RightUnique r) (h₁ : Nearest r P a b₁)
    (h₂ : Nearest r P a b₂) : b₁ = b₂ := by
  -- both are on the one walk from `a`, so one comes at or after the other
  rcases ReflTransGen.total_of_right_unique hr h₁.reaches h₂.reaches with h₁₂ | h₂₁
  · rcases reflTransGen_iff_eq_or_transGen.mp h₁₂ with h | h
    · exact h.symm
    · exact absurd h₁.holds (h₂.first b₁ h₁.reaches h)
  · rcases reflTransGen_iff_eq_or_transGen.mp h₂₁ with h | h
    · exact h
    · exact absurd h₂.holds (h₁.first b₂ h₂.reaches h)

section Rank

variable {Q : α → Prop} (rank : α → Nat)

theorem TransGen.rank_lt (hrank : ∀ x y, r x y → Q y → rank y < rank x)
    (hQ : ∀ x y, r x y → Q x) (h : TransGen r a b) (hb : Q b) : rank b < rank a := by
  induction h with
  | single hab => exact hrank _ _ hab hb
  | tail _ hcb ih => exact Nat.lt_trans (hrank _ _ hcb hb) (ih (hQ _ _ hcb))

theorem not_transGen_self_of_rank (hrank : ∀ x y, r x y → Q y → rank y < rank x)
    (hQ : ∀ x y, r x y → Q x) (ha : Q a) : ¬ TransGen r a a :=
  fun h => Nat.lt_irrefl _ (TransGen.rank_lt rank hrank hQ h ha)

theorem ReflTransGen.eq_of_step {β : Type} (f : α → β) (hf : ∀ x y, r x y → Q y → f y = f x)
    (hQ : ∀ x y, r x y → Q x) (h : ReflTransGen r a b) (hb : Q b) : f b = f a := by
  induction h with
  | refl => rfl
  | tail _ hcb ih => exact (hf _ _ hcb hb).trans (ih (hQ _ _ hcb))

end Rank

end RsbanNode.Walk
