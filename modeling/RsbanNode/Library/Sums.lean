import Mathlib

namespace RsbanNode.Sums

variable {α β : Type}

theorem toNat_sum_le {w : Nat} (g : α → BitVec w) (l : List α) :
    (l.map g).sum.toNat ≤ (l.map fun x => (g x).toNat).sum := by
  induction l with
  | nil => simp
  | cons x l ih =>
    rw [List.map_cons, List.sum_cons, BitVec.toNat_add, List.map_cons, List.sum_cons]
    exact (Nat.mod_le _ _).trans (Nat.add_le_add_left ih _)

theorem toNat_sum_of_lt {w : Nat} (g : α → BitVec w) (l : List α)
    (h : (l.map fun x => (g x).toNat).sum < 2 ^ w) :
    (l.map g).sum.toNat = (l.map fun x => (g x).toNat).sum := by
  induction l with
  | nil => simp
  | cons x l ih =>
    rw [List.map_cons, List.sum_cons] at h
    rw [List.map_cons, List.sum_cons, BitVec.toNat_add, ih (by omega), List.map_cons, List.sum_cons,
      Nat.mod_eq_of_lt h]

theorem sum_map_sum_filter_le [DecidableEq β] (key : α → β) (f : α → Nat) (l : List α)
    {H : List β} (hH : H.Nodup) :
    (H.map fun h => ((l.filter fun x => key x = h).map f).sum).sum ≤ (l.map f).sum := by
  induction H generalizing l with
  | nil => simp
  | cons h₀ H ih =>
    obtain ⟨hnotMem, hH⟩ := List.nodup_cons.mp hH
    have hrest : (H.map fun h => ((l.filter fun x => key x = h).map f).sum) =
        H.map fun h => (((l.filter fun x => ¬ key x = h₀).filter fun x => key x = h).map f).sum := by
      refine List.map_congr_left fun h hh => ?_
      rw [List.filter_filter]
      congr 2
      refine List.filter_congr fun x _ => ?_
      by_cases hx : key x = h
      · have hne : ¬ h = h₀ := fun h' => hnotMem (h' ▸ hh)
        simp [hx, hne]
      · simp [hx]
    have hsplit := List.sum_map_filter_add_sum_map_filter_not (fun x => key x = h₀) f l
    have hih := ih (l.filter fun x => ¬ key x = h₀) hH
    rw [List.map_cons, List.sum_cons, hrest]
    omega

end RsbanNode.Sums
