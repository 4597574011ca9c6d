import Mathlib

namespace RsbanNode.Radix

/-- The low `width` digits of `n` in base `base`, least significant first: `Nat.digits` with a
fixed width, leading zeros kept. -/
def digitsLE (base : Nat) : Nat → Nat → List Nat
  | 0, _ => []
  | width + 1, n => n % base :: digitsLE base width (n / base)

variable (base : Nat)

@[simp] theorem length_digitsLE (width n : Nat) : (digitsLE base width n).length = width := by
  induction width generalizing n with
  | zero => rfl
  | succ w ih => simp [digitsLE, ih]

theorem digit_lt_of_mem {width n d : Nat} (hb : 0 < base) (h : d ∈ digitsLE base width n) :
    d < base := by
  induction width generalizing n with
  | zero => simp [digitsLE] at h
  | succ w ih =>
    rcases List.mem_cons.mp h with rfl | h
    · exact Nat.mod_lt _ hb
    · exact ih h

theorem ofDigits_digitsLE (width n : Nat) :
    Nat.ofDigits base (digitsLE base width n) = n % base ^ width := by
  induction width generalizing n with
  | zero => simp [digitsLE, Nat.mod_one]
  | succ w ih => rw [digitsLE, Nat.ofDigits_cons, ih, Nat.pow_succ', Nat.mod_mul]

theorem digitsLE_ofDigits (ds : List Nat) (hds : ∀ d ∈ ds, d < base) :
    digitsLE base ds.length (Nat.ofDigits base ds) = ds := by
  induction ds with
  | nil => rfl
  | cons d ds ih =>
    have hd : d < base := hds d (List.mem_cons_self ..)
    have hmod : (d + base * Nat.ofDigits base ds) % base = d := by
      rw [Nat.add_mul_mod_self_left, Nat.mod_eq_of_lt hd]
    have hdiv : (d + base * Nat.ofDigits base ds) / base = Nat.ofDigits base ds := by
      rw [Nat.add_mul_div_left _ _ (by omega), Nat.div_eq_of_lt hd, Nat.zero_add]
    rw [List.length_cons, digitsLE, Nat.ofDigits_cons, hmod, hdiv,
      ih (fun x hx => hds x (List.mem_cons_of_mem _ hx))]

theorem digitsLE_succ (width n : Nat) :
    digitsLE base (width + 1) n = digitsLE base width n ++ [n / base ^ width % base] := by
  induction width generalizing n with
  | zero => simp [digitsLE]
  | succ w ih =>
    have hdiv : n / base / base ^ w = n / base ^ (w + 1) := by
      rw [Nat.div_div_eq_div_mul, Nat.pow_succ']
    rw [digitsLE, ih, hdiv, digitsLE, List.cons_append]

theorem foldl_horner (ds : List Nat) (acc : Nat) :
    ds.foldl (fun a d => a * base + d) acc =
      acc * base ^ ds.length + Nat.ofDigits base ds.reverse := by
  induction ds generalizing acc with
  | nil => simp
  | cons d ds ih =>
    rw [List.foldl_cons, ih, List.reverse_cons, Nat.ofDigits_append, List.length_reverse,
      Nat.ofDigits_singleton, List.length_cons, Nat.pow_succ']
    ring

/-- A Horner loop that reduces modulo `bound` after each shift agrees with the exact one as
long as the exact value stays below the bound. -/
theorem foldl_shift_mod_eq (bound : Nat) (ds : List Nat) (acc : Nat)
    (hds : ∀ d ∈ ds, d < base) (hbound : (acc + 1) * base ^ ds.length ≤ bound) :
    ds.foldl (fun a d => a * base % bound + d) acc = ds.foldl (fun a d => a * base + d) acc := by
  induction ds generalizing acc with
  | nil => rfl
  | cons d ds ih =>
    have hd : d < base := hds d (List.mem_cons_self ..)
    have hpow : base ≤ base ^ (ds.length + 1) := by
      calc base = base ^ 1 := (Nat.pow_one base).symm
        _ ≤ base ^ (ds.length + 1) := Nat.pow_le_pow_right (by omega) (by omega)
    have hlt : acc * base < bound := by
      have h1 : acc * base < (acc + 1) * base := Nat.mul_lt_mul_of_pos_right (by omega) (by omega)
      have h2 : (acc + 1) * base ≤ (acc + 1) * base ^ (ds.length + 1) :=
        Nat.mul_le_mul_left _ hpow
      simp only [List.length_cons] at hbound
      omega
    have hnext : (acc * base + d + 1) * base ^ ds.length ≤ bound := by
      have hle : acc * base + d + 1 ≤ (acc + 1) * base := by rw [Nat.add_mul, Nat.one_mul]; omega
      calc (acc * base + d + 1) * base ^ ds.length
          ≤ (acc + 1) * base * base ^ ds.length := Nat.mul_le_mul_right _ hle
        _ = (acc + 1) * base ^ (d :: ds).length := by
          rw [List.length_cons, Nat.pow_succ', Nat.mul_assoc]
        _ ≤ bound := hbound
    simp only [List.foldl_cons, Nat.mod_eq_of_lt hlt]
    exact ih (acc * base + d) (fun x hx => hds x (List.mem_cons_of_mem _ hx)) hnext

end RsbanNode.Radix
