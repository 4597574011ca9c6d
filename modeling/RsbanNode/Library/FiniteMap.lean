import Mathlib

namespace RsbanNode.FiniteMap

/-- A finite key-value store holding at most one value per key, as a database table does. -/
abbrev Table (K V : Type) := AList (fun _ : K => V)

variable {K V : Type}

def sumBy (f : K → V → Nat) (t : Table K V) : Nat :=
  (t.entries.map (fun e => f e.1 e.2)).sum

@[simp] theorem sumBy_empty (f : K → V → Nat) : sumBy f (∅ : Table K V) = 0 := rfl

variable [DecidableEq K]

def weightAt (f : K → V → Nat) (t : Table K V) (k : K) : Nat :=
  match t.lookup k with
  | some v => f k v
  | none => 0

theorem insert_erase_self (t : Table K V) (k : K) (v : V) :
    (t.erase k).insert k v = t.insert k v := by
  have hk : k ∉ t.erase k := by simp
  apply AList.ext
  rw [AList.entries_insert_of_notMem hk, AList.entries_insert]
  rfl

variable (f : K → V → Nat)

theorem weightAt_of_lookup {t : Table K V} {k : K} {v : V} (h : t.lookup k = some v) :
    weightAt f t k = f k v := by
  simp [weightAt, h]

theorem weightAt_of_not_mem {t : Table K V} {k : K} (h : k ∉ t) : weightAt f t k = 0 := by
  simp [weightAt, AList.lookup_eq_none.mpr h]

theorem sumBy_eq_erase (t : Table K V) (k : K) :
    sumBy f t = sumBy f (t.erase k) + weightAt f t k := by
  by_cases hk : k ∈ t
  · obtain ⟨b, l₁, l₂, hl₁, hsplit, herase⟩ := List.exists_of_kerase (AList.mem_keys.mp hk)
    have hlookup : t.lookup k = some b := by
      simp only [AList.lookup, hsplit, List.dlookup_append, List.dlookup_cons_eq,
        List.dlookup_eq_none.mpr hl₁, Option.none_or]
    have hentries : (t.erase k).entries = l₁ ++ l₂ := herase
    rw [sumBy, sumBy, hentries, hsplit, weightAt_of_lookup f hlookup]
    simp only [
      List.map_append, List.map_cons, List.sum_append, List.sum_cons]
    omega
  · have hkeys : k ∉ t.entries.keys := fun h => hk (AList.mem_keys.mpr h)
    simp [sumBy, AList.erase, List.kerase_of_notMem_keys hkeys, weightAt_of_not_mem f hk]

theorem sumBy_insert (t : Table K V) (k : K) (v : V) :
    sumBy f (t.insert k v) = f k v + sumBy f (t.erase k) := by
  simp [sumBy, AList.insert, AList.erase]

theorem sumBy_insert_eq (t : Table K V) (k : K) (v : V) :
    sumBy f (t.insert k v) + weightAt f t k = sumBy f t + f k v := by
  rw [sumBy_insert, sumBy_eq_erase f t k]
  omega

theorem sumBy_erase_eq (t : Table K V) (k : K) :
    sumBy f (t.erase k) + weightAt f t k = sumBy f t :=
  (sumBy_eq_erase f t k).symm

theorem weightAt_insert_self (t : Table K V) (k : K) (v : V) :
    weightAt f (t.insert k v) k = f k v := by
  simp [weightAt, AList.lookup_insert]

theorem weightAt_erase_self (t : Table K V) (k : K) : weightAt f (t.erase k) k = 0 := by
  simp [weightAt, AList.lookup_erase]

/-! ### Counting keys -/

def countKeys (p : K → Bool) (t : Table K V) : Nat := t.keys.countP p

variable (p : K → Bool) {t : Table K V} {k : K}

theorem countKeys_erase_of_mem (h : k ∈ t) :
    countKeys p t = countKeys p (t.erase k) + if p k then 1 else 0 := by
  rw [countKeys, countKeys, AList.keys_erase, (List.perm_cons_erase (AList.mem_keys.mp h)).countP_eq,
    List.countP_cons]

theorem countKeys_insert_of_not_mem (h : k ∉ t) (v : V) :
    countKeys p (t.insert k v) = countKeys p t + if p k then 1 else 0 := by
  rw [countKeys, countKeys, AList.keys_insert, List.erase_of_not_mem (fun hk => h (AList.mem_keys.mpr hk)),
    List.countP_cons]

theorem countKeys_pos_of_mem (h : k ∈ t) (hp : p k = true) : 0 < countKeys p t := by
  rw [countKeys_erase_of_mem p h, if_pos hp]
  omega

end RsbanNode.FiniteMap
