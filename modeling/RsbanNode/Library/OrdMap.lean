import Mathlib

namespace RsbanNode.OrderedMap

/-- An ordered map (Rust's `BTreeMap`): entries in strictly increasing key order, so at most one
per key, and iteration, `first_key_value` and `range` follow the key order. -/
structure OrdMap (κ ν : Type) [LinearOrder κ] where
  entries : List (κ × ν)
  sorted : (entries.map Prod.fst).Pairwise (· < ·)

variable {κ ν : Type} [LinearOrder κ]

def insertList (k : κ) (v : ν) : List (κ × ν) → List (κ × ν)
  | [] => [(k, v)]
  | e :: l =>
    if k < e.1 then (k, v) :: e :: l
    else if k = e.1 then (k, v) :: l
    else e :: insertList k v l

theorem mem_keys_insertList {k k' : κ} {v : ν} {l : List (κ × ν)}
    (h : k' ∈ (insertList k v l).map Prod.fst) : k' = k ∨ k' ∈ l.map Prod.fst := by
  induction l with
  | nil => simpa [insertList] using h
  | cons e l ih =>
    simp only [insertList] at h
    split_ifs at h with hlt heq
    · simpa using h
    · simp only [List.map_cons, List.mem_cons] at h
      rcases h with h | h
      · exact .inl h
      · exact .inr (List.mem_cons_of_mem _ h)
    · simp only [List.map_cons, List.mem_cons] at h
      rcases h with h | h
      · exact .inr (h ▸ List.mem_cons_self)
      · rcases ih h with h | h
        · exact .inl h
        · exact .inr (List.mem_cons_of_mem _ h)

theorem sorted_insertList (k : κ) (v : ν) {l : List (κ × ν)}
    (hl : (l.map Prod.fst).Pairwise (· < ·)) :
    ((insertList k v l).map Prod.fst).Pairwise (· < ·) := by
  induction l with
  | nil => simp [insertList]
  | cons e l ih =>
    rw [List.map_cons, List.pairwise_cons] at hl
    obtain ⟨hhead, htail⟩ := hl
    simp only [insertList]
    split_ifs with hlt heq
    · simp only [List.map_cons, List.pairwise_cons, List.mem_cons, forall_eq_or_imp]
      exact ⟨⟨hlt, fun a ha => hlt.trans (hhead a ha)⟩, hhead, htail⟩
    · simp only [List.map_cons, List.pairwise_cons]
      exact ⟨fun a ha => heq ▸ hhead a ha, htail⟩
    · have hgt : e.1 < k := lt_of_le_of_ne (not_lt.mp hlt) (Ne.symm heq)
      simp only [List.map_cons, List.pairwise_cons]
      refine ⟨fun a ha => ?_, ih htail⟩
      rcases mem_keys_insertList ha with rfl | ha
      · exact hgt
      · exact hhead a ha

namespace OrdMap

def empty : OrdMap κ ν := ⟨[], List.Pairwise.nil⟩

def keys (m : OrdMap κ ν) : List κ := m.entries.map Prod.fst

def size (m : OrdMap κ ν) : Nat := m.entries.length

def find? (m : OrdMap κ ν) (k : κ) : Option ν := m.entries.lookup k

def contains (m : OrdMap κ ν) (k : κ) : Bool := (m.find? k).isSome

def insert (m : OrdMap κ ν) (k : κ) (v : ν) : OrdMap κ ν :=
  ⟨insertList k v m.entries, sorted_insertList k v m.sorted⟩

def erase (m : OrdMap κ ν) (k : κ) : OrdMap κ ν :=
  ⟨m.entries.filter (fun e => e.1 != k), m.sorted.sublist (List.filter_sublist.map _)⟩

def first? (m : OrdMap κ ν) : Option (κ × ν) := m.entries.head?

def total (f : ν → Nat) (m : OrdMap κ ν) : Nat := (m.entries.map (fun e => f e.2)).sum

def weightAt (f : ν → Nat) (m : OrdMap κ ν) (k : κ) : Nat := ((m.find? k).map f).getD 0

@[simp] theorem find?_empty (k : κ) : (empty : OrdMap κ ν).find? k = none := rfl

@[simp] theorem total_empty (f : ν → Nat) : total f (empty : OrdMap κ ν) = 0 := rfl

@[simp] theorem keys_empty : (empty : OrdMap κ ν).keys = [] := rfl

theorem lookup_cons_ne {k k' : κ} {v : ν} {l : List (κ × ν)} (h : k' ≠ k) :
    ((k, v) :: l).lookup k' = l.lookup k' := by
  rw [List.lookup_cons, beq_eq_false_iff_ne.mpr h]

theorem find?_insertList (k k' : κ) (v : ν) (l : List (κ × ν)) :
    (insertList k v l).lookup k' = if k' = k then some v else l.lookup k' := by
  induction l with
  | nil =>
    by_cases h : k' = k
    · subst h; simp [insertList]
    · simp [insertList, lookup_cons_ne h, h]
  | cons e l ih =>
    obtain ⟨ek, ev⟩ := e
    simp only [insertList]
    by_cases hk : k' = k
    · subst hk
      rw [if_pos rfl]
      split_ifs with hlt heq
      · simp
      · simp
      · rw [lookup_cons_ne heq, ih, if_pos rfl]
    · rw [if_neg hk]
      split_ifs with hlt heq
      · rw [lookup_cons_ne hk]
      · subst heq
        rw [lookup_cons_ne hk, lookup_cons_ne hk]
      · by_cases he : k' = ek
        · subst he; simp
        · rw [lookup_cons_ne he, lookup_cons_ne he, ih, if_neg hk]

@[simp] theorem find?_insert (m : OrdMap κ ν) (k k' : κ) (v : ν) :
    (m.insert k v).find? k' = if k' = k then some v else m.find? k' :=
  find?_insertList k k' v m.entries

theorem find?_erase (m : OrdMap κ ν) (k k' : κ) :
    (m.erase k).find? k' = if k' = k then none else m.find? k' := by
  simp only [find?, erase]
  induction m.entries with
  | nil => simp
  | cons e l ih =>
    obtain ⟨ek, ev⟩ := e
    by_cases he : ek = k
    · subst he
      rw [List.filter_cons_of_neg (by simp), ih]
      split_ifs with hk
      · rfl
      · rw [lookup_cons_ne hk]
    · rw [List.filter_cons_of_pos (by simpa using he)]
      by_cases hk : k' = ek
      · subst hk; simp [he]
      · rw [lookup_cons_ne hk, lookup_cons_ne hk, ih]

@[simp] theorem find?_erase_self (m : OrdMap κ ν) (k : κ) : (m.erase k).find? k = none := by
  simp [find?_erase]

theorem find?_erase_ne (m : OrdMap κ ν) {k k' : κ} (h : k' ≠ k) :
    (m.erase k).find? k' = m.find? k' := by
  simp [find?_erase, h]

@[simp] theorem contains_empty (k : κ) : (empty : OrdMap κ ν).contains k = false := rfl

theorem contains_insert (m : OrdMap κ ν) (k k' : κ) (v : ν) :
    (m.insert k v).contains k' = if k' = k then true else m.contains k' := by
  by_cases h : k' = k <;> simp [contains, h]

theorem contains_erase (m : OrdMap κ ν) (k k' : κ) :
    (m.erase k).contains k' = if k' = k then false else m.contains k' := by
  by_cases h : k' = k <;> simp [contains, find?_erase, h]

theorem lookup_eq_none_of_lt {k : κ} {l : List (κ × ν)} (hs : (l.map Prod.fst).Pairwise (· < ·))
    (hk : ∀ a ∈ l.map Prod.fst, k < a) : l.lookup k = none := by
  induction l with
  | nil => rfl
  | cons e l ih =>
    obtain ⟨ek, ev⟩ := e
    rw [List.map_cons, List.pairwise_cons] at hs
    simp only [List.map_cons, List.mem_cons, forall_eq_or_imp] at hk
    rw [lookup_cons_ne (ne_of_lt hk.1), ih hs.2 hk.2]

theorem total_insert (f : ν → Nat) (m : OrdMap κ ν) (k : κ) (v : ν) :
    total f (m.insert k v) + weightAt f m k = total f m + f v := by
  obtain ⟨l, hs⟩ := m
  simp only [total, insert, weightAt, find?]
  induction l with
  | nil => simp [insertList]
  | cons e l ih =>
    obtain ⟨ek, ev⟩ := e
    rw [List.map_cons, List.pairwise_cons] at hs
    simp only [insertList]
    split_ifs with hlt heq
    · have hnone : ((ek, ev) :: l).lookup k = none := by
        apply lookup_eq_none_of_lt (List.pairwise_cons.mpr hs)
        intro a ha
        rcases List.mem_cons.mp ha with rfl | ha
        · exact hlt
        · exact hlt.trans (hs.1 a ha)
      simp only [hnone, List.map_cons, List.sum_cons, Option.map_none, Option.getD_none]
      omega
    · subst heq
      simp only [List.map_cons, List.sum_cons, List.lookup_cons_self, Option.map_some,
        Option.getD_some]
      omega
    · have hne : k ≠ ek := heq
      have := ih hs.2
      simp only [List.map_cons, List.sum_cons, lookup_cons_ne hne]
      omega

theorem total_erase (f : ν → Nat) (m : OrdMap κ ν) (k : κ) :
    total f (m.erase k) + weightAt f m k = total f m := by
  obtain ⟨l, hs⟩ := m
  simp only [total, erase, weightAt, find?]
  induction l with
  | nil => simp
  | cons e l ih =>
    obtain ⟨ek, ev⟩ := e
    rw [List.map_cons, List.pairwise_cons] at hs
    by_cases he : ek = k
    · subst he
      have hrest : l.filter (fun e => e.1 != ek) = l := by
        rw [List.filter_eq_self]
        intro a ha
        simpa using ne_of_gt (hs.1 a.1 (List.mem_map_of_mem ha))
      rw [List.filter_cons_of_neg (by simp), hrest]
      simp only [List.lookup_cons_self, Option.map_some, Option.getD_some, List.map_cons,
        List.sum_cons]
      omega
    · have hne : k ≠ ek := Ne.symm he
      have := ih hs.2
      rw [List.filter_cons_of_pos (by simpa using he)]
      simp only [List.map_cons, List.sum_cons, lookup_cons_ne hne]
      omega

theorem weightAt_of_find? {f : ν → Nat} {m : OrdMap κ ν} {k : κ} {v : ν}
    (h : m.find? k = some v) : weightAt f m k = f v := by
  simp [weightAt, h]

theorem find?_eq_some_iff_mem {m : OrdMap κ ν} {k : κ} {v : ν} :
    m.find? k = some v ↔ (k, v) ∈ m.entries := by
  obtain ⟨l, hs⟩ := m
  simp only [find?]
  induction l with
  | nil => simp
  | cons e l ih =>
    obtain ⟨ek, ev⟩ := e
    rw [List.map_cons, List.pairwise_cons] at hs
    by_cases hk : k = ek
    · subst hk
      have hnot : ∀ w, (k, w) ∉ l := fun w hw =>
        lt_irrefl k (hs.1 k (List.mem_map.mpr ⟨(k, w), hw, rfl⟩))
      rw [List.lookup_cons_self, Option.some.injEq, List.mem_cons]
      constructor
      · rintro rfl
        exact .inl rfl
      · rintro (h | h)
        · exact (Prod.mk.inj h).2.symm
        · exact absurd h (hnot v)
    · rw [lookup_cons_ne hk, ih hs.2, List.mem_cons]
      constructor
      · exact .inr
      · rintro (h | h)
        · exact absurd (congrArg Prod.fst h) hk
        · exact h

theorem weightAt_le_total (f : ν → Nat) (m : OrdMap κ ν) (k : κ) : weightAt f m k ≤ total f m := by
  have := total_erase f m k
  omega

theorem exists_of_total_pos {f : ν → Nat} {m : OrdMap κ ν} (h : 0 < total f m) :
    ∃ k v, m.find? k = some v ∧ 0 < f v := by
  by_contra hno
  push Not at hno
  have hzero : total f m = 0 := by
    apply List.sum_eq_zero
    intro w hw
    obtain ⟨⟨k, v⟩, he, rfl⟩ := List.mem_map.mp hw
    exact Nat.eq_zero_of_le_zero (hno k v (find?_eq_some_iff_mem.mpr he))
  omega

theorem size_insert_of_isSome {m : OrdMap κ ν} {k : κ} (h : (m.find? k).isSome) (v : ν) :
    (m.insert k v).size = m.size := by
  obtain ⟨l, hs⟩ := m
  simp only [size, insert, find?] at h ⊢
  induction l with
  | nil => simp at h
  | cons e l ih =>
    obtain ⟨ek, ev⟩ := e
    rw [List.map_cons, List.pairwise_cons] at hs
    simp only [insertList]
    split_ifs with hlt heq
    · have hnone : ((ek, ev) :: l).lookup k = none := by
        apply lookup_eq_none_of_lt (List.pairwise_cons.mpr hs)
        intro a ha
        rcases List.mem_cons.mp ha with rfl | ha
        · exact hlt
        · exact hlt.trans (hs.1 a ha)
      simp [hnone] at h
    · simp
    · rw [lookup_cons_ne heq] at h
      simp [ih hs.2 h]

theorem mem_keys_iff {m : OrdMap κ ν} {k : κ} : k ∈ m.keys ↔ (m.find? k).isSome := by
  constructor
  · intro h
    obtain ⟨e, he, rfl⟩ := List.mem_map.mp h
    rw [find?_eq_some_iff_mem.mpr he]
    rfl
  · intro h
    obtain ⟨v, hv⟩ := Option.isSome_iff_exists.mp h
    exact List.mem_map_of_mem (f := Prod.fst) (find?_eq_some_iff_mem.mp hv)

theorem filter_le_getElem {l : List κ} (hs : l.Pairwise (· < ·)) (i : Nat) (hi : i < l.length) :
    l.filter (fun a => decide (l[i] ≤ a)) = l.drop i := by
  induction l generalizing i with
  | nil => simp at hi
  | cons a l ih =>
    obtain ⟨hhead, htail⟩ := List.pairwise_cons.mp hs
    cases i with
    | zero =>
      rw [List.filter_cons_of_pos (by simp), List.drop_zero, List.filter_eq_self.mpr]
      intro b hb
      simpa using le_of_lt (hhead b hb)
    | succ i =>
      have hi' : i < l.length := by simpa using hi
      have hlt : a < l[i] := hhead _ (List.getElem_mem hi')
      rw [List.getElem_cons_succ, List.filter_cons_of_neg (by simpa using hlt), ih htail i hi']
      rfl

theorem keys_sorted (m : OrdMap κ ν) : m.keys.Pairwise (· < ·) := m.sorted

theorem length_keys (m : OrdMap κ ν) : m.keys.length = m.size := by
  simp [keys, size]

theorem keys_eq_of_mem_iff {m₁ m₂ : OrdMap κ ν} (h : ∀ k, k ∈ m₁.keys ↔ k ∈ m₂.keys) :
    m₁.keys = m₂.keys := by
  have hp : m₁.keys.Perm m₂.keys :=
    (List.perm_ext_iff_of_nodup m₁.keys_sorted.nodup m₂.keys_sorted.nodup).mpr h
  exact hp.eq_of_pairwise (fun _ _ _ _ hab hba => absurd hab (lt_asymm hba)) m₁.keys_sorted
    m₂.keys_sorted

theorem first?_eq_none_iff (m : OrdMap κ ν) : m.first? = none ↔ m.keys = [] := by
  simp [first?, keys]

theorem first?_key (m : OrdMap κ ν) {e : κ × ν} (h : m.first? = some e) :
    m.keys.head? = some e.1 := by
  simp only [first?] at h
  simp [keys, List.head?_map, h]

theorem keys_eq_cons_of_first? {m : OrdMap κ ν} {k : κ} {v : ν} (h : m.first? = some (k, v)) :
    ∃ rest, m.keys = k :: rest := by
  have hhead := m.first?_key h
  cases hk : m.keys with
  | nil => simp [hk] at hhead
  | cons x rest => exact ⟨rest, by simp_all⟩

theorem find?_of_first? {m : OrdMap κ ν} {k : κ} {v : ν} (h : m.first? = some (k, v)) :
    m.find? k = some v :=
  find?_eq_some_iff_mem.mpr (List.mem_of_mem_head? h)

theorem first?_isSome_of_find? {m : OrdMap κ ν} {k : κ} {v : ν} (h : m.find? k = some v) :
    m.first?.isSome := by
  cases he : m.entries with
  | nil => simp [find?, he] at h
  | cons e l => simp [first?, he]

theorem exists_find?_of_size_pos {m : OrdMap κ ν} (h : 0 < m.size) : ∃ k v, m.find? k = some v := by
  cases he : m.entries with
  | nil => simp [size, he] at h
  | cons e l => exact ⟨e.1, e.2, find?_eq_some_iff_mem.mpr (by simp [he])⟩

theorem find?_of_size_eq_zero {m : OrdMap κ ν} (h : m.size = 0) (k : κ) : m.find? k = none := by
  have hnil : m.entries = [] := List.length_eq_zero_iff.mp h
  simp [find?, hnil]

theorem lookup_cons_of_lt {k : κ} {e : κ × ν} {l : List (κ × ν)}
    (hs : ((e :: l).map Prod.fst).Pairwise (· < ·)) (hlt : k < e.1) : (e :: l).lookup k = none := by
  apply lookup_eq_none_of_lt hs
  intro a ha
  rw [List.map_cons, List.pairwise_cons] at hs
  rcases List.mem_cons.mp ha with rfl | ha
  · exact hlt
  · exact hlt.trans (hs.1 a ha)

theorem insert_of_find? {m : OrdMap κ ν} {k : κ} {v : ν} (h : m.find? k = some v) :
    m.insert k v = m := by
  obtain ⟨l, hs⟩ := m
  suffices insertList k v l = l by simp only [insert, this]
  simp only [find?] at h
  induction l with
  | nil => simp at h
  | cons e l ih =>
    obtain ⟨ek, ev⟩ := e
    simp only [insertList]
    split_ifs with hlt heq
    · rw [lookup_cons_of_lt hs hlt] at h
      cases h
    · subst heq
      rw [List.lookup_cons_self, Option.some.injEq] at h
      rw [h]
    · rw [List.map_cons, List.pairwise_cons] at hs
      rw [lookup_cons_ne heq] at h
      rw [ih hs.2 h]

theorem insertList_of_lt {k : κ} {v : ν} {l : List (κ × ν)} (h : ∀ e ∈ l, e.1 < k) :
    insertList k v l = l ++ [(k, v)] := by
  induction l with
  | nil => rfl
  | cons e l ih =>
    have hek := h e List.mem_cons_self
    simp only [insertList, if_neg (not_lt.mpr (le_of_lt hek)), if_neg (ne_of_gt hek),
      List.cons_append, ih fun e' he' => h e' (List.mem_cons_of_mem _ he')]

theorem entries_insert_of_lt {m : OrdMap κ ν} {k : κ} (h : ∀ k' ∈ m.keys, k' < k) (v : ν) :
    (m.insert k v).entries = m.entries ++ [(k, v)] :=
  insertList_of_lt fun e he => h e.1 (List.mem_map_of_mem he)

theorem entries_erase (m : OrdMap κ ν) (k : κ) :
    (m.erase k).entries = m.entries.filter (fun e => e.1 != k) := rfl

theorem size_eq_total (m : OrdMap κ ν) : m.size = total (fun _ => 1) m := by
  simp [size, total]

theorem size_erase_of_find? {m : OrdMap κ ν} {k : κ} {v : ν} (h : m.find? k = some v) :
    (m.erase k).size + 1 = m.size := by
  have htotal := total_erase (fun _ => 1) m k
  rwa [weightAt_of_find? h, ← size_eq_total, ← size_eq_total] at htotal

theorem size_erase_le (m : OrdMap κ ν) (k : κ) : (m.erase k).size ≤ m.size := by
  have htotal := total_erase (fun _ => 1) m k
  rw [← size_eq_total, ← size_eq_total] at htotal
  omega

theorem size_insert_of_find?_eq_none {m : OrdMap κ ν} {k : κ} (h : m.find? k = none) (v : ν) :
    (m.insert k v).size = m.size + 1 := by
  have htotal := total_insert (fun _ => 1) m k v
  rwa [weightAt, h, Option.map_none, Option.getD_none, Nat.add_zero, ← size_eq_total,
    ← size_eq_total] at htotal

theorem find?_foldl_erase (m : OrdMap κ ν) (ks : List κ) (k : κ) :
    (ks.foldl (fun m i => m.erase i) m).find? k = if k ∈ ks then none else m.find? k := by
  induction ks generalizing m with
  | nil => simp
  | cons i ks ih =>
    rw [List.foldl_cons, ih, find?_erase]
    by_cases hks : k ∈ ks
    · simp [hks]
    · by_cases hk : k = i <;> simp [hks, hk]

theorem size_foldl_erase_le (m : OrdMap κ ν) (ks : List κ) :
    (ks.foldl (fun m i => m.erase i) m).size ≤ m.size := by
  induction ks generalizing m with
  | nil => exact le_rfl
  | cons i ks ih => exact (ih (m.erase i)).trans (size_erase_le m i)

theorem le_of_getLast? {m : OrdMap κ ν} {k : κ} {v : ν} {e : κ × ν} (h : m.find? k = some v)
    (hlast : m.entries.getLast? = some e) : k ≤ e.1 := by
  obtain ⟨init, hinit⟩ := List.getLast?_eq_some_iff.mp hlast
  have hmem : (k, v) ∈ init ++ [e] := hinit ▸ find?_eq_some_iff_mem.mp h
  have hs := m.sorted
  rw [hinit, List.map_append, List.pairwise_append] at hs
  rcases List.mem_append.mp hmem with hk | hk
  · exact le_of_lt (hs.2.2 k (List.mem_map_of_mem (f := Prod.fst) hk) e.1 (by simp))
  · rw [← List.mem_singleton.mp hk]

section Seek

/-- The entries from the least key at or above `k` on: where a cursor stands after a range
seek to `k`. -/
def seek (m : OrdMap κ ν) (k : κ) : List (κ × ν) := m.entries.dropWhile (fun e => e.1 < k)

theorem pairwise_entries (m : OrdMap κ ν) : m.entries.Pairwise (fun a b => a.1 < b.1) :=
  List.pairwise_map.mp m.sorted

theorem dropWhile_lt_eq_filter {l : List (κ × ν)} (hs : l.Pairwise (fun a b => a.1 < b.1))
    (k : κ) : l.dropWhile (fun e => e.1 < k) = l.filter (fun e => k ≤ e.1) := by
  induction l with
  | nil => rfl
  | cons e l ih =>
    obtain ⟨hhead, htail⟩ := List.pairwise_cons.mp hs
    by_cases hk : e.1 < k
    · rw [List.dropWhile_cons_of_pos (by simpa using hk),
        List.filter_cons_of_neg (by simpa using hk), ih htail]
    · rw [List.dropWhile_cons_of_neg (by simpa using hk),
        List.filter_cons_of_pos (by simpa using hk), List.filter_eq_self.mpr]
      intro x hx
      simpa using le_of_lt (lt_of_le_of_lt (not_lt.mp hk) (hhead x hx))

theorem seek_eq_filter (m : OrdMap κ ν) (k : κ) :
    m.seek k = m.entries.filter (fun e => k ≤ e.1) :=
  dropWhile_lt_eq_filter m.pairwise_entries k

theorem filter_eq_cons {l : List (κ × ν)} (hs : l.Pairwise (fun a b => a.1 < b.1))
    {P : κ × ν → Bool} {e : κ × ν} {t : List (κ × ν)} (h : l.filter P = e :: t) :
    t = l.filter (fun x => P x && decide (e.1 < x.1)) := by
  induction l with
  | nil => simp at h
  | cons x l ih =>
    obtain ⟨hhead, htail⟩ := List.pairwise_cons.mp hs
    by_cases hx : P x = true
    · rw [List.filter_cons_of_pos hx] at h
      obtain ⟨rfl, rfl⟩ := List.cons.inj h
      rw [List.filter_cons_of_neg (by simp)]
      apply List.filter_congr
      intro y hy
      simp [hhead y hy]
    · rw [List.filter_cons_of_neg hx] at h
      rw [List.filter_cons_of_neg (by simp [hx]), ih htail h]

end Seek

theorem le_of_first? {m : OrdMap κ ν} {k k' : κ} {v v' : ν} (h : m.first? = some (k, v))
    (h' : m.find? k' = some v') : k ≤ k' := by
  have hmem := find?_eq_some_iff_mem.mp h'
  have hs := m.pairwise_entries
  cases he : m.entries with
  | nil => simp [he] at hmem
  | cons e l =>
    have he1 : e = (k, v) := by simpa [first?, he] using h
    rw [he, List.pairwise_cons] at hs
    rw [he] at hmem
    subst he1
    rcases List.mem_cons.mp hmem with hk | hk
    · rw [(Prod.mk.inj hk).1]
    · exact le_of_lt (hs.1 _ hk)

section Prefix

variable {α : Type} {p : α → Bool} {l : List α}

theorem takeWhile_eq_filter (hl : l.Pairwise (fun x y => p y = true → p x = true)) :
    l.takeWhile p = l.filter p := by
  induction l with
  | nil => rfl
  | cons x l ih =>
    obtain ⟨hhead, htail⟩ := List.pairwise_cons.mp hl
    cases hx : p x with
    | true => rw [List.takeWhile_cons_of_pos hx, List.filter_cons_of_pos hx, ih htail]
    | false =>
      rw [List.takeWhile_cons_of_neg (by simp [hx]), List.filter_cons_of_neg (by simp [hx]),
        eq_comm, List.filter_eq_nil_iff]
      intro y hy hpy
      have hpx := hhead y hy hpy
      rw [hx] at hpx
      exact Bool.false_ne_true hpx

theorem min?_map_eq_head? {β : Type} [LinearOrder β] {f : α → β}
    (hl : l.Pairwise (fun x y => f x ≤ f y)) : (l.map f).min? = l.head?.map f := by
  rw [List.min?_eq_head? (List.pairwise_map.mpr (hl.imp fun h => min_eq_left h)), List.head?_map]

theorem pair_sublist_of_pairwise {R : α → α → Prop} {a b : α} (hl : l.Pairwise R) (ha : a ∈ l)
    (hb : b ∈ l) (hab : a ≠ b) (hba : ¬ R b a) : List.Sublist [a, b] l := by
  induction l with
  | nil => cases ha
  | cons x l ih =>
    obtain ⟨hhead, htail⟩ := List.pairwise_cons.mp hl
    rcases List.mem_cons.mp ha with rfl | ha'
    · have hb' : b ∈ l := (List.mem_cons.mp hb).resolve_left (Ne.symm hab)
      exact (List.singleton_sublist.mpr hb').cons_cons a
    · rcases List.mem_cons.mp hb with rfl | hb'
      · exact absurd (hhead a ha') hba
      · exact (ih htail ha' hb').cons x

end Prefix

/-! ### Maps equal by their lookups, and maps filled by a loop -/

section Fill

theorem nodup_of_pairwise {l : List (κ × ν)} (hs : l.Pairwise (fun a b => a.1 < b.1)) : l.Nodup :=
  List.Pairwise.imp (fun h => ne_of_apply_ne Prod.fst (ne_of_lt h)) hs

/-- Two ordered maps with the same lookups are the same map: the sorted entry list is canonical. -/
theorem ext_find? {m₁ m₂ : OrdMap κ ν} (h : ∀ k, m₁.find? k = m₂.find? k) : m₁ = m₂ := by
  have hmem : ∀ e, e ∈ m₁.entries ↔ e ∈ m₂.entries := fun e => by
    rw [← find?_eq_some_iff_mem, ← find?_eq_some_iff_mem, h]
  have hperm : m₁.entries.Perm m₂.entries :=
    (List.perm_ext_iff_of_nodup (nodup_of_pairwise m₁.pairwise_entries)
      (nodup_of_pairwise m₂.pairwise_entries)).mpr hmem
  have heq : m₁.entries = m₂.entries :=
    hperm.eq_of_pairwise (fun _ _ _ _ hab hba => absurd (hab.trans hba) (lt_irrefl _))
      m₁.pairwise_entries m₂.pairwise_entries
  cases m₁
  cases m₂
  cases heq
  rfl

theorem lookup_eq_some_iff_of_nodup {l : List (κ × ν)} (hl : (l.map Prod.fst).Nodup) {k : κ}
    {v : ν} : l.lookup k = some v ↔ (k, v) ∈ l := by
  induction l with
  | nil => simp
  | cons e l ih =>
    obtain ⟨ek, ev⟩ := e
    rw [List.map_cons, List.nodup_cons] at hl
    by_cases hk : k = ek
    · subst hk
      rw [List.lookup_cons_self, Option.some.injEq, List.mem_cons]
      constructor
      · rintro rfl
        exact .inl rfl
      · rintro (h | h)
        · exact (Prod.mk.inj h).2.symm
        · exact absurd (List.mem_map_of_mem (f := Prod.fst) h) hl.1
    · rw [lookup_cons_ne hk, ih hl.2, List.mem_cons]
      constructor
      · exact .inr
      · rintro (h | h)
        · exact absurd (congrArg Prod.fst h) hk
        · exact h

theorem lookup_eq_of_perm {l₁ l₂ : List (κ × ν)} (hp : l₁.Perm l₂) (hl : (l₁.map Prod.fst).Nodup)
    (k : κ) : l₁.lookup k = l₂.lookup k := by
  have hl₂ : (l₂.map Prod.fst).Nodup := (hp.map Prod.fst).nodup_iff.mp hl
  apply Option.ext
  intro v
  rw [lookup_eq_some_iff_of_nodup hl, lookup_eq_some_iff_of_nodup hl₂, hp.mem_iff]

theorem find?_foldl_insert (l : List (κ × ν)) (m : OrdMap κ ν) (k : κ) :
    (l.foldl (fun r e => r.insert e.1 e.2) m).find? k = (l.reverse.lookup k).or (m.find? k) := by
  induction l generalizing m with
  | nil => simp
  | cons e l ih =>
    obtain ⟨ek, ev⟩ := e
    rw [List.foldl_cons, ih, find?_insert, List.reverse_cons, List.lookup_append, Option.or_assoc]
    by_cases hk : k = ek
    · subst hk
      cases l.reverse.lookup k <;> simp [List.lookup]
    · simp [hk, List.lookup, beq_eq_false_iff_ne.mpr hk]

theorem mem_of_lookup_eq_some {l : List (κ × ν)} {k : κ} {v : ν} (h : l.lookup k = some v) :
    (k, v) ∈ l := by
  induction l with
  | nil => simp at h
  | cons e l ih =>
    obtain ⟨ek, ev⟩ := e
    by_cases hk : k = ek
    · subst hk
      rw [List.lookup_cons_self, Option.some.injEq] at h
      rw [h]
      exact List.mem_cons_self
    · rw [lookup_cons_ne hk] at h
      exact List.mem_cons_of_mem _ (ih h)

theorem mem_of_find?_foldl_insert {l : List (κ × ν)} {k : κ} {v : ν}
    (h : (l.foldl (fun r e => r.insert e.1 e.2) empty).find? k = some v) : (k, v) ∈ l := by
  rw [find?_foldl_insert, find?_empty, Option.or_none] at h
  exact List.mem_reverse.mp (mem_of_lookup_eq_some h)

theorem isSome_lookup_iff (l : List (κ × ν)) (k : κ) :
    (l.lookup k).isSome ↔ k ∈ l.map Prod.fst := by
  induction l with
  | nil => simp
  | cons e l ih =>
    by_cases hk : k = e.1
    · subst hk
      simp
    · rw [lookup_cons_ne hk, ih, List.map_cons, List.mem_cons, or_iff_right hk]

theorem mem_keys_foldl_insert (l : List (κ × ν)) (m : OrdMap κ ν) (k : κ) :
    k ∈ (l.foldl (fun r e => r.insert e.1 e.2) m).keys ↔ k ∈ l.map Prod.fst ∨ k ∈ m.keys := by
  rw [mem_keys_iff, mem_keys_iff, find?_foldl_insert, Option.isSome_or, Bool.or_eq_true,
    isSome_lookup_iff, List.map_reverse, List.mem_reverse]

theorem foldl_insert_of_perm {m : OrdMap κ ν} {l : List (κ × ν)} (hp : l.Perm m.entries) :
    l.foldl (fun r e => r.insert e.1 e.2) empty = m := by
  have hnd : (m.entries.map Prod.fst).Nodup := m.sorted.imp ne_of_lt
  have hl : (l.map Prod.fst).Nodup := ((hp.map Prod.fst).nodup_iff).mpr hnd
  apply ext_find?
  intro k
  rw [find?_foldl_insert, find?_empty, Option.or_none,
    lookup_eq_of_perm (List.reverse_perm l) (by rwa [List.map_reverse, List.nodup_reverse]),
    lookup_eq_of_perm hp hl]
  rfl

end Fill

section Sums

variable {α μ : Type} [AddCommMonoid μ]

/-- `*map.entry(k).or_default() += v`. -/
def addAt (m : OrdMap κ μ) (k : κ) (v : μ) : OrdMap κ μ := m.insert k ((m.find? k).getD 0 + v)

theorem foldl_addAt (l : List α) (key : α → κ) (val : α → μ) (m : OrdMap κ μ) (k : κ) :
    let r := l.foldl (fun m x => m.addAt (key x) (val x)) m
    ((r.find? k).isSome ↔ (m.find? k).isSome ∨ ∃ x ∈ l, key x = k) ∧
      (r.find? k).getD 0 = (m.find? k).getD 0 + ((l.filter fun x => key x = k).map val).sum := by
  induction l generalizing m with
  | nil => simp
  | cons x l ih =>
    obtain ⟨hsome, hsum⟩ := ih (m.addAt (key x) (val x))
    simp only [List.foldl_cons]
    refine ⟨hsome.trans ?_, hsum.trans ?_⟩
    · by_cases hk : k = key x
      · simp [hk, addAt]
      · simp [hk, addAt, Ne.symm hk]
    · by_cases hk : k = key x
      · subst hk
        simp [addAt, add_assoc]
      · simp [hk, addAt, Ne.symm hk]

end Sums

def retain (m : OrdMap κ ν) (p : κ → ν → Bool) : OrdMap κ ν :=
  ⟨m.entries.filter (fun e => p e.1 e.2), m.sorted.sublist (List.filter_sublist.map _)⟩

theorem find?_retain (m : OrdMap κ ν) (p : κ → ν → Bool) (k : κ) :
    (m.retain p).find? k = (m.find? k).filter (p k) := by
  apply Option.ext
  intro v
  rw [Option.filter_eq_some_iff, find?_eq_some_iff_mem, find?_eq_some_iff_mem]
  simp [retain]

end OrdMap

/-- The order in which a `HashMap` visits its entries. The code fixes none, so the model takes
it as a parameter: some permutation of the entries, and every result holds for all of them. -/
structure HashOrder (α : Type) where
  visit : List α → List α
  perm : ∀ l, (visit l).Perm l

def HashOrder.asGiven (α : Type) : HashOrder α := ⟨id, List.Perm.refl⟩

end RsbanNode.OrderedMap
