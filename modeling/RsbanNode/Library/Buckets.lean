import RsbanNode.Library.OrdMap

namespace RsbanNode.OrderedMap

namespace OrdMap

variable {κ ι : Type} [LinearOrder κ]

/-- The ids a secondary index (a `BTreeMap<K, Vec<I>>`) files under `k`; none when `k` is absent. -/
def bucket (b : OrdMap κ (List ι)) (k : κ) : List ι := (b.find? k).getD []

/-- `entry(k).or_default().push(i)`. -/
def pushBucket (b : OrdMap κ (List ι)) (k : κ) (i : ι) : OrdMap κ (List ι) :=
  b.insert k (b.bucket k ++ [i])

@[simp] theorem bucket_empty (k : κ) : (empty : OrdMap κ (List ι)).bucket k = [] := rfl

theorem bucket_pushBucket (b : OrdMap κ (List ι)) (k k' : κ) (i : ι) :
    (b.pushBucket k i).bucket k' = if k' = k then b.bucket k ++ [i] else b.bucket k' := by
  by_cases hk : k' = k
  · subst hk
    simp [pushBucket, bucket]
  · simp [pushBucket, bucket, hk]

theorem eq_singleton_of_length_le_one {l : List ι} {i : ι} (hi : i ∈ l) (hlen : l.length ≤ 1) :
    l = [i] := by
  match l, hi, hlen with
  | [j], hi, _ => rw [List.mem_singleton.mp hi]

/-- `b` indexes the stored ids by `key`: every id is filed under its key and only there
(`key i = none` for an id that is not stored), once, and no bucket is left empty. -/
structure Indexes (b : OrdMap κ (List ι)) (key : ι → Option κ) : Prop where
  mem_bucket : ∀ k i, i ∈ b.bucket k ↔ key i = some k
  nodup : ∀ k, (b.bucket k).Nodup
  ne_nil : ∀ k l, b.find? k = some l → l ≠ []

theorem indexes_empty : (empty : OrdMap κ (List ι)).Indexes (fun _ => none) where
  mem_bucket k i := by simp
  nodup k := by simp
  ne_nil k l h := by simp at h

variable {b : OrdMap κ (List ι)} {key key' : ι → Option κ} {k : κ} {i : ι}

theorem indexes_pushBucket (h : b.Indexes key) (hnew : key i = none) (hk : key' i = some k)
    (hother : ∀ j, j ≠ i → key' j = key j) : (b.pushBucket k i).Indexes key' where
  mem_bucket k' j := by
    rw [bucket_pushBucket]
    by_cases hj : j = i
    · subst hj
      have hout : j ∉ b.bucket k' := fun hm => by simp [(h.mem_bucket k' j).1 hm] at hnew
      split_ifs with hk'
      · simp [hk, hk']
      · simp [hout, hk, Ne.symm hk']
    · rw [hother j hj, ← h.mem_bucket]
      split_ifs with hk'
      · simp [hk', hj]
      · rfl
  nodup k' := by
    rw [bucket_pushBucket]
    split_ifs with hk'
    · have hout : i ∉ b.bucket k := fun hm => by simp [(h.mem_bucket k i).1 hm] at hnew
      exact (h.nodup k).append (List.nodup_singleton i) (by simpa using hout)
    · exact h.nodup k'
  ne_nil k' l hl := by
    simp only [pushBucket, find?_insert] at hl
    split_ifs at hl with hk'
    · rw [← Option.some.inj hl]
      simp
    · exact h.ne_nil k' l hl

theorem Indexes.isSome_find? (h : b.Indexes key) (hk : key i = some k) : (b.find? k).isSome := by
  have hi : i ∈ b.bucket k := (h.mem_bucket k i).2 hk
  cases hb : b.find? k with
  | none => simp [bucket, hb] at hi
  | some l => rfl

theorem Indexes.setBucket (h : b.Indexes key) {b' : OrdMap κ (List ι)} {l : List ι}
    (hb' : ∀ k', b'.find? k' = if k' = k then some l else b.find? k')
    (hl : ∀ i, i ∈ l ↔ key' i = some k) (hnd : l.Nodup) (hne : l ≠ [])
    (hother : ∀ k', k' ≠ k → ∀ i, key' i = some k' ↔ key i = some k') : b'.Indexes key' where
  mem_bucket k' i := by
    by_cases hk : k' = k
    · subst hk
      simp [bucket, hb', hl]
    · have hbucket : b'.bucket k' = b.bucket k' := by simp [bucket, hb', hk]
      rw [hbucket, hother k' hk]
      exact h.mem_bucket k' i
  nodup k' := by
    by_cases hk : k' = k
    · simpa [bucket, hb', hk] using hnd
    · simpa [bucket, hb', hk] using h.nodup k'
  ne_nil k' l' hl' := by
    rw [hb'] at hl'
    split_ifs at hl' with hk
    · rw [← Option.some.inj hl']
      exact hne
    · exact h.ne_nil k' l' hl'

theorem Indexes.eraseBucket (h : b.Indexes key) {b' : OrdMap κ (List ι)}
    (hb' : ∀ k', b'.find? k' = if k' = k then none else b.find? k')
    (hnone : ∀ i, key' i ≠ some k)
    (hother : ∀ k', k' ≠ k → ∀ i, key' i = some k' ↔ key i = some k') : b'.Indexes key' where
  mem_bucket k' i := by
    by_cases hk : k' = k
    · subst hk
      simp [bucket, hb', hnone]
    · have hbucket : b'.bucket k' = b.bucket k' := by simp [bucket, hb', hk]
      rw [hbucket, hother k' hk]
      exact h.mem_bucket k' i
  nodup k' := by
    by_cases hk : k' = k
    · simp [bucket, hb', hk]
    · simpa [bucket, hb', hk] using h.nodup k'
  ne_nil k' l' hl' := by
    rw [hb'] at hl'
    split_ifs at hl' with hk
    exact h.ne_nil k' l' hl'

theorem mem_flatMap_iff (h : b.Indexes key) :
    i ∈ b.entries.flatMap (·.2) ↔ (key i).isSome := by
  constructor
  · intro hm
    obtain ⟨⟨k', l⟩, he, hil⟩ := List.mem_flatMap.mp hm
    have hb : b.bucket k' = l := by simp [bucket, find?_eq_some_iff_mem.mpr he]
    rw [(h.mem_bucket k' i).1 (hb ▸ hil)]
    rfl
  · intro hs
    obtain ⟨k', hk'⟩ := Option.isSome_iff_exists.mp hs
    obtain ⟨l, hl⟩ := Option.isSome_iff_exists.mp (h.isSome_find? hk')
    have hil : i ∈ l := by simpa [bucket, hl] using (h.mem_bucket k' i).2 hk'
    exact List.mem_flatMap.mpr ⟨(k', l), find?_eq_some_iff_mem.mp hl, hil⟩

theorem Indexes.nodup_flatMap (h : b.Indexes key) : (b.entries.flatMap (·.2)).Nodup := by
  have hbucket : ∀ e ∈ b.entries, b.bucket e.1 = e.2 := fun e he => by
    simp [bucket, find?_eq_some_iff_mem.mpr he]
  refine List.nodup_flatMap.mpr ⟨fun e he => hbucket e he ▸ h.nodup e.1, ?_⟩
  refine b.pairwise_entries.imp_of_mem fun {e e'} he he' hlt => ?_
  intro i hi hi'
  have hk := (h.mem_bucket e.1 i).1 (by rw [hbucket e he]; exact hi)
  have hk' := (h.mem_bucket e'.1 i).1 (by rw [hbucket e' he']; exact hi')
  rw [hk] at hk'
  exact absurd (Option.some.inj hk') (ne_of_lt hlt)

theorem Indexes.pairwise_flatMap (h : b.Indexes key) :
    (b.entries.flatMap (·.2)).Pairwise
      (fun i j => ∀ ki kj, key i = some ki → key j = some kj → ki ≤ kj) := by
  have hbucket : ∀ e ∈ b.entries, ∀ i ∈ e.2, key i = some e.1 := fun e he i hi =>
    (h.mem_bucket e.1 i).1 (by simpa [bucket, find?_eq_some_iff_mem.mpr he] using hi)
  refine List.pairwise_flatMap.mpr ⟨fun e he => ?_, ?_⟩
  · refine List.Pairwise.imp_of_mem ?_ (List.pairwise_of_forall (R := fun _ _ => True) (by simp))
    intro i j hi hj _ ki kj hki hkj
    rw [hbucket e he i hi, Option.some.injEq] at hki
    rw [hbucket e he j hj, Option.some.injEq] at hkj
    rw [← hki, ← hkj]
  · refine b.pairwise_entries.imp_of_mem fun {e e'} he he' hlt => ?_
    intro i hi j hj ki kj hki hkj
    rw [hbucket e he i hi, Option.some.injEq] at hki
    rw [hbucket e' he' j hj, Option.some.injEq] at hkj
    rw [← hki, ← hkj]
    exact le_of_lt hlt

variable [DecidableEq ι]

/-- The removal the indexes write out: `let ids = get_mut(k).unwrap(); if ids.len() > 1
{ ids.retain(|x| x != i) } else { remove(k) }`, a missing bucket read as an empty one. -/
def removeBucket (b : OrdMap κ (List ι)) (k : κ) (i : ι) : OrdMap κ (List ι) :=
  if (b.bucket k).length > 1 then b.insert k ((b.bucket k).filter (· != i)) else b.erase k

theorem bucket_removeBucket {b : OrdMap κ (List ι)} {k : κ} {i : ι} (hi : i ∈ b.bucket k)
    (k' : κ) :
    (b.removeBucket k i).bucket k' =
      if k' = k then (b.bucket k).filter (· != i) else b.bucket k' := by
  unfold removeBucket
  split_ifs with hlen hk hk
  · subst hk
    simp [bucket]
  · simp [bucket, hk]
  · subst hk
    rw [eq_singleton_of_length_le_one hi (not_lt.mp hlen)]
    simp [bucket]
  · simp [bucket, find?_erase_ne _ hk]

theorem filter_ne_nil {l : List ι} (hnd : l.Nodup) (hlen : 1 < l.length) (i : ι) :
    l.filter (· != i) ≠ [] := by
  intro hnil
  have hall : ∀ j ∈ l, j = i := by
    intro j hj
    simpa using List.filter_eq_nil_iff.mp hnil j hj
  have hcount : l.count i = l.length := List.count_eq_length.mpr (fun j hj => (hall j hj).symm)
  have hle : l.count i ≤ 1 := List.nodup_iff_count_le_one.mp hnd i
  omega

theorem indexes_removeBucket (h : b.Indexes key) (hk : key i = some k) (hgone : key' i = none)
    (hother : ∀ j, j ≠ i → key' j = key j) : (b.removeBucket k i).Indexes key' where
  mem_bucket k' j := by
    have hi : i ∈ b.bucket k := (h.mem_bucket k i).2 hk
    rw [bucket_removeBucket hi]
    by_cases hj : j = i
    · subst hj
      split_ifs with hk'
      · simp [hgone]
      · rw [h.mem_bucket, hk, hgone]
        simp [Ne.symm hk']
    · rw [hother j hj]
      split_ifs with hk'
      · subst hk'
        simp [hj, h.mem_bucket]
      · exact h.mem_bucket k' j
  nodup k' := by
    have hi : i ∈ b.bucket k := (h.mem_bucket k i).2 hk
    rw [bucket_removeBucket hi]
    split_ifs with hk'
    · exact (h.nodup k).filter _
    · exact h.nodup k'
  ne_nil k' l hl := by
    unfold removeBucket at hl
    split_ifs at hl with hlen
    · rw [find?_insert] at hl
      split_ifs at hl with hk'
      · rw [← Option.some.inj hl]
        exact filter_ne_nil (h.nodup k) hlen i
      · exact h.ne_nil k' l hl
    · rw [find?_erase] at hl
      split_ifs at hl with hk'
      exact h.ne_nil k' l hl

theorem indexes_moveBucket {k' : κ} (h : b.Indexes key) (hk : key i = some k)
    (hk' : key' i = some k') (hother : ∀ j, j ≠ i → key' j = key j) :
    ((b.removeBucket k i).pushBucket k' i).Indexes key' := by
  have hmid : (b.removeBucket k i).Indexes (Function.update key i none) :=
    indexes_removeBucket h hk (by simp) (fun j hj => by simp [hj])
  exact indexes_pushBucket hmid (by simp) hk' (fun j hj => by simp [hj, hother j hj])

section Sequenced

variable {ν : Type} {m : OrdMap κ ν} {l : List κ} {k : κ}

/-- `l` lists the keys of `m` once each: the insertion-order `VecDeque` kept beside a map. -/
structure Sequenced (m : OrdMap κ ν) (l : List κ) : Prop where
  nodup : l.Nodup
  mem_iff : ∀ k, k ∈ l ↔ m.contains k = true

theorem sequenced_empty : (empty : OrdMap κ ν).Sequenced [] where
  nodup := List.nodup_nil
  mem_iff k := by simp

theorem Sequenced.insert_new (h : m.Sequenced l) (hk : m.contains k = false) (v : ν) :
    (m.insert k v).Sequenced (l ++ [k]) where
  nodup := by
    have hout : k ∉ l := fun hm => by simp [(h.mem_iff k).1 hm] at hk
    exact h.nodup.append (List.nodup_singleton k) (by simpa using hout)
  mem_iff k' := by
    by_cases hk' : k' = k
    · subst hk'
      simp [contains_insert]
    · rw [contains_insert, if_neg hk', ← h.mem_iff]
      simp [hk']

theorem Sequenced.insert_of_contains (h : m.Sequenced l) (hk : m.contains k = true) (v : ν) :
    (m.insert k v).Sequenced l where
  nodup := h.nodup
  mem_iff k' := by
    by_cases hk' : k' = k
    · subst hk'
      simp [contains_insert, (h.mem_iff k').2 hk]
    · rw [contains_insert, if_neg hk', h.mem_iff]

theorem Sequenced.erase [BEq κ] [LawfulBEq κ] (h : m.Sequenced l) (k : κ) :
    (m.erase k).Sequenced (l.filter (· != k)) where
  nodup := h.nodup.filter _
  mem_iff k' := by
    by_cases hk' : k' = k
    · subst hk'
      simp [contains_erase]
    · rw [contains_erase, if_neg hk', ← h.mem_iff]
      simp [hk']

theorem Sequenced.length_eq (h : m.Sequenced l) : l.length = m.size := by
  rw [← length_keys]
  apply List.Perm.length_eq
  rw [List.perm_ext_iff_of_nodup h.nodup (List.Pairwise.nodup m.keys_sorted)]
  intro k
  rw [h.mem_iff, mem_keys_iff]
  rfl

end Sequenced

end OrdMap

end RsbanNode.OrderedMap
