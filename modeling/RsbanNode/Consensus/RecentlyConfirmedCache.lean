import RsbanNode.Library.FiniteMap
import RsbanNode.Library.Result

namespace RsbanNode.Consensus

open RsbanNode.FiniteMap RsbanNode.Result

/-- `RecentlyConfirmedCache`, its lock left out: the bound, the two maps between roots and
hashes, and the hashes in the order they were put. Roots and hashes are kept abstract, as
nothing here reads them beyond equality. -/
structure RecentlyConfirmedCache (R H : Type) where
  maxLen : Nat
  byRoot : Table R H
  byHash : Table H R
  sequential : List H

namespace RecentlyConfirmedCache

variable {R H : Type} [DecidableEq R] [DecidableEq H]

def new (maxLen : Nat) : RecentlyConfirmedCache R H := ⟨maxLen, ∅, ∅, []⟩

/-- `put`: a pair whose hash or root is present is refused; otherwise it is added, and once
there are more than `max_len` the front hash of `sequential` goes with its root. -/
def put (c : RecentlyConfirmedCache R H) (root : R) (hash : H) :
    Bool × RecentlyConfirmedCache R H :=
  if hash ∈ c.byHash ∨ root ∈ c.byRoot then (false, c)
  else
    let c := { c with
      sequential := c.sequential ++ [hash]
      byRoot := c.byRoot.insert root hash
      byHash := c.byHash.insert hash root }
    if c.sequential.length > c.maxLen then
      match c.sequential with
      | oldHash :: rest =>
        match c.byHash.lookup oldHash with
        | some oldRoot => (true, { c with
            sequential := rest
            byHash := c.byHash.erase oldHash
            byRoot := c.byRoot.erase oldRoot })
        | none => (true, { c with sequential := rest })
      | [] => (true, c)
    else (true, c)

def erase (c : RecentlyConfirmedCache R H) (hash : H) : RecentlyConfirmedCache R H :=
  match c.byHash.lookup hash with
  | some root => { c with
      byHash := c.byHash.erase hash
      byRoot := c.byRoot.erase root
      sequential := c.sequential.filter (· != hash) }
  | none => c

def rootExists (c : RecentlyConfirmedCache R H) (root : R) : Bool := decide (root ∈ c.byRoot)

def hashExists (c : RecentlyConfirmedCache R H) (hash : H) : Bool := decide (hash ∈ c.byHash)

def clear (c : RecentlyConfirmedCache R H) : RecentlyConfirmedCache R H :=
  { c with byRoot := ∅, byHash := ∅, sequential := [] }

def len (c : RecentlyConfirmedCache R H) : Nat := c.sequential.length

/-- `back`: the newest pair, its root found with an `unwrap`. -/
def back (c : RecentlyConfirmedCache R H) : Except String (Option (R × H)) :=
  match c.sequential.getLast? with
  | some hash => do
    let root ← unwrap (c.byHash.lookup hash)
    pure (some (root, hash))
  | none => pure none

inductive Call (R H : Type) where
  | put (root : R) (hash : H)
  | erase (hash : H)
  | clear

def Call.apply : Call R H → RecentlyConfirmedCache R H → RecentlyConfirmedCache R H
  | .put root hash, c => (c.put root hash).2
  | .erase hash, c => c.erase hash
  | .clear, c => c.clear

def run (maxLen : Nat) (calls : List (Call R H)) : RecentlyConfirmedCache R H :=
  calls.foldl (fun c call => call.apply c) (new maxLen)

end RecentlyConfirmedCache

/-! ## What the cache is for -/

namespace RecentlyConfirmedCache.Spec

variable {R H : Type} [DecidableEq R] [DecidableEq H]

/-- The cache stands for the confirmed pairs it remembers, oldest first. A pair sharing a root
or a hash with one of them is refused; otherwise it is remembered, and only the newest
`max_len` are kept. -/
def put (maxLen : Nat) (pairs : List (R × H)) (root : R) (hash : H) : Bool × List (R × H) :=
  if hash ∈ pairs.map (·.2) ∨ root ∈ pairs.map (·.1) then (false, pairs)
  else (true, (pairs ++ [(root, hash)]).drop (pairs.length + 1 - maxLen))

def erase (pairs : List (R × H)) (hash : H) : List (R × H) := pairs.filter (·.2 != hash)

def apply (maxLen : Nat) : Call R H → List (R × H) → List (R × H)
  | .put root hash, pairs => (put maxLen pairs root hash).2
  | .erase hash, pairs => erase pairs hash
  | .clear, _ => []

def run (maxLen : Nat) (calls : List (Call R H)) : List (R × H) :=
  calls.foldl (fun pairs call => apply maxLen call pairs) []

variable {maxLen : Nat} {pairs : List (R × H)} {root : R} {hash : H}

theorem put_fst_eq_true :
    (put maxLen pairs root hash).1 = true ↔ hash ∉ pairs.map (·.2) ∧ root ∉ pairs.map (·.1) := by
  unfold put
  split_ifs with hpresent
  · exact ⟨fun h => by simp at h,
      fun ⟨hh, hr⟩ => absurd hpresent (not_or.mpr ⟨hh, hr⟩)⟩
  · exact ⟨fun _ => not_or.mp hpresent, fun _ => rfl⟩

theorem mem_put (hpos : 0 < maxLen) (hput : (put maxLen pairs root hash).1 = true) :
    (root, hash) ∈ (put maxLen pairs root hash).2 := by
  have hnew := put_fst_eq_true.mp hput
  rw [put, if_neg (by simpa using hnew), List.drop_append_of_le_length (by omega)]
  exact List.mem_append_right _ List.mem_cons_self

theorem put_forgets_oldest (hlen : pairs.length ≤ maxLen) {h : H} (hmem : h ∈ pairs.map (·.2))
    (hgone : h ∉ (put maxLen pairs root hash).2.map (·.2)) : (pairs.head?.map (·.2)) = some h := by
  unfold put at hgone
  split_ifs at hgone with hpresent
  · exact absurd hmem hgone
  · cases pairs with
    | nil => cases hmem
    | cons p rest =>
      have hdrop : (p :: rest).length + 1 - maxLen ≤ 1 := by omega
      rcases Nat.le_one_iff_eq_zero_or_eq_one.mp hdrop with h0 | h1
      · rw [h0, List.drop_zero] at hgone
        exact absurd (List.map_append .. ▸ List.mem_append_left _ hmem) hgone
      · rw [h1, List.cons_append, List.drop_one, List.tail_cons, List.map_append] at hgone
        rw [List.map_cons, List.mem_cons] at hmem
        rcases hmem with rfl | hrest
        · rfl
        · exact absurd (List.mem_append_left _ hrest) hgone

end RecentlyConfirmedCache.Spec

namespace RecentlyConfirmedCache

variable {R H : Type} [DecidableEq R] [DecidableEq H]

/-- The three containers describe one list of pairs, oldest first, with distinct roots and
distinct hashes and no more of them than `max_len`. -/
structure Represents (c : RecentlyConfirmedCache R H) (pairs : List (R × H)) : Prop where
  sequential_eq : c.sequential = pairs.map (·.2)
  byRoot_iff : ∀ r h, c.byRoot.lookup r = some h ↔ (r, h) ∈ pairs
  byHash_iff : ∀ h r, c.byHash.lookup h = some r ↔ (r, h) ∈ pairs
  roots_nodup : (pairs.map (·.1)).Nodup
  hashes_nodup : (pairs.map (·.2)).Nodup
  len_le : pairs.length ≤ c.maxLen

variable {c : RecentlyConfirmedCache R H} {pairs : List (R × H)}

theorem new_represents (maxLen : Nat) : (new maxLen : RecentlyConfirmedCache R H).Represents [] where
  sequential_eq := rfl
  byRoot_iff r h := by simp [new]
  byHash_iff h r := by simp [new]
  roots_nodup := List.nodup_nil
  hashes_nodup := List.nodup_nil
  len_le := Nat.zero_le _

theorem mem_byHash (hrep : c.Represents pairs) (h : H) : h ∈ c.byHash ↔ h ∈ pairs.map (·.2) := by
  rw [← AList.lookup_isSome, Option.isSome_iff_exists, List.mem_map]
  constructor
  · rintro ⟨r, hr⟩
    exact ⟨(r, h), (hrep.byHash_iff h r).1 hr, rfl⟩
  · rintro ⟨⟨r, h'⟩, hmem, rfl⟩
    exact ⟨r, (hrep.byHash_iff h' r).2 hmem⟩

theorem mem_byRoot (hrep : c.Represents pairs) (r : R) : r ∈ c.byRoot ↔ r ∈ pairs.map (·.1) := by
  rw [← AList.lookup_isSome, Option.isSome_iff_exists, List.mem_map]
  constructor
  · rintro ⟨h, hh⟩
    exact ⟨(r, h), (hrep.byRoot_iff r h).1 hh, rfl⟩
  · rintro ⟨⟨r', h⟩, hmem, rfl⟩
    exact ⟨h, (hrep.byRoot_iff r' h).2 hmem⟩

theorem Represents.snoc (hrep : c.Represents pairs) {root : R} {hash : H}
    (hhash : hash ∉ pairs.map (·.2)) (hroot : root ∉ pairs.map (·.1)) :
    ({ c with
        sequential := c.sequential ++ [hash]
        byRoot := c.byRoot.insert root hash
        byHash := c.byHash.insert hash root
        maxLen := c.maxLen + 1 } : RecentlyConfirmedCache R H).Represents
      (pairs ++ [(root, hash)]) where
  sequential_eq := by simp [hrep.sequential_eq]
  byRoot_iff r h := by
    by_cases hr : r = root
    · subst hr
      have hnot : ∀ h', (r, h') ∉ pairs := fun h' hm => hroot (List.mem_map.mpr ⟨_, hm, rfl⟩)
      simp [AList.lookup_insert, hnot, eq_comm]
    · simp [AList.lookup_insert_ne hr, hrep.byRoot_iff, hr]
  byHash_iff h r := by
    by_cases hh : h = hash
    · subst hh
      have hnot : ∀ r', (r', h) ∉ pairs := fun r' hm => hhash (List.mem_map.mpr ⟨_, hm, rfl⟩)
      simp [AList.lookup_insert, hnot, eq_comm]
    · simp [AList.lookup_insert_ne hh, hrep.byHash_iff, hh]
  roots_nodup := by
    rw [List.map_append, List.map_singleton, ← List.concat_eq_append]
    exact hrep.roots_nodup.concat hroot
  hashes_nodup := by
    rw [List.map_append, List.map_singleton, ← List.concat_eq_append]
    exact hrep.hashes_nodup.concat hhash
  len_le := by simpa using hrep.len_le

theorem Represents.tail {p : R × H} (hrep : c.Represents (p :: pairs)) (maxLen : Nat)
    (hlen : pairs.length ≤ maxLen) :
    ({ c with
        sequential := pairs.map (·.2)
        byHash := c.byHash.erase p.2
        byRoot := c.byRoot.erase p.1
        maxLen := maxLen } : RecentlyConfirmedCache R H).Represents pairs where
  sequential_eq := rfl
  byRoot_iff r h := by
    have hout : ∀ h', (p.1, h') ∉ pairs := fun h' hm =>
      (List.nodup_cons.mp hrep.roots_nodup).1 (List.mem_map.mpr ⟨_, hm, rfl⟩)
    by_cases hr : r = p.1
    · subst hr
      simp [AList.lookup_erase, hout]
    · rw [AList.lookup_erase_ne hr, hrep.byRoot_iff, List.mem_cons]
      exact or_iff_right fun he => hr (by rw [← he])
  byHash_iff h r := by
    have hout : ∀ r', (r', p.2) ∉ pairs := fun r' hm =>
      (List.nodup_cons.mp hrep.hashes_nodup).1 (List.mem_map.mpr ⟨_, hm, rfl⟩)
    by_cases hh : h = p.2
    · subst hh
      simp [AList.lookup_erase, hout]
    · rw [AList.lookup_erase_ne hh, hrep.byHash_iff, List.mem_cons]
      exact or_iff_right fun he => hh (by rw [← he])
  roots_nodup := (List.nodup_cons.mp hrep.roots_nodup).2
  hashes_nodup := (List.nodup_cons.mp hrep.hashes_nodup).2
  len_le := hlen

theorem put_represents (hrep : c.Represents pairs) (root : R) (hash : H) :
    (c.put root hash).1 = (Spec.put c.maxLen pairs root hash).1 ∧
      (c.put root hash).2.maxLen = c.maxLen ∧
      (c.put root hash).2.Represents (Spec.put c.maxLen pairs root hash).2 := by
  by_cases hpresent : hash ∈ pairs.map (·.2) ∨ root ∈ pairs.map (·.1)
  · have hpresent' : hash ∈ c.byHash ∨ root ∈ c.byRoot := by
      rwa [mem_byHash hrep, mem_byRoot hrep]
    rw [put, Spec.put, if_pos hpresent, if_pos hpresent']
    exact ⟨rfl, rfl, hrep⟩
  · have hpresent' : ¬ (hash ∈ c.byHash ∨ root ∈ c.byRoot) := by
      rwa [mem_byHash hrep, mem_byRoot hrep]
    obtain ⟨hhash, hroot⟩ := not_or.mp hpresent
    have hsnoc := hrep.snoc hhash hroot
    have hlen₀ : (c.sequential ++ [hash]).length = pairs.length + 1 := by
      rw [hrep.sequential_eq, List.length_append, List.length_map, List.length_singleton]
    rw [put, Spec.put, if_neg hpresent, if_neg hpresent']
    dsimp only
    by_cases hover : (c.sequential ++ [hash]).length > c.maxLen
    · have hdrop : pairs.length + 1 - c.maxLen = 1 := by
        have := hrep.len_le
        omega
      obtain ⟨p, rest, hsplit⟩ : ∃ p rest, pairs ++ [(root, hash)] = p :: rest :=
        List.exists_cons_of_ne_nil (by simp)
      have hrest : rest.length ≤ c.maxLen := by
        have hl := congrArg List.length hsplit
        rw [List.length_append, List.length_singleton, List.length_cons] at hl
        have := hrep.len_le
        omega
      rw [hsplit] at hsnoc
      have hseq : c.sequential ++ [hash] = p.2 :: rest.map (·.2) := by
        have hmap := congrArg (List.map (·.2)) hsplit
        rw [List.map_append, List.map_singleton] at hmap
        rw [hrep.sequential_eq, hmap, List.map_cons]
      have hlookup : (c.byHash.insert hash root).lookup p.2 = some p.1 :=
        (hsnoc.byHash_iff p.2 p.1).2 List.mem_cons_self
      rw [if_pos hover, hdrop, hsplit, List.drop_one, List.tail_cons, hseq]
      dsimp only
      rw [hlookup]
      exact ⟨rfl, rfl, hsnoc.tail c.maxLen hrest⟩
    · have hdrop : pairs.length + 1 - c.maxLen = 0 := by omega
      rw [if_neg hover, hdrop, List.drop_zero]
      refine ⟨rfl, rfl, ⟨hsnoc.sequential_eq, hsnoc.byRoot_iff, hsnoc.byHash_iff,
        hsnoc.roots_nodup, hsnoc.hashes_nodup, ?_⟩⟩
      show (pairs ++ [(root, hash)]).length ≤ c.maxLen
      rw [List.length_append, List.length_singleton]
      omega

theorem erase_represents (hrep : c.Represents pairs) (hash : H) :
    (c.erase hash).Represents (Spec.erase pairs hash) := by
  cases hfind : c.byHash.lookup hash with
  | none =>
    have hout : ∀ p ∈ pairs, (p.2 != hash) = true := fun p hp => by
      have hne : p.2 ≠ hash := fun he => by
        rw [← he, (hrep.byHash_iff p.2 p.1).2 hp] at hfind
        cases hfind
      simpa using hne
    have hkeep : Spec.erase pairs hash = pairs := List.filter_eq_self.mpr hout
    unfold erase
    rw [hfind, hkeep]
    exact hrep
  | some root =>
    have hmem : (root, hash) ∈ pairs := (hrep.byHash_iff hash root).1 hfind
    simp only [erase, hfind]
    exact {
      sequential_eq := by
        rw [hrep.sequential_eq, Spec.erase, List.filter_map]
        rfl
      byRoot_iff := fun r h => by
        by_cases hr : r = root
        · subst hr
          have hother : ∀ h', (r, h') ∈ pairs → h' = hash := fun h' hm =>
            Option.some.inj (((hrep.byRoot_iff r h').2 hm).symm.trans ((hrep.byRoot_iff r hash).2 hmem))
          simp only [AList.lookup_erase, Spec.erase, List.mem_filter, reduceCtorEq, false_iff,
            not_and, bne_iff_ne, ne_eq, Decidable.not_not]
          exact hother h
        · rw [AList.lookup_erase_ne hr, hrep.byRoot_iff]
          simp only [Spec.erase, List.mem_filter, bne_iff_ne, ne_eq]
          refine ⟨fun hm => ⟨hm, fun hh => hr ?_⟩, And.left⟩
          subst hh
          exact congrArg Prod.fst (List.inj_on_of_nodup_map hrep.hashes_nodup hm hmem rfl)
      byHash_iff := fun h r => by
        by_cases hh : h = hash
        · subst hh
          simp [AList.lookup_erase, Spec.erase]
        · rw [AList.lookup_erase_ne hh, hrep.byHash_iff]
          simp [Spec.erase, hh]
      roots_nodup := (hrep.roots_nodup.sublist (List.filter_sublist.map _))
      hashes_nodup := (hrep.hashes_nodup.sublist (List.filter_sublist.map _))
      len_le := (List.length_filter_le _ _).trans hrep.len_le }

theorem clear_represents (c : RecentlyConfirmedCache R H) : c.clear.Represents [] where
  sequential_eq := rfl
  byRoot_iff r h := by simp [clear]
  byHash_iff h r := by simp [clear]
  roots_nodup := List.nodup_nil
  hashes_nodup := List.nodup_nil
  len_le := Nat.zero_le _

theorem apply_represents (hrep : c.Represents pairs) (call : Call R H) :
    (call.apply c).Represents (Spec.apply c.maxLen call pairs) ∧ (call.apply c).maxLen = c.maxLen := by
  cases call with
  | put root hash =>
    obtain ⟨-, hmax, hput⟩ := put_represents hrep root hash
    exact ⟨hput, hmax⟩
  | erase hash =>
    refine ⟨erase_represents hrep hash, ?_⟩
    simp only [Call.apply, erase]
    split <;> rfl
  | clear => exact ⟨clear_represents c, rfl⟩

/-- Every run of the cache stands for the run of `Spec` on the same calls. -/
theorem run_represents (maxLen : Nat) (calls : List (Call R H)) :
    (run maxLen calls).Represents (Spec.run maxLen calls) ∧ (run maxLen calls).maxLen = maxLen := by
  -- the induction runs from any represented cache, the calls taken from the front
  suffices h : ∀ (c : RecentlyConfirmedCache R H) pairs, c.Represents pairs → c.maxLen = maxLen →
      (calls.foldl (fun c call => call.apply c) c).Represents
        (calls.foldl (fun pairs call => Spec.apply maxLen call pairs) pairs) ∧
      (calls.foldl (fun c call => call.apply c) c).maxLen = maxLen from
    h _ _ (new_represents maxLen) rfl
  induction calls with
  | nil => exact fun c pairs hrep hmax => ⟨hrep, hmax⟩
  | cons call calls ih =>
    intro c pairs hrep hmax
    obtain ⟨hrep', hmax'⟩ := apply_represents hrep call
    rw [hmax] at hrep'
    exact ih _ _ hrep' (hmax'.trans hmax)

theorem back_ok (hrep : c.Represents pairs) : ∃ b, c.back = .ok b := by
  cases hlast : c.sequential.getLast? with
  | none => exact ⟨none, by simp [back, hlast]⟩
  | some hash =>
    have hmem : hash ∈ pairs.map (·.2) := hrep.sequential_eq ▸ List.mem_of_getLast? hlast
    obtain ⟨r, hr⟩ := Option.isSome_iff_exists.mp
      (AList.lookup_isSome.mpr ((mem_byHash hrep hash).2 hmem))
    exact ⟨some (r, hash), by simp [back, hlast, hr]⟩

/-- Every sequence of `put`, `erase` and `clear` from `new(max_len)` leaves a cache standing for
the pairs `Spec` remembers: `by_root` and `by_hash` are inverse to each other, their hashes are
those of `sequential`, none twice, at most `max_len` of them, and `back` never panics. `put`
returns true exactly when neither the root nor the hash is present; the only hash it takes out
is the front of `sequential`, the oldest; and with `max_len ≥ 1` the pair put is then
present. -/
theorem run_keeps_maps_inverse (maxLen : Nat) (calls : List (Call R H)) :
    ∃ c, run maxLen calls = c ∧ c.Represents (Spec.run maxLen calls) ∧
      (∀ r h, c.byRoot.lookup r = some h ↔ c.byHash.lookup h = some r) ∧
      (∀ h, h ∈ c.byHash ↔ h ∈ c.sequential) ∧ c.sequential.Nodup ∧ c.len ≤ maxLen ∧
      (∃ b, c.back = .ok b) ∧
      ∀ root hash,
        ((c.put root hash).1 = true ↔ c.hashExists hash = false ∧ c.rootExists root = false) ∧
        (∀ h, c.hashExists h = true → (c.put root hash).2.hashExists h = false →
          c.sequential.head? = some h) ∧
        ((c.put root hash).1 = true → 0 < maxLen →
          (c.put root hash).2.rootExists root = true ∧ (c.put root hash).2.hashExists hash = true) := by
  obtain ⟨hrep, hmax⟩ := run_represents maxLen calls
  refine ⟨_, rfl, hrep, fun r h => (hrep.byRoot_iff r h).trans (hrep.byHash_iff h r).symm,
    fun h => by rw [mem_byHash hrep, hrep.sequential_eq], hrep.sequential_eq ▸ hrep.hashes_nodup,
    ?_, back_ok hrep, fun root hash => ?_⟩
  · rw [len, hrep.sequential_eq, List.length_map]
    exact hrep.len_le.trans_eq hmax
  obtain ⟨hfst, hmax', hrep'⟩ := put_represents hrep root hash
  rw [hmax] at hfst hrep'
  refine ⟨?_, fun h hin hout => ?_, fun hput hpos => ?_⟩
  · rw [hfst, Spec.put_fst_eq_true, hashExists, rootExists, decide_eq_false_iff_not,
      decide_eq_false_iff_not, mem_byHash hrep, mem_byRoot hrep]
  · have hin' : h ∈ (Spec.run maxLen calls).map (·.2) := (mem_byHash hrep h).1 (of_decide_eq_true hin)
    have hout' : h ∉ (Spec.put maxLen (Spec.run maxLen calls) root hash).2.map (·.2) := fun hm =>
      absurd ((mem_byHash hrep' h).2 hm) (of_decide_eq_false hout)
    rw [hrep.sequential_eq, List.head?_map]
    exact Spec.put_forgets_oldest (hrep.len_le.trans_eq hmax) hin' hout'
  · have hmem := Spec.mem_put hpos (hfst ▸ hput)
    refine ⟨decide_eq_true ((mem_byRoot hrep' root).2 (List.mem_map.mpr ⟨_, hmem, rfl⟩)),
      decide_eq_true ((mem_byHash hrep' hash).2 (List.mem_map.mpr ⟨_, hmem, rfl⟩))⟩

/-- With `max_len = 0`, `put` accepts a pair and evicts it at once: it returns true and leaves
neither the root nor the hash present. -/
theorem put_max_len_zero_forgets_pair :
    ((new 0 : RecentlyConfirmedCache Nat Nat).put 1 2).1 = true ∧
      ((new 0 : RecentlyConfirmedCache Nat Nat).put 1 2).2.rootExists 1 = false ∧
      ((new 0 : RecentlyConfirmedCache Nat Nat).put 1 2).2.hashExists 2 = false := by
  decide

end RecentlyConfirmedCache

end RsbanNode.Consensus
