import RsbanNode.Core.Blocks
import RsbanNode.Library.OrdMap
import RsbanNode.Library.Result

namespace RsbanNode.BlockProcessing

open RsbanNode.Primitives RsbanNode.Blocks RsbanNode.OrderedMap OrdMap RsbanNode.Result

/-- `UncheckedKey`: the dependency a block waits for, then the block's hash. Its derived order
is the lexicographic one. -/
structure UncheckedKey where
  previous : BlockHash
  hash : BlockHash
deriving DecidableEq

namespace UncheckedKey

def toLexPair (k : UncheckedKey) : Lex (BlockHash × BlockHash) := toLex (k.previous, k.hash)

theorem toLexPair_injective : Function.Injective toLexPair := by
  intro a b h
  have hpair := Prod.mk.inj (toLex.injective h)
  cases a
  cases b
  simp only [mk.injEq]
  exact hpair

instance : LinearOrder UncheckedKey := LinearOrder.lift' toLexPair toLexPair_injective

theorem lt_iff {a b : UncheckedKey} :
    a < b ↔ a.previous < b.previous ∨ a.previous = b.previous ∧ a.hash < b.hash :=
  Prod.Lex.toLex_lt_toLex

theorem le_iff {a b : UncheckedKey} :
    a ≤ b ↔ a.previous < b.previous ∨ a.previous = b.previous ∧ a.hash ≤ b.hash :=
  Prod.Lex.toLex_le_toLex

theorem start_le_iff (dependency : BlockHash) (k : UncheckedKey) :
    ⟨dependency, FixedBytes.zero 32⟩ ≤ k ↔ dependency ≤ k.previous := by
  rw [le_iff]
  constructor
  · rintro (h | ⟨h, -⟩)
    · exact le_of_lt h
    · exact le_of_eq h
  · intro h
    rcases lt_or_eq_of_le h with h | h
    · exact .inl h
    · exact .inr ⟨h, FixedBytes.zero_le _⟩

theorem lt_iff_hash_lt {a b : UncheckedKey} (h : a.previous = b.previous) :
    a < b ↔ a.hash < b.hash := by
  rw [lt_iff, h]
  simp

end UncheckedKey

theorem scan_eq_filter {ν : Type} (m : OrdMap UncheckedKey ν) (dependency : BlockHash) :
    (m.seek ⟨dependency, FixedBytes.zero 32⟩).takeWhile (fun e => e.1.previous == dependency) =
      m.entries.filter (fun e => e.1.previous == dependency) := by
  rw [seek_eq_filter, takeWhile_eq_filter, List.filter_filter]
  · apply List.filter_congr
    intro e _
    by_cases h : e.1.previous = dependency
    · simp [h, UncheckedKey.start_le_iff]
    · simp [h]
  · refine (m.pairwise_entries.filter _).imp_of_mem fun {x y} hx _ hxy hpy => ?_
    have hstart := (UncheckedKey.start_le_iff _ _).mp (of_decide_eq_true (List.mem_filter.mp hx).2)
    have hy : y.1.previous = dependency := beq_iff_eq.mp hpy
    have hle : x.1.previous ≤ dependency := by
      rcases UncheckedKey.lt_iff.mp hxy with h | ⟨h, -⟩
      · exact hy ▸ le_of_lt h
      · exact hy ▸ le_of_eq h
    exact beq_iff_eq.mpr (le_antisymm hle hstart)

/-- `UncheckedInfo`: a block waiting for its dependency, and when it was put. -/
structure UncheckedInfo where
  block : Block
  modified : UInt64

structure Entry where
  key : UncheckedKey
  info : UncheckedInfo

/-- `EntriesContainer`: the entries by insertion id, the ids by key, and the next id, a `usize`
that `wrapping_add` moves on modulo `2 ^ 64`. -/
structure EntriesContainer where
  nextId : Nat
  byKey : OrdMap UncheckedKey Nat
  byId : OrdMap Nat Entry

namespace EntriesContainer

def new : EntriesContainer := ⟨0, .empty, .empty⟩

/-- `insert`: an entry whose key is present is refused. -/
def insert (c : EntriesContainer) (entry : Entry) : Bool × EntriesContainer :=
  match c.byKey.find? entry.key with
  | some _ => (false, c)
  | none =>
    (true, ⟨(c.nextId + 1) % 2 ^ 64, c.byKey.insert entry.key c.nextId,
      c.byId.insert c.nextId entry⟩)

def remove (c : EntriesContainer) (key : UncheckedKey) : Option Entry × EntriesContainer :=
  match c.byKey.find? key with
  | some id => (c.byId.find? id, { c with byKey := c.byKey.erase key, byId := c.byId.erase id })
  | none => (none, c)

def len (c : EntriesContainer) : Nat := c.byId.size

def popFront (c : EntriesContainer) : Option Entry × EntriesContainer :=
  match c.byId.first? with
  | some (id, entry) =>
    (some entry, { c with byId := c.byId.erase id, byKey := c.byKey.erase entry.key })
  | none => (none, c)

def clear (_ : EntriesContainer) : EntriesContainer := ⟨0, .empty, .empty⟩

/-- `for_each_with_dependency`, with the predicate of its callers here, which always goes on:
the entries from the first key at or above `(dependency, 0)` while the key's previous is the
dependency, each looked up in `by_id` with an `unwrap`. -/
def withDependency (c : EntriesContainer) (dependency : BlockHash) :
    Except String (List Entry) :=
  ((c.byKey.seek ⟨dependency, FixedBytes.zero 32⟩).takeWhile
    (fun e => e.1.previous == dependency)).mapM fun e => unwrap (c.byId.find? e.2)

/-- The container holds the entries of `spec`, oldest first: `by_id` lists them in id order,
`by_key` maps each key to the id of the entry under it and holds no other key, and every id is
below `next_id`. -/
structure Represents (c : EntriesContainer) (spec : List Entry) : Prop where
  byId_eq : c.byId.entries.map Prod.snd = spec
  byKey_iff : ∀ k id, c.byKey.find? k = some id ↔ ∃ e, c.byId.find? id = some e ∧ e.key = k
  keys_nodup : (spec.map Entry.key).Nodup
  id_lt : ∀ id ∈ c.byId.keys, id < c.nextId

theorem new_represents : new.Represents [] :=
  ⟨rfl, fun k id => by simp [new], List.nodup_nil, fun id h => by simp [new] at h⟩

theorem clear_represents (c : EntriesContainer) : c.clear.Represents [] := new_represents

variable {c : EntriesContainer} {spec : List Entry} {e : Entry} {id : Nat}

theorem Represents.len_eq (h : c.Represents spec) : c.len = spec.length := by
  rw [len, size, ← h.byId_eq, List.length_map]

theorem Represents.mem_of_find? (h : c.Represents spec) (he : c.byId.find? id = some e) :
    e ∈ spec := by
  rw [← h.byId_eq]
  exact List.mem_map.mpr ⟨(id, e), find?_eq_some_iff_mem.mp he, rfl⟩

theorem Represents.find?_key_of_mem (h : c.Represents spec) (he : e ∈ spec) :
    ∃ id, c.byKey.find? e.key = some id ∧ c.byId.find? id = some e := by
  rw [← h.byId_eq] at he
  obtain ⟨⟨id, e'⟩, hmem, rfl⟩ := List.mem_map.mp he
  have hfind := find?_eq_some_iff_mem.mpr hmem
  exact ⟨id, (h.byKey_iff _ id).mpr ⟨e', hfind, rfl⟩, hfind⟩

theorem Represents.find?_key_eq_none (h : c.Represents spec) {k : UncheckedKey}
    (hk : k ∉ spec.map Entry.key) : c.byKey.find? k = none := by
  cases hfind : c.byKey.find? k with
  | none => rfl
  | some id =>
    obtain ⟨e, he, rfl⟩ := (h.byKey_iff k id).mp hfind
    exact absurd (List.mem_map.mpr ⟨e, h.mem_of_find? he, rfl⟩) hk

theorem Represents.id_eq_of_key_eq (h : c.Represents spec) {id₁ id₂ : Nat} {e₁ e₂ : Entry}
    (h₁ : c.byId.find? id₁ = some e₁) (h₂ : c.byId.find? id₂ = some e₂) (hk : e₁.key = e₂.key) :
    id₁ = id₂ := by
  have hk₁ := (h.byKey_iff e₁.key id₁).mpr ⟨e₁, h₁, rfl⟩
  have hk₂ := (h.byKey_iff e₁.key id₂).mpr ⟨e₂, h₂, hk.symm⟩
  exact Option.some.inj (hk₁.symm.trans hk₂)

theorem insert_of_find?_some (h : c.byKey.find? e.key = some id) : c.insert e = (false, c) := by
  simp [EntriesContainer.insert, h]

theorem insert_of_find?_none (h : c.byKey.find? e.key = none) :
    c.insert e = (true, ⟨(c.nextId + 1) % 2 ^ 64, c.byKey.insert e.key c.nextId,
      c.byId.insert c.nextId e⟩) := by
  simp [EntriesContainer.insert, h]

theorem Represents.insert (h : c.Represents spec) (hk : e.key ∉ spec.map Entry.key) :
    Represents ⟨c.nextId + 1, c.byKey.insert e.key c.nextId, c.byId.insert c.nextId e⟩
      (spec ++ [e]) := by
  have hfresh : ∀ id e', c.byId.find? id = some e' → id ≠ c.nextId := fun id e' he' =>
    ne_of_lt (h.id_lt id (mem_keys_iff.mpr (by simp [he'])))
  refine ⟨?_, fun k id => ?_, ?_, fun id hid => ?_⟩
  · rw [entries_insert_of_lt h.id_lt, List.map_append, h.byId_eq]
    rfl
  · simp only [find?_insert]
    by_cases hke : k = e.key
    · subst hke
      rw [if_pos rfl]
      constructor
      · rintro ⟨⟩
        exact ⟨e, by simp, rfl⟩
      · rintro ⟨e', he', hkey⟩
        by_cases hid : id = c.nextId
        · rw [hid]
        · rw [if_neg hid] at he'
          exact absurd (List.mem_map.mpr ⟨e', h.mem_of_find? he', hkey⟩) hk
    · rw [if_neg hke, h.byKey_iff]
      constructor
      · rintro ⟨e', he', hkey⟩
        exact ⟨e', by rw [if_neg (hfresh id e' he')]; exact he', hkey⟩
      · rintro ⟨e', he', hkey⟩
        by_cases hid : id = c.nextId
        · rw [if_pos hid, Option.some.injEq] at he'
          subst he'
          exact absurd hkey.symm hke
        · rw [if_neg hid] at he'
          exact ⟨e', he', hkey⟩
  · rw [List.map_append]
    exact h.keys_nodup.append (List.nodup_singleton _) (List.disjoint_singleton.mpr hk)
  · have hsome := mem_keys_iff.mp hid
    rw [find?_insert] at hsome
    split_ifs at hsome with heq
    · exact heq ▸ Nat.lt_succ_self _
    · exact Nat.lt_succ_of_lt (h.id_lt id (mem_keys_iff.mpr hsome))

theorem Represents.erase (h : c.Represents spec) (he : c.byId.find? id = some e) :
    Represents ⟨c.nextId, c.byKey.erase e.key, c.byId.erase id⟩
      (spec.filter (·.key != e.key)) := by
  refine ⟨?_, fun k id' => ?_, ?_, fun id' hid' => ?_⟩
  · rw [entries_erase, ← h.byId_eq, List.filter_map]
    congr 1
    apply List.filter_congr
    rintro ⟨id', e'⟩ hmem
    have he' := find?_eq_some_iff_mem.mpr hmem
    by_cases hid : id' = id
    · subst hid
      rw [he, Option.some.injEq] at he'
      subst he'
      simp
    · have hk : e'.key ≠ e.key := fun hk => hid (h.id_eq_of_key_eq he' he hk)
      rw [bne_iff_ne.mpr hid, Function.comp_apply, bne_iff_ne.mpr hk]
  · rw [find?_erase]
    by_cases hk : k = e.key
    · subst hk
      rw [if_pos rfl]
      constructor
      · rintro ⟨⟩
      · rintro ⟨e', he', hkey⟩
        rw [find?_erase] at he'
        split_ifs at he' with hid
        exact absurd (h.id_eq_of_key_eq he' he hkey) hid
    · rw [if_neg hk, h.byKey_iff]
      constructor
      · rintro ⟨e', he', rfl⟩
        have hid : id' ≠ id := by
          rintro rfl
          rw [he, Option.some.injEq] at he'
          exact hk (congrArg Entry.key he'.symm)
        exact ⟨e', by rw [find?_erase_ne _ hid]; exact he', rfl⟩
      · rintro ⟨e', he', hkey⟩
        rw [find?_erase] at he'
        split_ifs at he'
        exact ⟨e', he', hkey⟩
  · exact h.keys_nodup.sublist (List.filter_sublist.map _)
  · have hsome := mem_keys_iff.mp hid'
    rw [find?_erase] at hsome
    split_ifs at hsome
    · cases hsome
    · exact h.id_lt id' (mem_keys_iff.mpr hsome)

theorem popFront_nextId (c : EntriesContainer) : c.popFront.2.nextId = c.nextId := by
  unfold popFront
  split <;> rfl

theorem remove_nextId (c : EntriesContainer) (key : UncheckedKey) :
    (c.remove key).2.nextId = c.nextId := by
  unfold EntriesContainer.remove
  split <;> rfl

theorem Represents.popFront {rest : List Entry} (h : c.Represents (e :: rest)) :
    c.popFront.1 = some e ∧ c.popFront.2.Represents rest := by
  obtain ⟨⟨id, e'⟩, tl, hentries⟩ : ∃ x tl, c.byId.entries = x :: tl := by
    cases hc : c.byId.entries with
    | nil =>
      have hmap := h.byId_eq
      rw [hc] at hmap
      cases hmap
    | cons x tl => exact ⟨x, tl, rfl⟩
  have hmap := h.byId_eq
  rw [hentries, List.map_cons] at hmap
  obtain ⟨rfl, -⟩ := List.cons.inj hmap
  have hfirst : c.byId.first? = some (id, e') := by simp [first?, hentries]
  have hrest : (e' :: rest).filter (·.key != e'.key) = rest := by
    have hnodup := h.keys_nodup
    rw [List.map_cons, List.nodup_cons] at hnodup
    rw [List.filter_cons_of_neg (by simp), List.filter_eq_self]
    intro x hx
    exact bne_iff_ne.mpr fun hkey => hnodup.1 (hkey ▸ List.mem_map_of_mem hx)
  have hrep := h.erase (find?_of_first? hfirst)
  rw [hrest] at hrep
  have hpop : c.popFront = (some e', ⟨c.nextId, c.byKey.erase e'.key, c.byId.erase id⟩) := by
    simp only [EntriesContainer.popFront, hfirst]
  rw [hpop]
  exact ⟨rfl, hrep⟩

theorem Represents.popFront_tail {l : List Entry} (h : c.Represents l) (hl : l ≠ []) :
    c.popFront.2.Represents l.tail := by
  obtain ⟨e, rest, rfl⟩ := List.exists_cons_of_ne_nil hl
  exact (h.popFront).2

theorem Represents.remove (h : c.Represents spec) (key : UncheckedKey) :
    (c.remove key).2.Represents (spec.filter (·.key != key)) := by
  cases hk : c.byKey.find? key with
  | none =>
    have hfilter : spec.filter (·.key != key) = spec := by
      refine List.filter_eq_self.mpr fun x hx => bne_iff_ne.mpr fun hkey => ?_
      obtain ⟨id, hid, -⟩ := h.find?_key_of_mem hx
      rw [hkey, hk] at hid
      cases hid
    simp only [EntriesContainer.remove, hk, hfilter]
    exact h
  | some id =>
    obtain ⟨e, he, rfl⟩ := (h.byKey_iff key id).mp hk
    simp only [EntriesContainer.remove, hk]
    exact h.erase he

theorem Represents.foldl_remove (h : c.Represents spec) (visited : List Entry) :
    (visited.foldl (fun c e => (c.remove e.key).2) c).Represents
      (spec.filter (fun e => e.key ∉ visited.map Entry.key)) := by
  induction visited generalizing c spec with
  | nil => simpa using h
  | cons v visited ih =>
    have hfilter : (spec.filter (·.key != v.key)).filter (fun e => e.key ∉ visited.map Entry.key) =
        spec.filter (fun e => e.key ∉ (v :: visited).map Entry.key) := by
      rw [List.filter_filter]
      apply List.filter_congr
      intro e _
      by_cases hk : e.key = v.key <;> simp [hk]
    rw [List.foldl_cons, ← hfilter]
    exact ih (h.remove v.key)

theorem foldl_remove_nextId (c : EntriesContainer) (visited : List Entry) :
    (visited.foldl (fun c e => (c.remove e.key).2) c).nextId = c.nextId := by
  induction visited generalizing c with
  | nil => rfl
  | cons v visited ih => rw [List.foldl_cons, ih, remove_nextId]

theorem map_filterMap_of_forall {α β γ : Type} {f : α → Option β} {g : β → γ} {k : α → γ}
    {l : List α} (H : ∀ x ∈ l, ∃ y, f x = some y ∧ g y = k x) :
    (l.filterMap f).map g = l.map k := by
  induction l with
  | nil => rfl
  | cons x l ih =>
    obtain ⟨y, hy, hgy⟩ := H x List.mem_cons_self
    rw [List.filterMap_cons_some hy, List.map_cons, List.map_cons, hgy,
      ih fun x' hx' => H x' (List.mem_cons_of_mem _ hx')]

theorem Represents.withDependency (h : c.Represents spec) (dependency : BlockHash) :
    ∃ visited, c.withDependency dependency = .ok visited ∧
      visited.Perm (spec.filter (·.key.previous == dependency)) ∧
      visited.Pairwise (·.key < ·.key) := by
  let scanned := c.byKey.entries.filter (fun e => e.1.previous == dependency)
  have hfound : ∀ x ∈ scanned, ∃ e, c.byId.find? x.2 = some e ∧ e.key = x.1 := fun x hx =>
    (h.byKey_iff x.1 x.2).mp (find?_eq_some_iff_mem.mpr (List.mem_filter.mp hx).1)
  have hkeys : (scanned.filterMap fun x => c.byId.find? x.2).map Entry.key = scanned.map Prod.fst :=
    map_filterMap_of_forall hfound
  have hsorted : (scanned.map Prod.fst).Pairwise (· < ·) :=
    c.byKey.keys_sorted.sublist (List.filter_sublist.map _)
  refine ⟨scanned.filterMap fun x => c.byId.find? x.2, ?_, ?_, ?_⟩
  · rw [EntriesContainer.withDependency, scan_eq_filter]
    refine mapM_unwrap_of_isSome fun x hx => ?_
    obtain ⟨e, he, -⟩ := hfound x hx
    simp [he]
  · have hnodup : (scanned.filterMap fun x => c.byId.find? x.2).Nodup :=
      List.Nodup.of_map Entry.key (hkeys ▸ hsorted.imp ne_of_lt)
    refine (List.perm_ext_iff_of_nodup hnodup ((h.keys_nodup.of_map _).filter _)).mpr fun e => ?_
    rw [List.mem_filterMap, List.mem_filter]
    constructor
    · rintro ⟨x, hx, hfind⟩
      obtain ⟨e', he', hkey⟩ := hfound x hx
      rw [hfind, Option.some.injEq] at he'
      subst he'
      exact ⟨h.mem_of_find? hfind, hkey ▸ (List.mem_filter.mp hx).2⟩
    · rintro ⟨he, hdep⟩
      obtain ⟨id, hkey, hfind⟩ := h.find?_key_of_mem he
      exact ⟨(e.key, id), List.mem_filter.mpr ⟨find?_eq_some_iff_mem.mp hkey, hdep⟩, hfind⟩
  · exact List.pairwise_map.mp (hkeys ▸ hsorted)

end EntriesContainer

/-- `UncheckedMap`, with what its put, remove, clear and dependency queries touch: the entries,
their bound, and the query thread's `disable_delete`. -/
structure UncheckedMap where
  entries : EntriesContainer
  maxUncheckedBlocks : Nat
  disableDelete : Bool

namespace UncheckedMap

def new (maxUncheckedBlocks : Nat) (disableDelete : Bool) : UncheckedMap :=
  ⟨.new, maxUncheckedBlocks, disableDelete⟩

/-- `put`: the entry goes in under `(dependency, hash)` unless the key is there; over the bound
the oldest entry goes. -/
def put (m : UncheckedMap) (c : Crypto) (dependency : BlockHash) (info : UncheckedInfo) :
    UncheckedMap :=
  let key : UncheckedKey := ⟨dependency, info.block.hash c⟩
  let entries := (m.entries.insert ⟨key, info⟩).2
  let entries := if entries.len > m.maxUncheckedBlocks then entries.popFront.2 else entries
  { m with entries }

def get (m : UncheckedMap) (hash : BlockHash) : Except String (List UncheckedInfo) :=
  (fun entries => entries.map (·.info)) <$> m.entries.withDependency hash

def clear (m : UncheckedMap) : UncheckedMap := { m with entries := m.entries.clear }

def remove (m : UncheckedMap) (key : UncheckedKey) : UncheckedMap :=
  { m with entries := (m.entries.remove key).2 }

def len (m : UncheckedMap) : Nat := m.entries.len

/-- `UncheckedMapThread::query_impl`: the satisfied callback gets the info of every entry of the
dependency, in key order; unless deletion is disabled, their keys go afterwards. -/
def queryImpl (m : UncheckedMap) (dependency : BlockHash) :
    Except String (List UncheckedInfo × UncheckedMap) := do
  let visited ← m.entries.withDependency dependency
  let entries :=
    if m.disableDelete then m.entries
    else visited.foldl (fun entries entry => (entries.remove entry.key).2) m.entries
  pure (visited.map (·.info), { m with entries })

inductive Call where
  | put (dependency : BlockHash) (info : UncheckedInfo)
  | remove (key : UncheckedKey)
  | clear
  | query (dependency : BlockHash)

def Call.apply (c : Crypto) : Call → UncheckedMap → Except String UncheckedMap
  | .put dependency info, m => .ok (m.put c dependency info)
  | .remove key, m => .ok (m.remove key)
  | .clear, m => .ok m.clear
  | .query dependency, m => Prod.snd <$> m.queryImpl dependency

def run (c : Crypto) (m : UncheckedMap) (calls : List Call) : Except String UncheckedMap :=
  calls.foldlM (fun m call => call.apply c m) m

def Call.isPut : Call → Bool
  | .put .. => true
  | _ => false

def putCount (calls : List Call) : Nat := calls.countP Call.isPut

namespace Spec

/-- The unchecked blocks as the map is meant to keep them, oldest first. A put of a present key
changes nothing; a new entry goes last, and on a full map the oldest goes. -/
def put (maxUncheckedBlocks : Nat) (spec : List Entry) (e : Entry) : List Entry :=
  if e.key ∈ spec.map Entry.key then spec
  else if spec.length < maxUncheckedBlocks then spec ++ [e]
  else (spec ++ [e]).tail

/-- A query takes out the entries of its dependency, unless deletion is disabled. -/
def query (disableDelete : Bool) (spec : List Entry) (dependency : BlockHash) : List Entry :=
  if disableDelete then spec else spec.filter (·.key.previous != dependency)

def apply (c : Crypto) (maxUncheckedBlocks : Nat) (disableDelete : Bool) :
    Call → List Entry → List Entry
  | .put dependency info, spec =>
    put maxUncheckedBlocks spec ⟨⟨dependency, info.block.hash c⟩, info⟩
  | .remove key, spec => spec.filter (·.key != key)
  | .clear, _ => []
  | .query dependency, spec => query disableDelete spec dependency

def run (c : Crypto) (maxUncheckedBlocks : Nat) (disableDelete : Bool) (spec : List Entry)
    (calls : List Call) : List Entry :=
  calls.foldl (fun spec call => apply c maxUncheckedBlocks disableDelete call spec) spec

theorem put_of_mem {maxUncheckedBlocks : Nat} {spec : List Entry} {e : Entry}
    (h : e.key ∈ spec.map Entry.key) : put maxUncheckedBlocks spec e = spec := by
  simp [put, h]

theorem put_of_not_mem {maxUncheckedBlocks : Nat} {spec : List Entry} {e : Entry}
    (h : e.key ∉ spec.map Entry.key) :
    put maxUncheckedBlocks spec e =
      if spec.length < maxUncheckedBlocks then spec ++ [e] else (spec ++ [e]).tail := by
  rw [put, if_neg h]

end Spec

/-- A map as runs leave it: its container represents `spec`, within the bound. -/
structure Inv (m : UncheckedMap) (spec : List Entry) : Prop where
  represents : m.entries.Represents spec
  length_le : spec.length ≤ m.maxUncheckedBlocks

open EntriesContainer

variable {m : UncheckedMap} {spec : List Entry} {c : Crypto}

theorem new_inv (maxUncheckedBlocks : Nat) (disableDelete : Bool) :
    (new maxUncheckedBlocks disableDelete).Inv [] :=
  ⟨new_represents, Nat.zero_le _⟩

theorem Inv.len_le (h : m.Inv spec) : m.len ≤ m.maxUncheckedBlocks := by
  rw [len, h.represents.len_eq]
  exact h.length_le

theorem put_of_mem (h : m.Inv spec) {dependency : BlockHash} {info : UncheckedInfo}
    (hk : (⟨dependency, info.block.hash c⟩ : UncheckedKey) ∈ spec.map Entry.key) :
    m.put c dependency info = m := by
  obtain ⟨e, he, hkey⟩ := List.mem_map.mp hk
  obtain ⟨id, hid, -⟩ := h.represents.find?_key_of_mem he
  rw [hkey] at hid
  have hins := insert_of_find?_some (e := ⟨⟨dependency, info.block.hash c⟩, info⟩) hid
  have hlen : ¬ m.entries.len > m.maxUncheckedBlocks := Nat.not_lt.mpr h.len_le
  simp only [UncheckedMap.put, hins, if_neg hlen]

theorem put_of_not_mem (h : m.Inv spec) {dependency : BlockHash} {info : UncheckedInfo}
    (hk : (⟨dependency, info.block.hash c⟩ : UncheckedKey) ∉ spec.map Entry.key)
    (hid : m.entries.nextId + 1 < 2 ^ 64) :
    (m.put c dependency info).Inv (if spec.length < m.maxUncheckedBlocks
      then spec ++ [(⟨⟨dependency, info.block.hash c⟩, info⟩ : Entry)]
      else (spec ++ [(⟨⟨dependency, info.block.hash c⟩, info⟩ : Entry)]).tail) ∧
    (m.put c dependency info).entries.nextId = m.entries.nextId + 1 := by
  obtain ⟨E, hins, hrep, hnext⟩ : ∃ E, m.entries.insert ⟨⟨dependency, info.block.hash c⟩, info⟩ =
      (true, E) ∧ E.Represents (spec ++ [⟨⟨dependency, info.block.hash c⟩, info⟩]) ∧
      E.nextId = m.entries.nextId + 1 :=
    ⟨_, by rw [insert_of_find?_none (h.represents.find?_key_eq_none hk), Nat.mod_eq_of_lt hid],
      h.represents.insert hk, rfl⟩
  have hlen := hrep.len_eq
  rw [List.length_append, List.length_singleton] at hlen
  have hle := h.length_le
  by_cases hroom : spec.length < m.maxUncheckedBlocks
  · have hkeep : ¬ E.len > m.maxUncheckedBlocks := by omega
    simp only [UncheckedMap.put, hins, if_neg hkeep, if_pos hroom]
    exact ⟨⟨hrep, by simp; omega⟩, hnext⟩
  · have hpop : E.len > m.maxUncheckedBlocks := by omega
    simp only [UncheckedMap.put, hins, if_pos hpop, if_neg hroom]
    exact ⟨⟨hrep.popFront_tail (by simp), by simp; omega⟩, by rw [popFront_nextId, hnext]⟩

/-- `query_impl` never panics; its callback sees each entry of the dependency once, in key
order, and unless deletion is disabled exactly those entries go. -/
theorem queryImpl_spec (h : m.Inv spec) (dependency : BlockHash) :
    ∃ (visited : List Entry) (m' : UncheckedMap),
      m.queryImpl dependency = .ok (visited.map (·.info), m') ∧
      visited.Perm (spec.filter (·.key.previous == dependency)) ∧
      visited.Pairwise (·.key < ·.key) ∧
      m'.Inv (Spec.query m.disableDelete spec dependency) ∧
      m'.maxUncheckedBlocks = m.maxUncheckedBlocks ∧ m'.disableDelete = m.disableDelete ∧
      m'.entries.nextId = m.entries.nextId := by
  obtain ⟨visited, hscan, hperm, hsorted⟩ := h.represents.withDependency dependency
  have hfilter : spec.filter (fun e => e.key ∉ visited.map Entry.key) =
      spec.filter (·.key.previous != dependency) := by
    apply List.filter_congr
    intro e he
    have hiff : e.key ∈ visited.map Entry.key ↔ e.key.previous = dependency := by
      constructor
      · intro hmem
        obtain ⟨v, hv, hkey⟩ := List.mem_map.mp hmem
        rw [← hkey]
        exact beq_iff_eq.mp (List.mem_filter.mp (hperm.mem_iff.mp hv)).2
      · intro hdep
        exact List.mem_map_of_mem
          (hperm.mem_iff.mpr (List.mem_filter.mpr ⟨he, beq_iff_eq.mpr hdep⟩))
    by_cases hdep : e.key.previous = dependency <;> simp [hiff, hdep]
  let entries := if m.disableDelete then m.entries
    else visited.foldl (fun entries entry => (entries.remove entry.key).2) m.entries
  refine ⟨visited, { m with entries }, by simp [queryImpl, hscan, entries], hperm, hsorted, ?_,
    rfl, rfl, ?_⟩
  · refine ⟨?_, (?_ : (Spec.query _ _ _).length ≤ _)⟩
    · cases hdd : m.disableDelete
      · have hrem := h.represents.foldl_remove visited
        rw [hfilter] at hrem
        simpa [entries, Spec.query, hdd] using hrem
      · simpa [entries, Spec.query, hdd] using h.represents
    · unfold Spec.query
      split
      · exact h.length_le
      · exact (List.length_filter_le _ _).trans h.length_le
  · cases hdd : m.disableDelete
    · simp [entries, hdd, foldl_remove_nextId]
    · simp [entries, hdd]

theorem Call.apply_inv (h : m.Inv spec) (call : Call)
    (hid : m.entries.nextId + putCount [call] < 2 ^ 64) :
    ∃ m', call.apply c m = .ok m' ∧
      m'.Inv (Spec.apply c m.maxUncheckedBlocks m.disableDelete call spec) ∧
      m'.maxUncheckedBlocks = m.maxUncheckedBlocks ∧ m'.disableDelete = m.disableDelete ∧
      m'.entries.nextId ≤ m.entries.nextId + putCount [call] := by
  cases call with
  | put dependency info =>
    have hone : putCount [.put dependency info] = 1 := rfl
    rw [hone] at hid ⊢
    by_cases hk : (⟨dependency, info.block.hash c⟩ : UncheckedKey) ∈ spec.map Entry.key
    · refine ⟨m, by rw [Call.apply, put_of_mem h hk], ?_, rfl, rfl, Nat.le_succ _⟩
      rwa [Spec.apply, Spec.put_of_mem (e := ⟨⟨dependency, info.block.hash c⟩, info⟩) hk]
    · obtain ⟨hinv, hnext⟩ := put_of_not_mem h hk hid
      refine ⟨_, rfl, ?_, rfl, rfl, hnext.le⟩
      rwa [Spec.apply, Spec.put_of_not_mem (e := ⟨⟨dependency, info.block.hash c⟩, info⟩) hk]
  | remove key =>
    refine ⟨_, rfl, ⟨h.represents.remove key, (List.length_filter_le _ _).trans h.length_le⟩,
      rfl, rfl, ?_⟩
    simp [UncheckedMap.remove, remove_nextId]
  | clear => exact ⟨_, rfl, ⟨clear_represents m.entries, Nat.zero_le _⟩, rfl, rfl, Nat.zero_le _⟩
  | query dependency =>
    obtain ⟨visited, m', hq, -, -, hinv, hmax, hdd, hnext⟩ := queryImpl_spec h dependency
    exact ⟨m', by simp [Call.apply, hq], hinv, hmax, hdd, by simp [hnext, putCount, Call.isPut]⟩

/-- A run whose puts keep the ids below `2 ^ 64` never panics and follows the specification. -/
theorem run_inv (h : m.Inv spec) (calls : List Call)
    (hid : m.entries.nextId + putCount calls < 2 ^ 64) :
    ∃ m', run c m calls = .ok m' ∧
      m'.Inv (Spec.run c m.maxUncheckedBlocks m.disableDelete spec calls) ∧
      m'.maxUncheckedBlocks = m.maxUncheckedBlocks ∧ m'.disableDelete = m.disableDelete ∧
      m'.entries.nextId ≤ m.entries.nextId + putCount calls := by
  induction calls generalizing m spec with
  | nil => exact ⟨m, rfl, h, rfl, rfl, Nat.le_add_right _ _⟩
  | cons call calls ih =>
    have hcount : putCount (call :: calls) = putCount calls + putCount [call] := by
      simp [putCount, List.countP_cons]
    rw [hcount] at hid ⊢
    obtain ⟨m₁, happly, hinv₁, hmax₁, hdd₁, hnext₁⟩ := Call.apply_inv h call (by omega)
    obtain ⟨m', hrun, hinv', hmax', hdd', hnext'⟩ := ih hinv₁ (by omega)
    refine ⟨m', ?_, ?_, hmax'.trans hmax₁, hdd'.trans hdd₁, by omega⟩
    · rw [run, List.foldlM_cons, happly, ok_bind]
      exact hrun
    · rw [hmax₁, hdd₁] at hinv'
      exact hinv'

theorem unchecked_map_refines_spec (c : Crypto) (maxUncheckedBlocks : Nat) (disableDelete : Bool)
    (calls : List Call) (hputs : putCount calls < 2 ^ 64) :
    (∃ m, run c (new maxUncheckedBlocks disableDelete) calls = .ok m ∧
      m.Inv (Spec.run c maxUncheckedBlocks disableDelete [] calls) ∧
      m.entries.nextId ≤ putCount calls) ∧
    ∀ (m : UncheckedMap) (spec : List Entry), m.Inv spec →
      m.len ≤ m.maxUncheckedBlocks ∧
      (∀ dependency info, (⟨dependency, info.block.hash c⟩ : UncheckedKey) ∈ spec.map Entry.key →
        m.put c dependency info = m) ∧
      (∀ dependency info, (⟨dependency, info.block.hash c⟩ : UncheckedKey) ∉ spec.map Entry.key →
        m.entries.nextId + 1 < 2 ^ 64 →
        (m.put c dependency info).Inv (if spec.length < m.maxUncheckedBlocks
          then spec ++ [(⟨⟨dependency, info.block.hash c⟩, info⟩ : Entry)]
          else (spec ++ [(⟨⟨dependency, info.block.hash c⟩, info⟩ : Entry)]).tail)) ∧
      ∀ dependency, ∃ (visited : List Entry) (m' : UncheckedMap),
        m.queryImpl dependency = .ok (visited.map (·.info), m') ∧
        visited.Perm (spec.filter (·.key.previous == dependency)) ∧
        visited.Pairwise (fun a b => a.key.hash < b.key.hash) ∧
        m'.Inv (if m.disableDelete then spec else spec.filter (·.key.previous != dependency)) := by
  refine ⟨?_, fun m spec h => ⟨h.len_le, fun _ _ hk => put_of_mem h hk,
    fun _ _ hk hid => (put_of_not_mem h hk hid).1, fun dependency => ?_⟩⟩
  · have hzero : (new maxUncheckedBlocks disableDelete).entries.nextId + putCount calls =
        putCount calls := Nat.zero_add _
    obtain ⟨m, hrun, hinv, -, -, hnext⟩ :=
      run_inv (c := c) (new_inv maxUncheckedBlocks disableDelete) calls (by rw [hzero]; exact hputs)
    rw [hzero] at hnext
    exact ⟨m, hrun, hinv, hnext⟩
  · obtain ⟨visited, m', hq, hperm, hsorted, hinv, -⟩ := queryImpl_spec h dependency
    have hprev : ∀ v ∈ visited, v.key.previous = dependency := fun v hv =>
      beq_iff_eq.mp (List.mem_filter.mp (hperm.mem_iff.mp hv)).2
    refine ⟨visited, m', hq, hperm, hsorted.imp_of_mem fun {a b} ha hb hab => ?_, hinv⟩
    exact (UncheckedKey.lt_iff_hash_lt ((hprev a ha).trans (hprev b hb).symm)).mp hab

/-- Puts of keys `1` and `2`, a second put of key `1` that changes nothing, a put of key `3` that
evicts the oldest entry, key `1`, from a map of bound two, a query of dependency `2` that takes
its entry out, a put of key `4` and a remove of key `3`: the map is left holding key `4`. -/
theorem unchecked_map_refines_spec_evicting_run :
    let c : Crypto :=
      ⟨fun _ => FixedBytes.zero 32, fun _ => FixedBytes.zero 5, fun _ _ _ => true, fun _ _ => 0⟩
    let info : UncheckedInfo :=
      ⟨.legacyChange ⟨FixedBytes.zero 32, FixedBytes.zero 32, FixedBytes.zero 64, 0⟩, 0⟩
    let calls : List Call := [.put (FixedBytes.ofNat 32 1) info, .put (FixedBytes.ofNat 32 2) info,
      .put (FixedBytes.ofNat 32 1) info, .put (FixedBytes.ofNat 32 3) info,
      .query (FixedBytes.ofNat 32 2), .put (FixedBytes.ofNat 32 4) info,
      .remove ⟨FixedBytes.ofNat 32 3, FixedBytes.zero 32⟩]
    putCount calls < 2 ^ 64 ∧
    Spec.run c 2 false [] calls = [⟨⟨FixedBytes.ofNat 32 4, FixedBytes.zero 32⟩, info⟩] ∧
    ((∃ m, run c (new 2 false) calls = .ok m ∧ m.Inv (Spec.run c 2 false [] calls) ∧
      m.entries.nextId ≤ putCount calls) ∧
    ∀ (m : UncheckedMap) (spec : List Entry), m.Inv spec →
      m.len ≤ m.maxUncheckedBlocks ∧
      (∀ dependency info, (⟨dependency, info.block.hash c⟩ : UncheckedKey) ∈ spec.map Entry.key →
        m.put c dependency info = m) ∧
      (∀ dependency info, (⟨dependency, info.block.hash c⟩ : UncheckedKey) ∉ spec.map Entry.key →
        m.entries.nextId + 1 < 2 ^ 64 →
        (m.put c dependency info).Inv (if spec.length < m.maxUncheckedBlocks
          then spec ++ [(⟨⟨dependency, info.block.hash c⟩, info⟩ : Entry)]
          else (spec ++ [(⟨⟨dependency, info.block.hash c⟩, info⟩ : Entry)]).tail)) ∧
      ∀ dependency, ∃ (visited : List Entry) (m' : UncheckedMap),
        m.queryImpl dependency = .ok (visited.map (·.info), m') ∧
        visited.Perm (spec.filter (·.key.previous == dependency)) ∧
        visited.Pairwise (fun a b => a.key.hash < b.key.hash) ∧
        m'.Inv (if m.disableDelete then spec else spec.filter (·.key.previous != dependency))) := by
  intro c info calls
  have hputs : putCount calls < 2 ^ 64 := by decide
  exact ⟨hputs, rfl, unchecked_map_refines_spec c 2 false calls hputs⟩

/-! ### The id after `2 ^ 64` puts

`next_id` moves on by `wrapping_add`, so the `2 ^ 64`-th new id is `0` again. In a map of bound
one that id is the least, and `pop_front` then takes the entry just put, not the older one. -/

theorem run_append (c : Crypto) (m : UncheckedMap) (calls calls' : List Call) :
    run c m (calls ++ calls') = run c m calls >>= fun m => run c m calls' := by
  simp only [run, List.foldlM_append]

theorem filter_insertList_pair {κ ν : Type} [LinearOrder κ] {k k' : κ} (v v' : ν) (hk : k' ≠ k) :
    (insertList k' v' [(k, v)]).filter (·.1 != k) = [(k', v')] ∧
    (insertList k' v' [(k, v)]).filter (·.1 != k') = [(k, v)] := by
  unfold insertList
  split_ifs <;> simp [insertList, hk, Ne.symm hk]

theorem put_into_single {m : UncheckedMap} {i j : Nat} {e : Entry} {dependency : BlockHash}
    {info : UncheckedInfo} (hmax : m.maxUncheckedBlocks = 1) (hnext : m.entries.nextId = j)
    (hij : i ≠ j) (hkey : m.entries.byKey.entries = [(e.key, i)])
    (hid : m.entries.byId.entries = [(i, e)])
    (hk : (⟨dependency, info.block.hash c⟩ : UncheckedKey) ≠ e.key) :
    (m.put c dependency info).entries.nextId = (j + 1) % 2 ^ 64 ∧
    (m.put c dependency info).entries.byKey.entries =
      (if i < j then [(⟨dependency, info.block.hash c⟩, j)] else [(e.key, i)]) ∧
    (m.put c dependency info).entries.byId.entries =
      (if i < j then [(j, ⟨⟨dependency, info.block.hash c⟩, info⟩)] else [(i, e)]) := by
  have hfind : m.entries.byKey.find? ⟨dependency, info.block.hash c⟩ = none := by
    rw [find?, hkey, lookup_cons_ne hk]
    rfl
  have hins := insert_of_find?_none (e := ⟨⟨dependency, info.block.hash c⟩, info⟩) hfind
  rw [hnext] at hins
  obtain ⟨E, hins, hEnext, hEkey, hEid⟩ : ∃ E : EntriesContainer,
      m.entries.insert ⟨⟨dependency, info.block.hash c⟩, info⟩ = (true, E) ∧
      E.nextId = (j + 1) % 2 ^ 64 ∧
      E.byKey.entries = insertList ⟨dependency, info.block.hash c⟩ j [(e.key, i)] ∧
      E.byId.entries = insertList j ⟨⟨dependency, info.block.hash c⟩, info⟩ [(i, e)] :=
    ⟨_, hins, rfl, by rw [← hkey]; rfl, by rw [← hid]; rfl⟩
  have hboth : E.byId.entries = if i < j then [(i, e), (j, ⟨⟨dependency, info.block.hash c⟩, info⟩)]
      else [(j, ⟨⟨dependency, info.block.hash c⟩, info⟩), (i, e)] := by
    rw [hEid]
    unfold insertList
    split_ifs <;> first | rfl | omega
  have hlen : E.len > m.maxUncheckedBlocks := by
    rw [hmax, EntriesContainer.len, OrdMap.size, hboth]
    split <;> simp
  have hput : (m.put c dependency info).entries = E.popFront.2 := by
    simp only [UncheckedMap.put, hins, if_pos hlen]
  have hpairs := filter_insertList_pair i j hk
  rw [hput]
  by_cases hlt : i < j
  · have hfirst : E.byId.first? = some (i, e) := by simp [first?, hboth, hlt]
    simp only [EntriesContainer.popFront, hfirst, if_pos hlt, entries_erase, hEkey, hboth]
    exact ⟨hEnext, hpairs.1, by simp [Ne.symm hij]⟩
  · have hfirst : E.byId.first? = some (j, ⟨⟨dependency, info.block.hash c⟩, info⟩) := by
      simp [first?, hboth, hlt]
    simp only [EntriesContainer.popFront, hfirst, if_neg hlt, entries_erase, hEkey, hboth]
    exact ⟨hEnext, hpairs.2, by simp [hij]⟩

theorem ofNat_succ_mod_two_ne (n : Nat) :
    FixedBytes.ofNat 32 ((n + 1) % 2) ≠ FixedBytes.ofNat 32 (n % 2) := by
  intro h
  have hval := congrArg FixedBytes.toNat h
  have hsmall : ∀ k, k % 2 % 256 ^ 32 = k % 2 := fun k =>
    Nat.mod_eq_of_lt (lt_of_lt_of_le (Nat.mod_lt k two_pos) (by norm_num))
  rw [FixedBytes.toNat_ofNat, FixedBytes.toNat_ofNat, hsmall, hsmall] at hval
  omega

theorem run_alternating (c : Crypto) (info : UncheckedInfo) (n : Nat) (hn : n < 2 ^ 64) :
    ∃ m, run c (new 1 false) ((List.range (n + 1)).map fun i =>
        Call.put (FixedBytes.ofNat 32 (i % 2)) info) = .ok m ∧
      m.maxUncheckedBlocks = 1 ∧ m.entries.nextId = (n + 1) % 2 ^ 64 ∧
      m.entries.byKey.entries = [(⟨FixedBytes.ofNat 32 (n % 2), info.block.hash c⟩, n)] ∧
      m.entries.byId.entries = [(n, ⟨⟨FixedBytes.ofNat 32 (n % 2), info.block.hash c⟩, info⟩)] := by
  induction n with
  | zero => exact ⟨_, rfl, rfl, rfl, rfl, rfl⟩
  | succ n ih =>
    obtain ⟨m, hrun, hmax, hnext, hkey, hid⟩ := ih (by omega)
    have hnext' : m.entries.nextId = n + 1 := by rw [hnext, Nat.mod_eq_of_lt hn]
    have hk : (⟨FixedBytes.ofNat 32 ((n + 1) % 2), info.block.hash c⟩ : UncheckedKey) ≠
        ⟨FixedBytes.ofNat 32 (n % 2), info.block.hash c⟩ :=
      fun h => ofNat_succ_mod_two_ne n (congrArg UncheckedKey.previous h)
    obtain ⟨hnext₂, hkey₂, hid₂⟩ := put_into_single hmax hnext' (by omega) hkey hid hk
    rw [if_pos (by omega)] at hkey₂ hid₂
    refine ⟨m.put c (FixedBytes.ofNat 32 ((n + 1) % 2)) info, ?_, hmax, hnext₂, hkey₂, hid₂⟩
    rw [List.range_succ, List.map_append, run_append, hrun, ok_bind]
    rfl

theorem wrap_evicts_newest (c : Crypto) (info : UncheckedInfo) :
    ∃ m, run c (new 1 false) ((List.range (2 ^ 64)).map fun i =>
        Call.put (FixedBytes.ofNat 32 (i % 2)) info) = .ok m ∧
      m.entries.byId.entries.map Prod.snd = [⟨⟨FixedBytes.ofNat 32 1, info.block.hash c⟩, info⟩] ∧
      (m.put c (FixedBytes.ofNat 32 0) info).entries.byId.entries.map Prod.snd =
        [⟨⟨FixedBytes.ofNat 32 1, info.block.hash c⟩, info⟩] := by
  obtain ⟨m, hrun, hmax, hnext, hkey, hid⟩ := run_alternating c info (2 ^ 64 - 1) (by norm_num)
  have hcount : 2 ^ 64 - 1 + 1 = 2 ^ 64 := by norm_num
  have hodd : (2 ^ 64 - 1) % 2 = 1 := by norm_num
  rw [hcount] at hrun hnext
  rw [Nat.mod_self] at hnext
  rw [hodd] at hkey hid
  have hk : (⟨FixedBytes.ofNat 32 0, info.block.hash c⟩ : UncheckedKey) ≠
      ⟨FixedBytes.ofNat 32 1, info.block.hash c⟩ :=
    fun h => ofNat_succ_mod_two_ne 1 (congrArg UncheckedKey.previous h)
  -- the wrapped id `0` is below the old entry's, so the new entry is the one popped
  obtain ⟨-, -, hid₂⟩ := put_into_single hmax hnext (by norm_num) hkey hid hk
  rw [if_neg (by norm_num)] at hid₂
  exact ⟨m, hrun, by rw [hid]; rfl, by rw [hid₂]; rfl⟩

theorem put_after_wrap_evicts_newest :
    let c : Crypto :=
      ⟨fun _ => FixedBytes.zero 32, fun _ => FixedBytes.zero 5, fun _ _ _ => true, fun _ _ => 0⟩
    let info : UncheckedInfo := ⟨.legacyOpen ⟨FixedBytes.zero 32, FixedBytes.zero 32,
      FixedBytes.zero 32, FixedBytes.zero 64, 0⟩, 0⟩
    ∃ m, run c (new 1 false) ((List.range (2 ^ 64)).map fun i =>
        Call.put (FixedBytes.ofNat 32 (i % 2)) info) = .ok m ∧
      m.entries.byId.entries.map Prod.snd = [⟨⟨FixedBytes.ofNat 32 1, info.block.hash c⟩, info⟩] ∧
      (m.put c (FixedBytes.ofNat 32 0) info).entries.byId.entries.map Prod.snd =
        [⟨⟨FixedBytes.ofNat 32 1, info.block.hash c⟩, info⟩] := by
  intro c info
  exact wrap_evicts_newest c info

end UncheckedMap

end RsbanNode.BlockProcessing
