import RsbanNode.Messages.Realtime
import RsbanNode.Library.Buckets

namespace RsbanNode.Consensus

open RsbanNode.Primitives RsbanNode.Messages RsbanNode.OrderedMap OrdMap

structure LocalVote where
  root : Root
  hash : BlockHash
  vote : Vote

/-- `LocalVoteHistoryData`: the node's own votes by id, oldest first, and the ids of each root.
A root's `HashSet` of ids is a list without repetitions. -/
structure LocalVoteHistory where
  history : OrdMap Nat LocalVote
  historyByRoot : OrdMap Root (List Nat)

namespace LocalVoteHistory

def empty : LocalVoteHistory := ⟨.empty, .empty⟩

def size (d : LocalVoteHistory) : Nat := d.history.size

/-- The panic of `BTreeMap`'s index on a missing key. -/
def noEntry : String := "no entry found for key"

def lookupAll (d : LocalVoteHistory) (ids : List Nat) : Except String (List (Nat × LocalVote)) :=
  ids.mapM fun i =>
    match d.history.find? i with
    | some v => .ok (i, v)
    | none => .error noEntry

/-- The removal of `clean`: drop `id` from the set of `root`, and the set once it is empty. -/
def removeFromRoot (byRoot : OrdMap Root (List Nat)) (root : Root) (id : Nat) :
    OrdMap Root (List Nat) :=
  match byRoot.find? root with
  | some ids =>
    let ids := ids.filter (· != id)
    if ids.isEmpty then byRoot.erase root else byRoot.insert root ids
  | none => byRoot

/-- One round of `clean`: the entry with the smallest id goes. The loop runs only while more
than `max_cache ≥ 0` entries are stored, so its `unwrap` of the first entry never fails. -/
def evictOldest (d : LocalVoteHistory) : LocalVoteHistory :=
  match d.history.first? with
  | some (id, v) => ⟨d.history.erase id, removeFromRoot d.historyByRoot v.root id⟩
  | none => d

def cleanLoop (maxCache : Nat) : Nat → LocalVoteHistory → LocalVoteHistory
  | 0, d => d
  | fuel + 1, d => if d.history.size > maxCache then cleanLoop maxCache fuel d.evictOldest else d

/-- `clean`: every round removes an entry, so as many rounds as entries suffice. -/
def clean (maxCache : Nat) (d : LocalVoteHistory) : LocalVoteHistory :=
  cleanLoop maxCache d.history.size d

/-- A stored vote the new one replaces: it is for another hash, or an older vote of the same
representative. -/
def isStale (vote : Vote) (hash : BlockHash) (current : LocalVote) : Bool :=
  current.hash != hash || (vote.votingAccount == current.vote.votingAccount &&
    current.vote.maskedTimestamp ≤ vote.maskedTimestamp)

/-- A stored vote that keeps the new one out: a newer vote of the same representative for the
same hash. -/
def vetoes (vote : Vote) (hash : BlockHash) (current : LocalVote) : Bool :=
  !isStale vote hash current && (vote.votingAccount == current.vote.votingAccount &&
    current.vote.maskedTimestamp > vote.maskedTimestamp)

/-- The part of `add` after `clean`: the loop over the root's ids reads every entry, then the
stale ones are deleted; the root's set is dropped only when it was emptied and the vote is
vetoed. -/
def sweepRoot (d : LocalVoteHistory) (root : Root) (hash : BlockHash) (vote : Vote) :
    Except String (Bool × LocalVoteHistory) :=
  match d.historyByRoot.find? root with
  | some ids => do
    let current ← d.lookupAll ids
    let toDelete := (current.filter fun e => isStale vote hash e.2).map (·.1)
    let addVote := !current.any fun e => vetoes vote hash e.2
    let rest := ids.filter (· ∉ toDelete)
    let removeRoot := !toDelete.isEmpty && rest.isEmpty
    let history := toDelete.foldl (fun h i => h.erase i) d.history
    let historyByRoot :=
      if removeRoot && !addVote then d.historyByRoot.erase root
      else d.historyByRoot.insert root rest
    pure (addVote, ⟨history, historyByRoot⟩)
  | none => pure (true, d)

/-- The id after the largest one, or `0` for an empty history: `k + 1` on the `usize` key wraps
as a release build does. -/
def nextId (d : LocalVoteHistory) : Nat :=
  (d.history.entries.getLast?.map fun e => (e.1 + 1) % 2 ^ 64).getD 0

def add (maxCache : Nat) (d : LocalVoteHistory) (root : Root) (hash : BlockHash) (vote : Vote) :
    Except String LocalVoteHistory := do
  let (addVote, d) ← (clean maxCache d).sweepRoot root hash vote
  if addVote then
    let id := d.nextId
    pure ⟨d.history.insert id ⟨root, hash, vote⟩,
      d.historyByRoot.insert root (((d.historyByRoot.find? root).getD []).insert id)⟩
  else pure d

def erase (d : LocalVoteHistory) (root : Root) : LocalVoteHistory :=
  match d.historyByRoot.find? root with
  | some removed => ⟨removed.foldl (fun h id => h.erase id) d.history, d.historyByRoot.erase root⟩
  | none => d

def votes (d : LocalVoteHistory) (root : Root) (hash : BlockHash) (isFinal : Bool) :
    Except String (List Vote) :=
  match d.historyByRoot.find? root with
  | some ids => do
    let current ← d.lookupAll ids
    pure ((current.filter fun e =>
      e.2.hash == hash && (!isFinal || e.2.vote.maskedTimestamp == Vote.finalTimestamp)).map
        (·.2.vote))
  | none => pure []

def rootOf (history : OrdMap Nat LocalVote) (id : Nat) : Option Root :=
  (history.find? id).map (·.root)

/-- What `add` keeps of each root: its stored votes are for one block, one per representative. -/
structure OnePerRoot (history : OrdMap Nat LocalVote) : Prop where
  hash_eq : ∀ {i j vi vj}, history.find? i = some vi → history.find? j = some vj →
    vi.root = vj.root → vi.hash = vj.hash
  id_eq : ∀ {i j vi vj}, history.find? i = some vi → history.find? j = some vj →
    vi.root = vj.root → vi.vote.votingAccount = vj.vote.votingAccount → i = j

/-- `history_by_root` files every stored id under its root and nowhere else, with no empty
set, and the stored votes are one block and one representative's vote per root. -/
structure Wf (d : LocalVoteHistory) : Prop where
  indexes : d.historyByRoot.Indexes (rootOf d.history)
  onePerRoot : OnePerRoot d.history

def Shrinks (h' h : OrdMap Nat LocalVote) : Prop :=
  ∀ i v, h'.find? i = some v → h.find? i = some v

def SameOff (root : Root) (h' h : OrdMap Nat LocalVote) : Prop :=
  ∀ i v, v.root ≠ root → (h'.find? i = some v ↔ h.find? i = some v)

variable {h h' h'' : OrdMap Nat LocalVote} {d : LocalVoteHistory} {root : Root}

theorem empty_wf : empty.Wf where
  indexes := by
    have hnone : rootOf (OrdMap.empty : OrdMap Nat LocalVote) = fun _ => none := by
      funext i
      rfl
    change (OrdMap.empty : OrdMap Root (List Nat)).Indexes (rootOf OrdMap.empty)
    rw [hnone]
    exact indexes_empty
  onePerRoot := ⟨fun hi => by simp [empty] at hi, fun hi => by simp [empty] at hi⟩

theorem OnePerRoot.mono (hone : OnePerRoot h) (hs : Shrinks h' h) : OnePerRoot h' where
  hash_eq hi hj hroot := hone.hash_eq (hs _ _ hi) (hs _ _ hj) hroot
  id_eq hi hj hroot hacc := hone.id_eq (hs _ _ hi) (hs _ _ hj) hroot hacc

theorem Shrinks.trans (h₁ : Shrinks h'' h') (h₂ : Shrinks h' h) : Shrinks h'' h :=
  fun i v hv => h₂ i v (h₁ i v hv)

theorem shrinks_foldl_erase (h : OrdMap Nat LocalVote) (ks : List Nat) :
    Shrinks (ks.foldl (fun m i => m.erase i) h) h := by
  intro i v hv
  rw [find?_foldl_erase] at hv
  split_ifs at hv
  exact hv

theorem SameOff.trans (h₁ : SameOff root h'' h') (h₂ : SameOff root h' h) : SameOff root h'' h :=
  fun i v hv => (h₁ i v hv).trans (h₂ i v hv)

theorem sameOff_foldl_erase {ks : List Nat} (hks : ∀ i ∈ ks, rootOf h i = some root) :
    SameOff root (ks.foldl (fun m i => m.erase i) h) h := by
  intro i v hv
  rw [find?_foldl_erase]
  split_ifs with hi
  · have hroot := hks i hi
    simp only [rootOf, Option.map_eq_some_iff] at hroot
    obtain ⟨w, hw, hwroot⟩ := hroot
    simp only [false_iff]
    intro hiv
    rw [hw, Option.some.injEq] at hiv
    exact hv (hiv ▸ hwroot)
  · rfl

theorem sameOff_insert {id : Nat} {v : LocalVote} (hnew : h.find? id = none) :
    SameOff v.root (h.insert id v) h := by
  intro i w hw
  rw [find?_insert]
  split_ifs with hi
  · subst hi
    rw [hnew, Option.some.injEq]
    simp only [reduceCtorEq, iff_false]
    intro hvw
    exact hw (hvw ▸ rfl)
  · rfl

theorem rootOf_iff_of_sameOff (hs : SameOff root h' h) {k : Root} (hk : k ≠ root) (i : Nat) :
    rootOf h' i = some k ↔ rootOf h i = some k := by
  simp only [rootOf, Option.map_eq_some_iff]
  constructor
  · rintro ⟨v, hv, rfl⟩
    exact ⟨v, (hs i v hk).1 hv, rfl⟩
  · rintro ⟨v, hv, rfl⟩
    exact ⟨v, (hs i v hk).2 hv, rfl⟩

theorem rootOf_eq_some {i : Nat} :
    rootOf h i = some root ↔ ∃ v, h.find? i = some v ∧ v.root = root := by
  simp [rootOf]

theorem bucket_eq_of_find? {b : OrdMap Root (List Nat)} {ids : List Nat}
    (hroot : b.find? root = some ids) : b.bucket root = ids := by
  simp [bucket, hroot]

section Clean

variable {maxCache : Nat}

theorem evictOldest_wf (hw : d.Wf) : d.evictOldest.Wf := by
  unfold evictOldest
  split
  · next id v hfirst =>
    have hid : d.history.find? id = some v := find?_of_first? hfirst
    have hkey : rootOf d.history id = some v.root := by simp [rootOf, hid]
    have hsame : SameOff v.root (d.history.erase id) d.history := by
      have hone : ∀ i ∈ [id], rootOf d.history i = some v.root := by simpa using hkey
      simpa using sameOff_foldl_erase hone
    obtain ⟨ids, hids⟩ := Option.isSome_iff_exists.mp (hw.indexes.isSome_find? hkey)
    have hmem : ∀ i, i ∈ ids ↔ rootOf d.history i = some v.root := fun i => by
      rw [← bucket_eq_of_find? hids]
      exact hw.indexes.mem_bucket v.root i
    have hleft : ∀ i, i ∈ ids.filter (· != id) ↔ rootOf (d.history.erase id) i = some v.root :=
      fun i => by
        by_cases hi : i = id
        · simp [hi, rootOf]
        · simp [hi, hmem, rootOf, find?_erase_ne _ hi]
    have hother := fun k (hk : k ≠ v.root) => rootOf_iff_of_sameOff hsame hk
    refine ⟨?_, hw.onePerRoot.mono (by simpa using shrinks_foldl_erase d.history [id])⟩
    unfold removeFromRoot
    rw [hids]
    dsimp only
    split_ifs with hempty
    · refine hw.indexes.eraseBucket (fun k => by simp [find?_erase]) (fun i hi => ?_) hother
      have hin := (hleft i).2 hi
      rw [List.isEmpty_iff.mp hempty] at hin
      cases hin
    · refine hw.indexes.setBucket (fun k => by simp) hleft ?_ ?_ hother
      · exact (hw.indexes.nodup v.root).filter _ |> (bucket_eq_of_find? hids ▸ ·)
      · simpa using hempty
  · exact hw

theorem evictOldest_shrinks (d : LocalVoteHistory) : Shrinks d.evictOldest.history d.history := by
  unfold evictOldest
  split
  · simpa using shrinks_foldl_erase d.history [_]
  · exact fun i v hv => hv

theorem size_evictOldest (hpos : 0 < d.size) : d.evictOldest.size + 1 = d.size := by
  unfold evictOldest
  split
  · next id v hfirst => exact size_erase_of_find? (find?_of_first? hfirst)
  · next hnone =>
    have hkeys : d.history.keys = [] := (first?_eq_none_iff _).mp hnone
    have hzero := length_keys d.history
    simp only [hkeys, List.length_nil] at hzero
    simp only [size] at hpos
    omega

theorem cleanLoop_wf (hw : d.Wf) (fuel : Nat) : (cleanLoop maxCache fuel d).Wf := by
  induction fuel generalizing d with
  | zero => exact hw
  | succ fuel ih =>
    simp only [cleanLoop]
    split_ifs
    · exact ih (evictOldest_wf hw)
    · exact hw

theorem cleanLoop_shrinks (d : LocalVoteHistory) (fuel : Nat) :
    Shrinks (cleanLoop maxCache fuel d).history d.history := by
  induction fuel generalizing d with
  | zero => exact fun i v hv => hv
  | succ fuel ih =>
    simp only [cleanLoop]
    split_ifs
    · exact (ih d.evictOldest).trans (evictOldest_shrinks d)
    · exact fun i v hv => hv

theorem size_cleanLoop {fuel : Nat} (hfuel : d.size ≤ fuel + maxCache) :
    (cleanLoop maxCache fuel d).size ≤ maxCache := by
  induction fuel generalizing d with
  | zero => simpa [cleanLoop] using hfuel
  | succ fuel ih =>
    simp only [cleanLoop]
    split_ifs with hover
    · have hstep := size_evictOldest (d := d) (by simp only [size]; omega)
      exact ih (by omega)
    · simp only [size]
      omega

theorem clean_wf (hw : d.Wf) : (clean maxCache d).Wf := cleanLoop_wf hw _

theorem clean_shrinks (d : LocalVoteHistory) : Shrinks (clean maxCache d).history d.history :=
  cleanLoop_shrinks d _

theorem size_clean (d : LocalVoteHistory) : (clean maxCache d).size ≤ maxCache :=
  size_cleanLoop (by simp [size])

end Clean

theorem add_of_sweep {maxCache : Nat} {d d' : LocalVoteHistory} {root : Root} {hash : BlockHash}
    {vote : Vote} (h : (clean maxCache d).sweepRoot root hash vote = .ok (true, d')) :
    d.add maxCache root hash vote = .ok ⟨d'.history.insert d'.nextId ⟨root, hash, vote⟩,
      d'.historyByRoot.insert root (((d'.historyByRoot.find? root).getD []).insert d'.nextId)⟩ := by
  simp only [add, h]
  rfl

theorem votes_of_single {d : LocalVoteHistory} {root : Root} {hash : BlockHash} {id : Nat}
    {v : LocalVote} (hroot : d.historyByRoot.find? root = some [id])
    (hid : d.history.find? id = some v) (isFinal : Bool) :
    d.votes root hash isFinal = .ok (if v.hash == hash &&
      (!isFinal || v.vote.maskedTimestamp == Vote.finalTimestamp) then [v.vote] else []) := by
  simp only [votes, hroot, lookupAll, List.mapM_cons, List.mapM_nil, hid, Result.ok_bind,
    Result.pure_eq_ok]
  split <;> simp_all

theorem add_of_sweep_false {maxCache : Nat} {d d' : LocalVoteHistory} {root : Root}
    {hash : BlockHash} {vote : Vote}
    (h : (clean maxCache d).sweepRoot root hash vote = .ok (false, d')) :
    d.add maxCache root hash vote = .ok d' := by
  simp only [add, h]
  rfl

/-- The ids `add` deletes: those of the root's stale votes. -/
def staleIds (vote : Vote) (hash : BlockHash) (current : List (Nat × LocalVote)) : List Nat :=
  (current.filter fun e => isStale vote hash e.2).map (·.1)

section Add

variable {maxCache : Nat} {hash : BlockHash} {vote : Vote}

theorem isStale_eq_false_iff {w : LocalVote} :
    isStale vote hash w = false ↔ w.hash = hash ∧
      (vote.votingAccount = w.vote.votingAccount → vote.maskedTimestamp < w.vote.maskedTimestamp) := by
  simp [isStale, UInt64.not_le]

theorem vetoes_of_isStale_eq_false {w : LocalVote} (hstale : isStale vote hash w = false)
    (hacc : vote.votingAccount = w.vote.votingAccount) : vetoes vote hash w = true := by
  have hlt := (isStale_eq_false_iff.mp hstale).2 hacc
  simp [vetoes, hstale, hacc, hlt]

theorem isStale_eq_false_of_vetoes {w : LocalVote} (hveto : vetoes vote hash w = true) :
    isStale vote hash w = false := by
  simp only [vetoes, Bool.and_eq_true, Bool.not_eq_true'] at hveto
  exact hveto.1

theorem lookupAll_ok {ids : List Nat} (hall : ∀ i ∈ ids, (d.history.find? i).isSome) :
    ∃ current, d.lookupAll ids = .ok current ∧ current.map Prod.fst = ids ∧
      ∀ e ∈ current, d.history.find? e.1 = some e.2 := by
  induction ids with
  | nil => exact ⟨[], rfl, rfl, by simp⟩
  | cons i ids ih =>
    obtain ⟨v, hv⟩ := Option.isSome_iff_exists.mp (hall i List.mem_cons_self)
    obtain ⟨current, hcur, hmap, hfind⟩ := ih fun j hj => hall j (List.mem_cons_of_mem _ hj)
    refine ⟨(i, v) :: current, ?_, by simp [hmap], ?_⟩
    · simp only [lookupAll, List.mapM_cons, hv, Result.ok_bind] at hcur ⊢
      rw [hcur]
      rfl
    · intro e he
      rcases List.mem_cons.mp he with rfl | he
      · exact hv
      · exact hfind e he

theorem lookupAll_root (hw : d.Wf) {ids : List Nat} (hroot : d.historyByRoot.find? root = some ids) :
    ∃ current, d.lookupAll ids = .ok current ∧ current.map Prod.fst = ids ∧
      ∀ i v, (i, v) ∈ current ↔ d.history.find? i = some v ∧ v.root = root := by
  have hmem : ∀ i, i ∈ ids ↔ rootOf d.history i = some root := fun i => by
    rw [← bucket_eq_of_find? hroot]
    exact hw.indexes.mem_bucket root i
  have hall : ∀ i ∈ ids, (d.history.find? i).isSome := fun i hi => by
    obtain ⟨v, hv, -⟩ := rootOf_eq_some.mp ((hmem i).1 hi)
    simp [hv]
  obtain ⟨current, hcur, hmap, hfind⟩ := lookupAll_ok hall
  refine ⟨current, hcur, hmap, fun i v => ⟨fun he => ?_, fun ⟨hv, hvroot⟩ => ?_⟩⟩
  · have hv : d.history.find? i = some v := hfind _ he
    have hi : i ∈ ids := hmap ▸ List.mem_map_of_mem (f := Prod.fst) he
    obtain ⟨w, hw', hwroot⟩ := rootOf_eq_some.mp ((hmem i).1 hi)
    rw [hv, Option.some.injEq] at hw'
    exact ⟨hv, hw' ▸ hwroot⟩
  · have hi : i ∈ current.map Prod.fst := hmap ▸ (hmem i).2 (rootOf_eq_some.mpr ⟨v, hv, hvroot⟩)
    obtain ⟨e, he, rfl⟩ := List.mem_map.mp hi
    have he' : d.history.find? e.1 = some e.2 := hfind e he
    rw [hv, Option.some.injEq] at he'
    rw [he']
    exact he

theorem root_ne_of_find?_none (hw : d.Wf) (hroot : d.historyByRoot.find? root = none) {i : Nat}
    {v : LocalVote} (hv : d.history.find? i = some v) : v.root ≠ root := by
  intro hvroot
  have hsome := hw.indexes.isSome_find? (rootOf_eq_some.mpr ⟨v, hv, hvroot⟩)
  rw [hroot] at hsome
  cases hsome

theorem mem_staleIds {current : List (Nat × LocalVote)}
    (hcurrent : ∀ i v, (i, v) ∈ current ↔ d.history.find? i = some v ∧ v.root = root) {i : Nat} :
    i ∈ staleIds vote hash current ↔
      ∃ v, d.history.find? i = some v ∧ v.root = root ∧ isStale vote hash v = true := by
  simp [staleIds, hcurrent, and_assoc]

theorem rootOf_foldl_erase (h : OrdMap Nat LocalVote) (ks : List Nat) (i : Nat) :
    rootOf (ks.foldl (fun m i => m.erase i) h) i = if i ∈ ks then none else rootOf h i := by
  simp only [rootOf, find?_foldl_erase]
  split_ifs <;> rfl

theorem rootOf_insert (h : OrdMap Nat LocalVote) (id : Nat) (v : LocalVote) (i : Nat) :
    rootOf (h.insert id v) i = if i = id then some v.root else rootOf h i := by
  simp only [rootOf, find?_insert]
  split_ifs <;> rfl

theorem sweepRoot_none (hroot : d.historyByRoot.find? root = none) :
    d.sweepRoot root hash vote = .ok (true, d) := by
  simp only [sweepRoot, hroot]
  rfl

theorem sweepRoot_some {ids : List Nat} {current : List (Nat × LocalVote)}
    (hroot : d.historyByRoot.find? root = some ids) (hcur : d.lookupAll ids = .ok current) :
    d.sweepRoot root hash vote = .ok (!current.any (fun e => vetoes vote hash e.2),
      ⟨(staleIds vote hash current).foldl (fun h i => h.erase i) d.history,
        if (!(staleIds vote hash current).isEmpty &&
            (ids.filter (· ∉ staleIds vote hash current)).isEmpty) &&
            !!current.any (fun e => vetoes vote hash e.2) then d.historyByRoot.erase root
        else d.historyByRoot.insert root (ids.filter (· ∉ staleIds vote hash current))⟩) := by
  simp only [sweepRoot, hroot, hcur, Result.ok_bind]
  rfl

/-- What the sweep of `add` leaves, with `rest` the ids it keeps under `root`: it only
deletes, and only stale votes of `root`; the vote goes in unless a stored one vetoes it; and
the root's set is `rest`, never empty when the vote stays out. -/
structure Swept (d : LocalVoteHistory) (root : Root) (hash : BlockHash) (vote : Vote)
    (addVote : Bool) (d1 : LocalVoteHistory) (rest : List Nat) : Prop where
  shrinks : Shrinks d1.history d.history
  sameOff : SameOff root d1.history d.history
  size_le : d1.size ≤ d.size
  fresh : ∀ i v, d1.history.find? i = some v → v.root = root → isStale vote hash v = false
  addVote_iff : addVote = true ↔
    ∀ i v, d.history.find? i = some v → v.root = root → vetoes vote hash v = false
  find?_other : ∀ k, k ≠ root → d1.historyByRoot.find? k = d.historyByRoot.find? k
  getD_root : (d1.historyByRoot.find? root).getD [] = rest
  mem_rest : ∀ i, i ∈ rest ↔ rootOf d1.history i = some root
  nodup_rest : rest.Nodup
  rest_ne_nil : addVote = false → rest ≠ []

theorem sweepRoot_spec_none (hw : d.Wf) (hroot : d.historyByRoot.find? root = none) :
    Swept d root hash vote true d [] where
  shrinks _ _ hv := hv
  sameOff _ _ _ := Iff.rfl
  size_le := le_rfl
  fresh _ _ hv hvroot := absurd hvroot (root_ne_of_find?_none hw hroot hv)
  addVote_iff := iff_of_true rfl fun _ _ hv hvroot => absurd hvroot (root_ne_of_find?_none hw hroot hv)
  find?_other _ _ := rfl
  getD_root := by simp [hroot]
  mem_rest i := by
    refine ⟨fun hi => (by cases hi), fun hi => ?_⟩
    obtain ⟨v, hv, hvroot⟩ := rootOf_eq_some.mp hi
    exact absurd hvroot (root_ne_of_find?_none hw hroot hv)
  nodup_rest := List.nodup_nil
  rest_ne_nil h := by cases h

theorem sweepRoot_spec_some (hw : d.Wf) {ids : List Nat} {current : List (Nat × LocalVote)}
    (hroot : d.historyByRoot.find? root = some ids)
    (hcurrent : ∀ i v, (i, v) ∈ current ↔ d.history.find? i = some v ∧ v.root = root) :
    Swept d root hash vote (!current.any (fun e => vetoes vote hash e.2))
      ⟨(staleIds vote hash current).foldl (fun h i => h.erase i) d.history,
        if (!(staleIds vote hash current).isEmpty &&
            (ids.filter (· ∉ staleIds vote hash current)).isEmpty) &&
            !!current.any (fun e => vetoes vote hash e.2) then d.historyByRoot.erase root
        else d.historyByRoot.insert root (ids.filter (· ∉ staleIds vote hash current))⟩
      (ids.filter (· ∉ staleIds vote hash current)) := by
  have hmem : ∀ i, i ∈ ids ↔ rootOf d.history i = some root := fun i => by
    rw [← bucket_eq_of_find? hroot]
    exact hw.indexes.mem_bucket root i
  have hnd : ids.Nodup := bucket_eq_of_find? hroot ▸ hw.indexes.nodup root
  have hstale : ∀ i ∈ staleIds vote hash current, rootOf d.history i = some root := fun i hi => by
    obtain ⟨v, hv, hvroot, -⟩ := (mem_staleIds hcurrent).mp hi
    exact rootOf_eq_some.mpr ⟨v, hv, hvroot⟩
  have hrest : ∀ i, i ∈ ids.filter (· ∉ staleIds vote hash current) ↔
      rootOf ((staleIds vote hash current).foldl (fun h i => h.erase i) d.history) i = some root :=
    fun i => by
      rw [rootOf_foldl_erase]
      by_cases hi : i ∈ staleIds vote hash current <;> simp [hi, hmem]
  refine ⟨shrinks_foldl_erase _ _, sameOff_foldl_erase hstale, size_foldl_erase_le _ _, ?_, ?_,
    ?_, ?_, hrest, hnd.filter _, ?_⟩
  · intro i v hv hvroot
    rw [find?_foldl_erase] at hv
    split_ifs at hv with hi
    cases hstalev : isStale vote hash v
    · rfl
    · exact absurd ((mem_staleIds hcurrent).mpr ⟨v, hv, hvroot, hstalev⟩) hi
  · simp only [Bool.not_eq_true', List.any_eq_false, Prod.forall, hcurrent]
    constructor
    · intro hall i v hv hvroot
      simpa using hall i v ⟨hv, hvroot⟩
    · intro hall i v hiv
      simp [hall i v hiv.1 hiv.2]
  · intro k hk
    split_ifs <;> simp [find?_erase, find?_insert, hk]
  · split_ifs with hcond
    · simp only [Bool.and_eq_true, List.isEmpty_iff] at hcond
      rw [find?_erase_self, Option.getD_none]
      exact hcond.1.2.symm
    · simp
  · intro hveto hnil
    simp only [Bool.not_eq_false', List.any_eq_true, Prod.exists, hcurrent] at hveto
    obtain ⟨j, w, ⟨hw', hwroot⟩, hwveto⟩ := hveto
    have hj : j ∉ staleIds vote hash current := fun hj => by
      obtain ⟨v, hv, -, hvstale⟩ := (mem_staleIds hcurrent).mp hj
      rw [hw', Option.some.injEq] at hv
      rw [← hv, isStale_eq_false_of_vetoes hwveto] at hvstale
      cases hvstale
    have hjids : j ∈ ids := (hmem j).2 (rootOf_eq_some.mpr ⟨w, hw', hwroot⟩)
    have hjrest : j ∈ ids.filter (· ∉ staleIds vote hash current) := by simp [hjids, hj]
    rw [hnil] at hjrest
    cases hjrest

theorem sweepRoot_spec (hw : d.Wf) (root : Root) (hash : BlockHash) (vote : Vote) :
    ∃ addVote d1 rest, d.sweepRoot root hash vote = .ok (addVote, d1) ∧
      Swept d root hash vote addVote d1 rest := by
  cases hroot : d.historyByRoot.find? root with
  | none => exact ⟨true, d, [], sweepRoot_none hroot, sweepRoot_spec_none hw hroot⟩
  | some ids =>
    obtain ⟨current, hcur, -, hcurrent⟩ := lookupAll_root hw hroot
    exact ⟨_, _, _, sweepRoot_some hroot hcur, sweepRoot_spec_some hw hroot hcurrent⟩

/-- One past the largest id, without the wrap of `nextId`. -/
def idsEnd (h : OrdMap Nat LocalVote) : Nat := (h.entries.getLast?.map (·.1 + 1)).getD 0

theorem lt_idsEnd {i : Nat} {v : LocalVote} (hv : h.find? i = some v) : i < idsEnd h := by
  cases hlast : h.entries.getLast? with
  | none =>
    have hnil : h.entries = [] := List.getLast?_eq_none_iff.mp hlast
    simp [find?, hnil] at hv
  | some e =>
    have hle := le_of_getLast? hv hlast
    simp only [idsEnd, hlast, Option.map_some, Option.getD_some]
    omega

theorem idsEnd_le {n : Nat} (hall : ∀ i v, h.find? i = some v → i < n) : idsEnd h ≤ n := by
  cases hlast : h.entries.getLast? with
  | none => simp [idsEnd, hlast]
  | some e =>
    have hfind : h.find? e.1 = some e.2 := find?_eq_some_iff_mem.mpr (List.mem_of_getLast? hlast)
    simp only [idsEnd, hlast, Option.map_some, Option.getD_some]
    exact hall e.1 e.2 hfind

theorem idsEnd_le_of_shrinks (hs : Shrinks h' h) : idsEnd h' ≤ idsEnd h :=
  idsEnd_le fun _ _ hv => lt_idsEnd (hs _ _ hv)

theorem nextId_of_lt (hid : idsEnd d.history < 2 ^ 64) : d.nextId = idsEnd d.history := by
  cases hlast : d.history.entries.getLast? with
  | none => simp [nextId, idsEnd, hlast]
  | some e =>
    simp only [idsEnd, hlast, Option.map_some, Option.getD_some] at hid ⊢
    simp only [nextId, hlast, Option.map_some, Option.getD_some]
    exact Nat.mod_eq_of_lt hid

theorem find?_nextId (hid : idsEnd d.history < 2 ^ 64) : d.history.find? d.nextId = none := by
  rw [nextId_of_lt hid]
  cases hfind : d.history.find? (idsEnd d.history) with
  | none => rfl
  | some v => exact absurd (lt_idsEnd hfind) (Nat.lt_irrefl _)

theorem idsEnd_insert_nextId (hid : idsEnd d.history < 2 ^ 64) (v : LocalVote) :
    idsEnd (d.history.insert d.nextId v) ≤ idsEnd d.history + 1 :=
  idsEnd_le fun i w hw => by
    rw [find?_insert] at hw
    split_ifs at hw with hi
    · rw [hi, nextId_of_lt hid]
      omega
    · have := lt_idsEnd hw
      omega

theorem OnePerRoot.insert (hone : OnePerRoot h) (id : Nat) {v : LocalVote}
    (hfit : ∀ j w, h.find? j = some w → w.root = v.root →
      w.hash = v.hash ∧ w.vote.votingAccount ≠ v.vote.votingAccount) :
    OnePerRoot (h.insert id v) where
  hash_eq {i j vi vj} hi hj hroot := by
    rw [find?_insert] at hi hj
    split_ifs at hi hj with hii hjj hjj
    · rw [← Option.some.inj hi, ← Option.some.inj hj]
    · rw [← Option.some.inj hi] at hroot ⊢
      exact (hfit j vj hj hroot.symm).1.symm
    · rw [← Option.some.inj hj] at hroot ⊢
      exact (hfit i vi hi hroot).1
    · exact hone.hash_eq hi hj hroot
  id_eq {i j vi vj} hi hj hroot hacc := by
    rw [find?_insert] at hi hj
    split_ifs at hi hj with hii hjj hjj
    · rw [hii, hjj]
    · rw [← Option.some.inj hi] at hroot hacc
      exact absurd hacc.symm (hfit j vj hj hroot.symm).2
    · rw [← Option.some.inj hj] at hroot hacc
      exact absurd hacc (hfit i vi hi hroot).2
    · exact hone.id_eq hi hj hroot hacc

/-- One `add` on a consistent history succeeds and keeps it consistent with at most
`max_cache + 1` votes; each vote it then holds is for the added block of `root`, or was held
before under another root. -/
theorem add_wf (maxCache : Nat) (hw : d.Wf) (hid : idsEnd d.history < 2 ^ 64) (root : Root)
    (hash : BlockHash) (vote : Vote) :
    ∃ d', d.add maxCache root hash vote = .ok d' ∧ d'.Wf ∧ d'.size ≤ maxCache + 1 ∧
      idsEnd d'.history ≤ idsEnd d.history + 1 ∧ ∀ i v, d'.history.find? i = some v →
        (v.root = root ∧ v.hash = hash) ∨ (v.root ≠ root ∧ d.history.find? i = some v) := by
  have hc : (clean maxCache d).Wf := clean_wf hw
  obtain ⟨addVote, d1, rest, hsweep, hs⟩ := sweepRoot_spec hc root hash vote
  have hkept : ∀ i v, d1.history.find? i = some v →
      (v.root = root ∧ v.hash = hash) ∨ (v.root ≠ root ∧ d.history.find? i = some v) := by
    intro i v hv
    by_cases hvroot : v.root = root
    · exact .inl ⟨hvroot, (isStale_eq_false_iff.mp (hs.fresh i v hv hvroot)).1⟩
    · exact .inr ⟨hvroot, clean_shrinks d i v (hs.shrinks i v hv)⟩
  have hsize : d1.size ≤ maxCache := hs.size_le.trans (size_clean d)
  have hend₁ : idsEnd d1.history ≤ idsEnd d.history :=
    idsEnd_le_of_shrinks fun i v hv => clean_shrinks d i v (hs.shrinks i v hv)
  cases addVote with
  | false =>
    have hroot : d1.historyByRoot.find? root = some rest := by
      have hget := hs.getD_root
      cases hfind : d1.historyByRoot.find? root with
      | none =>
        rw [hfind, Option.getD_none] at hget
        exact absurd hget.symm (hs.rest_ne_nil rfl)
      | some l =>
        rw [hfind, Option.getD_some] at hget
        rw [hget]
    refine ⟨d1, add_of_sweep_false hsweep, ⟨?_, hc.onePerRoot.mono hs.shrinks⟩, by omega,
      by omega, hkept⟩
    refine hc.indexes.setBucket (fun k => ?_) hs.mem_rest hs.nodup_rest (hs.rest_ne_nil rfl)
      (fun k hk => rootOf_iff_of_sameOff hs.sameOff hk)
    split_ifs with hk
    · rw [hk, hroot]
    · exact hs.find?_other k hk
  | true =>
    have hid₁ : idsEnd d1.history < 2 ^ 64 := by omega
    have hfresh := find?_nextId hid₁
    have hsame : SameOff root (d1.history.insert d1.nextId ⟨root, hash, vote⟩)
        (clean maxCache d).history := (sameOff_insert (v := ⟨root, hash, vote⟩) hfresh).trans hs.sameOff
    refine ⟨_, add_of_sweep hsweep, ⟨?_, ?_⟩, ?_, ?_, ?_⟩
    · refine hc.indexes.setBucket (l := rest.insert d1.nextId) (fun k => ?_) (fun i => ?_)
        hs.nodup_rest.insert (List.ne_nil_of_mem List.mem_insert_self)
        (fun k hk => rootOf_iff_of_sameOff hsame hk)
      · rw [find?_insert, hs.getD_root]
        split_ifs with hk
        · rfl
        · exact hs.find?_other k hk
      · rw [rootOf_insert, List.mem_insert_iff]
        by_cases hi : i = d1.nextId
        · simp [hi]
        · simp [hi, hs.mem_rest]
    · refine (hc.onePerRoot.mono hs.shrinks).insert d1.nextId fun j w hw' hwroot => ?_
      have hst := hs.fresh j w hw' hwroot
      refine ⟨(isStale_eq_false_iff.mp hst).1, fun hacc => ?_⟩
      have hveto := vetoes_of_isStale_eq_false hst hacc.symm
      have hnoveto := hs.addVote_iff.mp rfl j w (hs.shrinks j w hw') hwroot
      rw [hveto] at hnoveto
      cases hnoveto
    · simp only [size] at hsize ⊢
      rw [size_insert_of_find?_eq_none hfresh]
      omega
    · have := idsEnd_insert_nextId hid₁ ⟨root, hash, vote⟩
      dsimp only
      omega
    · intro i v hv
      rw [find?_insert] at hv
      split_ifs at hv with hi
      · cases hv
        exact .inl ⟨rfl, rfl⟩
      · exact hkept i v hv

theorem add_of_newer (hw : d.Wf) {i : Nat} {v : LocalVote}
    (hv : (clean maxCache d).history.find? i = some v) (hroot : v.root = root)
    (hhash : v.hash = hash) (hacc : v.vote.votingAccount = vote.votingAccount)
    (hts : vote.maskedTimestamp < v.vote.maskedTimestamp) :
    d.add maxCache root hash vote = .ok (clean maxCache d) := by
  have hc : (clean maxCache d).Wf := clean_wf hw
  obtain ⟨ids, hids⟩ := Option.isSome_iff_exists.mp
    (hc.indexes.isSome_find? (rootOf_eq_some.mpr ⟨v, hv, hroot⟩))
  obtain ⟨current, hcur, -, hcurrent⟩ := lookupAll_root hc hids
  have hvstale : isStale vote hash v = false := isStale_eq_false_iff.mpr ⟨hhash, fun _ => hts⟩
  have hnone : staleIds vote hash current = [] := by
    simp only [staleIds, List.map_eq_nil_iff, List.filter_eq_nil_iff, Prod.forall, hcurrent]
    rintro j w ⟨hw', hwroot⟩
    rw [Bool.not_eq_true]
    refine isStale_eq_false_iff.mpr
      ⟨(hc.onePerRoot.hash_eq hw' hv (hwroot.trans hroot.symm)).trans hhash, fun hacc' => ?_⟩
    have hji := hc.onePerRoot.id_eq hw' hv (hwroot.trans hroot.symm) (hacc'.symm.trans hacc.symm)
    rw [hji, hv, Option.some.injEq] at hw'
    rw [← hw']
    exact hts
  have hveto : current.any (fun e => vetoes vote hash e.2) = true :=
    List.any_eq_true.mpr ⟨(i, v), (hcurrent i v).mpr ⟨hv, hroot⟩,
      vetoes_of_isStale_eq_false hvstale hacc.symm⟩
  apply add_of_sweep_false
  rw [sweepRoot_some hids hcur, hnone, hveto]
  simp [insert_of_find? hids]

theorem erase_wf (hw : d.Wf) (root : Root) :
    (d.erase root).Wf ∧ Shrinks (d.erase root).history d.history ∧
      (d.erase root).size ≤ d.size := by
  unfold erase
  split
  · next removed hroot =>
    have hmem : ∀ i, i ∈ removed ↔ rootOf d.history i = some root := fun i => by
      rw [← bucket_eq_of_find? hroot]
      exact hw.indexes.mem_bucket root i
    have hsame := sameOff_foldl_erase (fun i hi => (hmem i).1 hi)
    refine ⟨⟨hw.indexes.eraseBucket (fun k => find?_erase _ _ _) (fun i hi => ?_)
      (fun k hk => rootOf_iff_of_sameOff hsame hk), hw.onePerRoot.mono (shrinks_foldl_erase _ _)⟩,
      shrinks_foldl_erase _ _, size_foldl_erase_le _ _⟩
    rw [rootOf_foldl_erase] at hi
    split_ifs at hi with hin
    exact hin ((hmem i).2 hi)
  · exact ⟨hw, fun _ _ hv => hv, le_rfl⟩

theorem votes_spec (hw : d.Wf) (root : Root) (hash : BlockHash) (isFinal : Bool) :
    ∃ l, d.votes root hash isFinal = .ok l ∧ l.Nodup ∧ ∀ w, w ∈ l ↔ ∃ i v,
      d.history.find? i = some v ∧ v.root = root ∧ v.hash = hash ∧
        (isFinal = true → v.vote.maskedTimestamp = Vote.finalTimestamp) ∧ v.vote = w := by
  cases hroot : d.historyByRoot.find? root with
  | none =>
    refine ⟨[], by simp [votes, hroot], List.nodup_nil, fun w => ⟨fun hw' => (by cases hw'), ?_⟩⟩
    rintro ⟨i, v, hv, hvroot, -⟩
    exact absurd hvroot (root_ne_of_find?_none hw hroot hv)
  | some ids =>
    obtain ⟨current, hcur, hmap, hcurrent⟩ := lookupAll_root hw hroot
    refine ⟨_, by simp only [votes, hroot, hcur, Result.ok_bind]; rfl, ?_, fun w => ?_⟩
    · have hnd : current.Nodup :=
        List.Nodup.of_map Prod.fst (hmap ▸ bucket_eq_of_find? hroot ▸ hw.indexes.nodup root)
      refine (hnd.filter _).map_on fun x hx y hy hxy => ?_
      have hx' := (hcurrent x.1 x.2).1 (List.mem_filter.mp hx).1
      have hy' := (hcurrent y.1 y.2).1 (List.mem_filter.mp hy).1
      have hid : x.1 = y.1 :=
        hw.onePerRoot.id_eq hx'.1 hy'.1 (hx'.2.trans hy'.2.symm) (by rw [hxy])
      rw [hid] at hx'
      exact Prod.ext hid (Option.some.inj (hx'.1.symm.trans hy'.1))
    · cases isFinal <;> simp [hcurrent, and_assoc]

end Add

inductive Call where
  | add (root : Root) (hash : BlockHash) (vote : Vote)
  | erase (root : Root)

def Call.apply (maxCache : Nat) : Call → LocalVoteHistory → Except String LocalVoteHistory
  | .add root hash vote, d => d.add maxCache root hash vote
  | .erase root, d => .ok (d.erase root)

def run (maxCache : Nat) (calls : List Call) : Except String LocalVoteHistory :=
  calls.foldlM (fun d c => c.apply maxCache d) empty

def Call.isAdd : Call → Bool
  | .add .. => true
  | .erase _ => false

def addCount (calls : List Call) : Nat := calls.countP Call.isAdd

def lastAdded (calls : List Call) (root : Root) : Option BlockHash :=
  calls.foldl (fun last c => match c with
    | .add r hash _ => if r = root then some hash else last
    | .erase _ => last) none

theorem run_append_singleton (maxCache : Nat) (calls : List Call) (c : Call) :
    run maxCache (calls ++ [c]) = run maxCache calls >>= c.apply maxCache :=
  Result.foldlM_append_singleton _ calls c _

theorem lastAdded_append_add (calls : List Call) (r root : Root) (hash : BlockHash) (vote : Vote) :
    lastAdded (calls ++ [.add r hash vote]) root =
      if r = root then some hash else lastAdded calls root := by
  simp [lastAdded, List.foldl_append]

theorem lastAdded_append_erase (calls : List Call) (r root : Root) :
    lastAdded (calls ++ [.erase r]) root = lastAdded calls root := by
  simp [lastAdded, List.foldl_append]

theorem addCount_append_singleton (calls : List Call) (c : Call) :
    addCount (calls ++ [c]) = addCount calls + (if c.isAdd then 1 else 0) := by
  simp [addCount, List.countP_append, List.countP_cons]

/-- Every run with at most `2 ^ 64` adds succeeds and keeps the history consistent, within
`max_cache + 1` votes, each vote for the block of the last `add` of its root; the ids stay below
the number of adds. -/
theorem run_wf (maxCache : Nat) (calls : List Call) (hadds : addCount calls ≤ 2 ^ 64) :
    ∃ d, run maxCache calls = .ok d ∧ d.Wf ∧ d.size ≤ maxCache + 1 ∧
      idsEnd d.history ≤ addCount calls ∧
      ∀ i v, d.history.find? i = some v → lastAdded calls v.root = some v.hash := by
  induction calls using List.reverseRecOn with
  | nil => exact ⟨empty, rfl, empty_wf, Nat.zero_le _, by simp [empty, idsEnd, OrdMap.empty],
      fun i v hv => by simp [empty] at hv⟩
  | append_singleton calls c ih =>
    rw [addCount_append_singleton] at hadds
    obtain ⟨d, hrun, hw, hsize, hend, hlast⟩ := ih (by omega)
    rw [run_append_singleton, hrun, Result.ok_bind, addCount_append_singleton]
    cases c with
    | add root hash vote =>
      simp only [Call.isAdd, if_true] at hadds ⊢
      obtain ⟨d', hadd, hw', hsize', hend', hfacts⟩ :=
        add_wf maxCache hw (by omega) root hash vote
      refine ⟨d', hadd, hw', hsize', by omega, fun i v hv => ?_⟩
      rw [lastAdded_append_add]
      rcases hfacts i v hv with ⟨hroot, hhash⟩ | ⟨hroot, hv'⟩
      · rw [if_pos hroot.symm, hhash]
      · rw [if_neg (Ne.symm hroot)]
        exact hlast i v hv'
    | erase root =>
      obtain ⟨hw', hshrinks, hsize'⟩ := erase_wf hw root
      refine ⟨_, rfl, hw', hsize'.trans hsize,
        by simpa [Call.isAdd] using (idsEnd_le_of_shrinks hshrinks).trans hend, fun i v hv => ?_⟩
      rw [lastAdded_append_erase]
      exact hlast i v (hshrinks i v hv)

/-- Over every run of `add` and `erase` with at most `2 ^ 64` adds: each call succeeds; `history_by_root` files exactly
the stored ids, with no empty set; the stored votes of a root are for the block of its last
`add`, one per representative; at most `max_cache + 1` votes are stored; `votes` returns each
stored vote of the root for the block once (only final ones when asked); and an older vote of
a representative whose newer vote for the block is still stored after `clean` changes nothing
beyond `clean`. -/
theorem run_keeps_one_block_per_root (maxCache : Nat) (calls : List Call)
    (hadds : addCount calls ≤ 2 ^ 64) :
    ∃ d, run maxCache calls = .ok d ∧ d.Wf ∧ d.size ≤ maxCache + 1 ∧
      (∀ i v, d.history.find? i = some v → lastAdded calls v.root = some v.hash) ∧
      (∀ root hash isFinal, ∃ l, d.votes root hash isFinal = .ok l ∧ l.Nodup ∧ ∀ w, w ∈ l ↔
        ∃ i v, d.history.find? i = some v ∧ v.root = root ∧ v.hash = hash ∧
          (isFinal = true → v.vote.maskedTimestamp = Vote.finalTimestamp) ∧ v.vote = w) ∧
      (∀ root hash vote i v, (clean maxCache d).history.find? i = some v → v.root = root →
        v.hash = hash → v.vote.votingAccount = vote.votingAccount →
        vote.maskedTimestamp < v.vote.maskedTimestamp →
        d.add maxCache root hash vote = .ok (clean maxCache d)) := by
  obtain ⟨d, hrun, hw, hsize, -, hlast⟩ := run_wf maxCache calls hadds
  exact ⟨d, hrun, hw, hsize, hlast, votes_spec hw, fun _ _ _ _ _ hv hroot hhash hacc hts =>
    add_of_newer hw hv hroot hhash hacc hts⟩

theorem add_after_eviction_stores_vote (maxCache : Nat) (d : LocalVoteHistory) (root : Root)
    (hash : BlockHash) (vote : Vote) (hevicted : (clean maxCache d).historyByRoot.find? root = none) :
    ∃ d', d.add maxCache root hash vote = .ok d' ∧ d'.votes root hash false = .ok [vote] := by
  have hsweep : (clean maxCache d).sweepRoot root hash vote = .ok (true, clean maxCache d) :=
    sweepRoot_none hevicted
  refine ⟨_, add_of_sweep hsweep, ?_⟩
  have hroot : (LocalVoteHistory.mk
      ((clean maxCache d).history.insert (clean maxCache d).nextId ⟨root, hash, vote⟩)
      ((clean maxCache d).historyByRoot.insert root
        ((((clean maxCache d).historyByRoot.find? root).getD []).insert
          (clean maxCache d).nextId))).historyByRoot.find? root =
        some [(clean maxCache d).nextId] := by
    simp [hevicted]
  have hid : ((clean maxCache d).history.insert (clean maxCache d).nextId
      ⟨root, hash, vote⟩).find? (clean maxCache d).nextId = some ⟨root, hash, vote⟩ := by
    simp
  rw [votes_of_single hroot hid false]
  simp

/-- A vote of this node (account, hash, timestamp) for one hash. -/
def ownVote (account : Account) (hash : BlockHash) (timestamp : UInt64) : Vote :=
  ⟨timestamp, account, FixedBytes.zero 64, [hash]⟩

/-- With `max_cache = 1`: votes for roots `1` and `2`, then an erase of root `2`. -/
theorem run_keeps_one_block_per_root_erase :
    let calls : List Call := [.add (FixedBytes.ofNat 32 1) (FixedBytes.ofNat 32 3)
          (ownVote (FixedBytes.ofNat 32 5) (FixedBytes.ofNat 32 3) 160),
        .add (FixedBytes.ofNat 32 2) (FixedBytes.ofNat 32 4)
          (ownVote (FixedBytes.ofNat 32 6) (FixedBytes.ofNat 32 4) 16),
        .erase (FixedBytes.ofNat 32 2)]
    addCount calls ≤ 2 ^ 64 ∧
    ∃ d, run 1 calls = .ok d ∧ d.Wf ∧ d.size ≤ 1 + 1 ∧
      (∀ i v, d.history.find? i = some v → lastAdded calls v.root = some v.hash) ∧
      (∀ root hash isFinal, ∃ l, d.votes root hash isFinal = .ok l ∧ l.Nodup ∧ ∀ w, w ∈ l ↔
        ∃ i v, d.history.find? i = some v ∧ v.root = root ∧ v.hash = hash ∧
          (isFinal = true → v.vote.maskedTimestamp = Vote.finalTimestamp) ∧ v.vote = w) ∧
      (∀ root hash vote i v, (clean 1 d).history.find? i = some v → v.root = root →
        v.hash = hash → v.vote.votingAccount = vote.votingAccount →
        vote.maskedTimestamp < v.vote.maskedTimestamp →
        d.add 1 root hash vote = .ok (clean 1 d)) := by
  intro calls
  have hadds : addCount calls ≤ 2 ^ 64 := by decide
  exact ⟨hadds, run_keeps_one_block_per_root 1 calls hadds⟩

/-- With `max_cache = 1`: a vote of representative `5` at time `160` for block `3` of root `1`,
then a vote for another root. The next `add` of the same representative's vote at time `80`
for the same block evicts the stored vote in `clean` and then stores the older one. -/
theorem add_after_eviction_stores_vote_max_cache_one :
    ∃ d, run 1 [.add (FixedBytes.ofNat 32 1) (FixedBytes.ofNat 32 3)
          (ownVote (FixedBytes.ofNat 32 5) (FixedBytes.ofNat 32 3) 160),
        .add (FixedBytes.ofNat 32 2) (FixedBytes.ofNat 32 4)
          (ownVote (FixedBytes.ofNat 32 6) (FixedBytes.ofNat 32 4) 16)] = .ok d ∧
      d.votes (FixedBytes.ofNat 32 1) (FixedBytes.ofNat 32 3) false =
        .ok [ownVote (FixedBytes.ofNat 32 5) (FixedBytes.ofNat 32 3) 160] ∧
      (clean 1 d).votes (FixedBytes.ofNat 32 1) (FixedBytes.ofNat 32 3) false = .ok [] ∧
      ∃ d', d.add 1 (FixedBytes.ofNat 32 1) (FixedBytes.ofNat 32 3)
          (ownVote (FixedBytes.ofNat 32 5) (FixedBytes.ofNat 32 3) 80) = .ok d' ∧
        d'.votes (FixedBytes.ofNat 32 1) (FixedBytes.ofNat 32 3) false =
          .ok [ownVote (FixedBytes.ofNat 32 5) (FixedBytes.ofNat 32 3) 80] :=
  ⟨_, rfl, rfl, rfl, add_after_eviction_stores_vote 1 _ _ _ _ rfl⟩

end LocalVoteHistory

end RsbanNode.Consensus
