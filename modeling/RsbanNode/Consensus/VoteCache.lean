import RsbanNode.Consensus.CacheEntry

namespace RsbanNode.Consensus

open RsbanNode.Primitives RsbanNode.Messages RsbanNode.Result RsbanNode.OrderedMap OrdMap

/-- `TallyKey`: a tally with its order turned round, so that `by_tally` is walked from the
highest tally down. The key is the tally's number. -/
abbrev TallyKey := OrderDual Nat

def tallyKey (tally : Amount) : TallyKey := OrderDual.toDual tally.toNat

/-- `CacheEntryCollection`: the entries by id (insertion order), by hash and by cached tally. -/
structure CacheEntryCollection where
  sequential : OrdMap Nat BlockHash
  byHash : OrdMap BlockHash CacheEntry
  byTally : OrdMap TallyKey (List BlockHash)

namespace CacheEntryCollection

def empty : CacheEntryCollection := ⟨.empty, .empty, .empty⟩

def insert (c : CacheEntryCollection) (entry : CacheEntry) : CacheEntryCollection :=
  ⟨c.sequential.insert entry.id entry.hash, c.byHash.insert entry.hash entry,
    c.byTally.pushBucket (tallyKey entry.tally) entry.hash⟩

/-- `remove_by_tally`: the bucket of the tally is taken with an `unwrap`; a bucket of one hash
goes, else the hash leaves it. -/
def removeByTally (c : CacheEntryCollection) (hash : BlockHash) (tally : Amount) :
    Except String CacheEntryCollection :=
  let key := tallyKey tally
  match c.byTally.find? key with
  | some hashes =>
    .ok { c with byTally := if hashes.length = 1 then c.byTally.erase key
                            else c.byTally.insert key (hashes.filter (· != hash)) }
  | none => .error noneUnwrapped

def updateTally (c : CacheEntryCollection) (hash : BlockHash) (oldTally newTally : Amount) :
    Except String CacheEntryCollection :=
  if oldTally = newTally then .ok c
  else do
    let c ← c.removeByTally hash oldTally
    pure { c with byTally := c.byTally.pushBucket (tallyKey newTally) hash }

/-- `modify_by_hash`; the closure may panic, as the vote of `insert_impl` does. -/
def modifyByHash (c : CacheEntryCollection) (hash : BlockHash)
    (f : CacheEntry → Except String CacheEntry) : Except String (Bool × CacheEntryCollection) :=
  match c.byHash.find? hash with
  | some entry => do
    let oldTally := entry.tally
    let entry ← f entry
    let c := { c with byHash := c.byHash.insert hash entry }
    let c ← c.updateTally entry.hash oldTally entry.tally
    pure (true, c)
  | none => pure (false, c)

/-- `pop_front`: the entry of the smallest id goes from all three indexes. -/
def popFront (c : CacheEntryCollection) : Except String (Option CacheEntry × CacheEntryCollection) :=
  match c.sequential.first? with
  | some (id, frontHash) => do
    let entry ← unwrap (c.byHash.find? frontHash)
    let c := { c with sequential := c.sequential.erase id, byHash := c.byHash.erase frontHash }
    let c ← c.removeByTally frontHash entry.tally
    pure (some entry, c)
  | none => pure (none, c)

def getByHash (c : CacheEntryCollection) (hash : BlockHash) : Option CacheEntry :=
  c.byHash.find? hash

def removeByHash (c : CacheEntryCollection) (hash : BlockHash) :
    Except String (Option CacheEntry × CacheEntryCollection) :=
  match c.byHash.find? hash with
  | some entry => do
    let c := { c with byHash := c.byHash.erase hash, sequential := c.sequential.erase entry.id }
    let c ← c.removeByTally hash entry.tally
    pure (some entry, c)
  | none => pure (none, c)

def iter (c : CacheEntryCollection) : List CacheEntry := c.byHash.entries.map (·.2)

/-- The hashes `iter_by_tally_desc` walks, from the highest tally down; each is looked up with an
`unwrap` when the walk reaches it. -/
def tallyOrder (c : CacheEntryCollection) : List BlockHash := c.byTally.entries.flatMap (·.2)

def len (c : CacheEntryCollection) : Nat := c.sequential.size

def clear (_ : CacheEntryCollection) : CacheEntryCollection := empty

end CacheEntryCollection

/-! ## The indexes of the collection -/

namespace CacheEntryCollection

def tallyOf (c : CacheEntryCollection) (hash : BlockHash) : Option TallyKey :=
  (c.byHash.find? hash).map (tallyKey ·.tally)

/-- The three indexes describe one set of entries: `sequential` maps each entry's id to its
hash and nothing else, each entry is stored under its own hash, `by_tally` files each hash once
under its cached tally with no empty bucket, and each entry's voters are in order. -/
structure Consistent (maxVoters : Nat) (c : CacheEntryCollection) : Prop where
  sequential_iff : ∀ id hash,
    c.sequential.find? id = some hash ↔ ∃ e, c.byHash.find? hash = some e ∧ e.id = id
  hash_eq : ∀ hash e, c.byHash.find? hash = some e → e.hash = hash
  byTally : c.byTally.Indexes c.tallyOf
  votersOk : ∀ hash e, c.byHash.find? hash = some e → e.VotersOk maxVoters

def without (c : CacheEntryCollection) (hash : BlockHash) (e : CacheEntry) : CacheEntryCollection :=
  ⟨c.sequential.erase e.id, c.byHash.erase hash, c.byTally.removeBucket (tallyKey e.tally) hash⟩

variable {c : CacheEntryCollection} {maxVoters : Nat} {hash : BlockHash} {e : CacheEntry}

theorem empty_consistent : (empty : CacheEntryCollection).Consistent maxVoters where
  sequential_iff id hash := by simp [empty]
  hash_eq hash e h := by simp [empty] at h
  byTally := by
    have hnone : (empty : CacheEntryCollection).tallyOf = fun _ => none := by
      funext h
      rfl
    rw [hnone]
    exact indexes_empty
  votersOk hash e h := by simp [empty] at h

theorem tallyOf_of_find? (he : c.byHash.find? hash = some e) :
    c.tallyOf hash = some (tallyKey e.tally) := by
  simp [tallyOf, he]

theorem removeByTally_of_mem {t : Amount} (hmem : hash ∈ c.byTally.bucket (tallyKey t)) :
    c.removeByTally hash t = .ok { c with byTally := c.byTally.removeBucket (tallyKey t) hash } := by
  cases hfind : c.byTally.find? (tallyKey t) with
  | none => simp [bucket, hfind] at hmem
  | some hashes =>
    have hbucket : c.byTally.bucket (tallyKey t) = hashes := by simp [bucket, hfind]
    have hpos : 0 < hashes.length := List.length_pos_of_mem (hbucket ▸ hmem)
    simp only [removeByTally, hfind, removeBucket, hbucket]
    by_cases hlen : hashes.length = 1
    · rw [if_pos hlen, if_neg (by omega)]
    · rw [if_neg hlen, if_pos (by omega)]

theorem mem_bucket_tallyKey (hc : c.Consistent maxVoters) (he : c.byHash.find? hash = some e) :
    hash ∈ c.byTally.bucket (tallyKey e.tally) :=
  (hc.byTally.mem_bucket _ hash).2 (tallyOf_of_find? he)

theorem id_of_find? (hc : c.Consistent maxVoters) (he : c.byHash.find? hash = some e) :
    c.sequential.find? e.id = some hash :=
  (hc.sequential_iff e.id hash).2 ⟨e, he, rfl⟩

theorem Consistent.without (hc : c.Consistent maxVoters) (he : c.byHash.find? hash = some e) :
    (c.without hash e).Consistent maxVoters where
  sequential_iff id h := by
    simp only [CacheEntryCollection.without, find?_erase]
    by_cases hid : id = e.id
    · subst hid
      simp only [if_true, reduceCtorEq, false_iff, not_exists, not_and]
      intro e' he' hid'
      split_ifs at he' with hh
      have hseq := id_of_find? hc he'
      rw [hid', id_of_find? hc he, Option.some.injEq] at hseq
      exact hh hseq.symm
    · rw [if_neg hid, hc.sequential_iff]
      constructor
      · rintro ⟨e', he', rfl⟩
        refine ⟨e', ?_, rfl⟩
        rw [if_neg fun hh => hid (by rw [hh, he, Option.some.injEq] at he'; rw [he'])]
        exact he'
      · rintro ⟨e', he', rfl⟩
        split_ifs at he'
        exact ⟨e', he', rfl⟩
  hash_eq h e' he' := by
    simp only [CacheEntryCollection.without, find?_erase] at he'
    split_ifs at he'
    exact hc.hash_eq h e' he'
  byTally := indexes_removeBucket hc.byTally (tallyOf_of_find? he)
    (by simp [tallyOf, CacheEntryCollection.without])
    (fun j hj => by simp [tallyOf, CacheEntryCollection.without, find?_erase_ne _ hj])
  votersOk h e' he' := by
    simp only [CacheEntryCollection.without, find?_erase] at he'
    split_ifs at he'
    exact hc.votersOk h e' he'

theorem len_without (hc : c.Consistent maxVoters) (he : c.byHash.find? hash = some e) :
    (c.without hash e).len + 1 = c.len :=
  size_erase_of_find? (id_of_find? hc he)

theorem removeByHash_of_find? (hc : c.Consistent maxVoters) (he : c.byHash.find? hash = some e) :
    c.removeByHash hash = .ok (some e, c.without hash e) := by
  have hmem : hash ∈ c.byTally.bucket (tallyKey e.tally) := mem_bucket_tallyKey hc he
  simp only [removeByHash, he]
  rw [removeByTally_of_mem (c := ⟨c.sequential.erase e.id, c.byHash.erase hash, c.byTally⟩) hmem]
  rfl

theorem removeByHash_of_find?_none (he : c.byHash.find? hash = none) :
    c.removeByHash hash = .ok (none, c) := by
  simp only [removeByHash, he]
  rfl

theorem popFront_of_first? (hc : c.Consistent maxVoters) {id : Nat} {h : BlockHash}
    (hfirst : c.sequential.first? = some (id, h)) :
    ∃ e, c.byHash.find? h = some e ∧ e.id = id ∧ c.popFront = .ok (some e, c.without h e) := by
  obtain ⟨e, he, hid⟩ := (hc.sequential_iff id h).1 (find?_of_first? hfirst)
  refine ⟨e, he, hid, ?_⟩
  have hmem : h ∈ c.byTally.bucket (tallyKey e.tally) := mem_bucket_tallyKey hc he
  simp only [popFront, hfirst, he, unwrap_some, Result.ok_bind]
  rw [removeByTally_of_mem (c := ⟨c.sequential.erase id, c.byHash.erase h, c.byTally⟩) hmem]
  subst hid
  rfl

theorem id_le_of_first? (hc : c.Consistent maxVoters) {id : Nat} {h h' : BlockHash} {e' : CacheEntry}
    (hfirst : c.sequential.first? = some (id, h)) (he' : c.byHash.find? h' = some e') :
    id ≤ e'.id :=
  le_of_first? hfirst (id_of_find? hc he')

theorem Consistent.insert (hc : c.Consistent maxVoters) (hnew : c.byHash.find? e.hash = none)
    (hid : c.sequential.find? e.id = none) (hok : e.VotersOk maxVoters) :
    (c.insert e).Consistent maxVoters where
  sequential_iff id h := by
    simp only [CacheEntryCollection.insert, find?_insert]
    by_cases hide : id = e.id
    · subst hide
      simp only [if_true, Option.some.injEq]
      constructor
      · rintro rfl
        exact ⟨e, by simp, rfl⟩
      · rintro ⟨e', he', hid'⟩
        split_ifs at he' with hh
        · exact hh.symm
        · rw [← hid', id_of_find? hc he'] at hid
          cases hid
    · rw [if_neg hide, hc.sequential_iff]
      constructor
      · rintro ⟨e', he', rfl⟩
        have hh : h ≠ e.hash := fun hh => by rw [hh, hnew] at he'; cases he'
        exact ⟨e', by rw [if_neg hh]; exact he', rfl⟩
      · rintro ⟨e', he', rfl⟩
        split_ifs at he' with hh
        · rw [← Option.some.inj he'] at hide
          exact absurd rfl hide
        · exact ⟨e', he', rfl⟩
  hash_eq h e' he' := by
    simp only [CacheEntryCollection.insert, find?_insert] at he'
    split_ifs at he' with hh
    · rw [← Option.some.inj he', hh]
    · exact hc.hash_eq h e' he'
  byTally := indexes_pushBucket hc.byTally (by simp [tallyOf, hnew])
    (by simp [tallyOf, CacheEntryCollection.insert])
    (fun j hj => by simp [tallyOf, CacheEntryCollection.insert, hj])
  votersOk h e' he' := by
    simp only [CacheEntryCollection.insert, find?_insert] at he'
    split_ifs at he'
    · rw [← Option.some.inj he']
      exact hok
    · exact hc.votersOk h e' he'

theorem len_insert (hid : c.sequential.find? e.id = none) : (c.insert e).len = c.len + 1 :=
  size_insert_of_find?_eq_none hid _

theorem exists_first?_of_len_pos (hpos : 0 < c.len) :
    ∃ id h, c.sequential.first? = some (id, h) := by
  obtain ⟨id, h, hfind⟩ := exists_find?_of_size_pos hpos
  obtain ⟨⟨id', h'⟩, hfirst⟩ := Option.isSome_iff_exists.mp (first?_isSome_of_find? hfind)
  exact ⟨id', h', hfirst⟩

theorem byHash_insert (h : BlockHash) :
    (c.insert e).byHash.find? h = if h = e.hash then some e else c.byHash.find? h := by
  simp [CacheEntryCollection.insert, find?_insert]

theorem byHash_without (h : BlockHash) :
    (c.without hash e).byHash.find? h = if h = hash then none else c.byHash.find? h := by
  simp [CacheEntryCollection.without, find?_erase]

theorem tallyKey_inj {a b : Amount} : tallyKey a = tallyKey b ↔ a = b := by
  simp [tallyKey, BitVec.toNat_inj]

/-- The entry of `hash` replaced by `e'`, and refiled under its new tally when that changed:
what `modify_by_hash` leaves. -/
def replace (c : CacheEntryCollection) (hash : BlockHash) (e e' : CacheEntry) :
    CacheEntryCollection :=
  ⟨c.sequential, c.byHash.insert hash e',
    if e.tally = e'.tally then c.byTally
    else (c.byTally.removeBucket (tallyKey e.tally) hash).pushBucket (tallyKey e'.tally) hash⟩

theorem byHash_replace {e' : CacheEntry} (h : BlockHash) :
    (c.replace hash e e').byHash.find? h = if h = hash then some e' else c.byHash.find? h := by
  simp [CacheEntryCollection.replace, find?_insert]

theorem len_replace {e' : CacheEntry} : (c.replace hash e e').len = c.len := rfl

theorem mem_iter (hc : c.Consistent maxVoters) : e ∈ c.iter ↔ c.byHash.find? e.hash = some e := by
  simp only [iter, List.mem_map]
  constructor
  · rintro ⟨⟨k, e'⟩, hmem, rfl⟩
    have hk := find?_eq_some_iff_mem.mpr hmem
    rw [hc.hash_eq k e' hk]
    exact hk
  · intro he
    exact ⟨(e.hash, e), find?_eq_some_iff_mem.mp he, rfl⟩

theorem mem_tallyOrder (hc : c.Consistent maxVoters) :
    hash ∈ c.tallyOrder ↔ (c.byHash.find? hash).isSome := by
  rw [tallyOrder, mem_flatMap_iff hc.byTally]
  simp [tallyOf]

theorem nodup_tallyOrder (hc : c.Consistent maxVoters) : c.tallyOrder.Nodup :=
  hc.byTally.nodup_flatMap

theorem pairwise_tallyOrder (hc : c.Consistent maxVoters) :
    c.tallyOrder.Pairwise (fun h h' => ∀ e e', c.byHash.find? h = some e →
      c.byHash.find? h' = some e' → e'.tally.toNat ≤ e.tally.toNat) := by
  refine hc.byTally.pairwise_flatMap.imp fun {h h'} hk e e' he he' => ?_
  exact OrderDual.toDual_le_toDual.mp (hk _ _ (tallyOf_of_find? he) (tallyOf_of_find? he'))

/-- The entries `iter_by_tally_desc` yields, with every `unwrap` passed. -/
def entriesByTally (c : CacheEntryCollection) : List CacheEntry :=
  c.tallyOrder.filterMap c.byHash.find?

theorem mem_entriesByTally (hc : c.Consistent maxVoters) :
    e ∈ c.entriesByTally ↔ ∃ h, c.byHash.find? h = some e := by
  simp only [entriesByTally, List.mem_filterMap]
  constructor
  · rintro ⟨h, -, he⟩
    exact ⟨h, he⟩
  · rintro ⟨h, he⟩
    exact ⟨h, (mem_tallyOrder hc).2 (by rw [he]; rfl), he⟩

theorem pairwise_entriesByTally (hc : c.Consistent maxVoters) :
    c.entriesByTally.Pairwise (fun e e' => e'.tally.toNat ≤ e.tally.toNat) :=
  List.pairwise_filterMap.mpr ((pairwise_tallyOrder hc).imp fun hk e he e' he' => hk e e' he he')

theorem map_hash_filterMap (hc : c.Consistent maxVoters) {l : List BlockHash}
    (hl : ∀ h ∈ l, (c.byHash.find? h).isSome) : (l.filterMap c.byHash.find?).map (·.hash) = l := by
  induction l with
  | nil => rfl
  | cons h l ih =>
    obtain ⟨e, he⟩ := Option.isSome_iff_exists.mp (hl h List.mem_cons_self)
    rw [List.filterMap_cons_some he, List.map_cons, hc.hash_eq h e he,
      ih fun h' hh' => hl h' (List.mem_cons_of_mem _ hh')]

theorem nodup_map_hash_entriesByTally (hc : c.Consistent maxVoters) :
    (c.entriesByTally.map (·.hash)).Nodup := by
  rw [entriesByTally, map_hash_filterMap hc fun h hh => (mem_tallyOrder hc).1 hh]
  exact nodup_tallyOrder hc

variable {f : CacheEntry → Except String CacheEntry}

theorem modifyByHash_of_find? (hc : c.Consistent maxVoters) (he : c.byHash.find? hash = some e)
    {e' : CacheEntry} (hf : f e = .ok e') (hhash : e'.hash = e.hash) :
    c.modifyByHash hash f = .ok (true, c.replace hash e e') := by
  have hh : e'.hash = hash := hhash.trans (hc.hash_eq hash e he)
  simp only [modifyByHash, he, hf, Result.ok_bind, hh]
  unfold updateTally
  by_cases heq : e.tally = e'.tally
  · simp [heq, CacheEntryCollection.replace]
  · have hmem : hash ∈ c.byTally.bucket (tallyKey e.tally) := mem_bucket_tallyKey hc he
    rw [if_neg heq, removeByTally_of_mem (c := ⟨c.sequential, c.byHash.insert hash e', c.byTally⟩) hmem]
    simp [heq, CacheEntryCollection.replace]

theorem modifyByHash_of_error (he : c.byHash.find? hash = some e) {err : String}
    (hf : f e = .error err) : c.modifyByHash hash f = .error err := by
  simp only [modifyByHash, he, hf, Result.error_bind]

theorem modifyByHash_of_find?_none (he : c.byHash.find? hash = none) :
    c.modifyByHash hash f = .ok (false, c) := by
  simp only [modifyByHash, he]
  rfl

theorem Consistent.replace (hc : c.Consistent maxVoters) (he : c.byHash.find? hash = some e)
    {e' : CacheEntry} (hid : e'.id = e.id) (hhash : e'.hash = e.hash)
    (hok : e'.VotersOk maxVoters) : (c.replace hash e e').Consistent maxVoters where
  sequential_iff id h := by
    rw [show (c.replace hash e e').sequential = c.sequential from rfl, hc.sequential_iff,
      byHash_replace]
    by_cases hh : h = hash
    · subst hh
      simp [he, hid]
    · simp [hh]
  hash_eq h e'' he'' := by
    rw [byHash_replace] at he''
    split_ifs at he'' with hh
    · rw [← Option.some.inj he'', hhash, hc.hash_eq hash e he, hh]
    · exact hc.hash_eq h e'' he''
  byTally := by
    have hnew : (c.replace hash e e').tallyOf hash = some (tallyKey e'.tally) := by
      simp [tallyOf, byHash_replace]
    have hother : ∀ j, j ≠ hash → (c.replace hash e e').tallyOf j = c.tallyOf j := fun j hj => by
      simp [tallyOf, byHash_replace, hj]
    by_cases heq : e.tally = e'.tally
    · have hsame : (c.replace hash e e').tallyOf = c.tallyOf := by
        funext j
        by_cases hj : j = hash
        · rw [hj, hnew, tallyOf_of_find? he, heq]
        · exact hother j hj
      have hb : (c.replace hash e e').byTally = c.byTally := by
        simp [CacheEntryCollection.replace, heq]
      rw [hb, hsame]
      exact hc.byTally
    · have hb : (c.replace hash e e').byTally =
          (c.byTally.removeBucket (tallyKey e.tally) hash).pushBucket (tallyKey e'.tally) hash := by
        simp [CacheEntryCollection.replace, heq]
      rw [hb]
      exact indexes_moveBucket hc.byTally (tallyOf_of_find? he) hnew hother
  votersOk h e'' he'' := by
    rw [byHash_replace] at he''
    split_ifs at he''
    · rw [← Option.some.inj he'']
      exact hok
    · exact hc.votersOk h e'' he''

end CacheEntryCollection

/-- `VoteCacheConfig`; `age_cutoff` is in the clock's units. -/
structure VoteCacheConfig where
  maxSize : Nat
  maxVoters : Nat
  ageCutoff : Nat

structure TopEntry where
  hash : BlockHash
  tally : Amount
  finalTally : Amount
deriving DecidableEq

def TopEntry.ofEntry (e : CacheEntry) : TopEntry := ⟨e.hash, e.tally, e.finalTally⟩

/-- `VoteCache`, without its statistics. `last_cleanup` is a clock reading. -/
structure VoteCache where
  config : VoteCacheConfig
  cache : CacheEntryCollection
  nextId : Nat
  lastCleanup : Nat

namespace VoteCache

def new (config : VoteCacheConfig) (now : Nat) : VoteCache := ⟨config, .empty, 0, now⟩

/-- `insert_impl`: a vote for a cached hash goes to its entry; otherwise a new entry is made
under the next id, and the entry of the least id goes once there are more than `max_size`.
`next_id += 1` on `usize` wraps as a release build does. -/
def insertImpl (vc : VoteCache) (vote : Vote) (hash : BlockHash) (repWeight : Amount) (now : Nat) :
    Except String VoteCache := do
  let (cacheEntryExists, cache) ← vc.cache.modifyByHash hash fun existing =>
    (·.2) <$> existing.vote vote repWeight vc.config.maxVoters now
  if cacheEntryExists then pure { vc with cache := cache }
  else
    let id := vc.nextId
    let (_, cacheEntry) ← (CacheEntry.new id hash now).vote vote repWeight vc.config.maxVoters now
    let cache := cache.insert cacheEntry
    let cache ← if cache.len > vc.config.maxSize then (·.2) <$> cache.popFront else pure cache
    pure { vc with cache := cache, nextId := (id + 1) % 2 ^ 64 }

/-- `insert`: with no results every hash of the vote is cached; otherwise the hashes whose
result is `Vote` or `Indeterminate`, in the map's iteration order. -/
def insert (vc : VoteCache) (vote : Vote) (repWeight : Amount)
    (results : List (BlockHash × VoteCode)) (now : Nat) : Except String VoteCache :=
  if results.isEmpty then
    vote.hashes.foldlM (fun vc hash => vc.insertImpl vote hash repWeight now) vc
  else
    results.foldlM (fun vc result => match result.2 with
      | .vote | .indeterminate => vc.insertImpl vote result.1 repWeight now
      | _ => pure vc) vc

def size (vc : VoteCache) : Nat := vc.cache.len

/-- The `insert_impl` calls an `insert` makes, each of which may take an id. -/
def insertImplCalls (vote : Vote) (results : List (BlockHash × VoteCode)) : Nat :=
  if results.isEmpty then vote.hashes.length else results.length

def find (vc : VoteCache) (hash : BlockHash) : List Vote :=
  ((vc.cache.getByHash hash).map (·.votes)).getD []

def erase (vc : VoteCache) (hash : BlockHash) : Except String (Bool × VoteCache) := do
  let (removed, cache) ← vc.cache.removeByHash hash
  pure (removed.isSome, { vc with cache := cache })

def clear (vc : VoteCache) : VoteCache := { vc with cache := vc.cache.clear }

/-- `cleanup`: the entries whose last vote is at least `age_cutoff` old go. -/
def cleanup (vc : VoteCache) (now : Nat) : Except String VoteCache :=
  let toDelete := (vc.cache.iter.filter fun e => now - e.lastVote ≥ vc.config.ageCutoff).map (·.hash)
  toDelete.foldlM (fun vc hash => do
    let (_, cache) ← vc.cache.removeByHash hash
    pure { vc with cache := cache }) vc

/-- The comparator of `top`'s `sort_by` as written: its first comparison sets `b`'s final tally
against itself. -/
def compareTop (a b : TopEntry) : Ordering :=
  let res := compare b.finalTally.toNat b.finalTally.toNat
  if res = .eq then compare b.tally.toNat a.tally.toNat else res

/-- The loop of `top` over the walk of `by_tally`: it stops at the first tally below
`min_tally`. -/
def topLoop (c : CacheEntryCollection) (minTally : Amount) :
    List BlockHash → Except String (List TopEntry)
  | [] => .ok []
  | hash :: rest => do
    let entry ← unwrap (c.byHash.find? hash)
    if entry.tally < minTally then pure []
    else do
      let results ← topLoop c minTally rest
      pure (TopEntry.ofEntry entry :: results)

/-- `top`: the age cleanup when half the cutoff has passed since the last one, the walk, and
the stable `sort_by` with `compare_top`. -/
def top (vc : VoteCache) (minTally : Amount) (now : Nat) :
    Except String (List TopEntry × VoteCache) := do
  let vc ← if now - vc.lastCleanup ≥ vc.config.ageCutoff / 2 then do
      let vc ← vc.cleanup now
      pure { vc with lastCleanup := now }
    else pure vc
  let results ← topLoop vc.cache minTally vc.cache.tallyOrder
  pure (results.mergeSort fun a b => compareTop a b != .gt, vc)

/-- The calls of the node on its vote cache; `now` is the clock reading of a call. -/
inductive Call where
  | insert (vote : Vote) (repWeight : Amount) (results : List (BlockHash × VoteCode)) (now : Nat)
  | erase (hash : BlockHash)
  | top (minTally : Amount) (now : Nat)
  | clear

def Call.apply : Call → VoteCache → Except String VoteCache
  | .insert vote repWeight results now, vc => vc.insert vote repWeight results now
  | .erase hash, vc => (·.2) <$> vc.erase hash
  | .top minTally now, vc => (·.2) <$> vc.top minTally now
  | .clear, vc => .ok vc.clear

def run (config : VoteCacheConfig) (start : Nat) (calls : List Call) : Except String VoteCache :=
  calls.foldlM (fun vc c => c.apply vc) (new config start)

def Call.insertCount : Call → Nat
  | .insert vote _ results _ => insertImplCalls vote results
  | _ => 0

def insertCount (calls : List Call) : Nat := (calls.map Call.insertCount).sum

end VoteCache

/-! ## The invariant of the cache -/

namespace VoteCache

open CacheEntryCollection

/-- The cache's invariant: its collection is consistent, with every entry's voters within
`max_voters`; it holds at most `max_size` entries; every id is below the next one given. -/
structure Inv (vc : VoteCache) : Prop where
  consistent : vc.cache.Consistent vc.config.maxVoters
  size_le : vc.size ≤ vc.config.maxSize
  id_lt : ∀ hash e, vc.cache.byHash.find? hash = some e → e.id < vc.nextId

/-- What an insertion may take out of the cache: an entry that goes has the smallest id of
those there before. Ids being distinct, that is one entry at most. -/
def EvictsOldest (c c' : CacheEntryCollection) : Prop :=
  ∀ h e, c.byHash.find? h = some e → c'.byHash.find? h = none →
    ∀ h' e', c.byHash.find? h' = some e' → e.id ≤ e'.id

variable {vc : VoteCache} {hash : BlockHash} {e : CacheEntry}

theorem new_inv (config : VoteCacheConfig) (now : Nat) : (new config now).Inv where
  consistent := empty_consistent
  size_le := Nat.zero_le _
  id_lt hash e h := by simp [new, CacheEntryCollection.empty] at h

theorem clear_inv (vc : VoteCache) : vc.clear.Inv where
  consistent := empty_consistent
  size_le := Nat.zero_le _
  id_lt hash e h := by
    simp [VoteCache.clear, CacheEntryCollection.clear, CacheEntryCollection.empty] at h

theorem evictsOldest_replace {e' : CacheEntry} (c : CacheEntryCollection) :
    EvictsOldest c (c.replace hash e e') := by
  intro h e₀ hfind hgone
  rw [byHash_replace] at hgone
  split_ifs at hgone
  rw [hgone] at hfind
  cases hfind

theorem insertImpl_of_find? (hi : vc.Inv) (hmax : 0 < vc.config.maxVoters)
    (he : vc.cache.byHash.find? hash = some e) (vote : Vote) (repWeight : Amount) (now : Nat) :
    ∃ e', vc.insertImpl vote hash repWeight now = .ok { vc with cache := vc.cache.replace hash e e' } ∧
      e'.id = e.id ∧ e'.hash = e.hash ∧ e'.VotersOk vc.config.maxVoters := by
  obtain ⟨updated, e', hvote, hok, hid, hhash⟩ :=
    CacheEntry.vote_ok (hi.consistent.votersOk hash e he) hmax vote repWeight now
  have hf : (·.2) <$> e.vote vote repWeight vc.config.maxVoters now = .ok e' := by
    simp [hvote]
  refine ⟨e', ?_, hid, hhash, hok⟩
  unfold insertImpl
  rw [modifyByHash_of_find? (f := fun existing => (·.2) <$> existing.vote vote repWeight
    vc.config.maxVoters now) hi.consistent he hf hhash]
  rfl

theorem removeByHash_inv (hi : vc.Inv) (hash : BlockHash) :
    ∃ r c', vc.cache.removeByHash hash = .ok (r, c') ∧ ({ vc with cache := c' } : VoteCache).Inv ∧
      r = vc.cache.byHash.find? hash ∧
      ∀ h, c'.byHash.find? h = if h = hash then none else vc.cache.byHash.find? h := by
  cases he : vc.cache.byHash.find? hash with
  | none =>
    refine ⟨none, vc.cache, removeByHash_of_find?_none he, hi, rfl, fun h => ?_⟩
    split_ifs with hh
    · rw [hh, he]
    · rfl
  | some e =>
    refine ⟨some e, vc.cache.without hash e, removeByHash_of_find? hi.consistent he,
      ⟨hi.consistent.without he, ?_, ?_⟩, rfl, byHash_without⟩
    · have hgone := len_without hi.consistent he
      have hle := hi.size_le
      simp only [size] at hle ⊢
      omega
    · intro h e' he'
      rw [byHash_without] at he'
      split_ifs at he'
      exact hi.id_lt h e' he'

theorem foldlM_removeByHash (ks : List BlockHash) (hi : vc.Inv) :
    ∃ vc', ks.foldlM (fun vc hash => do
        let (_, cache) ← vc.cache.removeByHash hash
        pure { vc with cache := cache }) vc = .ok vc' ∧
      vc'.Inv ∧ vc' = { vc with cache := vc'.cache } ∧
      ∀ h, vc'.cache.byHash.find? h = if h ∈ ks then none else vc.cache.byHash.find? h := by
  induction ks generalizing vc with
  | nil => exact ⟨vc, rfl, hi, rfl, fun h => by simp⟩
  | cons k ks ih =>
    obtain ⟨r, c', hrem, hi', -, hfind⟩ := removeByHash_inv hi k
    obtain ⟨vc', hfold, hi'', hvc', hfind'⟩ := ih hi'
    refine ⟨vc', ?_, hi'', hvc', fun h => ?_⟩
    · rw [List.foldlM_cons, hrem, Result.ok_bind]
      exact hfold
    · rw [hfind', hfind]
      by_cases hks : h ∈ ks
      · simp [hks]
      · by_cases hk : h = k
        · simp [hk]
        · simp [hks, hk]

theorem cleanup_inv (hi : vc.Inv) (now : Nat) :
    ∃ vc', vc.cleanup now = .ok vc' ∧ vc'.Inv ∧ vc' = { vc with cache := vc'.cache } ∧
      ∀ h e, vc'.cache.byHash.find? h = some e ↔
        vc.cache.byHash.find? h = some e ∧ now - e.lastVote < vc.config.ageCutoff := by
  let old : CacheEntry → Bool := fun e => decide (now - e.lastVote ≥ vc.config.ageCutoff)
  have hdel : ∀ h, h ∈ (vc.cache.iter.filter old).map (·.hash) ↔
      ∃ e, vc.cache.byHash.find? h = some e ∧ vc.config.ageCutoff ≤ now - e.lastVote := by
    intro h
    simp only [List.mem_map, List.mem_filter, mem_iter hi.consistent]
    constructor
    · rintro ⟨e, ⟨he, hold⟩, rfl⟩
      exact ⟨e, he, of_decide_eq_true hold⟩
    · rintro ⟨e, he, hold⟩
      exact ⟨e, ⟨by rw [hi.consistent.hash_eq h e he]; exact he, decide_eq_true hold⟩,
        hi.consistent.hash_eq h e he⟩
  obtain ⟨vc', hfold, hi', hvc', hfind⟩ :=
    foldlM_removeByHash ((vc.cache.iter.filter old).map (·.hash)) hi
  refine ⟨vc', hfold, hi', hvc', fun h e => ?_⟩
  rw [hfind]
  split_ifs with hh
  · obtain ⟨e₀, he₀, hold⟩ := (hdel h).1 hh
    constructor
    · intro hnone
      cases hnone
    · rintro ⟨he, hyoung⟩
      rw [he₀, Option.some.injEq] at he
      subst he
      omega
  · constructor
    · intro he
      refine ⟨he, Nat.lt_of_not_le fun hold => hh ((hdel h).2 ⟨e, he, hold⟩)⟩
    · exact fun h' => h'.1

/-- What `insert_impl` does with a vote for a new hash while no entry holds the next id: the new
entry is stored under that id, the entry the id index holds first goes once the cache is over
`max_size`, and `next_id` moves on modulo 2^64. -/
theorem insertImpl_of_find?_none_eq (hc : vc.cache.Consistent vc.config.maxVoters)
    (hmax : 0 < vc.config.maxVoters) (hseq : vc.cache.sequential.find? vc.nextId = none)
    (he : vc.cache.byHash.find? hash = none) (vote : Vote) (repWeight : Amount) (now : Nat) :
    ∃ e', e'.id = vc.nextId ∧ e'.hash = hash ∧ (vc.cache.insert e').Consistent vc.config.maxVoters ∧
      ((vc.cache.insert e').len ≤ vc.config.maxSize ∧ vc.insertImpl vote hash repWeight now =
          .ok { vc with cache := vc.cache.insert e', nextId := (vc.nextId + 1) % 2 ^ 64 } ∨
        vc.config.maxSize < (vc.cache.insert e').len ∧ ∃ id₀ h₀ e₀,
          (vc.cache.insert e').sequential.first? = some (id₀, h₀) ∧
          (vc.cache.insert e').byHash.find? h₀ = some e₀ ∧ e₀.id = id₀ ∧
          vc.insertImpl vote hash repWeight now = .ok { vc with
            cache := (vc.cache.insert e').without h₀ e₀, nextId := (vc.nextId + 1) % 2 ^ 64 }) := by
  obtain ⟨updated, e', hvote, hok, hid, hhash⟩ :=
    CacheEntry.vote_ok (CacheEntry.new_votersOk vc.nextId hash now) hmax vote repWeight now
  have hid' : e'.id = vc.nextId := hid
  have hc : (vc.cache.insert e').Consistent vc.config.maxVoters :=
    hc.insert (hhash ▸ he) (hid' ▸ hseq) hok
  have hstep : vc.insertImpl vote hash repWeight now = (do
      let cache ← if (vc.cache.insert e').len > vc.config.maxSize then
        (·.2) <$> (vc.cache.insert e').popFront else pure (vc.cache.insert e')
      pure { vc with cache := cache, nextId := (vc.nextId + 1) % 2 ^ 64 }) := by
    unfold insertImpl
    rw [modifyByHash_of_find?_none he]
    simp only [Result.ok_bind, hvote]
    rfl
  refine ⟨e', hid', hhash, hc, ?_⟩
  by_cases hfull : (vc.cache.insert e').len > vc.config.maxSize
  · -- over the bound: `pop_front` takes the entry the id index holds first
    obtain ⟨id₀, h₀, hfirst⟩ := exists_first?_of_len_pos (Nat.zero_lt_of_lt hfull)
    obtain ⟨e₀, he₀, hid₀, hpop⟩ := popFront_of_first? hc hfirst
    refine .inr ⟨hfull, id₀, h₀, e₀, hfirst, he₀, hid₀, ?_⟩
    rw [hstep, if_pos hfull, hpop]
    rfl
  · refine .inl ⟨Nat.le_of_not_lt hfull, ?_⟩
    rw [hstep, if_neg hfull]
    rfl

theorem insertImpl_of_find?_none (hi : vc.Inv) (hmax : 0 < vc.config.maxVoters)
    (hid : vc.nextId + 1 < 2 ^ 64)
    (he : vc.cache.byHash.find? hash = none) (vote : Vote) (repWeight : Amount) (now : Nat) :
    ∃ vc', vc.insertImpl vote hash repWeight now = .ok vc' ∧ vc'.Inv ∧ vc'.config = vc.config ∧
      EvictsOldest vc.cache vc'.cache ∧ vc'.nextId = vc.nextId + 1 := by
  -- the next id is not in use yet
  have hseq : vc.cache.sequential.find? vc.nextId = none := by
    cases hs : vc.cache.sequential.find? vc.nextId with
    | none => rfl
    | some h =>
      obtain ⟨e₀, he₀, hid₀⟩ := (hi.consistent.sequential_iff _ _).1 hs
      have hlt := hi.id_lt h e₀ he₀
      omega
  obtain ⟨e', hid', hhash', hc, hcases⟩ :=
    insertImpl_of_find?_none_eq hi.consistent hmax hseq he vote repWeight now
  rw [Nat.mod_eq_of_lt hid] at hcases
  have hlen : (vc.cache.insert e').len = vc.cache.len + 1 := len_insert (hid' ▸ hseq)
  have hkept : ∀ h e₀, vc.cache.byHash.find? h = some e₀ →
      (vc.cache.insert e').byHash.find? h = some e₀ := by
    intro h e₀ h₀
    have hne : h ≠ e'.hash := fun hh => by rw [hh, hhash', he] at h₀; cases h₀
    rw [byHash_insert, if_neg hne]
    exact h₀
  have hidlt : ∀ h e₀, (vc.cache.insert e').byHash.find? h = some e₀ → e₀.id < vc.nextId + 1 := by
    intro h e₀ h₀
    rw [byHash_insert] at h₀
    split_ifs at h₀
    · rw [← Option.some.inj h₀, hid']
      omega
    · have := hi.id_lt h e₀ h₀
      omega
  rcases hcases with ⟨hfit, hins⟩ | ⟨hfull, id₀, h₀, e₀, hfirst, he₀, hid₀, hins⟩
  · refine ⟨_, hins, ⟨hc, hfit, hidlt⟩, rfl, ?_, rfl⟩
    intro h e₁ h₁ hgone
    rw [hkept h e₁ h₁] at hgone
    cases hgone
  · refine ⟨_, hins, ⟨hc.without he₀, ?_, ?_⟩, rfl, ?_, rfl⟩
    · have hgone := len_without hc he₀
      have hle := hi.size_le
      simp only [size] at hle ⊢
      omega
    · intro h e₁ h₁
      rw [byHash_without] at h₁
      split_ifs at h₁
      exact hidlt h e₁ h₁
    · intro h e₁ h₁ hgone h' e₂ h₂
      rw [byHash_without] at hgone
      split_ifs at hgone with hh
      · subst hh
        have he₁ : e₁ = e₀ := Option.some.inj ((hkept h e₁ h₁).symm.trans he₀)
        rw [he₁, hid₀]
        exact id_le_of_first? hc hfirst (hkept h' e₂ h₂)
      · rw [hkept h e₁ h₁] at hgone
        cases hgone

theorem insertImpl_of_maxVoters_zero (hi : vc.Inv) (h0 : vc.config.maxVoters = 0) (vote : Vote)
    (hash : BlockHash) (repWeight : Amount) (now : Nat) :
    vc.insertImpl vote hash repWeight now = .error CacheEntry.votersEmpty := by
  unfold insertImpl
  cases he : vc.cache.byHash.find? hash with
  | some e =>
    have hok : e.VotersOk 0 := h0 ▸ hi.consistent.votersOk hash e he
    have hf : (·.2) <$> e.vote vote repWeight vc.config.maxVoters now =
        (.error CacheEntry.votersEmpty : Except String CacheEntry) := by
      rw [h0, CacheEntry.vote_of_maxVoters_zero hok]
      rfl
    rw [modifyByHash_of_error (f := fun existing => (·.2) <$> existing.vote vote repWeight
      vc.config.maxVoters now) he hf]
    rfl
  | none =>
    rw [modifyByHash_of_find?_none he, h0, Result.ok_bind]
    simp only [CacheEntry.vote_of_maxVoters_zero (CacheEntry.new_votersOk vc.nextId hash now)]
    rfl

theorem inv_replace (hi : vc.Inv) (he : vc.cache.byHash.find? hash = some e) {e' : CacheEntry}
    (hid : e'.id = e.id) (hhash : e'.hash = e.hash) (hok : e'.VotersOk vc.config.maxVoters) :
    ({ vc with cache := vc.cache.replace hash e e' } : VoteCache).Inv where
  consistent := hi.consistent.replace he hid hhash hok
  size_le := hi.size_le
  id_lt h e'' he'' := by
    simp only [byHash_replace] at he''
    split_ifs at he''
    · rw [← Option.some.inj he'', hid]
      exact hi.id_lt hash e he
    · exact hi.id_lt h e'' he''


/-- One `insert_impl` below the wrap of `next_id`: it keeps the invariant, takes out only the
entry of the smallest id and takes at most one id, or, with `max_voters = 0`, panics in
`vote_impl`. -/
theorem insertImpl_inv (hi : vc.Inv) (hid : vc.nextId + 1 < 2 ^ 64) (vote : Vote)
    (hash : BlockHash) (repWeight : Amount) (now : Nat) :
    (∃ vc', vc.insertImpl vote hash repWeight now = .ok vc' ∧ vc'.Inv ∧ vc'.config = vc.config ∧
      EvictsOldest vc.cache vc'.cache ∧ vc'.nextId ≤ vc.nextId + 1) ∨
    (vc.config.maxVoters = 0 ∧
      vc.insertImpl vote hash repWeight now = .error CacheEntry.votersEmpty) := by
  rcases Nat.eq_zero_or_pos vc.config.maxVoters with h0 | hmax
  · exact .inr ⟨h0, insertImpl_of_maxVoters_zero hi h0 vote hash repWeight now⟩
  · left
    cases he : vc.cache.byHash.find? hash with
    | none =>
      obtain ⟨vc', hins, hi', hcfg, hevict, hnext⟩ :=
        insertImpl_of_find?_none hi hmax hid he vote repWeight now
      exact ⟨vc', hins, hi', hcfg, hevict, hnext.le⟩
    | some e =>
      obtain ⟨e', hins, hid', hhash, hok⟩ := insertImpl_of_find? hi hmax he vote repWeight now
      exact ⟨_, hins, inv_replace hi he hid' hhash hok, rfl, evictsOldest_replace vc.cache,
        Nat.le_succ _⟩

/-- How a call on a cache with the invariant ends: in a cache with the invariant, the
configuration `config` and a next id of at most `n`, or, with `max_voters = 0`, in the panic of
`vote_impl`. -/
def Ends (config : VoteCacheConfig) (n : Nat) (r : Except String VoteCache) : Prop :=
  (∃ vc, r = .ok vc ∧ vc.Inv ∧ vc.config = config ∧ vc.nextId ≤ n) ∨
    ∃ err, r = .error err ∧ config.maxVoters = 0 ∧ err = CacheEntry.votersEmpty

variable {config : VoteCacheConfig}

theorem insertImpl_ends {n : Nat} (hi : vc.Inv) (hcfg : vc.config = config) (hn : vc.nextId ≤ n)
    (hid : n + 1 < 2 ^ 64) (vote : Vote) (hash : BlockHash) (repWeight : Amount) (now : Nat) :
    Ends config (n + 1) (vc.insertImpl vote hash repWeight now) := by
  rcases insertImpl_inv hi (by omega) vote hash repWeight now with
    ⟨vc', hins, hi', hcfg', -, hnext⟩ | ⟨h0, herr⟩
  · exact .inl ⟨vc', hins, hi', hcfg'.trans hcfg, by omega⟩
  · exact .inr ⟨_, herr, hcfg ▸ h0, rfl⟩

theorem foldlM_ends {γ : Type} (f : VoteCache → γ → Except String VoteCache) (w : γ → Nat)
    (hstep : ∀ n s x, n + w x < 2 ^ 64 → s.Inv → s.config = config → s.nextId ≤ n →
      Ends config (n + w x) (f s x))
    (xs : List γ) {n : Nat} (hi : vc.Inv) (hcfg : vc.config = config) (hn : vc.nextId ≤ n)
    (hids : n + (xs.map w).sum < 2 ^ 64) :
    Ends config (n + (xs.map w).sum) (xs.foldlM f vc) :=
  foldlM_invariant_budget (f := f) w (2 ^ 64 - 1) (fun n s => s.Inv ∧ s.config = config ∧ s.nextId ≤ n)
    (fun err => config.maxVoters = 0 ∧ err = CacheEntry.votersEmpty)
    (fun n s x hn hs => hstep n s x (by omega) hs.1 hs.2.1 hs.2.2) xs (by omega) ⟨hi, hcfg, hn⟩

theorem insert_ends {n : Nat} (hi : vc.Inv) (hcfg : vc.config = config) (hn : vc.nextId ≤ n)
    (vote : Vote) (repWeight : Amount) (results : List (BlockHash × VoteCode)) (now : Nat)
    (hids : n + insertImplCalls vote results < 2 ^ 64) :
    Ends config (n + insertImplCalls vote results) (vc.insert vote repWeight results now) := by
  have hlength : ∀ {γ : Type} (xs : List γ), (xs.map fun _ => 1).sum = xs.length := by simp
  unfold insert
  unfold insertImplCalls at hids ⊢
  by_cases hnil : results.isEmpty
  · simp only [hnil, if_true] at hids ⊢
    rw [← hlength] at hids ⊢
    exact foldlM_ends _ (fun _ => 1) (fun n s hash hid hs hcfg' hn' =>
      insertImpl_ends hs hcfg' hn' hid vote hash repWeight now) vote.hashes hi hcfg hn hids
  · simp only [hnil, if_false, Bool.false_eq_true] at hids ⊢
    rw [← hlength] at hids ⊢
    refine foldlM_ends _ (fun _ => 1) (fun n s result hid hs hcfg' hn' => ?_) results hi hcfg hn hids
    -- only the hashes whose result is `Vote` or `Indeterminate` are cached
    split
    · exact insertImpl_ends hs hcfg' hn' hid vote result.1 repWeight now
    · exact insertImpl_ends hs hcfg' hn' hid vote result.1 repWeight now
    · exact .inl ⟨s, rfl, hs, hcfg', by omega⟩

theorem erase_inv (hi : vc.Inv) (hash : BlockHash) :
    ∃ vc', vc.erase hash = .ok ((vc.cache.byHash.find? hash).isSome, vc') ∧ vc'.Inv ∧
      vc'.config = vc.config ∧ vc'.nextId = vc.nextId ∧
      ∀ h, vc'.cache.byHash.find? h = if h = hash then none else vc.cache.byHash.find? h := by
  obtain ⟨r, c', hrem, hi', hr, hfind⟩ := removeByHash_inv hi hash
  refine ⟨_, ?_, hi', rfl, rfl, hfind⟩
  simp only [erase, hrem, Result.ok_bind, hr]
  rfl

theorem topLoop_eq (c : CacheEntryCollection) (minTally : Amount) {l : List BlockHash}
    (hl : ∀ h ∈ l, (c.byHash.find? h).isSome) :
    topLoop c minTally l = .ok (((l.filterMap c.byHash.find?).takeWhile
      fun e => !decide (e.tally < minTally)).map TopEntry.ofEntry) := by
  induction l with
  | nil => rfl
  | cons h l ih =>
    obtain ⟨e, he⟩ := Option.isSome_iff_exists.mp (hl h List.mem_cons_self)
    simp only [topLoop, he, unwrap_some, Result.ok_bind, List.filterMap_cons_some he]
    by_cases hlow : e.tally < minTally
    · rw [if_pos hlow, List.takeWhile_cons_of_neg (by simp [hlow])]
      rfl
    · rw [if_neg hlow, ih fun h' hh' => hl h' (List.mem_cons_of_mem _ hh'),
        List.takeWhile_cons_of_pos (by simp [hlow])]
      rfl

theorem compareTop_eq (a b : TopEntry) : compareTop a b = compare b.tally.toNat a.tally.toNat := by
  simp [compareTop]

theorem mergeSort_compareTop {l : List TopEntry}
    (hl : l.Pairwise fun s t => t.tally.toNat ≤ s.tally.toNat) :
    l.mergeSort (fun a b => compareTop a b != .gt) = l :=
  List.mergeSort_of_pairwise (hl.imp fun hle => by simpa [compareTop_eq] using Nat.compare_ne_gt.mpr hle)

theorem topLoop_tallyOrder {c : CacheEntryCollection} {maxVoters : Nat}
    (hc : c.Consistent maxVoters) (minTally : Amount) :
    topLoop c minTally c.tallyOrder = .ok ((c.entriesByTally.filter
      fun e => !decide (e.tally < minTally)).map TopEntry.ofEntry) := by
  rw [topLoop_eq c minTally fun h hh => (mem_tallyOrder hc).1 hh]
  have htake : c.entriesByTally.takeWhile (fun e => !decide (e.tally < minTally)) =
      c.entriesByTally.filter (fun e => !decide (e.tally < minTally)) := by
    refine takeWhile_eq_filter ((pairwise_entriesByTally hc).imp fun {e e'} hle he' => ?_)
    simp only [Bool.not_eq_eq_eq_not, Bool.not_true, decide_eq_false_iff_not, BitVec.lt_def] at he' ⊢
    omega
  rw [← htake]
  rfl

theorem pairwise_top {c : CacheEntryCollection} {maxVoters : Nat} (hc : c.Consistent maxVoters)
    (minTally : Amount) :
    ((c.entriesByTally.filter fun e => !decide (e.tally < minTally)).map TopEntry.ofEntry).Pairwise
      fun s t => t.tally.toNat ≤ s.tally.toNat :=
  List.pairwise_map.mpr ((pairwise_entriesByTally hc).filter _)

theorem top_eq (hi : vc.Inv) (minTally : Amount) (now : Nat) :
    ∃ vc', vc.top minTally now = .ok ((vc'.cache.entriesByTally.filter
        fun e => !decide (e.tally < minTally)).map TopEntry.ofEntry, vc') ∧ vc'.Inv ∧
      vc'.config = vc.config ∧ vc'.nextId = vc.nextId ∧
      ∀ h e, vc'.cache.byHash.find? h = some e ↔ vc.cache.byHash.find? h = some e ∧
        (vc.config.ageCutoff / 2 ≤ now - vc.lastCleanup → now - e.lastVote < vc.config.ageCutoff) := by
  unfold top
  dsimp only
  split_ifs with hdue
  · obtain ⟨vc', hclean, hi', hvc', hfind⟩ := cleanup_inv hi now
    have hcfg : vc'.config = vc.config := by rw [hvc']
    have hnext : vc'.nextId = vc.nextId := by rw [hvc']
    refine ⟨{ vc' with lastCleanup := now }, ?_, ⟨hi'.consistent, hi'.size_le, hi'.id_lt⟩, hcfg,
      hnext, fun h e => ?_⟩
    · rw [hclean]
      simp only [Result.ok_bind, Result.pure_eq_ok, topLoop_tallyOrder hi'.consistent,
        mergeSort_compareTop (pairwise_top hi'.consistent minTally)]
    · show vc'.cache.byHash.find? h = some e ↔ _
      rw [hfind]
      exact and_congr_right fun _ => ⟨fun hyoung _ => hyoung, fun hyoung => hyoung hdue⟩
  · refine ⟨vc, ?_, hi, rfl, rfl,
      fun h e => ⟨fun he => ⟨he, fun hdue' => absurd hdue' hdue⟩, And.left⟩⟩
    simp only [Result.ok_bind, Result.pure_eq_ok, topLoop_tallyOrder hi.consistent,
      mergeSort_compareTop (pairwise_top hi.consistent minTally)]

theorem apply_ends {n : Nat} (hi : vc.Inv) (hcfg : vc.config = config) (hn : vc.nextId ≤ n)
    (call : Call) (hids : n + call.insertCount < 2 ^ 64) :
    Ends config (n + call.insertCount) (call.apply vc) := by
  cases call with
  | insert vote repWeight results now => exact insert_ends hi hcfg hn vote repWeight results now hids
  | erase hash =>
    obtain ⟨vc', herase, hi', hcfg', hnext, -⟩ := erase_inv hi hash
    exact .inl ⟨vc', by simp [Call.apply, herase], hi', hcfg'.trans hcfg,
      by simp only [Call.insertCount]; omega⟩
  | top minTally now =>
    obtain ⟨vc', htop, hi', hcfg', hnext, -⟩ := top_eq hi minTally now
    exact .inl ⟨vc', by simp [Call.apply, htop], hi', hcfg'.trans hcfg,
      by simp only [Call.insertCount]; omega⟩
  | clear => exact .inl ⟨vc.clear, rfl, clear_inv vc, hcfg, hn⟩

/-- Every run that takes fewer than 2^64 ids ends in a cache with the invariant, or in the panic
of `max_voters = 0`. -/
theorem run_ends (config : VoteCacheConfig) (start : Nat) (calls : List Call)
    (hids : insertCount calls < 2 ^ 64) :
    Ends config (insertCount calls) (run config start calls) := by
  have h : Ends config (0 + (calls.map Call.insertCount).sum)
      (calls.foldlM (fun vc c => c.apply vc) (new config start)) :=
    foldlM_ends _ Call.insertCount (fun n s call hid hs hcfg hn => apply_ends hs hcfg hn call hid)
      calls (new_inv config start) rfl (le_refl 0) (by simpa [insertCount] using hids)
  simpa [insertCount, run] using h

/-! ## The wrap of `next_id`

Once `next_id` has wrapped, a new entry gets a smaller id than the entries there before it, and
`pop_front` takes the newest entry out. A cache of room for one entry, fed votes for two blocks
in turn, shows it. -/

/-- The collection holds one entry, under `hash` and of id `id`. -/
def HoldsOne (c : CacheEntryCollection) (hash : BlockHash) (id : Nat) : Prop :=
  (∃ e, c.byHash.find? hash = some e ∧ e.id = id) ∧ ∀ h e, c.byHash.find? h = some e → h = hash

theorem holdsOne_insert_empty (e : CacheEntry) :
    HoldsOne (CacheEntryCollection.empty.insert e) e.hash e.id := by
  refine ⟨⟨e, by simp [byHash_insert], rfl⟩, fun h e' he' => ?_⟩
  rw [byHash_insert] at he'
  split_ifs at he' with hh
  · exact hh
  · simp [CacheEntryCollection.empty] at he'

section HoldsOne

variable {c : CacheEntryCollection} {maxVoters : Nat} {id : Nat}

theorem HoldsOne.sequential_find? (hs : HoldsOne c hash id) (hc : c.Consistent maxVoters)
    {k : Nat} (hk : k ≠ id) : c.sequential.find? k = none := by
  cases hfind : c.sequential.find? k with
  | none => rfl
  | some h =>
    obtain ⟨e, he, rfl⟩ := (hc.sequential_iff k h).1 hfind
    obtain ⟨⟨e₀, he₀, rfl⟩, honly⟩ := hs
    obtain rfl := honly h e he
    obtain rfl := Option.some.inj (he₀.symm.trans he)
    exact absurd rfl hk

theorem HoldsOne.len_pos (hs : HoldsOne c hash id) (hc : c.Consistent maxVoters) : 0 < c.len := by
  obtain ⟨⟨e, he, rfl⟩, -⟩ := hs
  have hfind := (hc.sequential_iff e.id hash).2 ⟨e, he, rfl⟩
  refine Nat.pos_of_ne_zero fun h0 => ?_
  rw [find?_of_size_eq_zero h0] at hfind
  cases hfind

theorem HoldsOne.without_first? (hs : HoldsOne c hash id)
    (hc : (c.insert e).Consistent maxVoters) (hne : e.hash ≠ hash) {id₀ : Nat} {h₀ : BlockHash}
    {e₀ : CacheEntry} (hfirst : (c.insert e).sequential.first? = some (id₀, h₀))
    (he₀ : (c.insert e).byHash.find? h₀ = some e₀) (hid₀ : e₀.id = id₀) :
    (id < e.id → HoldsOne ((c.insert e).without h₀ e₀) e.hash e.id) ∧
      (e.id < id → HoldsOne ((c.insert e).without h₀ e₀) hash id) := by
  obtain ⟨⟨eOld, heOld, rfl⟩, honly⟩ := hs
  have hnew : (c.insert e).byHash.find? e.hash = some e := by simp [byHash_insert]
  have hold : (c.insert e).byHash.find? hash = some eOld := by
    rw [byHash_insert, if_neg (Ne.symm hne)]
    exact heOld
  have hle_new : id₀ ≤ e.id := id_le_of_first? hc hfirst hnew
  have hle_old : id₀ ≤ eOld.id := id_le_of_first? hc hfirst hold
  have hfront : h₀ = e.hash ∧ e₀ = e ∨ h₀ = hash ∧ e₀ = eOld := by
    rw [byHash_insert] at he₀
    split_ifs at he₀ with hh
    · exact .inl ⟨hh, (Option.some.inj he₀).symm⟩
    · obtain rfl := honly h₀ e₀ he₀
      exact .inr ⟨rfl, Option.some.inj (heOld.symm.trans he₀).symm⟩
  have hfind : ∀ h, ((c.insert e).without h₀ e₀).byHash.find? h =
      if h = h₀ then none else if h = e.hash then some e else c.byHash.find? h := by
    intro h
    rw [byHash_without, byHash_insert]
  constructor
  · intro hlt
    obtain ⟨rfl, -⟩ : h₀ = hash ∧ e₀ = eOld := by
      rcases hfront with ⟨-, rfl⟩ | hfront
      · omega
      · exact hfront
    refine ⟨⟨e, by rw [hfind, if_neg hne, if_pos rfl], rfl⟩, fun h e' he' => ?_⟩
    rw [hfind] at he'
    split_ifs at he' with hh₀ hh
    · exact hh
    · exact absurd (honly h e' he') hh₀
  · intro hlt
    obtain ⟨rfl, -⟩ : h₀ = e.hash ∧ e₀ = e := by
      rcases hfront with hfront | ⟨-, rfl⟩
      · exact hfront
      · omega
    refine ⟨⟨eOld, by rw [hfind, if_neg (Ne.symm hne), if_neg (Ne.symm hne)]; exact heOld, rfl⟩,
      fun h e' he' => ?_⟩
    rw [hfind] at he'
    split_ifs at he'
    exact honly h e' he'

end HoldsOne

theorem insertImpl_holdsOne (hc : vc.cache.Consistent vc.config.maxVoters)
    (hmax : 0 < vc.config.maxVoters) (hsize : vc.config.maxSize = 1) {h : BlockHash} {id : Nat}
    (hs : HoldsOne vc.cache h id) (hne : hash ≠ h) (hid : vc.nextId ≠ id) (vote : Vote)
    (repWeight : Amount) (now : Nat) :
    ∃ vc', vc.insertImpl vote hash repWeight now = .ok vc' ∧
      vc'.cache.Consistent vc.config.maxVoters ∧ vc'.config = vc.config ∧
      vc'.nextId = (vc.nextId + 1) % 2 ^ 64 ∧
      (id < vc.nextId → HoldsOne vc'.cache hash vc.nextId) ∧
      (vc.nextId < id → HoldsOne vc'.cache h id) := by
  have he : vc.cache.byHash.find? hash = none := by
    cases hfind : vc.cache.byHash.find? hash with
    | none => rfl
    | some e => exact absurd (hs.2 hash e hfind) hne
  have hseq := hs.sequential_find? hc hid
  obtain ⟨e', hid', hhash', hc', hcases⟩ :=
    insertImpl_of_find?_none_eq hc hmax hseq he vote repWeight now
  have hlen : (vc.cache.insert e').len = vc.cache.len + 1 := len_insert (hid' ▸ hseq)
  have hpos := hs.len_pos hc
  rcases hcases with ⟨hfit, -⟩ | ⟨-, id₀, h₀, e₀, hfirst, he₀, hid₀, hins⟩
  · omega
  · obtain ⟨hnewer, holder⟩ := hs.without_first? hc' (hhash' ▸ hne) hfirst he₀ hid₀
    refine ⟨_, hins, hc'.without he₀, rfl, rfl, fun hlt => ?_, fun hlt => holder (by omega)⟩
    have hs' := hnewer (by omega)
    rwa [hhash', hid'] at hs'

/-- A cache of room for one entry and one voter per entry. -/
def oneSlot : VoteCacheConfig := ⟨1, 1, 100⟩

def alternatingHash (k : Nat) : BlockHash := FixedBytes.ofNat 32 (k % 2 + 1)

/-- The `k`th insertion: representative `3`, of weight 10, votes for the `k`th block at clock
reading 0. -/
def alternatingCall (k : Nat) : Call :=
  .insert ⟨1, FixedBytes.ofNat 32 3, FixedBytes.zero 64, [alternatingHash k]⟩ 10 [] 0

def alternating (n : Nat) : List Call := (List.range n).map alternatingCall

theorem alternatingHash_succ_ne (k : Nat) : alternatingHash (k + 1) ≠ alternatingHash k := by
  unfold alternatingHash
  rcases Nat.mod_two_eq_zero_or_one k with hk | hk
  · rw [show (k + 1) % 2 = 1 by omega, hk]
    decide
  · rw [show (k + 1) % 2 = 0 by omega, hk]
    decide

theorem alternating_succ (n : Nat) :
    alternating (n + 1) = alternating n ++ [alternatingCall n] := by
  simp [alternating, List.range_succ]

theorem run_append_singleton (config : VoteCacheConfig) (start : Nat) (calls : List Call)
    (call : Call) :
    run config start (calls ++ [call]) = run config start calls >>= call.apply :=
  foldlM_append_singleton _ calls call _

theorem apply_alternatingCall (k : Nat) (vc : VoteCache) :
    (alternatingCall k).apply vc = vc.insertImpl
      ⟨1, FixedBytes.ofNat 32 3, FixedBytes.zero 64, [alternatingHash k]⟩ (alternatingHash k) 10 0 := by
  simp only [alternatingCall, Call.apply, insert, List.isEmpty_nil, if_true, List.foldlM_cons,
    List.foldlM_nil]
  exact bind_pure _

theorem run_alternating {n : Nat} (hn : n < 2 ^ 64) :
    ∃ vc, run oneSlot 0 (alternating (n + 1)) = .ok vc ∧ vc.cache.Consistent 1 ∧
      vc.config = oneSlot ∧ vc.nextId = (n + 1) % 2 ^ 64 ∧
      HoldsOne vc.cache (alternatingHash n) n := by
  induction n with
  | zero =>
    obtain ⟨e', hid', hhash', hc, hcases⟩ := @insertImpl_of_find?_none_eq (new oneSlot 0)
      (alternatingHash 0) empty_consistent (by decide) rfl rfl
      ⟨1, FixedBytes.ofNat 32 3, FixedBytes.zero 64, [alternatingHash 0]⟩ 10 0
    have hlen : ((new oneSlot 0).cache.insert e').len = 1 := len_insert (by rw [hid']; rfl)
    have hstep : run oneSlot 0 (alternating (0 + 1)) = (new oneSlot 0).insertImpl
        ⟨1, FixedBytes.ofNat 32 3, FixedBytes.zero 64, [alternatingHash 0]⟩ (alternatingHash 0) 10 0 := by
      rw [alternating_succ, run_append_singleton]
      exact apply_alternatingCall 0 (new oneSlot 0)
    rcases hcases with ⟨-, hins⟩ | ⟨hfull, -⟩
    · refine ⟨_, hstep.trans hins, hc, rfl, rfl, ?_⟩
      have hs := holdsOne_insert_empty e'
      rwa [hhash', hid'] at hs
    · rw [hlen] at hfull
      exact absurd hfull (by decide)
  | succ n ih =>
    obtain ⟨vc, hrun, hc, hcfg, hnext, hs⟩ := ih (by omega)
    rw [Nat.mod_eq_of_lt (by omega : n + 1 < 2 ^ 64)] at hnext
    obtain ⟨vc', hins, hc', hcfg', hnext', hnewer, -⟩ := @insertImpl_holdsOne vc _
      (by rw [hcfg]; exact hc) (by rw [hcfg]; decide) (by rw [hcfg]; rfl) _ _ hs
      (alternatingHash_succ_ne n) (by omega)
      ⟨1, FixedBytes.ofNat 32 3, FixedBytes.zero 64, [alternatingHash (n + 1)]⟩ 10 0
    refine ⟨vc', ?_, by rw [hcfg] at hc'; exact hc', hcfg'.trans hcfg,
      by rw [hnext', hnext], ?_⟩
    · rw [alternating_succ, run_append_singleton, hrun, Result.ok_bind, apply_alternatingCall]
      exact hins
    · have hs' := hnewer (by omega)
      rwa [hnext] at hs'

/-- Every sequence of calls that inserts fewer than 2^64 new hashes keeps the three indexes of
the collection in step, the entry count within `max_size`, and the voters of every entry
consistent and within `max_voters`; the only panic is that of `vote_impl` when
`max_voters = 0`, never an `unwrap` of an index. From any cache with the invariant and below the
wrap of `next_id`, `insert_impl` keeps it and takes out only the entry of the smallest id. -/
theorem run_keeps_cache_consistent (config : VoteCacheConfig) (start : Nat) (calls : List Call)
    (hids : insertCount calls < 2 ^ 64) :
    ((∃ vc, run config start calls = .ok vc ∧ vc.Inv ∧ vc.config = config) ∨
      (config.maxVoters = 0 ∧ run config start calls = .error CacheEntry.votersEmpty)) ∧
    ∀ vc : VoteCache, vc.Inv → vc.nextId + 1 < 2 ^ 64 → ∀ vote hash repWeight now vc',
      vc.insertImpl vote hash repWeight now = .ok vc' → vc'.Inv ∧ EvictsOldest vc.cache vc'.cache := by
  refine ⟨?_, fun vc hi hid vote hash repWeight now vc' hins => ?_⟩
  · rcases run_ends config start calls hids with ⟨vc, hrun, hi, hcfg, -⟩ | ⟨err, herr, h0, rfl⟩
    · exact .inl ⟨vc, hrun, hi, hcfg⟩
    · exact .inr ⟨h0, herr⟩
  · rcases insertImpl_inv hi hid vote hash repWeight now with
      ⟨vc'', h, hi'', -, hevict, -⟩ | ⟨-, herr⟩
    · rw [hins, Except.ok.injEq] at h
      subst h
      exact ⟨hi'', hevict⟩
    · rw [hins] at herr
      cases herr

/-- A run that evicts: of the votes for blocks `1` and `2` into a cache of room for one entry,
the second pushes out the first; then block `2` is erased, `top` runs and the cache is
cleared. -/
theorem run_keeps_cache_consistent_evicting :
    let calls : List Call :=
      [.insert ⟨1, FixedBytes.ofNat 32 3, FixedBytes.zero 64, [FixedBytes.ofNat 32 1]⟩ 10 [] 0,
        .insert ⟨1, FixedBytes.ofNat 32 4, FixedBytes.zero 64, [FixedBytes.ofNat 32 2]⟩ 5 [] 0,
        .erase (FixedBytes.ofNat 32 2), .top 0 0, .clear]
    insertCount calls < 2 ^ 64 ∧
      ((∃ vc, run oneSlot 0 calls = .ok vc ∧ vc.Inv ∧ vc.config = oneSlot) ∨
        (oneSlot.maxVoters = 0 ∧ run oneSlot 0 calls = .error CacheEntry.votersEmpty)) ∧
      ∀ vc : VoteCache, vc.Inv → vc.nextId + 1 < 2 ^ 64 → ∀ vote hash repWeight now vc',
        vc.insertImpl vote hash repWeight now = .ok vc' →
          vc'.Inv ∧ EvictsOldest vc.cache vc'.cache := by
  intro calls
  have hids : insertCount calls < 2 ^ 64 := by decide
  exact ⟨hids, run_keeps_cache_consistent oneSlot 0 calls hids⟩

/-- After 2^64 insertions into a cache of room for one entry, of votes for blocks `1` and `2`
in turn, `next_id` has wrapped to 0. The vote for block `1` that follows makes an entry of id 0,
the smallest, and `pop_front` takes out that newest entry: block `2`, inserted before it under
id 2^64 - 1, stays, where eviction of the oldest insertion would have kept block `1`. -/
theorem run_evicts_newest_after_wrap :
    ∃ vc, run oneSlot 0 (alternating (2 ^ 64 + 1)) = .ok vc ∧
      vc.cache.getByHash (FixedBytes.ofNat 32 1) = none ∧
      ∃ e, vc.cache.getByHash (FixedBytes.ofNat 32 2) = some e ∧ e.id = 2 ^ 64 - 1 := by
  obtain ⟨vc, hrun, hc, hcfg, hnext, hs⟩ := run_alternating (n := 2 ^ 64 - 1) (by decide)
  have hzero : vc.nextId = 0 := by
    rw [hnext]
    decide
  obtain ⟨vc', hins, -, -, -, -, holder⟩ := @insertImpl_holdsOne vc _
    (by rw [hcfg]; exact hc) (by rw [hcfg]; decide) (by rw [hcfg]; rfl) _ _ hs
    (alternatingHash_succ_ne _) (by rw [hzero]; decide)
    ⟨1, FixedBytes.ofNat 32 3, FixedBytes.zero 64, [alternatingHash (2 ^ 64 - 1 + 1)]⟩ 10 0
  have hs' := holder (by rw [hzero]; decide)
  have h2 : alternatingHash (2 ^ 64 - 1) = FixedBytes.ofNat 32 2 := rfl
  refine ⟨vc', ?_, ?_, ?_⟩
  · rw [show 2 ^ 64 + 1 = 2 ^ 64 - 1 + 1 + 1 by decide, alternating_succ, run_append_singleton,
      hrun, Result.ok_bind, apply_alternatingCall]
    exact hins
  · cases hfind : vc'.cache.getByHash (FixedBytes.ofNat 32 1) with
    | none => rfl
    | some e =>
      have h1 := hs'.2 _ e hfind
      rw [h2] at h1
      exact absurd h1 (by decide)
  · obtain ⟨e, he, hid⟩ := hs'.1
    exact ⟨e, h2 ▸ he, hid⟩

/-- What `top` returns: after its age cleanup, when due, every stored entry whose cached tally
is at least `min_tally`, once each, ordered by cached tally alone from the highest down. The
final tallies take no part in the order, since `compare_top` sets `b`'s final tally against
itself. -/
theorem top_orders_by_tally_only (hi : vc.Inv) (minTally : Amount) (now : Nat) :
    ∃ results vc', vc.top minTally now = .ok (results, vc') ∧
      (∀ h e, vc'.cache.getByHash h = some e ↔ vc.cache.getByHash h = some e ∧
        (vc.config.ageCutoff / 2 ≤ now - vc.lastCleanup → now - e.lastVote < vc.config.ageCutoff)) ∧
      (∀ t, t ∈ results ↔ ∃ h e, vc'.cache.getByHash h = some e ∧ ¬ e.tally < minTally ∧
        t = TopEntry.ofEntry e) ∧
      (results.map (·.hash)).Nodup ∧
      results.Pairwise (fun s t => t.tally.toNat ≤ s.tally.toNat) := by
  obtain ⟨vc', htop, hi', -, -, hfind⟩ := top_eq hi minTally now
  have hc := hi'.consistent
  refine ⟨_, vc', htop, hfind, fun t => ?_, ?_, pairwise_top hc minTally⟩
  · simp only [List.mem_map, List.mem_filter, mem_entriesByTally hc, getByHash]
    constructor
    · rintro ⟨e, ⟨⟨h, he⟩, hhigh⟩, rfl⟩
      exact ⟨h, e, he, by simpa using hhigh, rfl⟩
    · rintro ⟨h, e, he, hhigh, rfl⟩
      exact ⟨e, ⟨⟨h, he⟩, by simpa using hhigh⟩, rfl⟩
  · rw [List.map_map]
    exact (List.filter_sublist.map _).nodup (nodup_map_hash_entriesByTally hc)

/-- Two votes at clock reading 0: representative `3`, of weight 10, votes for block `1` with a
plain timestamp, and representative `4`, of weight 5, casts a final vote for block `2`. `top`
lists block `1` (tally 10, final tally 0) before block `2` (tally 5, final tally 5), where the
documented order, by final tally first, puts block `2` first. -/
theorem top_orders_by_tally_only_two_votes :
    ∃ vc, run ⟨4, 4, 100⟩ 0
        [.insert ⟨1, FixedBytes.ofNat 32 3, FixedBytes.zero 64, [FixedBytes.ofNat 32 1]⟩ 10 [] 0,
          .insert ⟨Vote.finalTimestamp, FixedBytes.ofNat 32 4, FixedBytes.zero 64,
            [FixedBytes.ofNat 32 2]⟩ 5 [] 0] = .ok vc ∧
      ∃ results vc', vc.top 0 0 = .ok (results, vc') ∧
        List.Sublist [⟨FixedBytes.ofNat 32 1, 10, 0⟩, ⟨FixedBytes.ofNat 32 2, 5, 5⟩] results := by
  rcases run_ends ⟨4, 4, 100⟩ 0
      [.insert ⟨1, FixedBytes.ofNat 32 3, FixedBytes.zero 64, [FixedBytes.ofNat 32 1]⟩ 10 [] 0,
        .insert ⟨Vote.finalTimestamp, FixedBytes.ofNat 32 4, FixedBytes.zero 64,
          [FixedBytes.ofNat 32 2]⟩ 5 [] 0] (by decide) with ⟨vc, hrun, hi, hcfg, -⟩ | ⟨err, -, h0, -⟩
  · refine ⟨vc, hrun, ?_⟩
    have hA : (vc.cache.getByHash (FixedBytes.ofNat 32 1)).map TopEntry.ofEntry =
        some ⟨FixedBytes.ofNat 32 1, 10, 0⟩ := by
      have h := congrArg (fun r : Except String VoteCache => r.toOption.bind fun vc =>
        (vc.cache.getByHash (FixedBytes.ofNat 32 1)).map TopEntry.ofEntry) hrun
      exact h.symm.trans rfl
    have hB : (vc.cache.getByHash (FixedBytes.ofNat 32 2)).map TopEntry.ofEntry =
        some ⟨FixedBytes.ofNat 32 2, 5, 5⟩ := by
      have h := congrArg (fun r : Except String VoteCache => r.toOption.bind fun vc =>
        (vc.cache.getByHash (FixedBytes.ofNat 32 2)).map TopEntry.ofEntry) hrun
      exact h.symm.trans rfl
    have hlast : vc.lastCleanup = 0 := by
      have h := congrArg (fun r : Except String VoteCache => r.toOption.map (·.lastCleanup)) hrun
      exact Option.some.inj (h.symm.trans rfl)
    obtain ⟨eA, heA, htA⟩ := Option.map_eq_some_iff.mp hA
    obtain ⟨eB, heB, htB⟩ := Option.map_eq_some_iff.mp hB
    obtain ⟨results, vc', htop, hfind, hmem, -, hsorted⟩ := top_orders_by_tally_only hi 0 0
    refine ⟨results, vc', htop, ?_⟩
    have hkept : ∀ h e, vc.cache.getByHash h = some e → vc'.cache.getByHash h = some e :=
      fun h e he => (hfind h e).2 ⟨he, fun hdue => by rw [hcfg, hlast] at hdue; simp at hdue⟩
    have hmemA := (hmem _).2 ⟨_, eA, hkept _ _ heA, by simp [BitVec.lt_def], htA.symm⟩
    have hmemB := (hmem _).2 ⟨_, eB, hkept _ _ heB, by simp [BitVec.lt_def], htB.symm⟩
    exact pair_sublist_of_pairwise hsorted hmemA hmemB (by decide) (by decide)
  · cases h0

end VoteCache

end RsbanNode.Consensus
