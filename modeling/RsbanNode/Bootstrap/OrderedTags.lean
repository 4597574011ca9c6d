import RsbanNode.Bootstrap.Ascending
import RsbanNode.Library.Buckets

namespace RsbanNode.Bootstrap

open RsbanNode.Primitives RsbanNode.Result RsbanNode.OrderedMap OrdMap

/-- `OrderedTags`: the in-flight requests by id, the ids by account and by hash, and the ids in
insertion order. The ids are `u64` values, kept as their numbers; the hash maps are ordered
maps, of which the code only uses lookups. -/
structure OrderedTags where
  byId : OrdMap Nat AsyncTag
  byAccount : OrdMap Account (List Nat)
  byHash : OrdMap BlockHash (List Nat)
  sequenced : List Nat

namespace OrderedTags

def empty : OrderedTags := ⟨.empty, .empty, .empty, []⟩

def len (o : OrderedTags) : Nat := o.sequenced.length

def contains (o : OrderedTags) (id : Nat) : Bool := o.byId.contains id

def get (o : OrderedTags) (id : Nat) : Option AsyncTag := o.byId.find? id

/-- `iter_ids`: the tags of the listed ids, each looked up with an `unwrap`. -/
def iterIds (o : OrderedTags) (ids : List Nat) : Except String (List AsyncTag) :=
  ids.mapM fun id => unwrap (o.byId.find? id)

def iterHash (o : OrderedTags) (hash : BlockHash) : Except String (List AsyncTag) :=
  o.iterIds (o.byHash.bucket hash)

def iterAccount (o : OrderedTags) (account : Account) : Except String (List AsyncTag) :=
  o.iterIds (o.byAccount.bucket account)

/-- `count_by_account`. The tag model has no query source, so comparing a tag's source with
the requested one is the predicate `fromSource`. -/
def countByAccount (o : OrderedTags) (account : Account) (fromSource : AsyncTag → Bool) :
    Except String Nat :=
  (fun tags => (tags.filter fromSource).length) <$> o.iterAccount account

def front (o : OrderedTags) : Except String (Option AsyncTag) :=
  match o.sequenced with
  | [] => .ok none
  | id :: _ => some <$> unwrap (o.byId.find? id)

/-- `remove_by_account` and `remove_by_hash`: a bucket of one id goes, else the id leaves it;
a missing bucket is left alone. -/
def removeFromBucket {κ : Type} [LinearOrder κ] (b : OrdMap κ (List Nat)) (k : κ) (id : Nat) :
    OrdMap κ (List Nat) :=
  match b.find? k with
  | some ids => if ids.length = 1 then b.erase k else b.insert k (ids.filter (· != id))
  | none => b

def removeByAccount (o : OrderedTags) (id : Nat) (account : Account) : OrderedTags :=
  { o with byAccount := removeFromBucket o.byAccount account id }

def removeByHash (o : OrderedTags) (id : Nat) (hash : BlockHash) : OrderedTags :=
  { o with byHash := removeFromBucket o.byHash hash id }

def remove (o : OrderedTags) (id : Nat) : Option AsyncTag × OrderedTags :=
  match o.byId.find? id with
  | some tag =>
    let o := ({ o with byId := o.byId.erase id }.removeByAccount id tag.account).removeByHash id
      tag.hash
    (some tag, { o with sequenced := o.sequenced.filter (· != id) })
  | none => (none, o)

def popFront (o : OrderedTags) : Except String (Option AsyncTag × OrderedTags) :=
  match o.sequenced with
  | [] => .ok (none, o)
  | id :: rest => do
    let result ← unwrap (o.byId.find? id)
    let o := { o with byId := o.byId.erase id, sequenced := rest }
    pure (some result, (o.removeByAccount id result.account).removeByHash id result.hash)

def removeInternal (o : OrderedTags) (id : Nat) (account : Account) (hash : BlockHash) :
    OrderedTags :=
  let o := ({ o with byId := o.byId.erase id }.removeByAccount id account).removeByHash id hash
  { o with sequenced := o.sequenced.filter (· != id) }

/-- `insert`: a tag whose id is present first replaces the old one in `by_id`, then the old
tag's indexes are cleared with `remove_internal`, which also takes the id out of `by_id`
again. -/
def insert (o : OrderedTags) (tag : AsyncTag) : OrderedTags :=
  let id := tag.id.toNat
  let old := o.byId.find? id
  let o := { o with byId := o.byId.insert id tag }
  let o := match old with
    | some old => o.removeInternal old.id.toNat old.account old.hash
    | none => o
  { o with byAccount := o.byAccount.pushBucket tag.account id,
           byHash := o.byHash.pushBucket tag.hash id,
           sequenced := o.sequenced ++ [id] }

def accountKey (o : OrderedTags) (id : Nat) : Option Account := (o.get id).map (·.account)

def hashKey (o : OrderedTags) (id : Nat) : Option BlockHash := (o.get id).map (·.hash)

/-- The four indexes describe one set of tags: `sequenced` lists the ids of `by_id` once each,
every tag is stored under its own id, and the account and hash indexes file each id once under
its tag's account and hash. -/
structure Consistent (o : OrderedTags) : Prop where
  sequenced : o.byId.Sequenced o.sequenced
  id_eq : ∀ id tag, o.get id = some tag → tag.id.toNat = id
  byAccount_indexes : o.byAccount.Indexes o.accountKey
  byHash_indexes : o.byHash.Indexes o.hashKey

theorem empty_consistent : empty.Consistent where
  sequenced := sequenced_empty
  id_eq id tag h := by simp [get, empty] at h
  byAccount_indexes := indexes_empty
  byHash_indexes := indexes_empty

variable {o : OrderedTags} {tag : AsyncTag} {id : Nat}

theorem removeFromBucket_eq {κ : Type} [LinearOrder κ] {b : OrdMap κ (List Nat)}
    {key : Nat → Option κ} {k : κ} (h : b.Indexes key) (hk : key id = some k) :
    removeFromBucket b k id = b.removeBucket k id := by
  obtain ⟨ids, hids⟩ := Option.isSome_iff_exists.mp (h.isSome_find? hk)
  have hne : ids ≠ [] := h.ne_nil k ids hids
  have hbucket : b.bucket k = ids := by simp [bucket, hids]
  unfold removeFromBucket removeBucket
  rw [hids, hbucket]
  dsimp only
  by_cases hlen : ids.length = 1
  · rw [if_pos hlen, if_neg (by omega)]
  · have hpos : 0 < ids.length := List.length_pos_iff.mpr hne
    rw [if_neg hlen, if_pos (by omega)]

theorem remove_of_get (h : o.get id = some tag) :
    o.remove id = (some tag, ⟨o.byId.erase id, removeFromBucket o.byAccount tag.account id,
      removeFromBucket o.byHash tag.hash id, o.sequenced.filter (· != id)⟩) := by
  simp only [remove]
  rw [show o.byId.find? id = some tag from h]
  rfl

theorem remove_of_get_none (h : o.get id = none) : o.remove id = (none, o) := by
  simp only [remove]
  rw [show o.byId.find? id = none from h]

theorem get_remove (o : OrderedTags) (id j : Nat) :
    (o.remove id).2.get j = if j = id then none else o.get j := by
  cases h : o.get id with
  | none =>
    rw [remove_of_get_none h]
    split_ifs with hj
    · rw [hj, h]
    · rfl
  | some tag =>
    rw [remove_of_get h]
    split_ifs with hj
    · simp [get, hj]
    · simp [get, find?_erase_ne _ hj]

theorem Consistent.remove (hc : o.Consistent) (id : Nat) : (o.remove id).2.Consistent := by
  cases h : o.get id with
  | none =>
    rw [remove_of_get_none h]
    exact hc
  | some tag =>
    have hkey : ∀ j, j ≠ id → (o.remove id).2.get j = o.get j := fun j hj => by
      rw [get_remove, if_neg hj]
    have hgone : (o.remove id).2.get id = none := by rw [get_remove, if_pos rfl]
    refine ⟨?_, fun j t hj => ?_, ?_, ?_⟩
    · rw [remove_of_get h]
      exact hc.sequenced.erase id
    · by_cases hji : j = id
      · rw [hji, hgone] at hj
        cases hj
      · exact hc.id_eq j t (hkey j hji ▸ hj)
    · have hk : o.accountKey id = some tag.account := by simp [accountKey, h]
      have hidx : (o.byAccount.removeBucket tag.account id).Indexes (o.remove id).2.accountKey :=
        indexes_removeBucket hc.byAccount_indexes hk (by simp [accountKey, hgone])
          (fun j hj => by simp [accountKey, hkey j hj])
      rw [← removeFromBucket_eq hc.byAccount_indexes hk] at hidx
      rw [remove_of_get h] at hidx ⊢
      exact hidx
    · have hk : o.hashKey id = some tag.hash := by simp [hashKey, h]
      have hidx : (o.byHash.removeBucket tag.hash id).Indexes (o.remove id).2.hashKey :=
        indexes_removeBucket hc.byHash_indexes hk (by simp [hashKey, hgone])
          (fun j hj => by simp [hashKey, hkey j hj])
      rw [← removeFromBucket_eq hc.byHash_indexes hk] at hidx
      rw [remove_of_get h] at hidx ⊢
      exact hidx

theorem get_insert_of_get_none (h : o.get tag.id.toNat = none) (j : Nat) :
    (o.insert tag).get j = if j = tag.id.toNat then some tag else o.get j := by
  simp only [insert, show o.byId.find? tag.id.toNat = none from h, get, find?_insert]

theorem insert_of_get_none (h : o.get tag.id.toNat = none) :
    o.insert tag = ⟨o.byId.insert tag.id.toNat tag, o.byAccount.pushBucket tag.account tag.id.toNat,
      o.byHash.pushBucket tag.hash tag.id.toNat, o.sequenced ++ [tag.id.toNat]⟩ := by
  simp only [insert, show o.byId.find? tag.id.toNat = none from h]

theorem Consistent.insert_fresh (hc : o.Consistent) (h : o.contains tag.id.toNat = false) :
    (o.insert tag).Consistent := by
  have hnone : o.get tag.id.toNat = none := by simpa [contains, OrdMap.contains, get] using h
  have hkey : ∀ j, j ≠ tag.id.toNat → (o.insert tag).get j = o.get j := fun j hj => by
    rw [get_insert_of_get_none hnone, if_neg hj]
  have hself : (o.insert tag).get tag.id.toNat = some tag := by
    rw [get_insert_of_get_none hnone, if_pos rfl]
  refine ⟨?_, fun j t hj => ?_, ?_, ?_⟩
  · rw [insert_of_get_none hnone]
    exact hc.sequenced.insert_new h tag
  · by_cases hji : j = tag.id.toNat
    · rw [hji, hself] at hj
      rw [hji, ← Option.some.inj hj]
    · exact hc.id_eq j t (hkey j hji ▸ hj)
  · have hidx : (o.byAccount.pushBucket tag.account tag.id.toNat).Indexes (o.insert tag).accountKey :=
      indexes_pushBucket hc.byAccount_indexes (by simp [accountKey, hnone])
        (by simp [accountKey, hself]) (fun j hj => by simp [accountKey, hkey j hj])
    rw [insert_of_get_none hnone] at hidx ⊢
    exact hidx
  · have hidx : (o.byHash.pushBucket tag.hash tag.id.toNat).Indexes (o.insert tag).hashKey :=
      indexes_pushBucket hc.byHash_indexes (by simp [hashKey, hnone])
        (by simp [hashKey, hself]) (fun j hj => by simp [hashKey, hkey j hj])
    rw [insert_of_get_none hnone] at hidx ⊢
    exact hidx

theorem get_of_mem_sequenced (hc : o.Consistent) (hid : id ∈ o.sequenced) :
    ∃ tag, o.get id = some tag :=
  Option.isSome_iff_exists.mp ((hc.sequenced.mem_iff id).mp hid)

theorem popFront_eq_remove (hc : o.Consistent) {rest : List Nat} (hs : o.sequenced = id :: rest) :
    o.popFront = .ok (o.remove id) := by
  obtain ⟨tag, htag⟩ := get_of_mem_sequenced hc (hs ▸ List.mem_cons_self)
  have hrest : o.sequenced.filter (· != id) = rest := by
    have hnd := hs ▸ hc.sequenced.nodup
    rw [hs, List.filter_cons_of_neg (by simp), List.filter_eq_self.mpr]
    intro j hj
    have hne : j ≠ id := fun hji => (List.nodup_cons.mp hnd).1 (hji ▸ hj)
    simpa using hne
  rw [remove_of_get htag, hrest]
  simp only [popFront, hs, show o.byId.find? id = some tag from htag, unwrap_some, ok_bind,
    pure_eq_ok]
  rfl

theorem Consistent.popFront (hc : o.Consistent) {r : Option AsyncTag × OrderedTags}
    (h : o.popFront = .ok r) : r.2.Consistent := by
  cases hs : o.sequenced with
  | nil =>
    simp only [OrderedTags.popFront, hs] at h
    cases h
    exact hc
  | cons id rest =>
    rw [popFront_eq_remove hc hs] at h
    cases h
    exact hc.remove id

theorem iterIds_ok {ids : List Nat} (h : ∀ id ∈ ids, (o.get id).isSome) :
    ∃ tags, o.iterIds ids = .ok tags := by
  induction ids with
  | nil => exact ⟨[], rfl⟩
  | cons id ids ih =>
    obtain ⟨tag, htag⟩ := Option.isSome_iff_exists.mp (h id List.mem_cons_self)
    obtain ⟨tags, htags⟩ := ih fun j hj => h j (List.mem_cons_of_mem _ hj)
    refine ⟨tag :: tags, ?_⟩
    simp only [iterIds, List.mapM_cons, show o.byId.find? id = some tag from htag, unwrap_some,
      ok_bind] at htags ⊢
    rw [htags]
    rfl

theorem iterIds_of_missing {ids : List Nat} (hid : id ∈ ids) (h : o.get id = none) :
    o.iterIds ids = .error noneUnwrapped := by
  induction ids with
  | nil => cases hid
  | cons j ids ih =>
    simp only [iterIds, List.mapM_cons]
    cases hj : o.byId.find? j with
    | none => rfl
    | some tag =>
      have hne : j ≠ id := fun hji => by
        rw [hji, show o.byId.find? id = none from h] at hj
        cases hj
      have hmem : id ∈ ids := (List.mem_cons.mp hid).resolve_left (Ne.symm hne)
      simp only [unwrap_some, ok_bind]
      have := ih hmem
      simp only [iterIds] at this
      rw [this]
      rfl

theorem Consistent.lookups_ok (hc : o.Consistent) (account : Account) (hash : BlockHash)
    (fromSource : AsyncTag → Bool) :
    (∃ r, o.front = .ok r) ∧ (∃ tags, o.iterAccount account = .ok tags) ∧
      (∃ tags, o.iterHash hash = .ok tags) ∧ ∃ n, o.countByAccount account fromSource = .ok n := by
  have hacc : ∃ tags, o.iterAccount account = .ok tags := iterIds_ok fun id hid => by
    have := (hc.byAccount_indexes.mem_bucket account id).mp hid
    simpa [accountKey] using congrArg Option.isSome this
  obtain ⟨tags, htags⟩ := hacc
  refine ⟨?_, ⟨tags, htags⟩, iterIds_ok fun id hid => ?_, ⟨(tags.filter fromSource).length, by
    simp only [countByAccount, htags, map_ok]⟩⟩
  · cases hs : o.sequenced with
    | nil => exact ⟨none, by simp [front, hs]⟩
    | cons id rest =>
      obtain ⟨tag, htag⟩ := get_of_mem_sequenced hc (hs ▸ List.mem_cons_self)
      exact ⟨some tag, by simp [front, hs, show o.byId.find? id = some tag from htag]⟩
  · have := (hc.byHash_indexes.mem_bucket hash id).mp hid
    simpa [hashKey] using congrArg Option.isSome this

/-! ## Runs -/

inductive Step : OrderedTags → OrderedTags → Prop
  | insert (o : OrderedTags) (tag : AsyncTag) (h : o.contains tag.id.toNat = false) :
      Step o (o.insert tag)
  | remove (o : OrderedTags) (id : Nat) : Step o (o.remove id).2
  | popFront (o : OrderedTags) (r : Option AsyncTag × OrderedTags) (h : o.popFront = .ok r) :
      Step o r.2

theorem Step.consistent {o o' : OrderedTags} (h : Step o o') (hc : o.Consistent) :
    o'.Consistent := by
  cases h with
  | insert tag hfresh => exact hc.insert_fresh hfresh
  | remove id => exact hc.remove id
  | popFront r hpop => exact hc.popFront hpop

/-- Without an id collision the indexes stay in step over every run, so no lookup misses. -/
theorem run_consistent {o : OrderedTags} (h : Relation.ReflTransGen Step empty o) :
    o.Consistent := by
  induction h with
  | refl => exact empty_consistent
  | tail _ hstep ih => exact hstep.consistent ih

theorem insert_of_get_some {old : AsyncTag} (h : o.get tag.id.toNat = some old) :
    o.insert tag = ⟨(o.byId.insert tag.id.toNat tag).erase old.id.toNat,
      (removeFromBucket o.byAccount old.account old.id.toNat).pushBucket tag.account tag.id.toNat,
      (removeFromBucket o.byHash old.hash old.id.toNat).pushBucket tag.hash tag.id.toNat,
      o.sequenced.filter (· != old.id.toNat) ++ [tag.id.toNat]⟩ := by
  simp only [insert, show o.byId.find? tag.id.toNat = some old from h]
  rfl

/-- Inserting a tag whose id is present loses the tag: `remove_internal` takes the id out of
`by_id` after the new tag was written there, while the id goes to the back of the other three
indexes. The account and hash of the new tag then lead to an id without a tag. -/
theorem insert_present_id_drops_tag (hc : o.Consistent) (h : o.contains tag.id.toNat = true) :
    (o.insert tag).get tag.id.toNat = none ∧ tag.id.toNat ∈ (o.insert tag).sequenced ∧
      (o.insert tag).iterAccount tag.account = .error noneUnwrapped ∧
      (o.insert tag).iterHash tag.hash = .error noneUnwrapped := by
  obtain ⟨old, hold⟩ : ∃ old, o.get tag.id.toNat = some old :=
    Option.isSome_iff_exists.mp (by simpa [contains, OrdMap.contains, get] using h)
  have hid : old.id.toNat = tag.id.toNat := hc.id_eq _ old hold
  have hgone : (o.insert tag).get tag.id.toNat = none := by
    rw [insert_of_get_some hold, hid]
    simp [get]
  refine ⟨hgone, ?_, iterIds_of_missing ?_ hgone, iterIds_of_missing ?_ hgone⟩
  · rw [insert_of_get_some hold]
    exact List.mem_append_right _ (List.mem_singleton_self _)
  · rw [insert_of_get_some hold, bucket_pushBucket, if_pos rfl]
    exact List.mem_append_right _ (List.mem_singleton_self _)
  · rw [insert_of_get_some hold, bucket_pushBucket, if_pos rfl]
    exact List.mem_append_right _ (List.mem_singleton_self _)

/-- Two requests of `create_blocks_request` that drew the same random id `7`, for the unknown
accounts `1` and `2`. -/
def collidingRequests : AsyncTag × AsyncTag :=
  (BootstrapAscending.createBlocksRequestTag 16 7 (FixedBytes.ofNat 32 1) none 16,
    BootstrapAscending.createBlocksRequestTag 16 7 (FixedBytes.ofNat 32 2) none 16)

theorem insert_present_id_drops_tag_collision :
    let o := empty.insert collidingRequests.1
    (o.insert collidingRequests.2).get 7 = none ∧ 7 ∈ (o.insert collidingRequests.2).sequenced ∧
      (o.insert collidingRequests.2).iterAccount (FixedBytes.ofNat 32 2) = .error noneUnwrapped ∧
      (o.insert collidingRequests.2).iterHash (FixedBytes.zero 32) = .error noneUnwrapped :=
  insert_present_id_drops_tag (empty_consistent.insert_fresh rfl) rfl

end OrderedTags

end RsbanNode.Bootstrap
