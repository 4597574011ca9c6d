import RsbanNode.Messages.Realtime
import RsbanNode.Library.Buckets

namespace RsbanNode.Consensus

open RsbanNode.Primitives RsbanNode.Messages RsbanNode.Result RsbanNode.OrderedMap OrdMap

/-- `VoterEntry`: a representative's last vote in a cache entry and the weight it had then. -/
structure VoterEntry where
  representative : PublicKey
  weight : Amount
  vote : Vote

/-- `OrderedVoters`: the voters by representative, and the representatives by weight. The
`BTreeMap<Amount, _>` is keyed by the weight's number, which orders as the `u128` does. -/
structure OrderedVoters where
  byRepresentative : OrdMap PublicKey VoterEntry
  byWeight : OrdMap Nat (List PublicKey)

namespace OrderedVoters

def empty : OrderedVoters := ⟨.empty, .empty⟩

/-- `remove_by_weight`: the bucket is taken out and put back without the representative when it
held others. -/
def removeByWeight (byWeight : OrdMap Nat (List PublicKey)) (weight : Nat)
    (representative : PublicKey) : OrdMap Nat (List PublicKey) :=
  match byWeight.find? weight with
  | some accounts =>
    if accounts.length > 1 then byWeight.insert weight (accounts.filter (· != representative))
    else byWeight.erase weight
  | none => byWeight

def addByWeight (byWeight : OrdMap Nat (List PublicKey)) (weight : Nat)
    (representative : PublicKey) : OrdMap Nat (List PublicKey) :=
  byWeight.pushBucket weight representative

def insert (o : OrderedVoters) (entry : VoterEntry) : OrderedVoters :=
  let weight := entry.weight.toNat
  let rep := entry.representative
  match o.byRepresentative.find? rep with
  | some existing =>
    ⟨o.byRepresentative.insert rep entry,
      addByWeight (removeByWeight o.byWeight existing.weight.toNat rep) weight rep⟩
  | none => ⟨o.byRepresentative.insert rep entry, addByWeight o.byWeight weight rep⟩

def iterUnordered (o : OrderedVoters) : List VoterEntry := o.byRepresentative.entries.map (·.2)

def find (o : OrderedVoters) (representative : PublicKey) : Option VoterEntry :=
  o.byRepresentative.find? representative

def modify (o : OrderedVoters) (representative : PublicKey) (vote : Vote) (newWeight : Amount) :
    OrderedVoters :=
  match o.byRepresentative.find? representative with
  | some entry =>
    let oldWeight := entry.weight
    let byRepresentative :=
      o.byRepresentative.insert representative { entry with vote := vote, weight := newWeight }
    if oldWeight ≠ newWeight then
      ⟨byRepresentative,
        addByWeight (removeByWeight o.byWeight oldWeight.toNat representative) newWeight.toNat
          representative⟩
    else ⟨byRepresentative, o.byWeight⟩
  | none => o

/-- `min_weight`, as the number of the smallest weight. -/
def minWeight (o : OrderedVoters) : Option Nat := o.byWeight.first?.map (·.1)

/-- `remove_lowest_weight`: every representative of the smallest weight goes. -/
def removeLowestWeight (o : OrderedVoters) : OrderedVoters :=
  match o.byWeight.first? with
  | some (weight, reps) =>
    ⟨reps.foldl (fun m r => m.erase r) o.byRepresentative, o.byWeight.erase weight⟩
  | none => o

def len (o : OrderedVoters) : Nat := o.byRepresentative.size

def weightOf (o : OrderedVoters) (representative : PublicKey) : Option Nat :=
  (o.byRepresentative.find? representative).map (·.weight.toNat)

/-- `by_weight` is the exact inverse of `by_representative`, and every voter is stored under its
own representative, so there is at most one voter per representative. -/
structure Consistent (o : OrderedVoters) : Prop where
  rep_eq : ∀ r v, o.byRepresentative.find? r = some v → v.representative = r
  byWeight : o.byWeight.Indexes o.weightOf

variable {o : OrderedVoters}

theorem empty_consistent : empty.Consistent where
  rep_eq r v h := by simp [empty] at h
  byWeight := by
    have hnone : empty.weightOf = fun _ => none := by
      funext r
      rfl
    rw [hnone]
    exact indexes_empty

theorem removeByWeight_eq (hc : o.Consistent) {r : PublicKey} {w : Nat}
    (hw : o.weightOf r = some w) : removeByWeight o.byWeight w r = o.byWeight.removeBucket w r := by
  obtain ⟨accounts, haccounts⟩ := Option.isSome_iff_exists.mp (hc.byWeight.isSome_find? hw)
  have hbucket : o.byWeight.bucket w = accounts := by simp [bucket, haccounts]
  unfold removeByWeight removeBucket
  rw [haccounts, hbucket]

theorem len_insert_of_find_none {entry : VoterEntry} (hnew : o.find entry.representative = none) :
    (o.insert entry).len = o.len + 1 := by
  unfold insert
  dsimp only
  rw [show o.byRepresentative.find? entry.representative = none from hnew]
  exact size_insert_of_find?_eq_none hnew entry

theorem Consistent.insert_new (hc : o.Consistent) {entry : VoterEntry}
    (hnew : o.find entry.representative = none) : (o.insert entry).Consistent := by
  unfold insert
  dsimp only
  rw [show o.byRepresentative.find? entry.representative = none from hnew]
  refine ⟨fun r v hv => ?_, indexes_pushBucket hc.byWeight
    (by simp only [weightOf, Option.map_eq_none_iff]; exact hnew)
    (by simp [weightOf]) (fun j hj => by simp [weightOf, hj])⟩
  rw [find?_insert] at hv
  split_ifs at hv with hr
  · rw [← Option.some.inj hv, hr]
  · exact hc.rep_eq r v hv

theorem len_modify (o : OrderedVoters) (r : PublicKey) (vote : Vote) (w : Amount) :
    (o.modify r vote w).len = o.len := by
  unfold modify
  split
  · next entry hentry =>
    dsimp only
    split_ifs <;> exact size_insert_of_isSome (by simp [hentry]) _
  · rfl

theorem Consistent.modify (hc : o.Consistent) (r : PublicKey) (vote : Vote) (w : Amount) :
    (o.modify r vote w).Consistent := by
  unfold OrderedVoters.modify
  split
  · next entry hentry =>
    have hrep : ∀ r' v, (o.byRepresentative.insert r { entry with vote := vote, weight := w }).find? r'
        = some v → v.representative = r' := fun r' v hv => by
      rw [find?_insert] at hv
      split_ifs at hv with hr'
      · rw [← Option.some.inj hv, hr', ← hc.rep_eq r entry hentry]
      · exact hc.rep_eq r' v hv
    have hkey : o.weightOf r = some entry.weight.toNat := by simp [weightOf, hentry]
    dsimp only
    split_ifs with hne
    · refine ⟨hrep, ?_⟩
      rw [removeByWeight_eq hc hkey]
      exact indexes_moveBucket hc.byWeight hkey (by simp [weightOf])
        (fun j hj => by simp [weightOf, hj])
    · refine ⟨hrep, ?_⟩
      have hsame : (⟨o.byRepresentative.insert r { entry with vote := vote, weight := w },
          o.byWeight⟩ : OrderedVoters).weightOf = o.weightOf := by
        funext j
        by_cases hj : j = r
        · simp [weightOf, hj, hentry, not_not.mp hne]
        · simp [weightOf, hj]
      rw [hsame]
      exact hc.byWeight
  · exact hc

theorem Consistent.removeLowestWeight (hc : o.Consistent) : o.removeLowestWeight.Consistent := by
  unfold OrderedVoters.removeLowestWeight
  split
  · next w reps hfirst =>
    have hreps : o.byWeight.find? w = some reps := find?_of_first? hfirst
    have hmem : ∀ r, r ∈ reps ↔ o.weightOf r = some w := fun r => by
      have h := hc.byWeight.mem_bucket w r
      rwa [show o.byWeight.bucket w = reps by simp [bucket, hreps]] at h
    have hkey : ∀ r, (⟨reps.foldl (fun m r => m.erase r) o.byRepresentative,
        o.byWeight.erase w⟩ : OrderedVoters).weightOf r = if r ∈ reps then none else o.weightOf r :=
      fun r => by
        simp only [weightOf, find?_foldl_erase]
        split_ifs <;> rfl
    refine ⟨fun r v hv => ?_, hc.byWeight.eraseBucket (fun k => find?_erase _ _ _) (fun r => ?_)
      (fun k hk r => ?_)⟩
    · rw [find?_foldl_erase] at hv
      split_ifs at hv
      exact hc.rep_eq r v hv
    · rw [hkey]
      split_ifs with hr
      · simp
      · exact fun hw => hr ((hmem r).2 hw)
    · rw [hkey]
      split_ifs with hr
      · rw [(hmem r).1 hr]
        simp [Ne.symm hk]
      · rfl
  · exact hc

theorem minWeight_isSome (hc : o.Consistent) (hpos : 0 < o.len) : o.minWeight.isSome := by
  obtain ⟨r, v, hv⟩ := exists_find?_of_size_pos hpos
  have hkey : o.weightOf r = some v.weight.toNat := by simp [weightOf, hv]
  obtain ⟨l, hl⟩ := Option.isSome_iff_exists.mp (hc.byWeight.isSome_find? hkey)
  simpa [minWeight] using first?_isSome_of_find? hl

theorem len_removeLowestWeight_lt (hc : o.Consistent) (hpos : 0 < o.len) :
    o.removeLowestWeight.len < o.len := by
  have hsome := minWeight_isSome hc hpos
  unfold OrderedVoters.removeLowestWeight
  split
  · next w reps hfirst =>
    have hreps := find?_of_first? hfirst
    cases reps with
    | nil => exact absurd rfl (hc.byWeight.ne_nil w [] hreps)
    | cons r rest =>
      have hr : o.weightOf r = some w := (hc.byWeight.mem_bucket w r).1 (by simp [bucket, hreps])
      obtain ⟨v, hv, -⟩ := Option.map_eq_some_iff.mp hr
      have herase := size_erase_of_find? hv
      have hle := size_foldl_erase_le (o.byRepresentative.erase r) rest
      simp only [len, List.foldl_cons]
      omega
  · next hnone => simp [minWeight, hnone] at hsome

theorem minWeight_eq_none (hc : o.Consistent) (hzero : o.len = 0) : o.minWeight = none := by
  cases hfirst : o.byWeight.first? with
  | none => simp [minWeight, hfirst]
  | some e =>
    have hreps := find?_of_first? hfirst
    obtain ⟨r, hr⟩ := List.exists_mem_of_ne_nil e.2 (hc.byWeight.ne_nil e.1 e.2 hreps)
    have hkey : o.weightOf r = some e.1 := by
      rw [← hc.byWeight.mem_bucket]
      simpa [bucket, hreps] using hr
    simp [weightOf, find?_of_size_eq_zero hzero] at hkey

end OrderedVoters

/-- `CacheEntry`: the votes seen for one block hash, with the tallies cached when a vote last
changed them. `last_vote` is the clock reading of that change. -/
structure CacheEntry where
  id : Nat
  hash : BlockHash
  voters : OrderedVoters
  lastVote : Nat
  tally : Amount
  finalTally : Amount

namespace CacheEntry

def new (id : Nat) (hash : BlockHash) (now : Nat) : CacheEntry := ⟨id, hash, .empty, now, 0, 0⟩

/-- `calculate_tally`: the wrapping sums of all voters' weights and of the final voters'. -/
def calculateTally (e : CacheEntry) : Amount × Amount :=
  e.voters.iterUnordered.foldl (fun acc voter =>
    (acc.1 + voter.weight, if voter.vote.isFinal then acc.2 + voter.weight else acc.2)) (0, 0)

def votes (e : CacheEntry) : List Vote := e.voters.iterUnordered.map (·.vote)

/-- The panic of `vote_impl`'s `expect` on an empty voter set. -/
def votersEmpty : String := "voters must not be empty"

/-- `vote_impl`: a newer vote of a known representative replaces its vote and weight, and
counts as a change only when it makes the vote final; a new representative gets in while there
is room or when it outweighs the lightest voters, who then go once the set is full. -/
def voteImpl (e : CacheEntry) (vote : Vote) (repWeight : Amount) (maxVoters : Nat) :
    Except String (Bool × CacheEntry) :=
  let representative := vote.votingAccount
  match e.voters.find representative with
  | some existing =>
    if vote.maskedTimestamp > existing.vote.maskedTimestamp then
      let wasFinal := existing.vote.isFinal
      .ok (!wasFinal && vote.isFinal,
        { e with voters := e.voters.modify representative vote repWeight })
    else .ok (false, e)
  | none => do
    let shouldAdd ← if e.voters.len < maxVoters then pure true else do
      let minWeight ← expect e.voters.minWeight votersEmpty
      pure (decide (repWeight.toNat > minWeight))
    if shouldAdd then
      let voters := e.voters.insert ⟨representative, repWeight, vote⟩
      let voters := if voters.len ≥ maxVoters then voters.removeLowestWeight else voters
      pure (true, { e with voters := voters })
    else pure (false, e)

/-- `vote`: the tallies are recomputed, and `last_vote` set, when `vote_impl` reports a change. -/
def vote (e : CacheEntry) (vote : Vote) (repWeight : Amount) (maxVoters : Nat) (now : Nat) :
    Except String (Bool × CacheEntry) := do
  let (updated, e) ← e.voteImpl vote repWeight maxVoters
  if updated then
    let (tally, finalTally) := e.calculateTally
    pure (true, { e with tally := tally, finalTally := finalTally, lastVote := now })
  else pure (false, e)

structure VotersOk (maxVoters : Nat) (e : CacheEntry) : Prop where
  consistent : e.voters.Consistent
  len_le : e.voters.len ≤ maxVoters

variable {e : CacheEntry} {maxVoters : Nat}

theorem new_votersOk (id : Nat) (hash : BlockHash) (now : Nat) :
    (new id hash now).VotersOk maxVoters :=
  ⟨OrderedVoters.empty_consistent, Nat.zero_le _⟩

theorem votersOk_insert (hok : e.VotersOk maxVoters) {entry : VoterEntry}
    (hnew : e.voters.find entry.representative = none) :
    VotersOk maxVoters { e with voters := if (e.voters.insert entry).len ≥ maxVoters then
      (e.voters.insert entry).removeLowestWeight else e.voters.insert entry } := by
  have hc := hok.consistent.insert_new hnew
  have hlen := OrderedVoters.len_insert_of_find_none hnew
  split_ifs with hfull
  · have hlt := OrderedVoters.len_removeLowestWeight_lt hc (by omega)
    exact ⟨hc.removeLowestWeight, by have := hok.len_le; simp only at hlt ⊢; omega⟩
  · exact ⟨hc, by simp only; omega⟩

theorem voteImpl_ok (hok : e.VotersOk maxVoters) (hmax : 0 < maxVoters) (vote : Vote)
    (repWeight : Amount) : ∃ updated e', e.voteImpl vote repWeight maxVoters = .ok (updated, e') ∧
      e'.VotersOk maxVoters ∧ e' = { e with voters := e'.voters } := by
  unfold voteImpl
  dsimp only
  split
  · next existing hexisting =>
    split_ifs
    · refine ⟨_, _, rfl, ⟨hok.consistent.modify _ _ _, ?_⟩, rfl⟩
      rw [OrderedVoters.len_modify]
      exact hok.len_le
    · exact ⟨false, e, rfl, hok, rfl⟩
  · next hnew =>
    by_cases hroom : e.voters.len < maxVoters
    · rw [if_pos hroom]
      exact ⟨true, _, rfl, votersOk_insert hok hnew, rfl⟩
    · rw [if_neg hroom]
      obtain ⟨w, hw⟩ := Option.isSome_iff_exists.mp
        (OrderedVoters.minWeight_isSome hok.consistent (by omega))
      simp only [hw, expect_some, Result.ok_bind, Result.pure_eq_ok]
      by_cases hheavier : repWeight.toNat > w
      · rw [if_pos (decide_eq_true hheavier)]
        exact ⟨true, _, rfl, votersOk_insert hok hnew, rfl⟩
      · rw [if_neg (by simpa using hheavier)]
        exact ⟨false, e, rfl, hok, rfl⟩

/-- With `max_voters = 0` no voter fits, and the first vote finds no lightest voter to compare
with: `expect` panics. -/
theorem voteImpl_of_maxVoters_zero (hok : e.VotersOk 0) (vote : Vote) (repWeight : Amount) :
    e.voteImpl vote repWeight 0 = .error votersEmpty := by
  have hzero : e.voters.len = 0 := Nat.le_zero.mp hok.len_le
  have hnone : e.voters.find vote.votingAccount = none := find?_of_size_eq_zero hzero _
  unfold voteImpl
  dsimp only
  rw [hnone]
  simp [OrderedVoters.minWeight_eq_none hok.consistent hzero, expect]

theorem vote_ok (hok : e.VotersOk maxVoters) (hmax : 0 < maxVoters) (vote : Vote)
    (repWeight : Amount) (now : Nat) : ∃ updated e', e.vote vote repWeight maxVoters now =
      .ok (updated, e') ∧ e'.VotersOk maxVoters ∧ e'.id = e.id ∧ e'.hash = e.hash := by
  obtain ⟨updated, e₁, himpl, hok₁, he₁⟩ := voteImpl_ok hok hmax vote repWeight
  have hid : e₁.id = e.id := by rw [he₁]
  have hhash : e₁.hash = e.hash := by rw [he₁]
  unfold CacheEntry.vote
  rw [himpl, Result.ok_bind]
  cases updated with
  | true => exact ⟨true, _, rfl, ⟨hok₁.consistent, hok₁.len_le⟩, hid, hhash⟩
  | false => exact ⟨false, e₁, rfl, hok₁, hid, hhash⟩

theorem vote_of_maxVoters_zero (hok : e.VotersOk 0) (vote : Vote) (repWeight : Amount)
    (now : Nat) : e.vote vote repWeight 0 now = .error votersEmpty := by
  unfold CacheEntry.vote
  rw [voteImpl_of_maxVoters_zero hok]
  rfl

end CacheEntry

end RsbanNode.Consensus
