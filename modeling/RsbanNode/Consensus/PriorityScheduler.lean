import RsbanNode.Core.Primitives
import RsbanNode.Library.OrdMap

namespace RsbanNode.Consensus

open RsbanNode.Primitives RsbanNode.OrderedMap OrdMap

/-- `PriorityBucketConfig`, with the one field the modelled functions read. -/
structure PriorityBucketConfig where
  maxBlocks : Nat

/-- `BlockEntry`: a block queued under its arrival time. Its order and its equality are those of
`(time, hash)`, so the block stands here by its hash. -/
structure BlockEntry where
  time : UInt64
  hash : BlockHash
deriving DecidableEq

namespace BlockEntry

def key (e : BlockEntry) : Lex (Nat × Nat) := toLex (e.time.toNat, e.hash.toNat)

theorem key_injective : Function.Injective key := by
  intro a b h
  have hpair := Prod.mk.inj (toLex.injective h)
  cases a
  cases b
  simp only [mk.injEq]
  exact ⟨UInt64.toNat_inj.mp hpair.1, FixedBytes.toNat_injective hpair.2⟩

instance : LinearOrder BlockEntry := LinearOrder.lift' key key_injective

end BlockEntry

/-- `Bucket`, without its elections: the least balance it takes, its configuration, and the
queue of blocks ordered by `(time, hash)`. -/
structure Bucket where
  minimumBalance : Amount
  config : PriorityBucketConfig
  queue : OrdMap BlockEntry Unit

namespace Bucket

def new (minimumBalance : Amount) (config : PriorityBucketConfig) : Bucket :=
  ⟨minimumBalance, config, .empty⟩

def canAccept (b : Bucket) (priority : Amount) : Bool := decide (priority ≥ b.minimumBalance)

/-- `push`: the entry goes into the queue; over `max_blocks` the greatest entry is popped, and
the result is whether the entry went in and was not the one popped. -/
def push (b : Bucket) (time : UInt64) (hash : BlockHash) : Bool × Bucket :=
  let entry : BlockEntry := ⟨time, hash⟩
  let inserted := !b.queue.contains entry
  let queue := b.queue.insert entry ()
  if queue.size > b.config.maxBlocks then
    match queue.entries.getLast? with
    | some (removed, _) =>
      (inserted && !(removed.time == time && removed.hash == hash),
        { b with queue := queue.erase removed })
    | none => (inserted, { b with queue := queue })
  else (inserted, { b with queue := queue })

def len (b : Bucket) : Nat := b.queue.size

end Bucket

/-- The minimum balances `build_region(begin, end, count)` adds: `count` buckets of equal
width from `begin`. -/
def buildRegion (begin end' : Amount) (count : Nat) : List Amount :=
  let width := (end' - begin) / BitVec.ofNat 128 count
  (List.range count).map fun i => begin + BitVec.ofNat 128 i * width

/-- `create_buckets`: eleven regions between powers of two, 63 buckets in all. -/
def createBuckets (config : PriorityBucketConfig) : List Bucket :=
  (buildRegion 0 (1 <<< 79) 1 ++ buildRegion (1 <<< 79) (1 <<< 88) 1 ++
    buildRegion (1 <<< 88) (1 <<< 92) 2 ++ buildRegion (1 <<< 92) (1 <<< 96) 4 ++
    buildRegion (1 <<< 96) (1 <<< 100) 8 ++ buildRegion (1 <<< 100) (1 <<< 104) 16 ++
    buildRegion (1 <<< 104) (1 <<< 108) 16 ++ buildRegion (1 <<< 108) (1 <<< 112) 8 ++
    buildRegion (1 <<< 112) (1 <<< 116) 4 ++ buildRegion (1 <<< 116) (1 <<< 120) 2 ++
    buildRegion (1 <<< 120) (1 <<< 127) 1).map fun minimumBalance =>
      Bucket.new minimumBalance config

structure PriorityScheduler where
  buckets : List Bucket

namespace PriorityScheduler

def new (config : PriorityBucketConfig) : PriorityScheduler := ⟨createBuckets config⟩

/-- The loop of `find_bucket` over the buckets from index `i` on, `result` the index of the
last one that accepted. -/
def findBucketLoop (priority : Amount) : List Bucket → Nat → Nat → Nat
  | [], _, result => result
  | bucket :: rest, i, result =>
    if bucket.canAccept priority then findBucketLoop priority rest (i + 1) i else result

/-- `find_bucket`, returning the index of the bucket: the first one, then each next one as long
as it accepts. -/
def findBucket (s : PriorityScheduler) (priority : Amount) : Nat :=
  findBucketLoop priority (s.buckets.drop 1) 1 0

end PriorityScheduler

/-! ## Finding a bucket -/

namespace PriorityScheduler

theorem findBucketLoop_spec (buckets : List Bucket) (priority : Amount) :
    ∀ i, 0 < i → (∃ b, buckets[i - 1]? = some b ∧ b.canAccept priority = true) →
      (∃ b, buckets[findBucketLoop priority (buckets.drop i) i (i - 1)]? = some b ∧
        b.canAccept priority = true) ∧
      ∀ b, buckets[findBucketLoop priority (buckets.drop i) i (i - 1) + 1]? = some b →
        b.canAccept priority = false := by
  intro i hi hacc
  generalize hl : buckets.drop i = l
  -- the induction follows the buckets still to be looked at
  induction l generalizing i with
  | nil =>
    have hlen : buckets.length ≤ i := List.drop_eq_nil_iff.mp hl
    refine ⟨hacc, fun b hb => ?_⟩
    rw [findBucketLoop, Nat.sub_add_cancel hi, List.getElem?_eq_none hlen] at hb
    cases hb
  | cons bucket rest ih =>
    have hbucket : buckets[i]? = some bucket := by rw [← List.head?_drop, hl]; rfl
    rw [findBucketLoop]
    by_cases hnext : bucket.canAccept priority = true
    · have hrest : buckets.drop (i + 1) = rest := by rw [← List.tail_drop, hl]; rfl
      have hstep := ih (i + 1) (Nat.succ_pos i) ⟨bucket, hbucket, hnext⟩ hrest
      rw [Nat.add_sub_cancel] at hstep
      rw [if_pos hnext]
      exact hstep
    · rw [if_neg hnext]
      refine ⟨hacc, fun b hb => ?_⟩
      rw [Nat.sub_add_cancel hi, hbucket, Option.some.injEq] at hb
      rw [← hb]
      simpa using hnext

theorem findBucket_spec (s : PriorityScheduler) (priority : Amount)
    (hfirst : ∃ b, s.buckets[0]? = some b ∧ b.canAccept priority = true) :
    (∃ b, s.buckets[s.findBucket priority]? = some b ∧ b.canAccept priority = true) ∧
      ∀ b, s.buckets[s.findBucket priority + 1]? = some b → b.canAccept priority = false :=
  findBucketLoop_spec s.buckets priority 1 Nat.one_pos hfirst

theorem minimumBalance_le {buckets : List Bucket}
    (hsorted : (buckets.map (·.minimumBalance)).Pairwise (· < ·)) {i j : Nat} {b b' : Bucket}
    (hb : buckets[i]? = some b) (hb' : buckets[j]? = some b') (hij : i ≤ j) :
    b.minimumBalance ≤ b'.minimumBalance := by
  obtain ⟨hi, rfl⟩ := List.getElem?_eq_some_iff.mp hb
  obtain ⟨hj, rfl⟩ := List.getElem?_eq_some_iff.mp hb'
  rw [BitVec.le_def]
  rcases Nat.lt_or_eq_of_le hij with hlt | rfl
  · have hpair := List.pairwise_iff_getElem.mp hsorted i j (by simpa using hi) (by simpa using hj) hlt
    simp only [List.getElem_map, BitVec.lt_def] at hpair
    exact Nat.le_of_lt hpair
  · exact Nat.le_refl _

/-- With minimum balances strictly increasing from a first bucket of minimum zero, the bucket
`find_bucket` returns is the one whose range holds the priority, and no other does. -/
theorem findBucket_iff (s : PriorityScheduler)
    (hsorted : (s.buckets.map (·.minimumBalance)).Pairwise (· < ·))
    (hfirst : ∃ b, s.buckets[0]? = some b ∧ b.minimumBalance = 0) (priority : Amount) {i : Nat}
    {b : Bucket} (hb : s.buckets[i]? = some b) :
    (b.minimumBalance ≤ priority ∧ ∀ b', s.buckets[i + 1]? = some b' → priority < b'.minimumBalance) ↔
      s.findBucket priority = i := by
  have haccept : ∀ b : Bucket,
      b.canAccept priority = true ↔ b.minimumBalance.toNat ≤ priority.toNat :=
    fun b => by simp [Bucket.canAccept, BitVec.le_def]
  obtain ⟨b₀, hb₀, hzero⟩ := hfirst
  obtain ⟨⟨bᵣ, hbᵣ, hracc⟩, hnext⟩ :=
    findBucket_spec s priority ⟨b₀, hb₀, (haccept b₀).2 (by simp [hzero])⟩
  have hi : i < s.buckets.length := (List.getElem?_eq_some_iff.mp hb).1
  constructor
  · rintro ⟨hle, hlt⟩
    rw [BitVec.le_def] at hle
    by_contra hne
    rcases Nat.lt_or_gt_of_ne hne with hbelow | habove
    · have hb₁ := List.getElem?_eq_getElem (l := s.buckets) (Nat.lt_of_le_of_lt hbelow hi)
      have hreject := hnext _ hb₁
      have hmono := minimumBalance_le hsorted hb₁ hb hbelow
      rw [← Bool.not_eq_true, haccept] at hreject
      rw [BitVec.le_def] at hmono
      exact hreject (Nat.le_trans hmono hle)
    · have hb₁ := List.getElem?_eq_getElem (l := s.buckets)
        (Nat.lt_of_le_of_lt habove (List.getElem?_eq_some_iff.mp hbᵣ).1)
      have hmono := minimumBalance_le hsorted hb₁ hbᵣ habove
      have hover := hlt _ hb₁
      have hin := (haccept bᵣ).1 hracc
      rw [BitVec.le_def] at hmono
      rw [BitVec.lt_def] at hover
      omega
  · rintro rfl
    rw [hb, Option.some.injEq] at hbᵣ
    subst hbᵣ
    refine ⟨BitVec.le_def.mpr ((haccept b).1 hracc), fun b' hb' => ?_⟩
    have hreject := hnext b' hb'
    rw [← Bool.not_eq_true, haccept] at hreject
    exact BitVec.lt_def.mpr (Nat.lt_of_not_le hreject)

end PriorityScheduler

/-! ## Pushing into a bucket -/

namespace Bucket

variable {b : Bucket} {time : UInt64} {hash : BlockHash}

theorem push_of_contains (h : b.queue.contains ⟨time, hash⟩ = true)
    (hsize : b.queue.size ≤ b.config.maxBlocks) : b.push time hash = (false, b) := by
  have hfind : (b.queue.find? ⟨time, hash⟩).isSome := h
  obtain ⟨u, hu⟩ := Option.isSome_iff_exists.mp hfind
  have hsame : b.queue.insert ⟨time, hash⟩ () = b.queue := insert_of_find? hu
  unfold push
  dsimp only
  rw [h, hsame, if_neg (by omega)]
  rfl

theorem push_of_new_room (hnew : b.queue.contains ⟨time, hash⟩ = false)
    (hroom : ¬ (b.queue.insert ⟨time, hash⟩ ()).size > b.config.maxBlocks) :
    b.push time hash = (true, { b with queue := b.queue.insert ⟨time, hash⟩ () }) := by
  unfold push
  dsimp only
  rw [hnew, if_neg hroom]
  rfl

theorem push_of_new_full (hnew : b.queue.contains ⟨time, hash⟩ = false)
    (hfull : (b.queue.insert ⟨time, hash⟩ ()).size > b.config.maxBlocks) :
    ∃ removed, (b.queue.insert ⟨time, hash⟩ ()).entries.getLast? = some (removed, ()) ∧
      b.push time hash = (decide (removed ≠ ⟨time, hash⟩),
        { b with queue := (b.queue.insert ⟨time, hash⟩ ()).erase removed }) := by
  cases hlast : (b.queue.insert ⟨time, hash⟩ ()).entries.getLast? with
  | none =>
    have hempty : (b.queue.insert ⟨time, hash⟩ ()).size = 0 := by
      simp [size, List.getLast?_eq_none_iff.mp hlast]
    omega
  | some p =>
    obtain ⟨removed, u⟩ := p
    refine ⟨removed, rfl, ?_⟩
    have hbeq : (removed.time == time && removed.hash == hash) = decide (removed = ⟨time, hash⟩) := by
      cases removed
      simp only [BlockEntry.mk.injEq, Bool.decide_and, Bool.beq_eq_decide_eq]
    unfold push
    dsimp only
    rw [hnew, if_pos hfull, hlast]
    dsimp only
    rw [hbeq]
    simp

theorem push_spec (hsize : b.queue.size ≤ b.config.maxBlocks) (time : UInt64) (hash : BlockHash) :
    (b.push time hash).2.queue.size ≤ b.config.maxBlocks ∧
    (∀ e, (b.queue.contains e = true ∨ e = ⟨time, hash⟩) →
      (b.push time hash).2.queue.contains e = false →
      ∀ e', (b.queue.contains e' = true ∨ e' = ⟨time, hash⟩) → e' ≤ e) ∧
    ((b.push time hash).1 = true ↔ (b.push time hash).2.queue.contains ⟨time, hash⟩ = true ∧
      b.queue.contains ⟨time, hash⟩ = false) := by
  cases hc : b.queue.contains ⟨time, hash⟩ with
  | true =>
    rw [push_of_contains hc hsize]
    refine ⟨hsize, fun e he hgone => ?_, by simp [hc]⟩
    rcases he with he | rfl
    · rw [he] at hgone
      cases hgone
    · rw [hc] at hgone
      cases hgone
  | false =>
    have hnone : b.queue.find? ⟨time, hash⟩ = none := by simpa [contains] using hc
    have hlen := size_insert_of_find?_eq_none hnone ()
    have hin : ∀ e, (b.queue.insert ⟨time, hash⟩ ()).contains e = true ↔
        b.queue.contains e = true ∨ e = ⟨time, hash⟩ := by
      intro e
      rw [contains_insert]
      by_cases he : e = ⟨time, hash⟩ <;> simp [he]
    by_cases hfull : (b.queue.insert ⟨time, hash⟩ ()).size > b.config.maxBlocks
    · obtain ⟨removed, hlast, hpush⟩ := push_of_new_full hc hfull
      have hremoved : (b.queue.insert ⟨time, hash⟩ ()).find? removed = some () :=
        find?_eq_some_iff_mem.mpr (List.mem_of_getLast? hlast)
      rw [hpush]
      refine ⟨?_, fun e he hgone e' he' => ?_, ?_⟩
      · have hshrink := size_erase_of_find? hremoved
        show ((b.queue.insert ⟨time, hash⟩ ()).erase removed).size ≤ b.config.maxBlocks
        omega
      · have hgone' : ((b.queue.insert ⟨time, hash⟩ ()).erase removed).contains e = false := hgone
        rw [contains_erase] at hgone'
        split_ifs at hgone' with hrem
        · subst hrem
          obtain ⟨u, hu⟩ := Option.isSome_iff_exists.mp ((hin e').2 he')
          exact le_of_getLast? hu hlast
        · rw [(hin e).2 he] at hgone'
          cases hgone'
      · show decide (removed ≠ ⟨time, hash⟩) = true ↔
          ((b.queue.insert ⟨time, hash⟩ ()).erase removed).contains ⟨time, hash⟩ = true ∧ false = false
        rw [contains_erase]
        by_cases hrem : removed = ⟨time, hash⟩
        · simp [hrem]
        · simp [hrem, Ne.symm hrem, (hin _).2 (.inr rfl)]
    · rw [push_of_new_room hc hfull]
      refine ⟨by show (b.queue.insert ⟨time, hash⟩ ()).size ≤ b.config.maxBlocks; omega,
        fun e he hgone => ?_, ?_⟩
      · have hgone' : (b.queue.insert ⟨time, hash⟩ ()).contains e = false := hgone
        rw [(hin e).2 he] at hgone'
        cases hgone'
      · exact ⟨fun _ => ⟨(hin _).2 (.inr rfl), rfl⟩, fun _ => rfl⟩

theorem config_push (b : Bucket) (time : UInt64) (hash : BlockHash) :
    (b.push time hash).2.config = b.config := by
  unfold push
  dsimp only
  split_ifs
  · split <;> rfl
  · rfl

theorem size_foldl_push_le (blocks : List (UInt64 × BlockHash)) :
    ∀ b : Bucket, b.queue.size ≤ b.config.maxBlocks →
      (blocks.foldl (fun b block => (b.push block.1 block.2).2) b).queue.size ≤ b.config.maxBlocks := by
  induction blocks with
  | nil => exact fun _ hsize => hsize
  | cons block blocks ih =>
    intro b hsize
    have hstep := (push_spec hsize block.1 block.2).1
    rw [List.foldl_cons, ← config_push b block.1 block.2]
    exact ih _ (by rw [config_push]; exact hstep)

end Bucket

/-! ## The buckets of `create_buckets` -/

theorem minima_createBuckets (config : PriorityBucketConfig) :
    (createBuckets config).map (·.minimumBalance) = (createBuckets ⟨0⟩).map (·.minimumBalance) := by
  simp only [createBuckets, List.map_map]
  rfl

theorem length_createBuckets (config : PriorityBucketConfig) : (createBuckets config).length = 63 := by
  rw [← List.length_map (f := (·.minimumBalance)), minima_createBuckets]
  decide

/-- The minima strictly increase; the kernel checks it step by step, each step a comparison of
two 128-bit numbers. -/
theorem minima_pairwise (config : PriorityBucketConfig) :
    ((createBuckets config).map (·.minimumBalance)).Pairwise (· < ·) := by
  rw [minima_createBuckets, ← List.isChain_iff_pairwise]
  decide +kernel

theorem minima_head? (config : PriorityBucketConfig) :
    ((createBuckets config).map (·.minimumBalance)).head? = some 0 := by
  rw [minima_createBuckets]
  decide

theorem minima_last (config : PriorityBucketConfig) :
    ((createBuckets config).map (·.minimumBalance))[62]? = some ((1 : Amount) <<< 120) := by
  rw [minima_createBuckets]
  decide

theorem createBuckets_empty {config : PriorityBucketConfig} {b : Bucket} (hb : b ∈ createBuckets config) :
    b.queue = .empty ∧ b.config = config := by
  obtain ⟨_, _, rfl⟩ := List.mem_map.mp hb
  exact ⟨rfl, rfl⟩

namespace PriorityScheduler

theorem new_sorted (config : PriorityBucketConfig) :
    ((new config).buckets.map (·.minimumBalance)).Pairwise (· < ·) :=
  minima_pairwise config

theorem new_first (config : PriorityBucketConfig) :
    ∃ b, (new config).buckets[0]? = some b ∧ b.minimumBalance = 0 := by
  have hhead := minima_head? config
  rw [List.head?_eq_getElem?, List.getElem?_map, Option.map_eq_some_iff] at hhead
  exact hhead

theorem findBucket_lt_length (config : PriorityBucketConfig) (priority : Amount) :
    (new config).findBucket priority < (new config).buckets.length := by
  obtain ⟨b₀, hb₀, hzero⟩ := new_first config
  have haccept : b₀.canAccept priority = true := by
    simp [Bucket.canAccept, hzero, BitVec.le_def]
  obtain ⟨⟨b, hb, _⟩, _⟩ := findBucket_spec (new config) priority ⟨b₀, hb₀, haccept⟩
  exact (List.getElem?_eq_some_iff.mp hb).1

theorem findBucket_of_ge (config : PriorityBucketConfig) {priority : Amount}
    (hp : (1 : Amount) <<< 120 ≤ priority) : (new config).findBucket priority = 62 := by
  have hlast := minima_last config
  rw [List.getElem?_map, Option.map_eq_some_iff] at hlast
  obtain ⟨b, hb, hmin⟩ := hlast
  have hend : (new config).buckets[62 + 1]? = none :=
    List.getElem?_eq_none (by rw [show (new config).buckets = createBuckets config from rfl,
      length_createBuckets])
  refine (findBucket_iff (new config) (new_sorted config) (new_first config) priority hb).1
    ⟨by rw [hmin]; exact hp, fun b' hb' => ?_⟩
  rw [hend] at hb'
  cases hb'

end PriorityScheduler

/-- The buckets of a new scheduler partition the balances: 63 buckets, their minima strictly
increasing from zero; every priority is found in the one bucket whose range holds it, from 2^120
on the last; and a bucket's push keeps its bound, evicts only the greatest of its entries and the
new one, and says whether the entry went in to stay. -/
theorem buckets_partition_balances (config : PriorityBucketConfig) :
    (createBuckets config).length = 63 ∧
    ((createBuckets config).map (·.minimumBalance)).Pairwise (· < ·) ∧
    ((createBuckets config).map (·.minimumBalance)).head? = some 0 ∧
    (∀ p : Amount, (PriorityScheduler.new config).findBucket p < 63 ∧
      ∀ i b, (createBuckets config)[i]? = some b →
        ((b.minimumBalance ≤ p ∧
          ∀ b', (createBuckets config)[i + 1]? = some b' → p < b'.minimumBalance) ↔
        (PriorityScheduler.new config).findBucket p = i)) ∧
    (∀ p : Amount, (1 : Amount) <<< 120 ≤ p → (PriorityScheduler.new config).findBucket p = 62) ∧
    (∀ b ∈ createBuckets config, ∀ blocks : List (UInt64 × BlockHash),
      (blocks.foldl (fun b block => (b.push block.1 block.2).2) b).queue.size ≤ config.maxBlocks) ∧
    ∀ b : Bucket, b.queue.size ≤ b.config.maxBlocks → ∀ time hash,
      (b.push time hash).2.queue.size ≤ b.config.maxBlocks ∧
      (∀ e, (b.queue.contains e = true ∨ e = ⟨time, hash⟩) →
        (b.push time hash).2.queue.contains e = false →
        ∀ e', (b.queue.contains e' = true ∨ e' = ⟨time, hash⟩) → e' ≤ e) ∧
      ((b.push time hash).1 = true ↔ (b.push time hash).2.queue.contains ⟨time, hash⟩ = true ∧
        b.queue.contains ⟨time, hash⟩ = false) := by
  refine ⟨length_createBuckets config, minima_pairwise config, minima_head? config,
    fun p => ⟨?_, fun i b hb => ?_⟩, fun p hp => PriorityScheduler.findBucket_of_ge config hp,
    fun b hb blocks => ?_, fun b hsize time hash => Bucket.push_spec hsize time hash⟩
  · have hlt := PriorityScheduler.findBucket_lt_length config p
    rwa [show (PriorityScheduler.new config).buckets = createBuckets config from rfl,
      length_createBuckets] at hlt
  · exact PriorityScheduler.findBucket_iff _ (PriorityScheduler.new_sorted config)
      (PriorityScheduler.new_first config) p hb
  · obtain ⟨hqueue, hconfig⟩ := createBuckets_empty hb
    have hrun := Bucket.size_foldl_push_le blocks b (by rw [hqueue]; exact Nat.zero_le _)
    rwa [hconfig] at hrun

end RsbanNode.Consensus
