import RsbanNode.Library.FiniteMap
import RsbanNode.Core.Primitives

namespace RsbanNode.ConfirmingSet

open RsbanNode.Primitives RsbanNode.FiniteMap

variable {E : Type}

/-- A hash waiting to be cemented, with the election that confirmed it (`Arc<Election>` is kept
abstract). -/
structure Entry (E : Type) where
  hash : BlockHash
  election : Option E

/-- The queue of the confirming set: hashes in insertion order, and the entries by hash. -/
structure OrderedEntries (E : Type) where
  sequenced : List BlockHash
  byHash : Table BlockHash (Entry E)

namespace OrderedEntries

def empty : OrderedEntries E := ⟨[], ∅⟩

/-- A hash that is already queued is not inserted again. -/
def insert (s : OrderedEntries E) (entry : Entry E) : Bool × OrderedEntries E :=
  match s.byHash.lookup entry.hash with
  | some _ => (false, s)
  | none => (true, ⟨s.sequenced ++ [entry.hash], s.byHash.insert entry.hash entry⟩)

def contains (s : OrderedEntries E) (hash : BlockHash) : Bool := (s.byHash.lookup hash).isSome

def len (s : OrderedEntries E) : Nat := s.sequenced.length

def isEmpty (s : OrderedEntries E) : Bool := s.sequenced.isEmpty

def popFront (s : OrderedEntries E) : Option (Entry E) × OrderedEntries E :=
  match s.sequenced with
  | [] => (none, s)
  | hash :: rest => (s.byHash.lookup hash, ⟨rest, s.byHash.erase hash⟩)

theorem len_popFront_lt {s s' : OrderedEntries E} {entry : Entry E}
    (h : s.popFront = (some entry, s')) : s'.len < s.len := by
  unfold popFront at h
  split at h
  · cases h
  · rename_i hash rest hs
    obtain ⟨-, rfl⟩ := Prod.mk.inj h
    simp [len, hs]

def entries (s : OrderedEntries E) : List (Entry E) := s.sequenced.filterMap s.byHash.lookup

/-- The two tables agree: every queued hash once in the sequence and once in the map, under
its own hash. -/
structure WellFormed (s : OrderedEntries E) : Prop where
  nodup : s.sequenced.Nodup
  mem_iff : ∀ hash, hash ∈ s.sequenced ↔ hash ∈ s.byHash
  hash_eq : ∀ hash entry, s.byHash.lookup hash = some entry → entry.hash = hash

theorem wellFormed_empty : (empty : OrderedEntries E).WellFormed :=
  ⟨List.nodup_nil, by simp [empty], by simp [empty]⟩

section WellFormed

variable {s : OrderedEntries E} (hs : s.WellFormed)
include hs

theorem map_hash_entries : s.entries.map (·.hash) = s.sequenced := by
  have key : ∀ l : List BlockHash, (∀ hash ∈ l, hash ∈ s.byHash) →
      (l.filterMap s.byHash.lookup).map (·.hash) = l := by
    intro l hl
    induction l with
    | nil => rfl
    | cons hash rest ih =>
      obtain ⟨entry, he⟩ := AList.lookup_isSome.mpr (hl hash List.mem_cons_self) |>
        Option.isSome_iff_exists.mp
      simp [he, hs.hash_eq hash entry he, ih (fun h hm => hl h (List.mem_cons_of_mem _ hm))]
  exact key _ (fun hash hm => (hs.mem_iff hash).mp hm)

theorem contains_iff (hash : BlockHash) :
    s.contains hash = true ↔ hash ∈ s.entries.map (·.hash) := by
  rw [map_hash_entries hs, hs.mem_iff, contains, AList.lookup_isSome]

theorem entries_eq_nil_iff : s.entries = [] ↔ s.sequenced = [] := by
  rw [← map_hash_entries hs, List.map_eq_nil_iff]

theorem insert_spec (entry : Entry E) :
    (s.contains entry.hash = true → s.insert entry = (false, s)) ∧
      (s.contains entry.hash = false →
        (s.insert entry).1 = true ∧ (s.insert entry).2.WellFormed ∧
          (s.insert entry).2.entries = s.entries ++ [entry]) := by
  constructor
  · intro hc
    obtain ⟨old, ho⟩ := Option.isSome_iff_exists.mp hc
    simp [insert, ho]
  · intro hc
    have hnone : s.byHash.lookup entry.hash = none := by simpa [contains] using hc
    have hnot : entry.hash ∉ s.byHash := AList.lookup_eq_none.mp hnone
    have hseq : entry.hash ∉ s.sequenced := fun hm => hnot ((hs.mem_iff _).mp hm)
    refine ⟨by simp [insert, hnone], ⟨?_, ?_, ?_⟩, ?_⟩
    · simpa [insert, hnone, List.nodup_append] using ⟨hs.nodup, fun h hm he => hseq (he ▸ hm)⟩
    · intro hash
      simp [insert, hnone, hs.mem_iff, or_comm]
    · intro hash e he
      by_cases heq : hash = entry.hash
      · subst heq
        simp_all [insert, AList.lookup_insert]
      · simp only [insert, hnone, AList.lookup_insert_ne heq] at he
        exact hs.hash_eq hash e he
    · have hlook : ∀ h ∈ s.sequenced, (s.byHash.insert entry.hash entry).lookup h =
          s.byHash.lookup h := by
        intro h hm
        exact AList.lookup_insert_ne (fun he => hseq (he ▸ hm))
      simp [insert, hnone, entries, List.filterMap_append, List.filterMap_congr hlook,
        AList.lookup_insert]

theorem popFront_of_entries_nil (h : s.entries = []) : s.popFront = (none, s) := by
  simp [popFront, (entries_eq_nil_iff hs).mp h]

theorem popFront_of_entries_cons {entry : Entry E} {rest : List (Entry E)}
    (h : s.entries = entry :: rest) :
    ∃ s', s.popFront = (some entry, s') ∧ s'.WellFormed ∧ s'.entries = rest := by
  cases hseq : s.sequenced with
  | nil => simp [(entries_eq_nil_iff hs).mpr hseq] at h
  | cons hash tail =>
    have hnodup : hash ∉ tail ∧ tail.Nodup := by simpa [hseq] using hs.nodup
    have hmem : hash ∈ s.byHash := (hs.mem_iff hash).mp (by simp [hseq])
    obtain ⟨first, hfirst⟩ := Option.isSome_iff_exists.mp (AList.lookup_isSome.mpr hmem)
    have htail : tail.filterMap (s.byHash.erase hash).lookup = tail.filterMap s.byHash.lookup :=
      List.filterMap_congr fun h hm => AList.lookup_erase_ne (fun he => hnodup.1 (he ▸ hm))
    have hentries : s.entries = first :: tail.filterMap s.byHash.lookup := by
      simp [entries, hseq, hfirst]
    rw [hentries, List.cons.injEq] at h
    obtain ⟨rfl, rfl⟩ := h
    refine ⟨⟨tail, s.byHash.erase hash⟩, by simp [popFront, hseq, hfirst], ⟨hnodup.2, ?_, ?_⟩, htail⟩
    · intro h
      by_cases he : h = hash
      · subst he
        simp [hnodup.1]
      · simp [he, ← hs.mem_iff, hseq]
    · intro h e he
      by_cases hh : h = hash
      · subst hh
        simp at he
      · rw [AList.lookup_erase_ne hh] at he
        exact hs.hash_eq h e he

end WellFormed

end OrderedEntries

open OrderedEntries

/-- The loop of `ConfirmingSetImpl::next_batch`: pop entries until the queue is empty or the
batch is full. The entry popped when the batch is full is not put back. -/
def nextBatchLoop (maxCount : Nat) (results : List (Entry E)) (set : OrderedEntries E) :
    List (Entry E) × OrderedEntries E :=
  match _hpop : set.popFront with
  | (some entry, set') =>
    if results.length ≥ maxCount then (results, set')
    else nextBatchLoop maxCount (results ++ [entry]) set'
  | (none, set') => (results, set')
termination_by set.len
decreasing_by exact len_popFront_lt _hpop

/-- The batch is the first `maxCount - results.length` queued entries; the entry after them
is popped too, and lost. -/
theorem nextBatchLoop_spec (maxCount : Nat) (results : List (Entry E)) (set : OrderedEntries E)
    (hs : set.WellFormed) :
    (nextBatchLoop maxCount results set).1 =
        results ++ set.entries.take (maxCount - results.length) ∧
      (nextBatchLoop maxCount results set).2.WellFormed ∧
      (nextBatchLoop maxCount results set).2.entries =
        set.entries.drop (maxCount - results.length + 1) := by
  fun_induction nextBatchLoop maxCount results set with
  | case1 results set entry set' hpop hfull =>
    -- the batch is full: the popped entry is dropped
    cases hes : set.entries with
    | nil => simp [popFront_of_entries_nil hs hes] at hpop
    | cons first rest =>
      obtain ⟨s', hpop', hs', hrest⟩ := popFront_of_entries_cons hs hes
      rw [hpop] at hpop'
      obtain ⟨rfl, rfl⟩ := Prod.mk.inj hpop' |>.imp Option.some.inj id
      have hzero : maxCount - results.length = 0 := by omega
      simp [hzero, hs', hrest]
  | case2 results set entry set' hpop hroom ih =>
    cases hes : set.entries with
    | nil => simp [popFront_of_entries_nil hs hes] at hpop
    | cons first rest =>
      obtain ⟨s', hpop', hs', hrest⟩ := popFront_of_entries_cons hs hes
      rw [hpop] at hpop'
      obtain ⟨rfl, rfl⟩ := Prod.mk.inj hpop' |>.imp Option.some.inj id
      obtain ⟨hbatch, hwf, hleft⟩ := ih hs'
      have hk : maxCount - results.length = (maxCount - (results.length + 1)) + 1 := by omega
      refine ⟨?_, hwf, ?_⟩
      · simp [hbatch, hrest, hk]
      · simp [hleft, hrest, hk]
  | case3 results set set' hpop =>
    cases hes : set.entries with
    | nil =>
      rw [popFront_of_entries_nil hs hes] at hpop
      cases hpop
      simp [hs, hes]
    | cons first rest =>
      obtain ⟨s', hpop', -, -⟩ := popFront_of_entries_cons hs hes
      simp [hpop] at hpop'

/-- The state under the confirming set's mutex: the queue and the hashes being cemented. -/
structure ConfirmingSetImpl (E : Type) where
  set : OrderedEntries E
  current : Finset BlockHash

def ConfirmingSetImpl.nextBatch (self : ConfirmingSetImpl E) (maxCount : Nat) :
    List (Entry E) × ConfirmingSetImpl E :=
  let (results, set) := nextBatchLoop maxCount [] self.set
  (results, { self with set })

/-- `ConfirmingSetThread`: the guarded state, the stop flag, and the batch `run_batch` is
working on, if any. -/
structure ConfirmingSetThread (E : Type) where
  guard : ConfirmingSetImpl E
  stopped : Bool
  running : Option (List (Entry E))

namespace ConfirmingSetThread

def new : ConfirmingSetThread E := ⟨⟨OrderedEntries.empty, ∅⟩, false, none⟩

def add (t : ConfirmingSetThread E) (hash : BlockHash) (election : Option E) :
    ConfirmingSetThread E :=
  { t with guard := { t.guard with set := (t.guard.set.insert ⟨hash, election⟩).2 } }

def contains (t : ConfirmingSetThread E) (hash : BlockHash) : Bool :=
  t.guard.set.contains hash || decide (hash ∈ t.guard.current)

def len (t : ConfirmingSetThread E) : Nat := t.guard.set.len

def stop (t : ConfirmingSetThread E) : ConfirmingSetThread E := { t with stopped := true }

/-- One turn of the loop of `run` with a nonempty set: take the next batch, mark its hashes
as current and hand it to `run_batch`. -/
def startBatch (batchSize : Nat) (t : ConfirmingSetThread E) : ConfirmingSetThread E :=
  if !t.stopped && t.running.isNone && !t.guard.set.isEmpty then
    let (batch, guard) := t.guard.nextBatch batchSize
    { t with
      guard := { guard with current := batch.foldl (fun c e => insert e.hash c) guard.current }
      running := some batch }
  else t

def finishBatch (t : ConfirmingSetThread E) : ConfirmingSetThread E :=
  match t.running with
  | some _ => { t with guard := { t.guard with current := ∅ }, running := none }
  | none => t

end ConfirmingSetThread

/-- What can happen to a confirming set: an `add`, a turn of the `run` loop, the end of a
`run_batch`, or `stop`. -/
inductive Event (E : Type)
  | add (hash : BlockHash) (election : Option E)
  | startBatch
  | finishBatch
  | stop

namespace ConfirmingSetThread

def step (batchSize : Nat) (t : ConfirmingSetThread E) : Event E →
    ConfirmingSetThread E × List (Entry E)
  | .add hash election => (t.add hash election, [])
  | .startBatch =>
    let t' := t.startBatch batchSize
    (t', if t.running.isNone then t'.running.getD [] else [])
  | .finishBatch => (t.finishBatch, [])
  | .stop => (t.stop, [])

def run (batchSize : Nat) : ConfirmingSetThread E → List (Event E) →
    ConfirmingSetThread E × List (Entry E)
  | t, [] => (t, [])
  | t, event :: events =>
    let (t', handed) := t.step batchSize event
    let (t'', later) := t'.run batchSize events
    (t'', handed ++ later)

section Run

variable (batchSize : Nat)

def queued (t : ConfirmingSetThread E) : List BlockHash := t.guard.set.entries.map (·.hash)

theorem startBatch_of_ready (t : ConfirmingSetThread E) (hstopped : t.stopped = false)
    (hrunning : t.running = none) (hempty : t.guard.set.isEmpty = false) :
    t.startBatch batchSize =
      { t with
        guard := { t.guard with
          set := (nextBatchLoop batchSize [] t.guard.set).2
          current := (nextBatchLoop batchSize [] t.guard.set).1.foldl (fun c e => insert e.hash c)
            t.guard.current }
        running := some (nextBatchLoop batchSize [] t.guard.set).1 } := by
  simp [startBatch, hstopped, hrunning, hempty, ConfirmingSetImpl.nextBatch]

theorem startBatch_cases (t : ConfirmingSetThread E) :
    t.startBatch batchSize = t ∨
      (t.running = none ∧
        (t.startBatch batchSize).guard.set = (nextBatchLoop batchSize [] t.guard.set).2 ∧
        (t.startBatch batchSize).running = some (nextBatchLoop batchSize [] t.guard.set).1) := by
  unfold startBatch
  split
  · rename_i hready
    have hnone : t.running = none := by
      simpa using (Bool.and_eq_true_iff.mp (Bool.and_eq_true_iff.mp hready).1).2
    exact .inr ⟨hnone, rfl, rfl⟩
  · exact .inl rfl

@[simp] theorem finishBatch_set (t : ConfirmingSetThread E) :
    t.finishBatch.guard.set = t.guard.set := by
  unfold finishBatch
  split <;> rfl

theorem startBatch_wellFormed (t : ConfirmingSetThread E) (hs : t.guard.set.WellFormed) :
    (t.startBatch batchSize).guard.set.WellFormed := by
  rcases startBatch_cases batchSize t with heq | ⟨-, hset, -⟩
  · rwa [heq]
  · rw [hset]
    exact (nextBatchLoop_spec batchSize [] t.guard.set hs).2.1

theorem add_of_not_queued (t : ConfirmingSetThread E) (hash : BlockHash) (election : Option E)
    (hs : t.guard.set.WellFormed) (hq : hash ∉ t.queued) :
    (t.add hash election).guard.set.WellFormed ∧
      (t.add hash election).guard.set.entries = t.guard.set.entries ++ [⟨hash, election⟩] := by
  have hc : t.guard.set.contains hash = false :=
    Bool.eq_false_iff.mpr fun h => hq ((contains_iff hs hash).mp h)
  exact ((insert_spec hs ⟨hash, election⟩).2 hc).2

theorem step_wellFormed (t : ConfirmingSetThread E) (event : Event E)
    (hs : t.guard.set.WellFormed) : (t.step batchSize event).1.guard.set.WellFormed := by
  cases event with
  | add hash election =>
    by_cases hc : t.guard.set.contains hash = true
    · simpa [step, add, ((insert_spec hs ⟨hash, election⟩).1 hc)] using hs
    · exact ((insert_spec hs ⟨hash, election⟩).2 (by simpa using hc)).2.1
  | startBatch => exact startBatch_wellFormed batchSize t hs
  | finishBatch => simpa [step] using hs
  | stop => exact hs

theorem step_not_queued (t : ConfirmingSetThread E) (event : Event E) {hash : BlockHash}
    (hs : t.guard.set.WellFormed) (hq : hash ∉ t.queued)
    (hev : ∀ election, event ≠ .add hash election) :
    hash ∉ (t.step batchSize event).1.queued ∧
      hash ∉ (t.step batchSize event).2.map (·.hash) := by
  cases event with
  | add other election =>
    have hne : hash ≠ other := fun h => hev election (h ▸ rfl)
    refine ⟨?_, by simp [step]⟩
    by_cases hc : other ∈ t.queued
    · have hc' : t.guard.set.contains other = true := (contains_iff hs other).mpr hc
      simpa [step, add, queued, ((insert_spec hs ⟨other, election⟩).1 hc')] using hq
    · have hnew := (add_of_not_queued t other election hs hc).2
      simp only [queued] at hq
      simp [step, queued, hnew, hq, hne]
  | startBatch =>
    rcases startBatch_cases batchSize t with heq | ⟨hnone, hset, hrun⟩
    · refine ⟨by simpa [step, heq] using hq, ?_⟩
      cases hr : t.running <;> simp [step, heq, hr]
    · obtain ⟨hbatch, -, hleft⟩ := nextBatchLoop_spec batchSize [] t.guard.set hs
      simp only [queued] at hq
      refine ⟨?_, ?_⟩
      · simp only [step, queued, hset, hleft]
        rw [List.map_drop]
        exact fun hm => hq (List.mem_of_mem_drop hm)
      · simp only [step, hnone, hrun, hbatch, Option.isNone_none, if_true, Option.getD_some,
          List.nil_append]
        rw [List.map_take]
        exact fun hm => hq (List.mem_of_mem_take hm)
  | finishBatch => exact ⟨by simpa [step, queued] using hq, by simp [step]⟩
  | stop => exact ⟨hq, by simp [step]⟩

/-- Over any run that never adds it again, a hash that left the queue is never handed to
`run_batch`. -/
theorem run_not_handed {hash : BlockHash} (events : List (Event E)) (t : ConfirmingSetThread E)
    (hs : t.guard.set.WellFormed) (hq : hash ∉ t.queued)
    (hev : ∀ election, Event.add hash election ∉ events) :
    hash ∉ (t.run batchSize events).2.map (·.hash) := by
  induction events generalizing t with
  | nil => simp [run]
  | cons event events ih =>
    have hne : ∀ election, event ≠ .add hash election := fun election he =>
      hev election (he ▸ List.mem_cons_self)
    obtain ⟨hq', hhanded⟩ := step_not_queued batchSize t event hs hq hne
    have hrest := ih (t.step batchSize event).1 (step_wellFormed batchSize t event hs) hq'
      (fun election hm => hev election (List.mem_cons_of_mem _ hm))
    simp only [run, List.map_append, List.mem_append, not_or]
    exact ⟨hhanded, hrest⟩

end Run

theorem next_batch_loses_entry :
    ∃ t handed, (new : ConfirmingSetThread Unit).run 1
        [.add (FixedBytes.ofNat 32 1) none, .add (FixedBytes.ofNat 32 2) none,
          .add (FixedBytes.ofNat 32 3) none, .startBatch] = (t, handed) ∧
      handed.map (·.hash) = [FixedBytes.ofNat 32 1] ∧ t.queued = [FixedBytes.ofNat 32 3] ∧
      t.contains (FixedBytes.ofNat 32 2) = false ∧
      ∀ events : List (Event Unit), (∀ election, Event.add (FixedBytes.ofNat 32 2) election ∉ events) →
        FixedBytes.ofNat 32 2 ∉ (t.run 1 events).2.map (·.hash) := by
  have hs0 : (new : ConfirmingSetThread Unit).guard.set.WellFormed := wellFormed_empty
  obtain ⟨hs1, he1⟩ := add_of_not_queued new (FixedBytes.ofNat 32 1) none hs0
    (by simp [queued, new, empty, entries])
  obtain ⟨hs2, he2⟩ := add_of_not_queued _ (FixedBytes.ofNat 32 2) none hs1
    (by simp only [queued, he1]; decide)
  obtain ⟨hs3, he3⟩ := add_of_not_queued _ (FixedBytes.ofNat 32 3) none hs2
    (by simp only [queued, he2, he1]; decide)
  set t3 := (((new : ConfirmingSetThread Unit).add (FixedBytes.ofNat 32 1) none).add
    (FixedBytes.ofNat 32 2) none).add (FixedBytes.ofNat 32 3) none
  have hentries : t3.guard.set.entries = [⟨FixedBytes.ofNat 32 1, none⟩,
      ⟨FixedBytes.ofNat 32 2, none⟩, ⟨FixedBytes.ofNat 32 3, none⟩] := by
    rw [he3, he2, he1]
    rfl
  have hempty : t3.guard.set.isEmpty = false := by
    rw [OrderedEntries.isEmpty, ← map_hash_entries hs3, hentries]
    rfl
  obtain ⟨hbatch, hs4, hleft⟩ := nextBatchLoop_spec 1 [] t3.guard.set hs3
  have hadded : (new : ConfirmingSetThread Unit).run 1
      [.add (FixedBytes.ofNat 32 1) none, .add (FixedBytes.ofNat 32 2) none,
        .add (FixedBytes.ofNat 32 3) none, .startBatch] =
        (t3.startBatch 1, (nextBatchLoop 1 [] t3.guard.set).1) := by
    show (t3.startBatch 1, [] ++ ([] ++ ([] ++ ((if t3.running.isNone then
      (t3.startBatch 1).running.getD [] else []) ++ [])))) = _
    have hrunning : t3.running = none := rfl
    simp only [startBatch_of_ready 1 t3 rfl hrunning hempty, hrunning, Option.isNone_none,
      if_true, Option.getD_some, List.nil_append, List.append_nil]
  have hs4' : (t3.startBatch 1).guard.set.WellFormed := by
    rw [startBatch_of_ready 1 t3 rfl rfl hempty]
    exact hs4
  have hqueued : (t3.startBatch 1).queued = [FixedBytes.ofNat 32 3] := by
    rw [queued, startBatch_of_ready 1 t3 rfl rfl hempty]
    simp [hleft, hentries]
  refine ⟨_, _, hadded, ?_, hqueued, ?_, ?_⟩
  · simp [hbatch, hentries]
  · have hset : (t3.startBatch 1).guard.set.contains (FixedBytes.ofNat 32 2) = false :=
      Bool.eq_false_iff.mpr fun h => by
        have hm : FixedBytes.ofNat 32 2 ∈ (t3.startBatch 1).queued := (contains_iff hs4' _).mp h
        rw [hqueued] at hm
        exact absurd hm (by decide)
    have hcurrent : (t3.startBatch 1).guard.current = {FixedBytes.ofNat 32 1} := by
      rw [startBatch_of_ready 1 t3 rfl rfl hempty]
      simp [hbatch, hentries]
      rfl
    rw [contains, hset, hcurrent]
    decide
  · intro events hev
    exact run_not_handed 1 events _ hs4' (by rw [hqueued]; decide) hev

end ConfirmingSetThread

end RsbanNode.ConfirmingSet
