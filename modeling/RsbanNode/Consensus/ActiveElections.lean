import RsbanNode.Library.FiniteMap
import RsbanNode.Library.Result

namespace RsbanNode.Consensus

open RsbanNode.FiniteMap RsbanNode.Result

inductive ElectionBehavior
  | manual
  | priority
  | hinted
  | optimistic
deriving DecidableEq, Repr

/-- What the container keeps of an `Arc<Election>`: its id, root and behavior. -/
structure Election (R : Type) where
  id : Nat
  qualifiedRoot : R
  behavior : ElectionBehavior
deriving DecidableEq

variable {R : Type} [DecidableEq R]

/-- An entry of `OrderedRoots`; the erased callback is left out. -/
structure RootsEntry (R : Type) where
  root : R
  election : Election R

/-- `OrderedRoots`: the elections by qualified root, and the roots in insertion order. -/
structure OrderedRoots (R : Type) [DecidableEq R] where
  byRoot : Table R (RootsEntry R)
  sequenced : List R

namespace OrderedRoots

/-- A present root keeps its place in `sequenced`; its entry is replaced. -/
def insert (o : OrderedRoots R) (entry : RootsEntry R) : OrderedRoots R :=
  { byRoot := o.byRoot.insert entry.root entry,
    sequenced := if entry.root ∈ o.byRoot then o.sequenced else o.sequenced ++ [entry.root] }

def get (o : OrderedRoots R) (root : R) : Option (RootsEntry R) := o.byRoot.lookup root

def erase (o : OrderedRoots R) (root : R) : Option (RootsEntry R) × OrderedRoots R :=
  match o.byRoot.lookup root with
  | some entry =>
    (some entry, { byRoot := o.byRoot.erase root, sequenced := o.sequenced.filter (· != root) })
  | none => (none, o)

theorem erase_of_get {o : OrderedRoots R} {root : R} {entry : RootsEntry R}
    (h : o.get root = some entry) :
    o.erase root =
      (some entry, { byRoot := o.byRoot.erase root, sequenced := o.sequenced.filter (· != root) }) := by
  simp only [erase]
  rw [show o.byRoot.lookup root = some entry from h]

theorem erase_of_get_none {o : OrderedRoots R} {root : R} (h : o.get root = none) :
    o.erase root = (none, o) := by
  simp only [erase]
  rw [show o.byRoot.lookup root = none from h]

def clear (_ : OrderedRoots R) : OrderedRoots R := { byRoot := ∅, sequenced := [] }

def len (o : OrderedRoots R) : Nat := o.sequenced.length

def electionCount (o : OrderedRoots R) (b : ElectionBehavior) : Nat :=
  sumBy (fun _ e => if e.election.behavior = b then 1 else 0) o.byRoot

end OrderedRoots

structure ActiveElectionsState (R : Type) [DecidableEq R] where
  roots : OrderedRoots R
  stopped : Bool
  manualCount : Nat
  priorityCount : Nat
  hintedCount : Nat
  optimisticCount : Nat

namespace ActiveElectionsState

def countByBehavior (s : ActiveElectionsState R) : ElectionBehavior → Nat
  | .manual => s.manualCount
  | .priority => s.priorityCount
  | .hinted => s.hintedCount
  | .optimistic => s.optimisticCount

/-- A write through `count_by_behavior_mut`. -/
def modifyCount (s : ActiveElectionsState R) (b : ElectionBehavior) (f : Nat → Nat) :
    ActiveElectionsState R :=
  match b with
  | .manual => { s with manualCount := f s.manualCount }
  | .priority => { s with priorityCount := f s.priorityCount }
  | .hinted => { s with hintedCount := f s.hintedCount }
  | .optimistic => { s with optimisticCount := f s.optimisticCount }

@[simp] theorem roots_modifyCount (s : ActiveElectionsState R) (b : ElectionBehavior)
    (f : Nat → Nat) : (s.modifyCount b f).roots = s.roots := by
  cases b <;> rfl

@[simp] theorem stopped_modifyCount (s : ActiveElectionsState R) (b : ElectionBehavior)
    (f : Nat → Nat) : (s.modifyCount b f).stopped = s.stopped := by
  cases b <;> rfl

@[simp] theorem countByBehavior_setRoots (s : ActiveElectionsState R) (o : OrderedRoots R)
    (b : ElectionBehavior) : ({ s with roots := o } : ActiveElectionsState R).countByBehavior b =
      s.countByBehavior b := by
  cases b <;> rfl

theorem countByBehavior_modifyCount (s : ActiveElectionsState R) (b b' : ElectionBehavior)
    (f : Nat → Nat) :
    (s.modifyCount b f).countByBehavior b' =
      if b' = b then f (s.countByBehavior b) else s.countByBehavior b' := by
  cases b <;> cases b' <;> rfl

end ActiveElectionsState

structure ActiveElectionsConfig where
  size : Nat
  hintedLimitPercentage : Nat
  optimisticLimitPercentage : Nat

/-- The bookkeeping of `ActiveElections`; `nextElectionId` is the global `NEXT_ELECTION_ID`. -/
structure ActiveElections (R : Type) [DecidableEq R] where
  config : ActiveElectionsConfig
  state : ActiveElectionsState R
  nextElectionId : Nat

namespace ActiveElections

def usizeMax : Nat := 2 ^ 64 - 1

def i64Max : Int := 2 ^ 63 - 1

def limit (ae : ActiveElections R) : ElectionBehavior → Nat
  | .manual => usizeMax
  | .priority => ae.config.size
  | .hinted => ae.config.hintedLimitPercentage * ae.config.size / 100
  | .optimistic => ae.config.optimisticLimitPercentage * ae.config.size / 100

def electionVacancy (ae : ActiveElections R) : ElectionBehavior → Int
  | .manual => i64Max
  | .priority => (ae.limit .priority : Int) - ae.state.roots.len
  | .hinted => (ae.limit .hinted : Int) - ae.state.countByBehavior .hinted
  | .optimistic => (ae.limit .optimistic : Int) - ae.state.countByBehavior .optimistic

/-- `clear` empties the roots and leaves the counters as they are. -/
def clear (ae : ActiveElections R) : ActiveElections R :=
  { ae with state := { ae.state with roots := ae.state.roots.clear } }

def started (ae : ActiveElections R) (root : R) (behavior : ElectionBehavior) : Election R :=
  { id := ae.nextElectionId, qualifiedRoot := root, behavior }

def startElection (ae : ActiveElections R) (root : R) (behavior : ElectionBehavior) :
    ActiveElections R :=
  let election := ae.started root behavior
  let state := { ae.state with roots := ae.state.roots.insert { root, election } }
  { ae with state := state.modifyCount election.behavior (· + 1),
            nextElectionId := ae.nextElectionId + 1 }

/-- `insert` for a block whose qualified root is `root`; `recentlyConfirmed` is the recently
confirmed cache's `root_exists` at that moment. Returns whether an election was started and the
election now in charge of the root. -/
def insert (ae : ActiveElections R) (root : R) (behavior : ElectionBehavior)
    (recentlyConfirmed : R → Bool) : (Bool × Option (Election R)) × ActiveElections R :=
  if ae.state.stopped then ((false, none), ae)
  else
    match ae.state.roots.get root with
    | some existing => ((false, some existing.election), ae)
    | none =>
      if !recentlyConfirmed root then ((true, some (ae.started root behavior)), ae.startElection root behavior)
      else ((false, none), ae)

def electionNotFound : String := "election not found"

def cleanupElection (ae : ActiveElections R) (election : Election R) :
    Except String (ActiveElections R) :=
  let state := ae.state.modifyCount election.behavior (· - 1)
  match state.roots.erase election.qualifiedRoot with
  | (some _, roots) => .ok { ae with state := { state with roots } }
  | (none, _) => .error electionNotFound

def erase (ae : ActiveElections R) (root : R) : Except String (Bool × ActiveElections R) :=
  match ae.state.roots.get root with
  | some entry => do
    let ae ← ae.cleanupElection entry.election
    pure (true, ae)
  | none => pure (false, ae)

/-! ## The bookkeeping invariant -/

/-- The two indexes of the roots agree, and each counter counts the elections of its behavior. -/
structure Consistent (ae : ActiveElections R) : Prop where
  sequenced_nodup : ae.state.roots.sequenced.Nodup
  mem_sequenced : ∀ r, r ∈ ae.state.roots.sequenced ↔ r ∈ ae.state.roots.byRoot
  entry_root : ∀ r e, ae.state.roots.get r = some e → e.root = r ∧ e.election.qualifiedRoot = r
  count_eq : ∀ b, ae.state.countByBehavior b = ae.state.roots.electionCount b

theorem electionCount_insert_new {o : OrderedRoots R} {entry : RootsEntry R}
    (h : entry.root ∉ o.byRoot) (b : ElectionBehavior) :
    (o.insert entry).electionCount b =
      o.electionCount b + if entry.election.behavior = b then 1 else 0 := by
  have := sumBy_insert_eq (fun _ e => if e.election.behavior = b then 1 else 0) o.byRoot
    entry.root entry
  rw [weightAt_of_not_mem _ h] at this
  simp only [OrderedRoots.electionCount, OrderedRoots.insert]
  omega

theorem electionCount_erase {o : OrderedRoots R} {root : R} {entry : RootsEntry R}
    (h : o.get root = some entry) (b : ElectionBehavior) :
    (o.erase root).2.electionCount b + (if entry.election.behavior = b then 1 else 0) =
      o.electionCount b := by
  have := sumBy_erase_eq (fun _ e => if e.election.behavior = b then 1 else 0) o.byRoot root
  rw [weightAt_of_lookup _ h] at this
  rw [OrderedRoots.erase_of_get h]
  exact this

/-! ### insert -/

section insert

variable (ae : ActiveElections R) (root : R) (behavior : ElectionBehavior)
  (recentlyConfirmed : R → Bool)

theorem insert_of_new (hstopped : ae.state.stopped = false) (hget : ae.state.roots.get root = none)
    (hrecent : recentlyConfirmed root = false) :
    ae.insert root behavior recentlyConfirmed =
      ((true, some (ae.started root behavior)), ae.startElection root behavior) := by
  simp only [insert, hstopped, hget, hrecent]
  rfl

theorem insert_cases :
    (ae.state.stopped = false ∧ ae.state.roots.get root = none ∧ recentlyConfirmed root = false ∧
      ae.insert root behavior recentlyConfirmed =
        ((true, some (ae.started root behavior)), ae.startElection root behavior)) ∨
    (ae.insert root behavior recentlyConfirmed).2 = ae ∧
      (ae.insert root behavior recentlyConfirmed).1.1 = false := by
  by_cases hstopped : ae.state.stopped = true
  · right
    simp [insert, hstopped]
  · rw [Bool.not_eq_true] at hstopped
    cases hget : ae.state.roots.get root with
    | none =>
      by_cases hrecent : recentlyConfirmed root = true
      · right
        simp [insert, hstopped, hget, hrecent]
      · rw [Bool.not_eq_true] at hrecent
        exact .inl ⟨hstopped, rfl, hrecent,
          insert_of_new ae root behavior recentlyConfirmed hstopped hget hrecent⟩
    | some existing =>
      right
      simp [insert, hstopped, hget]

theorem insert_started_iff :
    (ae.insert root behavior recentlyConfirmed).1.1 = true ↔
      ae.state.stopped = false ∧ ae.state.roots.get root = none ∧ recentlyConfirmed root = false := by
  rcases insert_cases ae root behavior recentlyConfirmed with ⟨hs, hg, hr, heq⟩ | ⟨-, hfalse⟩
  · simp [heq, hs, hg, hr]
  · rw [hfalse]
    constructor
    · intro h
      cases h
    · rintro ⟨hs, hg, hr⟩
      rw [insert_of_new ae root behavior recentlyConfirmed hs hg hr] at hfalse
      cases hfalse

theorem insert_of_existing {entry : RootsEntry R} (hstopped : ae.state.stopped = false)
    (hget : ae.state.roots.get root = some entry) :
    ae.insert root behavior recentlyConfirmed = ((false, some entry.election), ae) := by
  simp only [insert, hstopped, hget]
  rfl

variable {ae}

theorem insert_consistent (hae : ae.Consistent) :
    (ae.insert root behavior recentlyConfirmed).2.Consistent := by
  rcases insert_cases ae root behavior recentlyConfirmed with ⟨-, hget, -, heq⟩ | ⟨hsame, -⟩
  · rw [heq]
    simp only [startElection]
    have hnot : root ∉ ae.state.roots.byRoot := AList.lookup_eq_none.mp hget
    have hseq : root ∉ ae.state.roots.sequenced := fun h => hnot ((hae.mem_sequenced root).mp h)
    refine ⟨?_, fun r => ?_, fun r e he => ?_, fun b => ?_⟩
    · simp only [ActiveElectionsState.roots_modifyCount, OrderedRoots.insert, if_neg hnot]
      exact hae.sequenced_nodup.append (List.nodup_singleton root) (by simpa using hseq)
    · simp only [ActiveElectionsState.roots_modifyCount, OrderedRoots.insert, if_neg hnot,
        List.mem_append, List.mem_singleton, AList.mem_insert, hae.mem_sequenced r]
      exact or_comm
    · simp only [ActiveElectionsState.roots_modifyCount, OrderedRoots.get,
        OrderedRoots.insert] at he
      by_cases hr : r = root
      · subst hr
        rw [AList.lookup_insert, Option.some.injEq] at he
        subst he
        exact ⟨rfl, rfl⟩
      · rw [AList.lookup_insert_ne hr] at he
        exact hae.entry_root r e he
    · rw [ActiveElectionsState.countByBehavior_modifyCount, ActiveElectionsState.roots_modifyCount,
        electionCount_insert_new hnot]
      simp only [started]
      by_cases hb : b = behavior
      · subst hb
        simp [hae.count_eq]
      · simp [hb, Ne.symm hb, hae.count_eq]
  · rw [hsame]
    exact hae

end insert

/-! ### erase -/

section erase

variable {ae : ActiveElections R}

theorem count_pos_of_get (hae : ae.Consistent) {root : R} {entry : RootsEntry R}
    (hget : ae.state.roots.get root = some entry) :
    0 < ae.state.countByBehavior entry.election.behavior := by
  have := electionCount_erase hget entry.election.behavior
  rw [hae.count_eq]
  rw [if_pos rfl] at this
  omega

theorem erase_of_get (hae : ae.Consistent) {root : R} {entry : RootsEntry R}
    (hget : ae.state.roots.get root = some entry) :
    ae.erase root = .ok (true,
      { ae with state := { ae.state.modifyCount entry.election.behavior (· - 1) with
                           roots := (ae.state.roots.erase root).2 } }) := by
  have hroot := (hae.entry_root root entry hget).2
  simp only [erase, hget, cleanupElection, hroot]
  rw [ActiveElectionsState.roots_modifyCount, OrderedRoots.erase_of_get hget]
  rfl

theorem erase_of_get_none {root : R} (hget : ae.state.roots.get root = none) :
    ae.erase root = .ok (false, ae) := by
  simp only [erase, hget]
  rfl

/-- Under the invariant `erase` never reaches the `expect("election not found")`. -/
theorem erase_ok (hae : ae.Consistent) (root : R) : ∃ res, ae.erase root = .ok res := by
  cases hget : ae.state.roots.get root with
  | none => exact ⟨_, erase_of_get_none hget⟩
  | some entry => exact ⟨_, erase_of_get hae hget⟩

theorem erase_consistent (hae : ae.Consistent) {root : R} {res : Bool}
    {ae' : ActiveElections R} (h : ae.erase root = .ok (res, ae')) : ae'.Consistent := by
  cases hget : ae.state.roots.get root with
  | none =>
    rw [erase_of_get_none hget, Except.ok.injEq, Prod.mk.injEq] at h
    exact h.2 ▸ hae
  | some entry =>
    rw [erase_of_get hae hget, Except.ok.injEq, Prod.mk.injEq] at h
    obtain ⟨-, rfl⟩ := h
    have hcount := electionCount_erase hget
    have hpos := count_pos_of_get hae hget
    refine ⟨?_, fun r => ?_, fun r e he => ?_, fun b => ?_⟩
    · simp only [OrderedRoots.erase_of_get hget]
      exact hae.sequenced_nodup.filter _
    · simp only [OrderedRoots.erase_of_get hget, List.mem_filter, AList.mem_erase,
        hae.mem_sequenced r, bne_iff_ne, ne_eq]
      exact and_comm
    · simp only [OrderedRoots.erase_of_get hget, OrderedRoots.get] at he
      by_cases hr : r = root
      · subst hr
        rw [AList.lookup_erase] at he
        cases he
      · rw [AList.lookup_erase_ne hr] at he
        exact hae.entry_root r e he
    · have hb := hcount b
      have hcb := hae.count_eq b
      show (ae.state.modifyCount entry.election.behavior (· - 1)).countByBehavior b =
        (ae.state.roots.erase root).2.electionCount b
      rw [ActiveElectionsState.countByBehavior_modifyCount]
      by_cases hbeq : b = entry.election.behavior
      · subst hbeq
        rw [if_pos rfl] at hb ⊢
        omega
      · rw [if_neg hbeq] at ⊢
        rw [if_neg (Ne.symm hbeq)] at hb
        omega

end erase

theorem electionVacancy_eq {ae : ActiveElections R} (hae : ae.Consistent) :
    ae.electionVacancy .hinted = (ae.limit .hinted : Int) - ae.state.roots.electionCount .hinted ∧
      ae.electionVacancy .optimistic =
        (ae.limit .optimistic : Int) - ae.state.roots.electionCount .optimistic := by
  simp [electionVacancy, hae.count_eq]

/-! ### Runs -/

/-- One bookkeeping call: an insert for some root and behavior, with the recently confirmed
cache as it is then, or an erase (also the request loop's cleanup of a finished election). -/
inductive Step : ActiveElections R → ActiveElections R → Prop
  | insert (ae : ActiveElections R) (root : R) (behavior : ElectionBehavior)
      (recentlyConfirmed : R → Bool) : Step ae (ae.insert root behavior recentlyConfirmed).2
  | erase {ae ae' : ActiveElections R} {root : R} {res : Bool} :
      ae.erase root = .ok (res, ae') → Step ae ae'

theorem step_consistent {ae ae' : ActiveElections R} (h : Step ae ae') (hae : ae.Consistent) :
    ae'.Consistent := by
  cases h with
  | insert root behavior recentlyConfirmed => exact insert_consistent root behavior recentlyConfirmed hae
  | erase h => exact erase_consistent hae h

/-- Over any run of inserts and erases, `by_root` and `sequenced` hold the same roots without
duplicates and each counter equals the number of elections of its behavior. -/
theorem run_consistent {ae ae' : ActiveElections R} (h : Relation.ReflTransGen Step ae ae')
    (hae : ae.Consistent) : ae'.Consistent := by
  induction h with
  | refl => exact hae
  | tail _ step ih => exact step_consistent step ih

/-- `clear` empties the roots but keeps every per-behavior counter, so elections it dropped still
count against the hinted and optimistic vacancies. -/
theorem clear_keeps_counts (ae : ActiveElections R) (b : ElectionBehavior) :
    ae.clear.state.roots.electionCount b = 0 ∧
      ae.clear.state.countByBehavior b = ae.state.countByBehavior b ∧
      ae.clear.electionVacancy .hinted = ae.electionVacancy .hinted ∧
      ae.clear.electionVacancy .optimistic = ae.electionVacancy .optimistic := by
  refine ⟨?_, ?_, ?_, ?_⟩
  · rfl
  · cases b <;> rfl
  · rfl
  · rfl

example :
    let ae : ActiveElections Nat := ⟨⟨100, 20, 10⟩, ⟨⟨∅, []⟩, false, 0, 0, 0, 0⟩, 1⟩
    ((ae.insert 7 .hinted (fun _ => false)).2.clear).electionVacancy .hinted = 19 := rfl

end ActiveElections

end RsbanNode.Consensus
