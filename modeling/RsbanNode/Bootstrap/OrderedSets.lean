import RsbanNode.Core.Primitives
import RsbanNode.Library.Buckets

namespace RsbanNode.Bootstrap

open RsbanNode.Primitives RsbanNode.OrderedMap OrdMap

/-- `Priority` wraps an `OrderedFloat<f64>`; the model computes with exact rationals. -/
abbrev Priority := ℚ

/-- `PriorityKeyDesc`: the priority indexes run from the highest priority down. -/
abbrev PriorityKeyDesc := OrderDual Priority

/-- `Timestamp` wraps milliseconds in an `i64`. -/
abbrev Timestamp := Int

structure PriorityEntry where
  account : Account
  priority : Priority
  timestamp : Option Timestamp

namespace PriorityEntry

def new (account : Account) (priority : Priority) : PriorityEntry := ⟨account, priority, none⟩

/-- `#[derive(Default)]`; read only where an `unwrap` cannot fail. -/
instance : Inhabited PriorityEntry := ⟨new (FixedBytes.zero 32) 0⟩

end PriorityEntry

/-- `OrderedPriorities`: the entries by account, the accounts in insertion order, and the
accounts by descending priority. -/
structure OrderedPriorities where
  byAccount : OrdMap Account PriorityEntry
  sequenced : List Account
  byPriority : OrdMap PriorityKeyDesc (List Account)

inductive ChangePriorityResult
  | updated
  | deleted
  | notFound
deriving DecidableEq, Repr

namespace OrderedPriorities

def empty : OrderedPriorities := ⟨.empty, [], .empty⟩

def len (o : OrderedPriorities) : Nat := o.sequenced.length

def isEmpty (o : OrderedPriorities) : Bool := o.sequenced.isEmpty

def get (o : OrderedPriorities) (account : Account) : Option PriorityEntry :=
  o.byAccount.find? account

def contains (o : OrderedPriorities) (account : Account) : Bool := o.byAccount.contains account

def insert (o : OrderedPriorities) (entry : PriorityEntry) : Bool × OrderedPriorities :=
  if o.byAccount.contains entry.account then (false, o)
  else
    (true, { byAccount := o.byAccount.insert entry.account entry,
             sequenced := o.sequenced ++ [entry.account],
             byPriority := o.byPriority.pushBucket (OrderDual.toDual entry.priority) entry.account })

/-- `remove_account`; the `unwrap` of the removed entry reads a missing one as the default. -/
def removeAccount (o : OrderedPriorities) (account : Account) :
    PriorityEntry × OrderedPriorities :=
  let entry := (o.byAccount.find? account).getD default
  (entry, { byAccount := o.byAccount.erase account,
            sequenced := o.sequenced.filter (· != account),
            byPriority := o.byPriority.removeBucket (OrderDual.toDual entry.priority) account })

def popFront (o : OrderedPriorities) : Option PriorityEntry × OrderedPriorities :=
  match o.sequenced with
  | [] => (none, o)
  | account :: rest =>
    let (entry, o') := removeAccount { o with sequenced := rest } account
    (some entry, o')

def changeTimestamp (o : OrderedPriorities) (account : Account) (timestamp : Option Timestamp) :
    OrderedPriorities :=
  match o.byAccount.find? account with
  | some entry => { o with byAccount := o.byAccount.insert account { entry with timestamp := timestamp } }
  | none => o

def changePriorityInternal (o : OrderedPriorities) (account : Account) (oldPrio newPrio : Priority) :
    OrderedPriorities :=
  let byPriority := o.byPriority.removeBucket (OrderDual.toDual oldPrio) account
  { o with byPriority := byPriority.pushBucket (OrderDual.toDual newPrio) account }

def changePriority (o : OrderedPriorities) (account : Account) (f : Priority → Option Priority) :
    ChangePriorityResult × OrderedPriorities :=
  match o.byAccount.find? account with
  | none => (.notFound, o)
  | some entry =>
    match f entry.priority with
    | some newPrio =>
      let o' := { o with byAccount := o.byAccount.insert account { entry with priority := newPrio } }
      (.updated, if newPrio ≠ entry.priority then o'.changePriorityInternal account entry.priority newPrio
        else o')
    | none => (.deleted, (o.removeAccount account).2)

def remove (o : OrderedPriorities) (account : Account) : Option PriorityEntry × OrderedPriorities :=
  match o.byAccount.find? account with
  | some entry =>
    (some entry, { byAccount := o.byAccount.erase account,
                   sequenced := o.sequenced.filter (· != account),
                   byPriority := o.byPriority.removeBucket (OrderDual.toDual entry.priority) account })
  | none => (none, o)

/-- `next_priority`: the first account by descending priority, outside its cooldown, that the
filter accepts. -/
def nextPriority (o : OrderedPriorities) (cutoff : Timestamp) (filter : Account → Bool) :
    Option Account :=
  (((o.byPriority.entries.flatMap (·.2)).map (fun account => (o.byAccount.find? account).getD default)).find?
    (fun entry =>
      (match entry.timestamp with
       | some ts => !decide (ts > cutoff)
       | none => true) && filter entry.account)).map (·.account)

/-- Where `by_priority` files an account: under the priority of its entry. -/
def priorityKey (o : OrderedPriorities) (account : Account) : Option PriorityKeyDesc :=
  (o.get account).map (fun e => OrderDual.toDual e.priority)

structure Consistent (o : OrderedPriorities) : Prop where
  sequenced : o.byAccount.Sequenced o.sequenced
  account_eq : ∀ a e, o.get a = some e → e.account = a
  byPriority_indexes : o.byPriority.Indexes o.priorityKey

theorem empty_consistent : empty.Consistent where
  sequenced := sequenced_empty
  account_eq a e h := by simp [get, empty] at h
  byPriority_indexes := indexes_empty

variable {o : OrderedPriorities} {a b : Account} {e : PriorityEntry}

theorem contains_iff_get : o.contains a = true ↔ ∃ e, o.get a = some e := by
  simp [contains, OrdMap.contains, get, Option.isSome_iff_exists]

theorem contains_eq_false_iff : o.contains a = false ↔ o.get a = none := by
  simp [contains, OrdMap.contains, get]

theorem insert_of_contains (h : o.contains e.account = true) : o.insert e = (false, o) := by
  simp [insert, show o.byAccount.contains e.account = true from h]

theorem insert_of_not_contains (h : o.contains e.account = false) :
    o.insert e = (true, ⟨o.byAccount.insert e.account e, o.sequenced ++ [e.account],
      o.byPriority.pushBucket (OrderDual.toDual e.priority) e.account⟩) := by
  simp [insert, show o.byAccount.contains e.account = false from h]

theorem get_insert (h : o.contains e.account = false) (b : Account) :
    (o.insert e).2.get b = if b = e.account then some e else o.get b := by
  rw [insert_of_not_contains h]
  simp [get]

theorem insert_consistent (hc : o.Consistent) (e : PriorityEntry) : (o.insert e).2.Consistent := by
  cases hk : o.contains e.account
  · rw [insert_of_not_contains hk]
    refine ⟨hc.sequenced.insert_new hk e, fun a e' h => ?_, ?_⟩
    · simp only [get, find?_insert] at h
      split_ifs at h with ha
      · rw [← Option.some.inj h, ha]
      · exact hc.account_eq a e' h
    · apply indexes_pushBucket hc.byPriority_indexes
      · simpa [priorityKey, contains, OrdMap.contains, get] using hk
      · simp [priorityKey, get]
      · intro j hj
        simp [priorityKey, get, hj]
  · rw [insert_of_contains hk]
    exact hc

theorem len_insert_le (o : OrderedPriorities) (e : PriorityEntry) : (o.insert e).2.len ≤ o.len + 1 := by
  cases hk : o.contains e.account
  · simp [insert_of_not_contains hk, len]
  · simp [insert_of_contains hk]

theorem remove_of_get (h : o.get a = some e) :
    o.remove a = (some e, ⟨o.byAccount.erase a, o.sequenced.filter (· != a),
      o.byPriority.removeBucket (OrderDual.toDual e.priority) a⟩) := by
  simp only [remove]
  rw [show o.byAccount.find? a = some e from h]

theorem remove_of_get_none (h : o.get a = none) : o.remove a = (none, o) := by
  simp only [remove]
  rw [show o.byAccount.find? a = none from h]

theorem fst_remove (o : OrderedPriorities) (a : Account) : (o.remove a).1 = o.get a := by
  cases h : o.get a with
  | none => rw [remove_of_get_none h]
  | some e => rw [remove_of_get h]

theorem get_remove (o : OrderedPriorities) (a b : Account) :
    (o.remove a).2.get b = if b = a then none else o.get b := by
  cases h : o.get a with
  | none =>
    rw [remove_of_get_none h]
    split_ifs with hb
    · rw [hb, h]
    · rfl
  | some e =>
    rw [remove_of_get h]
    simp [get, find?_erase]

theorem remove_consistent (hc : o.Consistent) (a : Account) : (o.remove a).2.Consistent := by
  cases h : o.get a with
  | none => rwa [remove_of_get_none h]
  | some e =>
    rw [remove_of_get h]
    refine ⟨hc.sequenced.erase a, fun b e' hb => ?_, ?_⟩
    · simp only [get, find?_erase] at hb
      split_ifs at hb
      exact hc.account_eq b e' hb
    · apply indexes_removeBucket hc.byPriority_indexes
      · simp [priorityKey, h]
      · simp [priorityKey, get]
      · intro j hj
        simp [priorityKey, get, find?_erase, hj]

theorem len_remove_le (o : OrderedPriorities) (a : Account) : (o.remove a).2.len ≤ o.len := by
  cases h : o.get a with
  | none => rw [remove_of_get_none h]
  | some e =>
    rw [remove_of_get h]
    exact List.length_filter_le _ _

theorem popFront_eq_remove (hc : o.Consistent) {rest : List Account} (hs : o.sequenced = a :: rest) :
    o.popFront = o.remove a := by
  have hmem : o.contains a = true := (hc.sequenced.mem_iff a).1 (by simp [hs])
  obtain ⟨e, he⟩ := contains_iff_get.1 hmem
  have hrest : rest.filter (· != a) = (a :: rest).filter (· != a) := by
    simp
  simp only [popFront, hs, removeAccount, remove_of_get he]
  rw [show o.byAccount.find? a = some e from he, hrest]
  rfl

theorem len_popFront_lt (o : OrderedPriorities) (h : 0 < o.len) : o.popFront.2.len < o.len := by
  unfold popFront len at *
  cases hs : o.sequenced with
  | nil => simp [hs] at h
  | cons a rest =>
    have hle := List.length_filter_le (· != a) rest
    simp [removeAccount]
    omega

theorem popFront_consistent (hc : o.Consistent) : o.popFront.2.Consistent := by
  cases hs : o.sequenced with
  | nil => simpa [popFront, hs] using hc
  | cons a rest =>
    rw [popFront_eq_remove hc hs]
    exact remove_consistent hc a

theorem get_popFront (hc : o.Consistent) (h : o.popFront.2.get b = some e) : o.get b = some e := by
  cases hs : o.sequenced with
  | nil => simpa [popFront, hs] using h
  | cons a rest =>
    rw [popFront_eq_remove hc hs, get_remove] at h
    split_ifs at h
    exact h

theorem get_changeTimestamp (o : OrderedPriorities) (a : Account) (ts : Option Timestamp)
    (b : Account) :
    (o.changeTimestamp a ts).get b =
      if b = a then (o.get a).map (fun e => { e with timestamp := ts }) else o.get b := by
  unfold changeTimestamp
  cases h : o.byAccount.find? a with
  | none =>
    split_ifs with hb
    · simp [get, hb, h]
    · rfl
  | some e =>
    split_ifs with hb
    · simp [get, hb, h]
    · simp [get, hb]

theorem changeTimestamp_consistent (hc : o.Consistent) (a : Account) (ts : Option Timestamp) :
    (o.changeTimestamp a ts).Consistent := by
  unfold changeTimestamp
  cases h : o.byAccount.find? a with
  | none => exact hc
  | some e =>
    have hget : o.get a = some e := h
    refine ⟨hc.sequenced.insert_of_contains (by simp [OrdMap.contains, h]) _, fun b e' hb => ?_, ?_⟩
    · simp only [get, find?_insert] at hb
      split_ifs at hb with hba
      · rw [← Option.some.inj hb, hba]
        exact hc.account_eq a e hget
      · exact hc.account_eq b e' hb
    · have hkey : priorityKey { o with byAccount := o.byAccount.insert a { e with timestamp := ts } } =
          o.priorityKey := by
        funext b
        by_cases hba : b = a
        · simp [priorityKey, get, hba, h]
        · simp [priorityKey, get, hba]
      rw [hkey]
      exact hc.byPriority_indexes

theorem len_changeTimestamp (o : OrderedPriorities) (a : Account) (ts : Option Timestamp) :
    (o.changeTimestamp a ts).len = o.len := by
  unfold changeTimestamp
  cases o.byAccount.find? a <;> rfl

theorem contains_changeTimestamp (o : OrderedPriorities) (a : Account) (ts : Option Timestamp)
    (b : Account) : (o.changeTimestamp a ts).contains b = o.contains b := by
  simp only [contains, OrdMap.contains]
  change ((o.changeTimestamp a ts).get b).isSome = (o.get b).isSome
  rw [get_changeTimestamp]
  split_ifs with hb
  · subst hb
    cases o.get b <;> rfl
  · rfl

theorem changePriority_cases {f : Priority → Option Priority} {r : ChangePriorityResult}
    {o' : OrderedPriorities} (h : o.changePriority a f = (r, o')) :
    (o.get a = none ∧ r = .notFound ∧ o' = o) ∨
    (∃ e p, o.get a = some e ∧ f e.priority = some p ∧ r = .updated ∧
      o'.byAccount = o.byAccount.insert a { e with priority := p } ∧ o'.sequenced = o.sequenced ∧
      o'.byPriority = if p ≠ e.priority then
        (o.byPriority.removeBucket (OrderDual.toDual e.priority) a).pushBucket (OrderDual.toDual p) a
        else o.byPriority) ∨
    (∃ e, o.get a = some e ∧ f e.priority = none ∧ r = .deleted ∧ o' = (o.remove a).2) := by
  unfold changePriority at h
  cases hget : o.byAccount.find? a with
  | none =>
    rw [hget] at h
    cases h
    exact .inl ⟨hget, rfl, rfl⟩
  | some e =>
    cases hf : f e.priority with
    | none =>
      simp only [hget, hf] at h
      cases h
      refine .inr (.inr ⟨e, hget, hf, rfl, ?_⟩)
      simp [removeAccount, remove, hget]
    | some p =>
      simp only [hget, hf] at h
      cases h
      refine .inr (.inl ⟨e, p, hget, hf, rfl, ?_⟩)
      by_cases hp : p ≠ e.priority
      · simp [hp, changePriorityInternal]
      · simp [hp]

theorem len_changePriority_le (o : OrderedPriorities) (a : Account) (f : Priority → Option Priority) :
    (o.changePriority a f).2.len ≤ o.len := by
  rcases changePriority_cases (Prod.mk.eta (p := o.changePriority a f)).symm with
    ⟨-, -, ho⟩ | ⟨e, p, -, -, -, -, hseq, -⟩ | ⟨e, -, -, -, ho⟩
  · rw [ho]
  · simp only [len, hseq, le_refl]
  · rw [ho]
    exact len_remove_le o a

theorem changePriority_consistent (hc : o.Consistent) (a : Account) (f : Priority → Option Priority) :
    (o.changePriority a f).2.Consistent := by
  rcases changePriority_cases (Prod.mk.eta (p := o.changePriority a f)).symm with
    ⟨-, -, ho⟩ | ⟨e, p, hget, -, -, hby, hseq, hprio⟩ | ⟨e, hget, -, -, ho⟩
  · rw [ho]
    exact hc
  · have hkey : ∀ j, j ≠ a → (o.changePriority a f).2.priorityKey j = o.priorityKey j := by
      intro j hj
      simp [priorityKey, get, hby, hj]
    have hka : (o.changePriority a f).2.priorityKey a = some (OrderDual.toDual p) := by
      simp [priorityKey, get, hby]
    refine ⟨?_, fun b e' hb => ?_, ?_⟩
    · rw [hby, hseq]
      exact hc.sequenced.insert_of_contains (by simp [OrdMap.contains, show o.byAccount.find? a = some e from hget]) _
    · simp only [get, hby, find?_insert] at hb
      split_ifs at hb with hba
      · rw [← Option.some.inj hb, hba]
        exact hc.account_eq a e hget
      · exact hc.account_eq b e' hb
    · rw [hprio]
      split_ifs with hp
      · exact indexes_moveBucket hc.byPriority_indexes (by simp [priorityKey, hget]) hka hkey
      · have hsame : (o.changePriority a f).2.priorityKey = o.priorityKey := by
          funext j
          by_cases hj : j = a
          · subst hj
            rw [hka, not_not.mp hp]
            simp [priorityKey, hget]
          · exact hkey j hj
        rw [hsame]
        exact hc.byPriority_indexes
  · rw [ho]
    exact remove_consistent hc a

theorem sequenced_remove_sublist (o : OrderedPriorities) (a : Account) :
    (o.remove a).2.sequenced.Sublist o.sequenced := by
  cases h : o.get a with
  | none => rw [remove_of_get_none h]
  | some e =>
    rw [remove_of_get h]
    exact List.filter_sublist

/-! ### Runs, the `unwrap`s and `next_priority` -/

inductive Call where
  | insert (entry : PriorityEntry)
  | remove (account : Account)
  | popFront
  | changePriority (account : Account) (f : Priority → Option Priority)
  | changeTimestamp (account : Account) (timestamp : Option Timestamp)

def Call.apply : Call → OrderedPriorities → OrderedPriorities
  | .insert entry, o => (o.insert entry).2
  | .remove account, o => (o.remove account).2
  | .popFront, o => o.popFront.2
  | .changePriority account f, o => (o.changePriority account f).2
  | .changeTimestamp account timestamp, o => o.changeTimestamp account timestamp

def Call.inserted? : Call → Option Account
  | .insert entry => some entry.account
  | _ => none

def run (o : OrderedPriorities) (calls : List Call) : OrderedPriorities :=
  calls.foldl (fun o call => call.apply o) o

theorem Call.apply_consistent (hc : o.Consistent) : ∀ call : Call, (call.apply o).Consistent
  | .insert entry => insert_consistent hc entry
  | .remove account => remove_consistent hc account
  | .popFront => popFront_consistent hc
  | .changePriority account f => changePriority_consistent hc account f
  | .changeTimestamp account timestamp => changeTimestamp_consistent hc account timestamp

theorem Call.sequenced_sublist (o : OrderedPriorities) :
    ∀ call : Call, (call.apply o).sequenced.Sublist (o.sequenced ++ call.inserted?.toList)
  | .insert entry => by
    cases hk : o.contains entry.account
    · simp [Call.apply, Call.inserted?, insert_of_not_contains hk]
    · simp [Call.apply, Call.inserted?, insert_of_contains hk]
  | .remove account => by
    simpa [Call.apply, Call.inserted?] using sequenced_remove_sublist o account
  | .popFront => by
    cases hs : o.sequenced with
    | nil => simp [Call.apply, Call.inserted?, OrderedPriorities.popFront, hs]
    | cons a rest =>
      simp only [Call.apply, Call.inserted?, OrderedPriorities.popFront, hs, removeAccount,
        Option.toList_none, List.append_nil]
      exact List.filter_sublist.trans (List.sublist_cons_self a rest)
  | .changePriority account f => by
    rcases changePriority_cases (Prod.mk.eta (p := o.changePriority account f)).symm with
      ⟨-, -, ho⟩ | ⟨e, p, -, -, -, -, hseq, -⟩ | ⟨e, -, -, -, ho⟩
    · simp [Call.apply, Call.inserted?, ho]
    · simp [Call.apply, Call.inserted?, hseq]
    · simpa [Call.apply, Call.inserted?, ho] using sequenced_remove_sublist o account
  | .changeTimestamp account timestamp => by
    unfold Call.apply OrderedPriorities.changeTimestamp
    cases h : o.byAccount.find? account <;> simp [Call.inserted?, h]

theorem run_spec (hc : o.Consistent) (calls : List Call) :
    (o.run calls).Consistent ∧
      (o.run calls).sequenced.Sublist (o.sequenced ++ calls.filterMap Call.inserted?) := by
  induction calls generalizing o with
  | nil => simpa [run] using hc
  | cons call calls ih =>
    obtain ⟨hc', hsub⟩ := ih (Call.apply_consistent hc call)
    refine ⟨hc', hsub.trans ?_⟩
    have hfirst := (Call.sequenced_sublist o call).append_right (calls.filterMap Call.inserted?)
    cases hcall : call.inserted? <;> simpa [hcall, List.filterMap_cons] using hfirst

/-- Every account of `sequenced` or of a `by_priority` bucket is stored, and every stored entry's
priority has its bucket: the `unwrap`s of `remove_account`, `remove_priority` and
`next_priority` never fail. -/
theorem Consistent.find?_of_mem_sequenced (hc : o.Consistent) (h : a ∈ o.sequenced) :
    (o.byAccount.find? a).isSome :=
  (hc.sequenced.mem_iff a).mp h

theorem Consistent.find?_of_mem_byPriority (hc : o.Consistent)
    (h : a ∈ o.byPriority.entries.flatMap (·.2)) : (o.byAccount.find? a).isSome := by
  have hkey := (mem_flatMap_iff hc.byPriority_indexes).mp h
  simpa [priorityKey, get] using hkey

theorem Consistent.find?_priority (hc : o.Consistent) (h : o.get a = some e) :
    (o.byPriority.find? (OrderDual.toDual e.priority)).isSome :=
  hc.byPriority_indexes.isSome_find? (i := a) (by simp [priorityKey, h])

/-- An entry `next_priority` may return: outside its cooldown at `cutoff`, and accepted by the
filter. -/
def Eligible (cutoff : Timestamp) (filter : Account → Bool) (e : PriorityEntry) : Prop :=
  (∀ ts, e.timestamp = some ts → ts ≤ cutoff) ∧ filter e.account = true

theorem eligible_iff (cutoff : Timestamp) (filter : Account → Bool) (e : PriorityEntry) :
    ((match e.timestamp with
      | some ts => !decide (ts > cutoff)
      | none => true) && filter e.account) = true ↔ Eligible cutoff filter e := by
  unfold Eligible
  cases e.timestamp <;> simp

instance (cutoff : Timestamp) (filter : Account → Bool) (e : PriorityEntry) :
    Decidable (Eligible cutoff filter e) :=
  decidable_of_iff _ (eligible_iff cutoff filter e)

theorem nextPriority_eq (o : OrderedPriorities) (cutoff : Timestamp) (filter : Account → Bool) :
    o.nextPriority cutoff filter =
      ((o.byPriority.entries.flatMap (·.2)).find? fun a =>
        decide (Eligible cutoff filter ((o.byAccount.find? a).getD default))).map
        (fun a => ((o.byAccount.find? a).getD default).account) := by
  unfold nextPriority
  rw [List.find?_map, Option.map_map]
  congr 2
  funext a
  exact Bool.eq_iff_iff.mpr ((eligible_iff _ _ _).trans decide_eq_true_iff.symm)

/-- `next_priority` returns an eligible account of the highest priority among the eligible
ones. -/
theorem nextPriority_eq_some (hc : o.Consistent) {cutoff : Timestamp} {filter : Account → Bool}
    (h : o.nextPriority cutoff filter = some a) :
    ∃ e, o.get a = some e ∧ Eligible cutoff filter e ∧
      ∀ b e', o.get b = some e' → Eligible cutoff filter e' → e'.priority ≤ e.priority := by
  rw [nextPriority_eq] at h
  obtain ⟨a₀, hfind, hacc⟩ := Option.map_eq_some_iff.mp h
  obtain ⟨hp, before, after, hsplit, hbefore⟩ := List.find?_eq_some_iff_append.mp hfind
  have hmem : a₀ ∈ o.byPriority.entries.flatMap (·.2) := by simp [hsplit]
  obtain ⟨e, he⟩ := Option.isSome_iff_exists.mp (hc.find?_of_mem_byPriority hmem)
  have hea : e.account = a₀ := hc.account_eq a₀ e he
  rw [he, Option.getD_some, hea] at hacc
  subst hacc
  rw [he, Option.getD_some, decide_eq_true_iff] at hp
  refine ⟨e, he, hp, fun b e' hb heb => ?_⟩
  have hbmem : b ∈ o.byPriority.entries.flatMap (·.2) :=
    (mem_flatMap_iff hc.byPriority_indexes).mpr (by simp [priorityKey, hb])
  have hpair := hc.byPriority_indexes.pairwise_flatMap
  rw [hsplit] at hbmem hpair
  rcases List.mem_append.mp hbmem with hb' | hb'
  · have hnot := hbefore b hb'
    rw [show o.byAccount.find? b = some e' from hb, Option.getD_some] at hnot
    simp [heb] at hnot
  · rcases List.mem_cons.mp hb' with rfl | hb''
    · exact le_of_eq (congrArg PriorityEntry.priority (Option.some.inj (hb.symm.trans he)))
    · have hle := List.rel_of_pairwise_cons (List.pairwise_append.mp hpair).2.1 hb''
        (OrderDual.toDual e.priority) (OrderDual.toDual e'.priority)
        (by simp [priorityKey, get, he]) (by simp [priorityKey, hb])
      exact OrderDual.toDual_le_toDual.mp hle

theorem nextPriority_eq_none (hc : o.Consistent) (cutoff : Timestamp) (filter : Account → Bool) :
    o.nextPriority cutoff filter = none ↔
      ∀ b e, o.get b = some e → ¬ Eligible cutoff filter e := by
  rw [nextPriority_eq, Option.map_eq_none_iff, List.find?_eq_none]
  constructor
  · intro hnone b e hb heb
    have hbmem : b ∈ o.byPriority.entries.flatMap (·.2) :=
      (mem_flatMap_iff hc.byPriority_indexes).mpr (by simp [priorityKey, hb])
    have hnot := hnone b hbmem
    rw [show o.byAccount.find? b = some e from hb, Option.getD_some] at hnot
    simp [heb] at hnot
  · intro hall b hbmem
    obtain ⟨e, he⟩ := Option.isSome_iff_exists.mp (hc.find?_of_mem_byPriority hbmem)
    rw [he, Option.getD_some]
    simpa using hall b e he

end OrderedPriorities

structure BlockingEntry where
  dependency : BlockHash
  originalEntry : PriorityEntry
  dependencyAccount : Account

namespace BlockingEntry

def priority (e : BlockingEntry) : Priority := e.originalEntry.priority

def account (e : BlockingEntry) : Account := e.originalEntry.account

/-- Read only where an `unwrap` cannot fail. -/
instance : Inhabited BlockingEntry := ⟨⟨FixedBytes.zero 32, default, FixedBytes.zero 32⟩⟩

end BlockingEntry

/-- `OrderedBlocking`: the entries by account, the accounts in insertion order, by descending
priority, by dependency and by dependency account. -/
structure OrderedBlocking where
  byAccount : OrdMap Account BlockingEntry
  sequenced : List Account
  byPriority : OrdMap PriorityKeyDesc (List Account)
  byDependency : OrdMap BlockHash (List Account)
  byDependencyAccount : OrdMap Account (List Account)

namespace OrderedBlocking

def empty : OrderedBlocking := ⟨.empty, [], .empty, .empty, .empty⟩

def len (o : OrderedBlocking) : Nat := o.sequenced.length

def isEmpty (o : OrderedBlocking) : Bool := o.len == 0

def contains (o : OrderedBlocking) (account : Account) : Bool := o.byAccount.contains account

def get (o : OrderedBlocking) (account : Account) : Option BlockingEntry := o.byAccount.find? account

def countByDependencyAccount (o : OrderedBlocking) (depAccount : Account) : Nat :=
  (o.byDependencyAccount.bucket depAccount).length

def insert (o : OrderedBlocking) (entry : BlockingEntry) : Bool × OrderedBlocking :=
  let account := entry.account
  if o.byAccount.contains account then (false, o)
  else
    (true, ⟨o.byAccount.insert account entry, o.sequenced ++ [account],
      o.byPriority.pushBucket (OrderDual.toDual entry.priority) account,
      o.byDependency.pushBucket entry.dependency account,
      o.byDependencyAccount.pushBucket entry.dependencyAccount account⟩)

/-- `next`: the first dependency, among the entries whose dependency account is unknown, that the
filter accepts. -/
def next (o : OrderedBlocking) (filter : BlockHash → Bool) : Option BlockHash :=
  match o.byDependencyAccount.find? (FixedBytes.zero 32) with
  | none => none
  | some accounts =>
    ((accounts.map (fun a => (o.byAccount.find? a).getD default)).find?
      (fun e => filter e.dependency)).map (·.dependency)

/-- `iter_start_dep_account`: the entries by dependency account from `start` on. -/
def iterStartDepAccount (o : OrderedBlocking) (start : Account) : List BlockingEntry :=
  ((o.byDependencyAccount.entries.filter (fun e => start ≤ e.1)).flatMap (·.2)).map
    (fun account => (o.byAccount.find? account).getD default)

def removeIndexes (o : OrderedBlocking) (entry : BlockingEntry) : OrderedBlocking :=
  { o with sequenced := o.sequenced.filter (· != entry.account),
           byPriority := o.byPriority.removeBucket (OrderDual.toDual entry.priority) entry.account,
           byDependency := o.byDependency.removeBucket entry.dependency entry.account,
           byDependencyAccount :=
             o.byDependencyAccount.removeBucket entry.dependencyAccount entry.account }

def remove (o : OrderedBlocking) (account : Account) : Option BlockingEntry × OrderedBlocking :=
  match o.byAccount.find? account with
  | none => (none, o)
  | some entry => (some entry, removeIndexes { o with byAccount := o.byAccount.erase account } entry)

def popFront (o : OrderedBlocking) : Option BlockingEntry × OrderedBlocking :=
  match o.sequenced with
  | [] => (none, o)
  | account :: rest => remove { o with sequenced := rest } account

/-- One account of the `modify_dependency_account` loop. Unlike the other removals, it drops the
old bucket when that holds exactly one account. -/
def modifyOne (newDependencyAccount : Account) (acc : Nat × OrderedBlocking) (account : Account) :
    Nat × OrderedBlocking :=
  let (updated, o) := acc
  let entry := (o.byAccount.find? account).getD default
  if entry.dependencyAccount ≠ newDependencyAccount then
    let oldDependencyAccount := entry.dependencyAccount
    let entry := { entry with dependencyAccount := newDependencyAccount }
    let old := o.byDependencyAccount.bucket oldDependencyAccount
    let byDependencyAccount :=
      if old.length = 1 then o.byDependencyAccount.erase oldDependencyAccount
      else o.byDependencyAccount.insert oldDependencyAccount (old.filter (· != entry.account))
    (updated + 1, { o with byAccount := o.byAccount.insert account entry,
                           byDependencyAccount :=
                             byDependencyAccount.pushBucket newDependencyAccount entry.account })
  else (updated, o)

def modifyDependencyAccount (o : OrderedBlocking) (dependency : BlockHash)
    (newDependencyAccount : Account) : Nat × OrderedBlocking :=
  match o.byDependency.find? dependency with
  | none => (0, o)
  | some accounts => accounts.foldl (modifyOne newDependencyAccount) (0, o)

def priorityKey (o : OrderedBlocking) (account : Account) : Option PriorityKeyDesc :=
  (o.get account).map (fun e => OrderDual.toDual e.priority)

def dependencyKey (o : OrderedBlocking) (account : Account) : Option BlockHash :=
  (o.get account).map (·.dependency)

def dependencyAccountKey (o : OrderedBlocking) (account : Account) : Option Account :=
  (o.get account).map (·.dependencyAccount)

structure Consistent (o : OrderedBlocking) : Prop where
  sequenced : o.byAccount.Sequenced o.sequenced
  account_eq : ∀ a e, o.get a = some e → e.account = a
  byPriority_indexes : o.byPriority.Indexes o.priorityKey
  byDependency_indexes : o.byDependency.Indexes o.dependencyKey
  byDependencyAccount_indexes : o.byDependencyAccount.Indexes o.dependencyAccountKey

theorem empty_consistent : empty.Consistent where
  sequenced := sequenced_empty
  account_eq a e h := by simp [get, empty] at h
  byPriority_indexes := indexes_empty
  byDependency_indexes := indexes_empty
  byDependencyAccount_indexes := indexes_empty

variable {o : OrderedBlocking} {a b : Account} {e : BlockingEntry}

theorem contains_iff_get : o.contains a = true ↔ ∃ e, o.get a = some e := by
  simp [contains, OrdMap.contains, get, Option.isSome_iff_exists]

theorem contains_eq_false_iff : o.contains a = false ↔ o.get a = none := by
  simp [contains, OrdMap.contains, get]

theorem insert_of_contains (h : o.contains e.account = true) : o.insert e = (false, o) := by
  simp [insert, show o.byAccount.contains e.account = true from h]

theorem insert_of_not_contains (h : o.contains e.account = false) :
    o.insert e = (true, ⟨o.byAccount.insert e.account e, o.sequenced ++ [e.account],
      o.byPriority.pushBucket (OrderDual.toDual e.priority) e.account,
      o.byDependency.pushBucket e.dependency e.account,
      o.byDependencyAccount.pushBucket e.dependencyAccount e.account⟩) := by
  simp [insert, show o.byAccount.contains e.account = false from h]

theorem get_insert (h : o.contains e.account = false) (b : Account) :
    (o.insert e).2.get b = if b = e.account then some e else o.get b := by
  rw [insert_of_not_contains h]
  simp [get]

theorem insert_consistent (hc : o.Consistent) (e : BlockingEntry) : (o.insert e).2.Consistent := by
  cases hk : o.contains e.account
  · have hnone : o.get e.account = none := by
      simpa [contains, OrdMap.contains, get] using hk
    have hother : ∀ j, j ≠ e.account → (o.insert e).2.get j = o.get j := by
      intro j hj
      rw [get_insert hk, if_neg hj]
    rw [insert_of_not_contains hk] at hother ⊢
    refine ⟨hc.sequenced.insert_new hk e, fun a e' h => ?_, ?_, ?_, ?_⟩
    · simp only [get, find?_insert] at h
      split_ifs at h with ha
      · rw [← Option.some.inj h, ha]
      · exact hc.account_eq a e' h
    · apply indexes_pushBucket hc.byPriority_indexes
      · simp [priorityKey, hnone]
      · simp [priorityKey, get]
      · intro j hj
        simp only [priorityKey, hother j hj]
    · apply indexes_pushBucket hc.byDependency_indexes
      · simp [dependencyKey, hnone]
      · simp [dependencyKey, get]
      · intro j hj
        simp only [dependencyKey, hother j hj]
    · apply indexes_pushBucket hc.byDependencyAccount_indexes
      · simp [dependencyAccountKey, hnone]
      · simp [dependencyAccountKey, get]
      · intro j hj
        simp only [dependencyAccountKey, hother j hj]
  · rw [insert_of_contains hk]
    exact hc

theorem len_insert_le (o : OrderedBlocking) (e : BlockingEntry) : (o.insert e).2.len ≤ o.len + 1 := by
  cases hk : o.contains e.account
  · simp [insert_of_not_contains hk, len]
  · simp [insert_of_contains hk]

theorem remove_of_get (h : o.get a = some e) :
    o.remove a = (some e, removeIndexes { o with byAccount := o.byAccount.erase a } e) := by
  simp only [remove]
  rw [show o.byAccount.find? a = some e from h]

theorem remove_of_get_none (h : o.get a = none) : o.remove a = (none, o) := by
  simp only [remove]
  rw [show o.byAccount.find? a = none from h]

theorem fst_remove (o : OrderedBlocking) (a : Account) : (o.remove a).1 = o.get a := by
  cases h : o.get a with
  | none => rw [remove_of_get_none h]
  | some e => rw [remove_of_get h]

theorem get_remove (o : OrderedBlocking) (a b : Account) :
    (o.remove a).2.get b = if b = a then none else o.get b := by
  cases h : o.get a with
  | none =>
    rw [remove_of_get_none h]
    split_ifs with hb
    · rw [hb, h]
    · rfl
  | some e =>
    rw [remove_of_get h]
    simp [get, removeIndexes, find?_erase]

theorem remove_consistent (hc : o.Consistent) (a : Account) : (o.remove a).2.Consistent := by
  cases h : o.get a with
  | none => rwa [remove_of_get_none h]
  | some e =>
    have hea : e.account = a := hc.account_eq a e h
    rw [remove_of_get h]
    simp only [removeIndexes, hea]
    refine ⟨hc.sequenced.erase a, fun b e' hb => ?_, ?_, ?_, ?_⟩
    · simp only [get, find?_erase] at hb
      split_ifs at hb
      exact hc.account_eq b e' hb
    · apply indexes_removeBucket hc.byPriority_indexes
      · simp [priorityKey, h]
      · simp [priorityKey, get]
      · intro j hj
        simp [priorityKey, get, find?_erase, hj]
    · apply indexes_removeBucket hc.byDependency_indexes
      · simp [dependencyKey, h]
      · simp [dependencyKey, get]
      · intro j hj
        simp [dependencyKey, get, find?_erase, hj]
    · apply indexes_removeBucket hc.byDependencyAccount_indexes
      · simp [dependencyAccountKey, h]
      · simp [dependencyAccountKey, get]
      · intro j hj
        simp [dependencyAccountKey, get, find?_erase, hj]

theorem len_remove_le (o : OrderedBlocking) (a : Account) : (o.remove a).2.len ≤ o.len := by
  cases h : o.get a with
  | none => rw [remove_of_get_none h]
  | some e =>
    rw [remove_of_get h]
    exact List.length_filter_le _ _

theorem popFront_eq_remove (hc : o.Consistent) {rest : List Account} (hs : o.sequenced = a :: rest) :
    o.popFront = o.remove a := by
  have hmem : o.contains a = true := (hc.sequenced.mem_iff a).1 (by simp [hs])
  obtain ⟨e, he⟩ := contains_iff_get.1 hmem
  have hea : e.account = a := hc.account_eq a e he
  have he' : ({ o with sequenced := rest } : OrderedBlocking).get a = some e := he
  have hrest : rest.filter (· != a) = (a :: rest).filter (· != a) := by
    simp
  simp only [popFront, hs]
  rw [remove_of_get he', remove_of_get he]
  simp only [removeIndexes, hea, hs, hrest]

theorem len_popFront_lt (o : OrderedBlocking) (h : 0 < o.len) : o.popFront.2.len < o.len := by
  unfold popFront len at *
  cases hs : o.sequenced with
  | nil => simp [hs] at h
  | cons a rest =>
    have hle := List.length_filter_le (· != a) rest
    have hrem := len_remove_le { o with sequenced := rest } a
    simp only [len] at hrem
    simp only [List.length_cons]
    omega

theorem popFront_consistent (hc : o.Consistent) : o.popFront.2.Consistent := by
  cases hs : o.sequenced with
  | nil => simpa [popFront, hs] using hc
  | cons a rest =>
    rw [popFront_eq_remove hc hs]
    exact remove_consistent hc a

theorem get_popFront (hc : o.Consistent) (h : o.popFront.2.get b = some e) : o.get b = some e := by
  cases hs : o.sequenced with
  | nil => simpa [popFront, hs] using h
  | cons a rest =>
    rw [popFront_eq_remove hc hs, get_remove] at h
    split_ifs at h
    exact h

theorem retain_eq_removeBucket {m : OrdMap Account (List Account)} {k i : Account}
    (hne : m.bucket k ≠ []) :
    (if (m.bucket k).length = 1 then m.erase k else m.insert k ((m.bucket k).filter (· != i))) =
      m.removeBucket k i := by
  have hpos : 0 < (m.bucket k).length := List.length_pos_of_ne_nil hne
  unfold removeBucket
  by_cases h1 : (m.bucket k).length = 1
  · rw [if_pos h1, if_neg (by omega)]
  · rw [if_neg h1, if_pos (by omega)]

theorem modifyOne_of_get {nda : Account} (hc : o.Consistent) (ha : o.get a = some e) (n : Nat) :
    modifyOne nda (n, o) a =
      if e.dependencyAccount ≠ nda then
        (n + 1, { o with byAccount := o.byAccount.insert a { e with dependencyAccount := nda },
                         byDependencyAccount :=
                           (o.byDependencyAccount.removeBucket e.dependencyAccount a).pushBucket nda a })
      else (n, o) := by
  have hea : e.originalEntry.account = a := hc.account_eq a e ha
  have hmem : a ∈ o.byDependencyAccount.bucket e.dependencyAccount :=
    (hc.byDependencyAccount_indexes.mem_bucket _ a).2 (by simp [dependencyAccountKey, ha])
  have hne : o.byDependencyAccount.bucket e.dependencyAccount ≠ [] := List.ne_nil_of_mem hmem
  simp only [modifyOne, show o.byAccount.find? a = some e from ha, Option.getD_some]
  by_cases hda : e.dependencyAccount ≠ nda
  · rw [if_pos hda, if_pos hda]
    simp only [BlockingEntry.account, hea]
    rw [retain_eq_removeBucket hne]
  · rw [if_neg hda, if_neg hda]

theorem get_modifyOne (nda : Account) (hc : o.Consistent) (ha : o.get a = some e) (n : Nat)
    (b : Account) :
    (modifyOne nda (n, o) a).2.get b =
      if b = a then some { e with dependencyAccount := nda } else o.get b := by
  rw [modifyOne_of_get hc ha]
  split_ifs with hda hb hb
  · simp [get, hb]
  · simp [get, hb]
  · rw [hb, ha, ← not_not.mp hda]
  · rfl

theorem modifyOne_consistent {nda : Account} (hc : o.Consistent) (ha : o.get a = some e) (n : Nat) :
    (modifyOne nda (n, o) a).2.Consistent := by
  have hget := get_modifyOne nda hc ha n
  have hprio : (modifyOne nda (n, o) a).2.priorityKey = o.priorityKey := by
    funext b
    simp only [priorityKey, hget]
    split_ifs with hba
    · simp [hba, ha, BlockingEntry.priority]
    · rfl
  have hdep : (modifyOne nda (n, o) a).2.dependencyKey = o.dependencyKey := by
    funext b
    simp only [dependencyKey, hget]
    split_ifs with hba
    · simp [hba, ha]
    · rfl
  have hdepAcc : ∀ j, j ≠ a →
      (modifyOne nda (n, o) a).2.dependencyAccountKey j = o.dependencyAccountKey j := by
    intro j hj
    simp [dependencyAccountKey, hget, hj]
  have hdepAccA : (modifyOne nda (n, o) a).2.dependencyAccountKey a = some nda := by
    simp [dependencyAccountKey, hget]
  have hcontains : o.byAccount.contains a = true := by
    simp [OrdMap.contains, show o.byAccount.find? a = some e from ha]
  rw [modifyOne_of_get hc ha] at hget hprio hdep hdepAcc hdepAccA ⊢
  by_cases hda : e.dependencyAccount ≠ nda
  · rw [if_pos hda] at hget hprio hdep hdepAcc hdepAccA ⊢
    refine ⟨hc.sequenced.insert_of_contains hcontains _, fun b e' hb => ?_, ?_, ?_, ?_⟩
    · rw [hget] at hb
      split_ifs at hb with hba
      · rw [← Option.some.inj hb, hba]
        exact hc.account_eq a e ha
      · exact hc.account_eq b e' hb
    · rw [hprio]
      exact hc.byPriority_indexes
    · rw [hdep]
      exact hc.byDependency_indexes
    · exact indexes_moveBucket hc.byDependencyAccount_indexes
        (by simp [dependencyAccountKey, ha]) hdepAccA hdepAcc
  · rw [if_neg hda]
    exact hc

theorem modifyLoop_spec {nda : Account} (accounts : List Account) (n : Nat) (hc : o.Consistent)
    (hall : ∀ a ∈ accounts, o.contains a = true) :
    (accounts.foldl (modifyOne nda) (n, o)).2.Consistent ∧
      (accounts.foldl (modifyOne nda) (n, o)).2.sequenced = o.sequenced ∧
      ∀ b, ((accounts.foldl (modifyOne nda) (n, o)).2.get b).map (·.originalEntry) =
        (o.get b).map (·.originalEntry) := by
  induction accounts generalizing n o with
  | nil => exact ⟨hc, rfl, fun b => rfl⟩
  | cons a rest ih =>
    obtain ⟨e, ha⟩ := contains_iff_get.1 (hall a List.mem_cons_self)
    have hget := get_modifyOne nda hc ha n
    have hkeep : ∀ b, ((modifyOne nda (n, o) a).2.get b).map (·.originalEntry) =
        (o.get b).map (·.originalEntry) := by
      intro b
      rw [hget]
      split_ifs with hb
      · simp [hb, ha]
      · rfl
    have hseq : (modifyOne nda (n, o) a).2.sequenced = o.sequenced := by
      rw [modifyOne_of_get hc ha]
      split_ifs <;> rfl
    have hall' : ∀ b ∈ rest, (modifyOne nda (n, o) a).2.contains b = true := by
      intro b hb
      have hsome := congrArg Option.isSome (hkeep b)
      simp only [Option.isSome_map] at hsome
      rw [contains, OrdMap.contains]
      change ((modifyOne nda (n, o) a).2.get b).isSome = true
      rw [hsome]
      exact hall b (List.mem_cons_of_mem a hb)
    obtain ⟨hc', hseq', hkeep'⟩ := ih (modifyOne nda (n, o) a).1 (modifyOne_consistent hc ha n) hall'
    rw [List.foldl_cons, Prod.mk.eta (p := modifyOne nda (n, o) a)] at *
    refine ⟨hc', hseq'.trans hseq, fun b => (hkeep' b).trans (hkeep b)⟩

theorem modifyDependencyAccount_spec (hc : o.Consistent) (dependency : BlockHash) (nda : Account) :
    (o.modifyDependencyAccount dependency nda).2.Consistent ∧
      (o.modifyDependencyAccount dependency nda).2.sequenced = o.sequenced ∧
      ∀ b, ((o.modifyDependencyAccount dependency nda).2.get b).map (·.originalEntry) =
        (o.get b).map (·.originalEntry) := by
  unfold modifyDependencyAccount
  cases hd : o.byDependency.find? dependency with
  | none => exact ⟨hc, rfl, fun b => rfl⟩
  | some accounts =>
    apply modifyLoop_spec accounts 0 hc
    intro a ha
    have hmem : a ∈ o.byDependency.bucket dependency := by simpa [bucket, hd] using ha
    obtain ⟨e, he, -⟩ := Option.map_eq_some_iff.mp ((hc.byDependency_indexes.mem_bucket _ a).1 hmem)
    exact contains_iff_get.2 ⟨e, he⟩

/-- Each step of the `modify_dependency_account` loop finds its account stored, and the bucket
of the account's old dependency account present: both `unwrap`s of the loop succeed. -/
theorem modifyLoop_unwraps {nda : Account} (hc : o.Consistent) {pre post : List Account}
    (hall : ∀ b ∈ pre ++ a :: post, o.contains b = true) (n : Nat) :
    ∃ e, (pre.foldl (modifyOne nda) (n, o)).2.get a = some e ∧
      ((pre.foldl (modifyOne nda) (n, o)).2.byDependencyAccount.find? e.dependencyAccount).isSome := by
  obtain ⟨hc', -, hkeep⟩ := modifyLoop_spec pre n hc fun b hb => hall b (List.mem_append_left _ hb)
  have hstored : ((pre.foldl (modifyOne nda) (n, o)).2.get a).isSome := by
    have hsome := congrArg Option.isSome (hkeep a)
    simp only [Option.isSome_map] at hsome
    rw [hsome]
    exact hall a (by simp)
  obtain ⟨e, he⟩ := Option.isSome_iff_exists.mp hstored
  exact ⟨e, he, hc'.byDependencyAccount_indexes.isSome_find? (i := a)
    (by simp [dependencyAccountKey, he])⟩

theorem sequenced_remove_sublist (o : OrderedBlocking) (a : Account) :
    (o.remove a).2.sequenced.Sublist o.sequenced := by
  cases h : o.get a with
  | none => rw [remove_of_get_none h]
  | some e =>
    rw [remove_of_get h]
    exact List.filter_sublist

inductive Call where
  | insert (entry : BlockingEntry)
  | remove (account : Account)
  | popFront
  | modifyDependencyAccount (dependency : BlockHash) (newDependencyAccount : Account)

def Call.apply : Call → OrderedBlocking → OrderedBlocking
  | .insert entry, o => (o.insert entry).2
  | .remove account, o => (o.remove account).2
  | .popFront, o => o.popFront.2
  | .modifyDependencyAccount dependency newDependencyAccount, o =>
    (o.modifyDependencyAccount dependency newDependencyAccount).2

def Call.inserted? : Call → Option Account
  | .insert entry => some entry.account
  | _ => none

def run (o : OrderedBlocking) (calls : List Call) : OrderedBlocking :=
  calls.foldl (fun o call => call.apply o) o

theorem Call.apply_consistent (hc : o.Consistent) : ∀ call : Call, (call.apply o).Consistent
  | .insert entry => insert_consistent hc entry
  | .remove account => remove_consistent hc account
  | .popFront => popFront_consistent hc
  | .modifyDependencyAccount dependency nda => (modifyDependencyAccount_spec hc dependency nda).1

theorem Call.sequenced_sublist (hc : o.Consistent) :
    ∀ call : Call, (call.apply o).sequenced.Sublist (o.sequenced ++ call.inserted?.toList)
  | .insert entry => by
    cases hk : o.contains entry.account
    · simp [Call.apply, Call.inserted?, insert_of_not_contains hk]
    · simp [Call.apply, Call.inserted?, insert_of_contains hk]
  | .remove account => by
    simpa [Call.apply, Call.inserted?] using sequenced_remove_sublist o account
  | .popFront => by
    cases hs : o.sequenced with
    | nil => simp [Call.apply, Call.inserted?, OrderedBlocking.popFront, hs]
    | cons a rest =>
      simp only [Call.apply, Call.inserted?, OrderedBlocking.popFront, hs, Option.toList_none,
        List.append_nil]
      exact (sequenced_remove_sublist { o with sequenced := rest } a).trans
        (List.sublist_cons_self a rest)
  | .modifyDependencyAccount dependency nda => by
    simp [Call.apply, Call.inserted?, (modifyDependencyAccount_spec hc dependency nda).2.1]

theorem run_spec (hc : o.Consistent) (calls : List Call) :
    (o.run calls).Consistent ∧
      (o.run calls).sequenced.Sublist (o.sequenced ++ calls.filterMap Call.inserted?) := by
  induction calls generalizing o with
  | nil => simpa [run] using hc
  | cons call calls ih =>
    obtain ⟨hc', hsub⟩ := ih (Call.apply_consistent hc call)
    refine ⟨hc', hsub.trans ?_⟩
    have hfirst := (Call.sequenced_sublist hc call).append_right (calls.filterMap Call.inserted?)
    cases hcall : call.inserted? <;> simpa [hcall, List.filterMap_cons] using hfirst

theorem Consistent.find?_of_mem_sequenced (hc : o.Consistent) (h : a ∈ o.sequenced) :
    (o.byAccount.find? a).isSome :=
  (hc.sequenced.mem_iff a).mp h

theorem find?_of_mem_bucket {κ : Type} [LinearOrder κ] {b : OrdMap κ (List Account)}
    {f : BlockingEntry → κ} (h : b.Indexes fun a => (o.get a).map f) {k : κ}
    (hi : a ∈ b.bucket k) : (o.byAccount.find? a).isSome := by
  have hkey := (h.mem_bucket k a).mp hi
  simpa [get] using congrArg Option.isSome hkey

theorem Consistent.find?_buckets (hc : o.Consistent) (h : o.get a = some e) :
    (o.byPriority.find? (OrderDual.toDual e.priority)).isSome ∧
      (o.byDependency.find? e.dependency).isSome ∧
      (o.byDependencyAccount.find? e.dependencyAccount).isSome :=
  ⟨hc.byPriority_indexes.isSome_find? (i := a) (by simp [priorityKey, h]),
    hc.byDependency_indexes.isSome_find? (i := a) (by simp [dependencyKey, h]),
    hc.byDependencyAccount_indexes.isSome_find? (i := a) (by simp [dependencyAccountKey, h])⟩

end OrderedBlocking

theorem ordered_sets_keep_indexes :
    (∀ calls : List OrderedPriorities.Call,
      (OrderedPriorities.empty.run calls).Consistent ∧
      (OrderedPriorities.empty.run calls).sequenced.Sublist
        (calls.filterMap OrderedPriorities.Call.inserted?)) ∧
    (∀ calls : List OrderedBlocking.Call,
      (OrderedBlocking.empty.run calls).Consistent ∧
      (OrderedBlocking.empty.run calls).sequenced.Sublist
        (calls.filterMap OrderedBlocking.Call.inserted?)) ∧
    (∀ o : OrderedPriorities, o.Consistent →
      (∀ a ∈ o.sequenced, (o.byAccount.find? a).isSome) ∧
      (∀ a ∈ o.byPriority.entries.flatMap (·.2), (o.byAccount.find? a).isSome) ∧
      (∀ a e, o.get a = some e → (o.byPriority.find? (OrderDual.toDual e.priority)).isSome) ∧
      (∀ a rest, o.sequenced = a :: rest → o.popFront = o.remove a) ∧
      (∀ cutoff filter a, o.nextPriority cutoff filter = some a →
        ∃ e, o.get a = some e ∧ OrderedPriorities.Eligible cutoff filter e ∧
          ∀ b e', o.get b = some e' → OrderedPriorities.Eligible cutoff filter e' →
            e'.priority ≤ e.priority) ∧
      (∀ cutoff filter, o.nextPriority cutoff filter = none ↔
        ∀ b e, o.get b = some e → ¬ OrderedPriorities.Eligible cutoff filter e)) ∧
    ∀ o : OrderedBlocking, o.Consistent →
      (∀ a ∈ o.sequenced, (o.byAccount.find? a).isSome) ∧
      (∀ k a, a ∈ o.byPriority.bucket k → (o.byAccount.find? a).isSome) ∧
      (∀ k a, a ∈ o.byDependency.bucket k → (o.byAccount.find? a).isSome) ∧
      (∀ k a, a ∈ o.byDependencyAccount.bucket k → (o.byAccount.find? a).isSome) ∧
      (∀ a e, o.get a = some e →
        (o.byPriority.find? (OrderDual.toDual e.priority)).isSome ∧
          (o.byDependency.find? e.dependency).isSome ∧
          (o.byDependencyAccount.find? e.dependencyAccount).isSome) ∧
      (∀ a rest, o.sequenced = a :: rest → o.popFront = o.remove a) ∧
      ∀ dependency newDependencyAccount accounts, o.byDependency.find? dependency = some accounts →
        ∀ pre a post, accounts = pre ++ a :: post →
          ∃ e, (pre.foldl (OrderedBlocking.modifyOne newDependencyAccount) (0, o)).2.get a = some e ∧
            ((pre.foldl (OrderedBlocking.modifyOne newDependencyAccount) (0, o)).2.byDependencyAccount.find?
              e.dependencyAccount).isSome := by
  refine ⟨fun calls => ?_, fun calls => ?_, fun o hc => ?_, fun o hc => ?_⟩
  · simpa [OrderedPriorities.empty] using
      OrderedPriorities.run_spec OrderedPriorities.empty_consistent calls
  · simpa [OrderedBlocking.empty] using
      OrderedBlocking.run_spec OrderedBlocking.empty_consistent calls
  · exact ⟨fun a ha => hc.find?_of_mem_sequenced ha, fun a ha => hc.find?_of_mem_byPriority ha,
      fun a e he => hc.find?_priority he, fun a rest hs => OrderedPriorities.popFront_eq_remove hc hs,
      fun cutoff filter a h => OrderedPriorities.nextPriority_eq_some hc h,
      fun cutoff filter => OrderedPriorities.nextPriority_eq_none hc cutoff filter⟩
  · refine ⟨fun a ha => hc.find?_of_mem_sequenced ha,
      fun k a ha => OrderedBlocking.find?_of_mem_bucket hc.byPriority_indexes ha,
      fun k a ha => OrderedBlocking.find?_of_mem_bucket hc.byDependency_indexes ha,
      fun k a ha => OrderedBlocking.find?_of_mem_bucket hc.byDependencyAccount_indexes ha,
      fun a e he => hc.find?_buckets he, fun a rest hs => OrderedBlocking.popFront_eq_remove hc hs,
      fun dependency nda accounts hd pre a post hsplit => ?_⟩
    refine OrderedBlocking.modifyLoop_unwraps hc (fun b (hb : b ∈ pre ++ a :: post) => ?_) 0
    rw [← hsplit] at hb
    have hmem : b ∈ o.byDependency.bucket dependency := by simpa [bucket, hd] using hb
    exact OrderedBlocking.find?_of_mem_bucket hc.byDependency_indexes hmem

end RsbanNode.Bootstrap
