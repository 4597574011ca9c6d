import RsbanNode.Library.OrdMap
import RsbanNode.Library.Result

namespace RsbanNode.Transport

open RsbanNode.OrderedMap RsbanNode.Result

variable {S T : Type}

/-- The queue of one source, with the limit and priority fixed when it was created. -/
structure FairQueue.Entry (T : Type) where
  requests : List T
  priority : Nat
  maxSize : Nat

namespace FairQueue.Entry

def new (maxSize priority : Nat) : Entry T := { requests := [], priority, maxSize }

def pop (e : Entry T) : Option T × Entry T :=
  match e.requests with
  | [] => (none, e)
  | r :: rs => (some r, { e with requests := rs })

/-- Returns whether the request was added; a full queue drops it. -/
def push (e : Entry T) (request : T) : Bool × Entry T :=
  if e.requests.length < e.maxSize then (true, { e with requests := e.requests ++ [request] })
  else (false, e)

def isEmpty (e : Entry T) : Bool := e.requests.isEmpty

def len (e : Entry T) : Nat := e.requests.length

@[simp] theorem len_new (maxSize priority : Nat) : (new maxSize priority : Entry T).len = 0 := rfl

@[simp] theorem maxSize_push (e : Entry T) (r : T) : (e.push r).2.maxSize = e.maxSize := by
  unfold push; split <;> rfl

theorem requests_push (e : Entry T) (r : T) :
    (e.push r).2.requests = if (e.push r).1 then e.requests ++ [r] else e.requests := by
  unfold push; split <;> rfl

theorem push_fst (e : Entry T) (r : T) : (e.push r).1 = decide (e.len < e.maxSize) := by
  unfold push len; split <;> simp_all

theorem len_push (e : Entry T) (r : T) :
    (e.push r).2.len = if (e.push r).1 then e.len + 1 else e.len := by
  rw [len, requests_push]; split <;> simp [len]

theorem len_push_le {e : Entry T} (h : e.len ≤ e.maxSize) (r : T) :
    (e.push r).2.len ≤ (e.push r).2.maxSize := by
  rw [len_push, maxSize_push, push_fst]
  split <;> simp_all

theorem isEmpty_eq_false_iff (e : Entry T) : e.isEmpty = false ↔ 0 < e.len := by
  simp [isEmpty, len, List.length_pos_iff]

theorem exists_cons_of_isEmpty_eq_false {e : Entry T} (h : e.isEmpty = false) :
    ∃ r rs, e.requests = r :: rs := by
  cases hr : e.requests with
  | nil => simp [isEmpty, hr] at h
  | cons r rs => exact ⟨r, rs, rfl⟩

end FairQueue.Entry

open FairQueue

/-- Items of type `T` from sources `S`, served round robin: `priority` items from one source
before the next source in key order is sought. -/
structure FairQueue (S T : Type) [LinearOrder S] where
  queues : OrdMap S (Entry T)
  currentQueueKey : Option S
  maxSizeQuery : S → Nat
  priorityQuery : S → Nat
  counter : Nat
  totalLen : Nat

namespace FairQueue

variable [LinearOrder S]

def new (maxSizeQuery priorityQuery : S → Nat) : FairQueue S T :=
  { queues := .empty, currentQueueKey := none, maxSizeQuery, priorityQuery, counter := 0,
    totalLen := 0 }

def len (q : FairQueue S T) : Nat := q.totalLen

def isEmpty (q : FairQueue S T) : Bool := q.len == 0

def queueLen (q : FairQueue S T) (source : S) : Nat :=
  ((q.queues.find? source).map Entry.len).getD 0

def clear (q : FairQueue S T) : FairQueue S T := { q with queues := .empty }

/-- `entry(source).or_insert_with(..)`: the queue of `source`, or a new empty one. -/
def queueOf (q : FairQueue S T) (source : S) : Entry T :=
  (q.queues.find? source).getD (Entry.new (q.maxSizeQuery source) (q.priorityQuery source))

/-- The queue of `source` is created on first use (also when the push then drops the item). -/
def push (q : FairQueue S T) (source : S) (item : T) : Bool × FairQueue S T :=
  let (added, entry) := (q.queueOf source).push item
  (added, { q with queues := q.queues.insert source entry,
                   totalLen := if added then q.totalLen + 1 else q.totalLen })

def shouldSeek (q : FairQueue S T) : Bool :=
  match q.currentQueueKey with
  | some key =>
    match q.queues.find? key with
    | some queue => if queue.isEmpty then true else decide (q.counter ≥ queue.priority)
    | none => true
  | none => true

def unwrapNone : String := "called Option::unwrap() on a None value"

/-- The model's `seek_next` runs on fuel; running out of it stands for the source's endless loop. -/
def seekDiverged : String := "seek_next loops forever"

/-- The second key of `range(current..)`, which the loop of `seek_next` moves to. -/
def followingKey (q : FairQueue S T) : Option S :=
  q.currentQueueKey.bind fun current =>
    ((q.queues.keys.filter (fun k => decide (current ≤ k))).drop 1).head?

/-- One turn of the loop of `seek_next`: the following key, or else the first key. -/
def seekKey (q : FairQueue S T) : Except String S :=
  match q.followingKey with
  | some key => .ok key
  | none =>
    match q.queues.first? with
    | some (key, _) => .ok key
    | none => .error unwrapNone

def seekLoop : Nat → FairQueue S T → Except String (FairQueue S T)
  | 0, _ => .error seekDiverged
  | fuel + 1, q => do
    let key ← q.seekKey
    let q := { q with currentQueueKey := some key }
    match q.queues.find? key with
    | none => .error unwrapNone
    | some queue => if !queue.isEmpty then pure q else seekLoop fuel q

def seekNext (fuel : Nat) (q : FairQueue S T) : Except String (FairQueue S T) :=
  seekLoop fuel { q with counter := 0 }

/-- The state after `next` served the first item of `queue`, the queue of `it`. -/
def served (q : FairQueue S T) (it : S) (queue : Entry T) : FairQueue S T :=
  { q with queues := q.queues.insert it queue, counter := q.counter + 1,
           totalLen := q.totalLen - 1 }

/-- The part of `next` after the seek: pop the front of the current queue. -/
def serve (q : FairQueue S T) : Except String (Option (S × T) × FairQueue S T) :=
  match q.currentQueueKey with
  | none => pure (none, q)
  | some it =>
    match q.queues.find? it with
    | none => throw unwrapNone
    | some queue =>
      match queue.pop with
      | (none, _) => throw unwrapNone
      | (some item, queue) => pure (some (it, item), q.served it queue)

/-- The first part of `next`: seek another queue when the current one is done. -/
def chooseQueue (fuel : Nat) (q : FairQueue S T) : Except String (FairQueue S T) :=
  if q.shouldSeek then q.seekNext fuel else pure q

def next (fuel : Nat) (q : FairQueue S T) : Except String (Option (S × T) × FairQueue S T) := do
  let q ← q.chooseQueue fuel
  q.serve

/-- The loop of `next_batch`, one `next().unwrap()` per item still owed. -/
def nextBatchLoop (fuel : Nat) :
    Nat → FairQueue S T → List (S × T) → Except String (List (S × T) × FairQueue S T)
  | 0, q, result => .ok (result, q)
  | count + 1, q, result => do
    let (item, q) ← q.next fuel
    match item with
    | none => throw unwrapNone
    | some item => nextBatchLoop fuel count q (result ++ [item])

def nextBatch (fuel : Nat) (q : FairQueue S T) (maxCount : Nat) :
    Except String (List (S × T) × FairQueue S T) :=
  nextBatchLoop fuel (min q.len maxCount) q []

def remove (q : FairQueue S T) (key : S) : FairQueue S T :=
  match q.queues.find? key with
  | some removed =>
    { q with queues := q.queues.erase key, totalLen := q.totalLen - removed.len,
             currentQueueKey := none }
  | none => q

/-! ## The per-source contents -/

def contents (q : FairQueue S T) (source : S) : List T :=
  ((q.queues.find? source).map Entry.requests).getD []

/-- What `len` and the queue limits promise. -/
structure Consistent (q : FairQueue S T) : Prop where
  totalLen_eq : q.totalLen = q.queues.total Entry.len
  within_max : ∀ s e, q.queues.find? s = some e → e.len ≤ e.maxSize
  maxSize_eq : ∀ s e, q.queues.find? s = some e → e.maxSize = q.maxSizeQuery s

theorem new_consistent (maxSizeQuery priorityQuery : S → Nat) :
    (new maxSizeQuery priorityQuery : FairQueue S T).Consistent :=
  ⟨rfl, by simp [new], by simp [new]⟩

/-! ### push -/

section push

variable (q : FairQueue S T) (source : S) (item : T)

theorem push_eq : q.push source item =
    (((q.queueOf source).push item).1,
      { q with queues := q.queues.insert source ((q.queueOf source).push item).2,
               totalLen := if ((q.queueOf source).push item).1 then q.totalLen + 1
                 else q.totalLen }) := rfl

theorem weightAt_queueOf : q.queues.weightAt Entry.len source = (q.queueOf source).len := by
  cases h : q.queues.find? source <;> simp [OrdMap.weightAt, queueOf, h]

theorem requests_queueOf : (q.queueOf source).requests = q.contents source := by
  cases h : q.queues.find? source <;> simp [queueOf, contents, h, Entry.new]

variable {q}

theorem queueOf_consistent (hq : q.Consistent) :
    (q.queueOf source).len ≤ (q.queueOf source).maxSize ∧
      (q.queueOf source).maxSize = q.maxSizeQuery source := by
  cases h : q.queues.find? source with
  | none => simp [queueOf, h, Entry.new, Entry.len]
  | some e => simpa [queueOf, h] using ⟨hq.within_max source e h, hq.maxSize_eq source e h⟩

theorem push_consistent (hq : q.Consistent) : (q.push source item).2.Consistent := by
  obtain ⟨hle, hmax⟩ := queueOf_consistent source hq
  have htotal := OrdMap.total_insert Entry.len q.queues source ((q.queueOf source).push item).2
  rw [weightAt_queueOf, Entry.len_push] at htotal
  rw [push_eq]
  refine ⟨?_, fun s e hs => ?_, fun s e hs => ?_⟩
  · dsimp only
    rw [hq.totalLen_eq]
    by_cases hadd : ((q.queueOf source).push item).1 = true
    · rw [if_pos hadd] at htotal ⊢
      omega
    · rw [if_neg hadd] at htotal ⊢
      omega
  · rw [OrdMap.find?_insert] at hs
    by_cases hsrc : s = source
    · rw [if_pos hsrc, Option.some.injEq] at hs
      subst hs
      exact Entry.len_push_le hle item
    · rw [if_neg hsrc] at hs
      exact hq.within_max s e hs
  · rw [OrdMap.find?_insert] at hs
    by_cases hsrc : s = source
    · rw [if_pos hsrc, Option.some.injEq] at hs
      subst hs hsrc
      rw [Entry.maxSize_push, hmax]
    · rw [if_neg hsrc] at hs
      exact hq.maxSize_eq s e hs

variable (q)

theorem contents_push (s : S) :
    (q.push source item).2.contents s =
      if s = source ∧ (q.push source item).1 then q.contents source ++ [item]
      else q.contents s := by
  rw [push_eq]
  simp only [contents, OrdMap.find?_insert]
  by_cases hs : s = source
  · subst hs
    simp only [if_true, Option.map_some, Option.getD_some, Entry.requests_push,
      requests_queueOf, true_and]
    rfl
  · simp [hs]

end push

/-! ### clear and remove -/

@[simp] theorem clear_len (q : FairQueue S T) : q.clear.len = q.len := rfl

@[simp] theorem clear_total (q : FairQueue S T) : q.clear.queues.total Entry.len = 0 := rfl

@[simp] theorem contents_clear (q : FairQueue S T) (s : S) : q.clear.contents s = [] := rfl

theorem remove_consistent {q : FairQueue S T} (hq : q.Consistent) (key : S) :
    (q.remove key).Consistent := by
  unfold remove
  cases h : q.queues.find? key with
  | none => exact hq
  | some removed =>
    have htotal := OrdMap.total_erase Entry.len q.queues key
    rw [OrdMap.weightAt_of_find? h] at htotal
    refine ⟨?_, fun s e hs => ?_, fun s e hs => ?_⟩
    · dsimp only
      rw [hq.totalLen_eq]
      omega
    · by_cases hk : s = key
      · simp [hk] at hs
      · rw [OrdMap.find?_erase_ne _ hk] at hs
        exact hq.within_max s e hs
    · by_cases hk : s = key
      · simp [hk] at hs
      · rw [OrdMap.find?_erase_ne _ hk] at hs
        exact hq.maxSize_eq s e hs

theorem contents_remove (q : FairQueue S T) (key s : S) :
    (q.remove key).contents s = if s = key then [] else q.contents s := by
  unfold remove
  cases h : q.queues.find? key with
  | none =>
    by_cases hk : s = key
    · subst hk
      simp [contents, h]
    · simp [hk]
  | some removed =>
    by_cases hk : s = key
    · simp [contents, hk]
    · simp [contents, hk, OrdMap.find?_erase_ne _ hk]

/-! ### seek_next -/

section seek

def cyclicNext (n i : Nat) : Nat := if i + 1 < n then i + 1 else 0

def cyclicDist (n i t : Nat) : Nat := if i ≤ t then t - i else t + n - i

theorem cyclicNext_lt {n i : Nat} (hi : i < n) : cyclicNext n i < n := by
  unfold cyclicNext; split <;> omega

theorem cyclicDist_lt {n i t : Nat} (ht : t < n) : cyclicDist n i t < n := by
  unfold cyclicDist; split <;> omega

theorem cyclicDist_eq_zero {n i t : Nat} (hi : i < n) :
    cyclicDist n i t = 0 ↔ i = t := by
  unfold cyclicDist; split <;> omega

theorem cyclicDist_next {n i t : Nat} (hi : i < n) (ht : t < n) (hne : i ≠ t) :
    cyclicDist n (cyclicNext n i) t + 1 = cyclicDist n i t := by
  unfold cyclicDist cyclicNext; split_ifs <;> omega

theorem seekLoop_eq_ok {fuel : Nat} {q q' : FairQueue S T} (h : seekLoop fuel q = .ok q') :
    ∃ key queue, q' = { q with currentQueueKey := some key } ∧
      q.queues.find? key = some queue ∧ queue.isEmpty = false := by
  induction fuel generalizing q with
  | zero => simp [seekLoop] at h
  | succ fuel ih =>
    obtain ⟨key, -, h⟩ := bind_eq_ok.mp h
    cases hq : q.queues.find? key with
    | none => simp [hq] at h
    | some queue =>
      simp only [hq] at h
      by_cases he : queue.isEmpty = true
      · rw [he, Bool.not_true, if_neg Bool.false_ne_true] at h
        obtain ⟨key', queue', rfl, hfind, hne⟩ := ih h
        exact ⟨key', queue', rfl, hfind, hne⟩
      · rw [Bool.not_eq_true] at he
        rw [he, Bool.not_false, if_pos rfl] at h
        exact ⟨key, queue, (Except.ok.inj h).symm, hq, he⟩

variable {q : FairQueue S T}

theorem seekKey_mem {key : S} (h : q.seekKey = .ok key) : key ∈ q.queues.keys := by
  unfold seekKey at h
  cases hf : q.followingKey with
  | some key' =>
    rw [hf, Except.ok.injEq] at h
    subst h
    obtain ⟨c, -, hc⟩ := Option.bind_eq_some_iff.mp hf
    exact List.mem_of_mem_filter (List.mem_of_mem_drop (List.mem_of_mem_head? hc))
  | none =>
    rw [hf] at h
    cases hfirst : q.queues.first? with
    | none => simp [hfirst] at h
    | some e =>
      rw [hfirst, Except.ok.injEq] at h
      subst h
      exact List.mem_of_mem_head? (OrdMap.first?_key q.queues hfirst)

theorem seekKey_of_keys_nil (h : q.queues.keys = []) : q.seekKey = .error unwrapNone := by
  have hfollowing : q.followingKey = none := by
    cases hc : q.currentQueueKey <;> simp [followingKey, hc, h]
  have hfirst : q.queues.first? = none := (OrdMap.first?_eq_none_iff _).mpr h
  simp only [seekKey, hfollowing, hfirst]

theorem seekKey_ok (h : q.queues.keys ≠ []) : ∃ key, q.seekKey = .ok key := by
  unfold seekKey
  cases hf : q.followingKey with
  | some key => exact ⟨key, rfl⟩
  | none =>
    cases hfirst : q.queues.first? with
    | none => exact absurd ((OrdMap.first?_eq_none_iff _).mp hfirst) h
    | some e => exact ⟨e.1, rfl⟩

theorem seekKey_of_getElem {i : Nat} (hi : i < q.queues.keys.length)
    (hcur : q.currentQueueKey = some q.queues.keys[i]) :
    ∃ key, q.seekKey = .ok key ∧
      q.queues.keys[cyclicNext q.queues.keys.length i]? = some key := by
  have hfilter := OrdMap.filter_le_getElem q.queues.keys_sorted i hi
  have hfollowing : q.followingKey = q.queues.keys[i + 1]? := by
    rw [followingKey, hcur, Option.bind_some, hfilter, List.drop_drop, List.head?_drop,
      Nat.add_comm]
  unfold seekKey cyclicNext
  rw [hfollowing]
  by_cases hnext : i + 1 < q.queues.keys.length
  · rw [if_pos hnext, List.getElem?_eq_getElem hnext]
    exact ⟨_, rfl, rfl⟩
  · rw [List.getElem?_eq_none (by omega), if_neg hnext]
    have hhead : q.queues.keys[0]? = (q.queues.first?).map Prod.fst := by
      simp [OrdMap.keys, OrdMap.first?, List.head?_eq_getElem?]
    cases hfirst : q.queues.first? with
    | none =>
      exact absurd ((OrdMap.first?_eq_none_iff _).mp hfirst)
        (List.ne_nil_of_length_pos (by omega))
    | some e => exact ⟨e.1, rfl, by rw [hhead, hfirst]; rfl⟩

theorem seekLoop_succ_of_getElem {i k : Nat} (hi : i < q.queues.keys.length)
    (hcur : q.currentQueueKey = some q.queues.keys[i]) :
    ∃ key queue, q.queues.keys[cyclicNext q.queues.keys.length i]? = some key ∧
      q.queues.find? key = some queue ∧
      seekLoop (k + 1) q = if !queue.isEmpty then .ok { q with currentQueueKey := some key }
        else seekLoop k { q with currentQueueKey := some key } := by
  obtain ⟨key, hkey, hidx⟩ := seekKey_of_getElem hi hcur
  obtain ⟨queue, hqueue⟩ := Option.isSome_iff_exists.mp (OrdMap.mem_keys_iff.mp (seekKey_mem hkey))
  refine ⟨key, queue, hidx, hqueue, ?_⟩
  simp only [seekLoop, hkey, ok_bind, hqueue]
  rfl

theorem seekLoop_reaches {t : Nat} (ht : t < q.queues.keys.length) {queue : Entry T}
    (hqueue : q.queues.find? q.queues.keys[t] = some queue) (hne : queue.isEmpty = false) :
    ∀ d fuel i (hi : i < q.queues.keys.length),
      cyclicDist q.queues.keys.length (cyclicNext q.queues.keys.length i) t = d → d < fuel →
      ∃ r, seekLoop fuel { q with currentQueueKey := some q.queues.keys[i] } = .ok r := by
  intro d
  induction d with
  | zero =>
    intro fuel i hi hd hfuel
    obtain ⟨fuel, rfl⟩ : ∃ f, fuel = f + 1 := ⟨fuel - 1, by omega⟩
    obtain ⟨key, queue', hidx, hfind, hloop⟩ :=
      seekLoop_succ_of_getElem (q := { q with currentQueueKey := some q.queues.keys[i] })
        (k := fuel) hi rfl
    have hj := (cyclicDist_eq_zero (cyclicNext_lt hi)).mp hd
    rw [hj, List.getElem?_eq_getElem ht, Option.some.injEq] at hidx
    subst hidx
    have : queue' = queue := Option.some.inj (hfind.symm.trans hqueue)
    subst this
    rw [hloop, hne, Bool.not_false, if_pos rfl]
    exact ⟨_, rfl⟩
  | succ d ih =>
    intro fuel i hi hd hfuel
    obtain ⟨fuel, rfl⟩ : ∃ f, fuel = f + 1 := ⟨fuel - 1, by omega⟩
    obtain ⟨key, queue', hidx, hfind, hloop⟩ :=
      seekLoop_succ_of_getElem (q := { q with currentQueueKey := some q.queues.keys[i] })
        (k := fuel) hi rfl
    have hj := cyclicNext_lt hi
    rw [List.getElem?_eq_getElem hj, Option.some.injEq] at hidx
    subst hidx
    rw [hloop]
    cases hempty : queue'.isEmpty with
    | false => exact ⟨_, rfl⟩
    | true =>
      have hjt : cyclicNext q.queues.keys.length i ≠ t := by
        rintro heq
        simp only [heq] at hfind
        rw [hqueue, Option.some.injEq] at hfind
        rw [← hfind, hne] at hempty
        cases hempty
      have hstep := cyclicDist_next hj ht hjt
      exact ih fuel (cyclicNext q.queues.keys.length i) hj (by omega) (by omega)

/-- `seek_next` terminates as soon as some queue holds an item: within one turn per key. -/
theorem seekLoop_ok_of_nonempty {key : S} {queue : Entry T} (hqueue : q.queues.find? key = some queue)
    (hne : queue.isEmpty = false) {fuel : Nat} (hfuel : q.queues.keys.length < fuel) :
    ∃ r, seekLoop fuel q = .ok r := by
  obtain ⟨fuel, rfl⟩ : ∃ f, fuel = f + 1 := ⟨fuel - 1, by omega⟩
  have hkey : key ∈ q.queues.keys := OrdMap.mem_keys_iff.mpr (by simp [hqueue])
  obtain ⟨t, ht, rfl⟩ := List.mem_iff_getElem.mp hkey
  obtain ⟨first, hfirst⟩ := seekKey_ok (q := q) (List.ne_nil_of_mem hkey)
  obtain ⟨i, hi, rfl⟩ := List.mem_iff_getElem.mp (seekKey_mem hfirst)
  obtain ⟨queue', hqueue'⟩ :=
    Option.isSome_iff_exists.mp (OrdMap.mem_keys_iff.mp (List.getElem_mem hi))
  have hloop : seekLoop (fuel + 1) q = if !queue'.isEmpty
      then .ok { q with currentQueueKey := some q.queues.keys[i] }
      else seekLoop fuel { q with currentQueueKey := some q.queues.keys[i] } := by
    simp only [seekLoop, hfirst, ok_bind, hqueue']
    rfl
  rw [hloop]
  cases hempty : queue'.isEmpty with
  | false => exact ⟨_, rfl⟩
  | true =>
    have hd := cyclicDist_lt (n := q.queues.keys.length)
      (i := cyclicNext q.queues.keys.length i) ht
    exact seekLoop_reaches ht hqueue hne _ fuel i hi rfl (by omega)

end seek

/-! ### next -/

section next

variable {q : FairQueue S T}

@[simp] theorem served_queues (it : S) (e : Entry T) :
    (q.served it e).queues = q.queues.insert it e := rfl

@[simp] theorem served_totalLen (it : S) (e : Entry T) :
    (q.served it e).totalLen = q.totalLen - 1 := rfl

@[simp] theorem served_maxSizeQuery (it : S) (e : Entry T) :
    (q.served it e).maxSizeQuery = q.maxSizeQuery := rfl

theorem shouldSeek_eq_false (h : q.shouldSeek = false) :
    ∃ it queue, q.currentQueueKey = some it ∧ q.queues.find? it = some queue ∧
      queue.isEmpty = false := by
  unfold shouldSeek at h
  cases hcur : q.currentQueueKey with
  | none => simp [hcur] at h
  | some it =>
    cases hfind : q.queues.find? it with
    | none => simp [hcur, hfind] at h
    | some queue =>
      refine ⟨it, queue, rfl, hfind, ?_⟩
      simp only [hcur, hfind] at h
      cases he : queue.isEmpty
      · rfl
      · simp [he] at h

theorem chooseQueue_eq_ok {fuel : Nat} {q₀ : FairQueue S T} (h : q.chooseQueue fuel = .ok q₀) :
    q₀.queues = q.queues ∧ q₀.totalLen = q.totalLen ∧ q₀.maxSizeQuery = q.maxSizeQuery ∧
      ∃ it queue, q₀.currentQueueKey = some it ∧ q.queues.find? it = some queue ∧
        queue.isEmpty = false := by
  unfold chooseQueue at h
  cases hseek : q.shouldSeek with
  | true =>
    rw [if_pos hseek] at h
    obtain ⟨key, queue, rfl, hfind, hne⟩ := seekLoop_eq_ok h
    exact ⟨rfl, rfl, rfl, key, queue, rfl, hfind, hne⟩
  | false =>
    rw [hseek, if_neg Bool.false_ne_true] at h
    cases h
    exact ⟨rfl, rfl, rfl, shouldSeek_eq_false hseek⟩

theorem serve_of_requests {it : S} {queue : Entry T} {item : T} {rest : List T}
    (hcur : q.currentQueueKey = some it) (hfind : q.queues.find? it = some queue)
    (hreq : queue.requests = item :: rest) :
    q.serve = .ok (some (it, item), q.served it { queue with requests := rest }) := by
  simp only [serve, hcur, hfind, Entry.pop, hreq]
  rfl

theorem next_eq_ok {fuel : Nat} {r : Option (S × T)} {q' : FairQueue S T}
    (h : q.next fuel = .ok (r, q')) :
    ∃ (q₀ : FairQueue S T) (it : S) (queue : Entry T) (item : T) (rest : List T),
      q₀.queues = q.queues ∧ q₀.totalLen = q.totalLen ∧
      q₀.maxSizeQuery = q.maxSizeQuery ∧ q.queues.find? it = some queue ∧
      queue.requests = item :: rest ∧ r = some (it, item) ∧
      q' = q₀.served it { queue with requests := rest } := by
  obtain ⟨q₀, hchoose, hserve⟩ := bind_eq_ok.mp h
  obtain ⟨hqueues, htotal, hmax, it, queue, hcur, hfind, hne⟩ := chooseQueue_eq_ok hchoose
  obtain ⟨item, rest, hreq⟩ := Entry.exists_cons_of_isEmpty_eq_false hne
  rw [serve_of_requests hcur (hqueues ▸ hfind) hreq, Except.ok.injEq, Prod.mk.injEq] at hserve
  exact ⟨q₀, it, queue, item, rest, hqueues, htotal, hmax, hfind, hreq, hserve.1.symm,
    hserve.2.symm⟩

theorem next_consistent (hq : q.Consistent) {fuel : Nat} {r : Option (S × T)}
    {q' : FairQueue S T} (h : q.next fuel = .ok (r, q')) : q'.Consistent := by
  obtain ⟨q₀, it, queue, item, rest, hqueues, htotal, hmax, hfind, hreq, -, rfl⟩ := next_eq_ok h
  have hins := OrdMap.total_insert Entry.len q.queues it { queue with requests := rest }
  rw [OrdMap.weightAt_of_find? hfind] at hins
  have hlen : queue.len = rest.length + 1 := by simp [Entry.len, hreq]
  refine ⟨?_, fun s e hs => ?_, fun s e hs => ?_⟩
  · simp only [served_totalLen, served_queues, hqueues, htotal, hq.totalLen_eq]
    simp only [Entry.len] at hins hlen ⊢
    omega
  · rw [served_queues, hqueues, OrdMap.find?_insert] at hs
    by_cases hs' : s = it
    · rw [if_pos hs', Option.some.injEq] at hs
      subst hs
      have := hq.within_max it queue hfind
      simp only [Entry.len] at this hlen ⊢
      omega
    · rw [if_neg hs'] at hs
      exact hq.within_max s e hs
  · rw [served_queues, hqueues, OrdMap.find?_insert] at hs
    by_cases hs' : s = it
    · rw [if_pos hs', Option.some.injEq] at hs
      subst hs hs'
      rw [served_maxSizeQuery, hmax]
      exact hq.maxSize_eq _ queue hfind
    · rw [if_neg hs'] at hs
      rw [served_maxSizeQuery, hmax]
      exact hq.maxSize_eq s e hs

theorem contents_next {fuel : Nat} {it : S} {item : T} {q' : FairQueue S T}
    (h : q.next fuel = .ok (some (it, item), q')) (s : S) :
    q.contents s = if s = it then item :: q'.contents s else q'.contents s := by
  obtain ⟨q₀, it', queue, item', rest, hqueues, -, -, hfind, hreq, hr, rfl⟩ := next_eq_ok h
  obtain ⟨rfl, rfl⟩ := Prod.mk.inj (Option.some.inj hr)
  simp only [contents, served_queues, hqueues, OrdMap.find?_insert]
  by_cases hs : s = it
  · subst hs
    simp [hfind, hreq]
  · simp [hs]

theorem next_keys_length {fuel : Nat} {r : Option (S × T)} {q' : FairQueue S T}
    (h : q.next fuel = .ok (r, q')) : q'.queues.keys.length = q.queues.keys.length := by
  obtain ⟨q₀, it, queue, item, rest, hqueues, -, -, hfind, -, -, rfl⟩ := next_eq_ok h
  rw [served_queues, hqueues, OrdMap.length_keys, OrdMap.length_keys,
    OrdMap.size_insert_of_isSome (by simp [hfind])]

theorem next_len (hq : q.Consistent) {fuel : Nat} {r : Option (S × T)} {q' : FairQueue S T}
    (h : q.next fuel = .ok (r, q')) : q'.len + 1 = q.len := by
  obtain ⟨q₀, it, queue, item, rest, -, htotal, -, hfind, hreq, -, rfl⟩ := next_eq_ok h
  have hpos : 0 < q.queues.weightAt Entry.len it := by
    simp [OrdMap.weightAt_of_find? hfind, Entry.len, hreq]
  have := OrdMap.weightAt_le_total Entry.len q.queues it
  simp only [len, served_totalLen, htotal, hq.totalLen_eq]
  omega

theorem next_ok (hq : q.Consistent) (hlen : 0 < q.len) {fuel : Nat}
    (hfuel : q.queues.keys.length < fuel) :
    ∃ it item q', q.next fuel = .ok (some (it, item), q') := by
  rw [len, hq.totalLen_eq] at hlen
  obtain ⟨key, queue, hfind, hpos⟩ := OrdMap.exists_of_total_pos hlen
  have hne : queue.isEmpty = false := (Entry.isEmpty_eq_false_iff queue).mpr hpos
  have hchoose : ∃ q₀, q.chooseQueue fuel = .ok q₀ := by
    unfold chooseQueue
    cases hseek : q.shouldSeek with
    | true => exact seekLoop_ok_of_nonempty (q := { q with counter := 0 }) hfind hne hfuel
    | false => exact ⟨q, rfl⟩
  obtain ⟨q₀, hq₀⟩ := hchoose
  obtain ⟨hqueues, -, -, it, queue', hcur, hfind', hne'⟩ := chooseQueue_eq_ok hq₀
  obtain ⟨item, rest, hreq⟩ := Entry.exists_cons_of_isEmpty_eq_false hne'
  refine ⟨it, item, q₀.served it { queue' with requests := rest }, ?_⟩
  simp only [next, hq₀, ok_bind]
  exact serve_of_requests hcur (hqueues ▸ hfind') hreq

/-- With `len()` at zero, `next` never returns: it panics when no queue exists and loops
forever when every queue is empty. -/
theorem next_ne_ok_of_len_zero (hq : q.Consistent) (hlen : q.len = 0) (fuel : Nat)
    (r : Option (S × T)) (q' : FairQueue S T) : q.next fuel ≠ .ok (r, q') := by
  intro h
  have := next_len hq h
  omega

end next

/-! ### next_batch -/

theorem nextBatchLoop_ok {fuel : Nat} :
    ∀ (count : Nat) (q : FairQueue S T) (result : List (S × T)), q.Consistent →
      count ≤ q.len → q.queues.keys.length < fuel →
      ∃ items q', nextBatchLoop fuel count q result = .ok (result ++ items, q') ∧
        items.length = count ∧ q'.Consistent ∧ q'.len + count = q.len := by
  intro count
  induction count with
  | zero =>
    intro q result hq _ _
    exact ⟨[], q, by simp [nextBatchLoop], rfl, hq, rfl⟩
  | succ count ih =>
    intro q result hq hcount hfuel
    obtain ⟨it, item, q₁, hnext⟩ := next_ok hq (by omega) hfuel
    have hq₁ := next_consistent hq hnext
    have hlen₁ := next_len hq hnext
    obtain ⟨items, q', hloop, hlength, hq', hlen'⟩ := ih q₁ (result ++ [(it, item)]) hq₁
      (by omega) (by rw [next_keys_length hnext]; exact hfuel)
    refine ⟨(it, item) :: items, q', ?_, by simp [hlength], hq', by omega⟩
    simp only [nextBatchLoop, hnext, ok_bind]
    rw [hloop, List.append_assoc, List.singleton_append]

theorem nextBatch_ok {q : FairQueue S T} (hq : q.Consistent) {fuel : Nat}
    (hfuel : q.queues.keys.length < fuel) (maxCount : Nat) :
    ∃ items q', q.nextBatch fuel maxCount = .ok (items, q') ∧
      items.length = min q.len maxCount ∧ q'.Consistent := by
  obtain ⟨items, q', hloop, hlength, hq', -⟩ :=
    nextBatchLoop_ok (min q.len maxCount) q [] hq (Nat.min_le_left _ _) hfuel
  exact ⟨items, q', hloop, hlength, hq'⟩

/-! ### Runs -/

inductive Step (fuel : Nat) : FairQueue S T → FairQueue S T → Prop
  | push (q : FairQueue S T) (source : S) (item : T) : Step fuel q (q.push source item).2
  | next {q q' : FairQueue S T} {r : Option (S × T)} :
      q.next fuel = .ok (r, q') → Step fuel q q'
  | nextBatch {q q' : FairQueue S T} {maxCount : Nat} {items : List (S × T)} :
      q.nextBatch fuel maxCount = .ok (items, q') → Step fuel q q'
  | remove (q : FairQueue S T) (key : S) : Step fuel q (q.remove key)

theorem nextBatchLoop_consistent {fuel : Nat} :
    ∀ (count : Nat) {q q' : FairQueue S T} {result items : List (S × T)}, q.Consistent →
      nextBatchLoop fuel count q result = .ok (items, q') → q'.Consistent := by
  intro count
  induction count with
  | zero =>
    intro q q' result items hq h
    simp only [nextBatchLoop, Except.ok.injEq, Prod.mk.injEq] at h
    exact h.2 ▸ hq
  | succ count ih =>
    intro q q' result items hq h
    obtain ⟨⟨r, q₁⟩, hnext, h⟩ := bind_eq_ok.mp h
    cases r with
    | none => cases h
    | some item => exact ih (next_consistent hq hnext) h

theorem step_consistent {fuel : Nat} {q q' : FairQueue S T} (h : Step fuel q q')
    (hq : q.Consistent) : q'.Consistent := by
  cases h with
  | push source item => exact push_consistent source item hq
  | next h => exact next_consistent hq h
  | nextBatch h => exact nextBatchLoop_consistent _ hq h
  | remove key => exact remove_consistent hq key

/-- Over any run of `push`, `next`, `next_batch` and `remove`, `len()` is the sum of the queue
lengths and no queue outgrows the limit it was created with. -/
theorem run_consistent {fuel : Nat} {q q' : FairQueue S T}
    (h : Relation.ReflTransGen (Step fuel) q q') (hq : q.Consistent) : q'.Consistent := by
  induction h with
  | refl => exact hq
  | tail _ step ih => exact step_consistent step ih

/-- `clear` empties the queues but keeps `total_len`: `len()` still counts every item it
dropped, and the next `next` panics at `first_key_value().unwrap()` with no queue left. -/
theorem clear_keeps_len (q : FairQueue S T) (fuel : Nat) :
    q.clear.queues.total Entry.len = 0 ∧ q.clear.len = q.len ∧
      q.clear.next (fuel + 1) = .error unwrapNone := by
  refine ⟨rfl, rfl, ?_⟩
  have hseek : q.clear.shouldSeek = true := by
    unfold shouldSeek
    cases q.clear.currentQueueKey <;> rfl
  have hkey := seekKey_of_keys_nil (q := { q.clear with counter := 0 }) rfl
  simp only [next, chooseQueue, hseek, if_pos, seekNext, seekLoop, hkey, error_bind]

example : (((new (fun _ => 1) (fun _ => 1) : FairQueue Nat Nat).push 0 5).2.clear).len = 1 := rfl

end FairQueue

end RsbanNode.Transport
