import RsbanNode.Library.Result

namespace RsbanNode.Bootstrap

open RsbanNode.Result

/-- `Throttle`: the deque of sample results, oldest first, and the cached count of its `true`s. -/
structure Throttle where
  samples : List Bool
  successes : Nat
deriving DecidableEq, Repr

namespace Throttle

def new (size : Nat) : Throttle := ⟨List.replicate size true, size⟩

def throttled (t : Throttle) : Bool := t.successes == 0

/-- `pop`: the oldest sample goes, and a success with it from the count. -/
def pop (t : Throttle) : Except String Throttle :=
  match t.samples with
  | sample :: rest =>
    if sample then do
      let successes ← checkedSub t.successes 1
      pure ⟨rest, successes⟩
    else pure ⟨rest, t.successes⟩
  | [] => pure t

def add (t : Throttle) (sample : Bool) : Except String Throttle := do
  let t ← t.pop
  pure ⟨t.samples ++ [sample], if sample then t.successes + 1 else t.successes⟩

/-- The first loop of `resize`, `while samples.len() > size { pop() }`, for at most `fuel`
rounds. -/
def popWhile (size : Nat) : Nat → Throttle → Except String Throttle
  | 0, t => pure t
  | fuel + 1, t =>
    if t.samples.length > size then do
      let t ← t.pop
      popWhile size fuel t
    else pure t

/-- The second loop, `while samples.len() < size { push_back(false) }`, for at most `fuel`
rounds. -/
def pushWhile (size : Nat) : Nat → Throttle → Throttle
  | 0, t => t
  | fuel + 1, t =>
    if t.samples.length < size then pushWhile size fuel ⟨t.samples ++ [false], t.successes⟩
    else t

/-- `resize`. Each round of a loop moves the length one step towards `size`, so the first
loop needs at most the old length of rounds and the second at most `size`. -/
def resize (t : Throttle) (size : Nat) : Except String Throttle := do
  let t ← popWhile size t.samples.length t
  pure (pushWhile size size t)

def len (t : Throttle) : Nat := t.samples.length

inductive Call where
  | add (sample : Bool)
  | resize (size : Nat)

def Call.apply : Call → Throttle → Except String Throttle
  | .add sample, t => t.add sample
  | .resize size, t => t.resize size

def run (size : Nat) (calls : List Call) : Except String Throttle :=
  calls.foldlM (fun t call => call.apply t) (new size)

def lastSize (size : Nat) : List Call → Nat
  | [] => size
  | .add _ :: calls => lastSize size calls
  | .resize size' :: calls => lastSize size' calls

end Throttle

/-! ## The cached count -/

namespace Throttle

/-- The throttle of a sample window, its count right. Every throttle the calls build is one. -/
def ofSamples (samples : List Bool) : Throttle := ⟨samples, samples.count true⟩

variable {samples : List Bool}

@[simp] theorem samples_ofSamples : (ofSamples samples).samples = samples := rfl

@[simp] theorem successes_ofSamples : (ofSamples samples).successes = samples.count true := rfl

theorem new_eq (size : Nat) : new size = ofSamples (List.replicate size true) := by
  simp [new, ofSamples, List.count_replicate_self]

theorem pop_ofSamples : (ofSamples samples).pop = .ok (ofSamples samples.tail) := by
  cases samples with
  | nil => rfl
  | cons sample rest =>
    cases sample with
    | true =>
      have hcount : (ofSamples (true :: rest)).successes = rest.count true + 1 := by simp
      simp only [pop, samples_ofSamples, if_true, hcount,
        checkedSub_of_le (Nat.le_add_left 1 _), Result.ok_bind]
      rfl
    | false => simp [pop, ofSamples]

theorem add_ofSamples (sample : Bool) :
    (ofSamples samples).add sample = .ok (ofSamples (samples.tail ++ [sample])) := by
  unfold add
  rw [pop_ofSamples, Result.ok_bind]
  cases sample <;> simp [ofSamples]

theorem popWhile_ofSamples (size : Nat) {fuel : Nat} (hfuel : samples.length - size ≤ fuel) :
    popWhile size fuel (ofSamples samples) =
      .ok (ofSamples (samples.drop (samples.length - size))) := by
  induction fuel generalizing samples with
  | zero =>
    have hdrop : samples.length - size = 0 := Nat.le_zero.mp hfuel
    rw [hdrop, List.drop_zero]
    rfl
  | succ fuel ih =>
    by_cases hlong : samples.length > size
    · have htail : samples.tail.length - size ≤ fuel := by
        rw [List.length_tail]
        omega
      have hdrop : samples.tail.drop (samples.tail.length - size) =
          samples.drop (samples.length - size) := by
        rw [← List.drop_one, List.drop_drop, List.length_drop]
        congr 1
        omega
      simp only [popWhile, samples_ofSamples, if_pos hlong, pop_ofSamples, Result.ok_bind,
        ih htail, hdrop]
    · have hdrop : samples.length - size = 0 := by omega
      simp [popWhile, hlong, hdrop]

theorem pushWhile_ofSamples (size : Nat) {fuel : Nat} (hfuel : size - samples.length ≤ fuel) :
    pushWhile size fuel (ofSamples samples) =
      ofSamples (samples ++ List.replicate (size - samples.length) false) := by
  induction fuel generalizing samples with
  | zero =>
    have hpad : size - samples.length = 0 := Nat.le_zero.mp hfuel
    rw [hpad, List.replicate_zero, List.append_nil]
    rfl
  | succ fuel ih =>
    by_cases hshort : samples.length < size
    · have hmore : size - (samples ++ [false]).length ≤ fuel := by
        rw [List.length_append, List.length_singleton]
        omega
      have hcount : (ofSamples samples).successes = (samples ++ [false]).count true := by simp
      simp only [pushWhile, samples_ofSamples, if_pos hshort, hcount]
      rw [show (⟨samples ++ [false], (samples ++ [false]).count true⟩ : Throttle) =
        ofSamples (samples ++ [false]) from rfl, ih hmore]
      have hpad : size - samples.length = (size - (samples ++ [false]).length) + 1 := by
        rw [List.length_append, List.length_singleton]
        omega
      rw [hpad, List.replicate_succ, List.append_assoc, List.singleton_append]
    · have hpad : size - samples.length = 0 := by omega
      simp [pushWhile, hshort, hpad]

/-- `resize` keeps the newest `size` samples and pads with `false` up to `size`. -/
theorem resize_ofSamples (size : Nat) :
    (ofSamples samples).resize size = .ok (ofSamples (samples.drop (samples.length - size) ++
      List.replicate (size - (samples.drop (samples.length - size)).length) false)) := by
  simp only [resize, samples_ofSamples, popWhile_ofSamples size (Nat.sub_le _ _),
    Result.ok_bind, Result.pure_eq_ok]
  rw [pushWhile_ofSamples size (Nat.sub_le _ _)]

theorem length_resize_samples (size : Nat) :
    (samples.drop (samples.length - size) ++
      List.replicate (size - (samples.drop (samples.length - size)).length) false).length = size := by
  simp only [List.length_append, List.length_drop, List.length_replicate]
  omega

theorem apply_ofSamples (call : Call) (hpos : 0 < samples.length) :
    ∃ samples', call.apply (ofSamples samples) = .ok (ofSamples samples') ∧
      samples'.length = lastSize samples.length [call] := by
  cases call with
  | add sample =>
    refine ⟨_, add_ofSamples sample, ?_⟩
    simp only [List.length_append, List.length_tail, List.length_singleton, lastSize]
    omega
  | resize size => exact ⟨_, resize_ofSamples size, length_resize_samples size⟩

theorem foldlM_ofSamples (calls : List Call) (hpos : 0 < samples.length)
    (hcalls : ∀ n, Call.resize n ∈ calls → 0 < n) :
    ∃ samples', calls.foldlM (fun t call => call.apply t) (ofSamples samples) =
        .ok (ofSamples samples') ∧ samples'.length = lastSize samples.length calls := by
  induction calls generalizing samples with
  | nil => exact ⟨samples, rfl, rfl⟩
  | cons call calls ih =>
    obtain ⟨samples₁, happly, hlen₁⟩ := apply_ofSamples call hpos
    have hpos₁ : 0 < samples₁.length := by
      cases call with
      | add sample => simp only [hlen₁, lastSize]; exact hpos
      | resize size => simpa [hlen₁, lastSize] using hcalls size List.mem_cons_self
    obtain ⟨samples₂, hfold, hlen₂⟩ :=
      ih hpos₁ fun n hn => hcalls n (List.mem_cons_of_mem _ hn)
    refine ⟨samples₂, ?_, ?_⟩
    · rw [List.foldlM_cons, happly, Result.ok_bind]
      exact hfold
    · rw [hlen₂, hlen₁]
      cases call <;> rfl

/-- Every sequence of `add` and `resize` (sizes at least one) from `Throttle::new(size)`
succeeds: `pop`'s subtraction never underflows. The count is that of the `true` samples, the
window has the size last asked for, and the throttle is throttled exactly when no sample is
`true`. -/
theorem run_keeps_successes_count (size : Nat) (calls : List Call) (hsize : 0 < size)
    (hcalls : ∀ n, Call.resize n ∈ calls → 0 < n) :
    ∃ t, run size calls = .ok t ∧ t.successes = t.samples.count true ∧
      t.len = lastSize size calls ∧ (t.throttled = true ↔ true ∉ t.samples) := by
  have hpos : 0 < (List.replicate size true).length := by simpa using hsize
  obtain ⟨samples', hrun, hlen⟩ := foldlM_ofSamples calls hpos hcalls
  refine ⟨ofSamples samples', by rw [run, new_eq]; exact hrun, rfl, ?_, ?_⟩
  · rw [len, samples_ofSamples, hlen, List.length_replicate]
  · simp [throttled, List.count_eq_zero]

/-- The test `resize_up`: two samples, a failure, a resize to four and another failure. -/
theorem run_keeps_successes_count_resize_up :
    0 < 2 ∧ (∀ n, Call.resize n ∈ [.add false, .resize 4, .add false] → 0 < n) ∧
      ∃ t, run 2 [.add false, .resize 4, .add false] = .ok t ∧
        t.successes = t.samples.count true ∧ t.len = 4 ∧
        (t.throttled = true ↔ true ∉ t.samples) := by
  have hcalls : ∀ n, Call.resize n ∈ [.add false, .resize 4, .add false] → 0 < n := by
    intro n hn
    simp only [List.mem_cons, reduceCtorEq, Call.resize.injEq, List.not_mem_nil, or_false,
      false_or] at hn
    omega
  exact ⟨by decide, hcalls, run_keeps_successes_count 2 _ (by decide) hcalls⟩

end Throttle

end RsbanNode.Bootstrap
