import Mathlib

namespace RsbanNode.ByteCodec

def toBytesLE : Nat → Nat → List UInt8
  | 0, _ => []
  | width + 1, n => UInt8.ofNat (n % 256) :: toBytesLE width (n / 256)

def ofBytesLE : List UInt8 → Nat
  | [] => 0
  | b :: bs => b.toNat + 256 * ofBytesLE bs

def toBytesBE (width n : Nat) : List UInt8 := (toBytesLE width n).reverse

def ofBytesBE (bs : List UInt8) : Nat := ofBytesLE bs.reverse

@[simp] theorem length_toBytesLE (width n : Nat) : (toBytesLE width n).length = width := by
  induction width generalizing n with
  | zero => rfl
  | succ w ih => simp [toBytesLE, ih]

@[simp] theorem length_toBytesBE (width n : Nat) : (toBytesBE width n).length = width := by
  simp [toBytesBE]

theorem ofBytesLE_lt (bs : List UInt8) : ofBytesLE bs < 256 ^ bs.length := by
  induction bs with
  | nil => simp [ofBytesLE]
  | cons b bs ih =>
    have hb : b.toNat < 256 := b.toNat_lt
    simp only [ofBytesLE, List.length_cons, Nat.pow_succ]
    omega

theorem ofBytesBE_lt (bs : List UInt8) : ofBytesBE bs < 256 ^ bs.length := by
  simpa [ofBytesBE] using ofBytesLE_lt bs.reverse

theorem ofBytesLE_replicate_zero (n : Nat) : ofBytesLE (List.replicate n 0) = 0 := by
  induction n with
  | zero => rfl
  | succ n ih => simp [List.replicate_succ, ofBytesLE, ih]

theorem ofBytesBE_replicate_zero (n : Nat) : ofBytesBE (List.replicate n 0) = 0 := by
  rw [ofBytesBE, List.reverse_replicate, ofBytesLE_replicate_zero]

theorem ofBytesLE_toBytesLE (width n : Nat) : ofBytesLE (toBytesLE width n) = n % 256 ^ width := by
  induction width generalizing n with
  | zero => simp [toBytesLE, ofBytesLE, Nat.mod_one]
  | succ w ih =>
    have hlow : (UInt8.ofNat (n % 256)).toNat = n % 256 := by
      simp
    rw [toBytesLE, ofBytesLE, hlow, ih, Nat.pow_succ', Nat.mod_mul]

theorem ofBytesBE_toBytesBE (width n : Nat) : ofBytesBE (toBytesBE width n) = n % 256 ^ width := by
  simp [ofBytesBE, toBytesBE, ofBytesLE_toBytesLE]

theorem toBytesLE_ofBytesLE (bs : List UInt8) : toBytesLE bs.length (ofBytesLE bs) = bs := by
  induction bs with
  | nil => rfl
  | cons b bs ih =>
    have hb : b.toNat < 256 := b.toNat_lt
    have hmod : (b.toNat + 256 * ofBytesLE bs) % 256 = b.toNat := by omega
    have hdiv : (b.toNat + 256 * ofBytesLE bs) / 256 = ofBytesLE bs := by omega
    simp only [List.length_cons, toBytesLE, ofBytesLE, hmod, hdiv, ih, UInt8.ofNat_toNat]

theorem toBytesBE_ofBytesBE (bs : List UInt8) : toBytesBE bs.length (ofBytesBE bs) = bs := by
  have h := toBytesLE_ofBytesLE bs.reverse
  rw [List.length_reverse] at h
  rw [toBytesBE, ofBytesBE, h, List.reverse_reverse]

theorem eq_of_ofBytesLE_eq {xs ys : List UInt8} (hlen : xs.length = ys.length)
    (h : ofBytesLE xs = ofBytesLE ys) : xs = ys := by
  rw [← toBytesLE_ofBytesLE xs, ← toBytesLE_ofBytesLE ys, hlen, h]

theorem toBytesLE_add (w k n : Nat) :
    toBytesLE (w + k) n = toBytesLE w n ++ toBytesLE k (n / 256 ^ w) := by
  induction w generalizing n with
  | zero => simp [toBytesLE]
  | succ w ih =>
    have hdiv : n / 256 / 256 ^ w = n / 256 ^ (w + 1) := by
      rw [Nat.div_div_eq_div_mul, Nat.pow_succ']
    rw [Nat.add_right_comm, toBytesLE, ih, hdiv, toBytesLE, List.cons_append]

theorem drop_toBytesBE (w k n : Nat) : (toBytesBE (w + k) n).drop k = toBytesBE w n := by
  have hlen : (toBytesLE k (n / 256 ^ w)).reverse.length = k := by simp
  rw [toBytesBE, toBytesLE_add, List.reverse_append, List.drop_left' hlen, toBytesBE]

abbrev Reader (ε : Type) := StateT (List UInt8) (Except ε)

variable {ε α β : Type}

def take (err : ε) (n : Nat) : Reader ε (List UInt8) := fun s =>
  if n ≤ s.length then .ok (s.take n, s.drop n) else .error err

def byte (err : ε) : Reader ε UInt8 := fun s =>
  match s with
  | [] => .error err
  | b :: rest => .ok (b, rest)

def takeExact (err : ε) (n : Nat) : Reader ε {l : List UInt8 // l.length = n} := fun s =>
  if h : n ≤ s.length then .ok (⟨s.take n, by simp [h]⟩, s.drop n) else .error err

theorem takeExact_append (err : ε) {xs : List UInt8} (rest : List UInt8) {n : Nat}
    (h : xs.length = n) : (takeExact err n).run (xs ++ rest) = .ok (⟨xs, h⟩, rest) := by
  subst h
  simp [takeExact, StateT.run]

theorem take_append (err : ε) {xs : List UInt8} (rest : List UInt8) {n : Nat}
    (h : xs.length = n) : (take err n).run (xs ++ rest) = .ok (xs, rest) := by
  subst h
  simp [take, StateT.run]

theorem byte_cons (err : ε) (b : UInt8) (rest : List UInt8) :
    (byte err).run (b :: rest) = .ok (b, rest) := rfl

theorem run_bind_ok {x : Reader ε α} {f : α → Reader ε β} {s s' : List UInt8} {a : α}
    (h : x.run s = .ok (a, s')) : (x >>= f).run s = (f a).run s' := by
  simp only [StateT.run] at h ⊢
  simp [StateT.bind, h, bind, Except.bind]

theorem run_map_ok {x : Reader ε α} {f : α → β} {s s' : List UInt8} {a : α}
    (h : x.run s = .ok (a, s')) : (f <$> x).run s = .ok (f a, s') := by
  simp only [StateT.run] at h ⊢
  simp [StateT.map, h, Functor.map, Except.map]

theorem run_pure (a : α) (s : List UInt8) : (pure a : Reader ε α).run s = .ok (a, s) := rfl

theorem run_get_bind (f : List UInt8 → Reader ε β) (s : List UInt8) :
    (get >>= f).run s = (f s).run s := rfl

/-- Run a decoder and report its failure as `none`, as a loop `while let Ok(x) = read()` does;
the input is left where it was before the failed read. -/
def attempt (r : Reader ε α) : Reader ε (Option α) := fun s =>
  match r.run s with
  | .ok (a, s') => .ok (some a, s')
  | .error _ => .ok (none, s)

theorem attempt_run_ok {r : Reader ε α} {s s' : List UInt8} {a : α} (h : r.run s = .ok (a, s')) :
    (attempt r).run s = .ok (some a, s') := by
  simp only [StateT.run] at h ⊢
  simp [attempt, StateT.run, h]

theorem attempt_run_error {r : Reader ε α} {s : List UInt8} {e : ε} (h : r.run s = .error e) :
    (attempt r).run s = .ok (none, s) := by
  simp only [StateT.run] at h ⊢
  simp [attempt, StateT.run, h]

section Slices

variable {α : Type}

def slice (data : List α) (offset n : Nat) : List α := (data.drop offset).take n

/-- `data[offset..offset + src.len()].copy_from_slice(src)`, for a range inside the data. -/
def patch (data : List α) (offset : Nat) (src : List α) : List α :=
  data.take offset ++ src ++ data.drop (offset + src.length)

theorem length_slice {data : List α} {offset n : Nat} (h : offset + n ≤ data.length) :
    (slice data offset n).length = n := by
  simp only [slice, List.length_take, List.length_drop]
  omega

theorem slice_append (xs ys zs : List α) : slice (xs ++ ys ++ zs) xs.length ys.length = ys := by
  simp [slice, List.append_assoc]

theorem patch_append (xs ys zs : List α) {src : List α} (h : src.length = ys.length) :
    patch (xs ++ ys ++ zs) xs.length src = xs ++ src ++ zs := by
  have htake : (xs ++ ys ++ zs).take xs.length = xs := by
    rw [List.append_assoc, List.take_left]
  have hdrop : (xs ++ ys ++ zs).drop (xs.length + ys.length) = zs := by
    rw [List.append_assoc, List.drop_append, List.drop_eq_nil_of_le (by omega),
      Nat.add_sub_cancel_left, List.drop_left, List.nil_append]
  simp only [patch, h, htake, hdrop]

end Slices

end RsbanNode.ByteCodec
