import RsbanNode.Library.ByteCodec
import RsbanNode.Library.FiniteMap

namespace RsbanNode.Primitives

open RsbanNode.ByteCodec RsbanNode.FiniteMap

/-- A byte array of fixed length, `[u8; n]`. -/
@[ext] structure FixedBytes (n : Nat) where
  bytes : List UInt8
  length_eq : bytes.length = n
deriving DecidableEq

namespace FixedBytes

variable {n : Nat}

def zero (n : Nat) : FixedBytes n := ⟨List.replicate n 0, List.length_replicate⟩

def isZero (b : FixedBytes n) : Bool := b == zero n

/-- The big-endian value `U256::from_big_endian` reads from the bytes. -/
def toNat (b : FixedBytes n) : Nat := ofBytesBE b.bytes

/-- The value `v` written big-endian, as `From<u64>` and `From<U256>` build keys. -/
def ofNat (n v : Nat) : FixedBytes n := ⟨toBytesBE n v, length_toBytesBE n v⟩

instance : Inhabited (FixedBytes n) := ⟨zero n⟩

@[simp] theorem isZero_iff (b : FixedBytes n) : b.isZero = true ↔ b = zero n := by
  simp [isZero]

theorem toNat_lt (b : FixedBytes n) : b.toNat < 256 ^ n := by
  simpa [toNat, b.length_eq] using ofBytesBE_lt b.bytes

theorem ofNat_toNat (b : FixedBytes n) : ofNat n b.toNat = b := by
  obtain ⟨bytes, h⟩ := b
  subst h
  simp [ofNat, toNat, toBytesBE_ofBytesBE]

theorem toNat_ofNat (v : Nat) : (ofNat n v).toNat = v % 256 ^ n := by
  simp [ofNat, toNat, ofBytesBE_toBytesBE]

theorem toNat_injective : Function.Injective (toNat : FixedBytes n → Nat) := fun a b h => by
  rw [← ofNat_toNat a, ← ofNat_toNat b, h]

/-- The derived `Ord` of the byte array is lexicographic, which on arrays of one length is the
order of their big-endian values. -/
instance : LinearOrder (FixedBytes n) :=
  LinearOrder.lift' toNat toNat_injective

theorem le_iff_toNat_le {a b : FixedBytes n} : a ≤ b ↔ a.toNat ≤ b.toNat := Iff.rfl

theorem lt_iff_toNat_lt {a b : FixedBytes n} : a < b ↔ a.toNat < b.toNat := Iff.rfl

@[simp] theorem toNat_zero : (zero n).toNat = 0 := ofBytesBE_replicate_zero n

theorem zero_le (b : FixedBytes n) : zero n ≤ b := by
  rw [le_iff_toNat_le, toNat_zero]
  exact Nat.zero_le _

/-- `inc`: the value one above, none for the largest (`checked_add(1)`). -/
def inc (b : FixedBytes n) : Option (FixedBytes n) :=
  if b.toNat + 1 < 256 ^ n then some (ofNat n (b.toNat + 1)) else none

theorem le_iff_lt_of_inc {b b' : FixedBytes n} (h : b.inc = some b') (c : FixedBytes n) :
    b' ≤ c ↔ b < c := by
  unfold inc at h
  split_ifs at h with hlt
  cases h
  rw [le_iff_toNat_le, lt_iff_toNat_lt, toNat_ofNat, Nat.mod_eq_of_lt hlt]
  omega

theorem le_of_inc_eq_none {b : FixedBytes n} (h : b.inc = none) (c : FixedBytes n) : c ≤ b := by
  unfold inc at h
  split_ifs at h with hlt
  have hc := toNat_lt c
  rw [le_iff_toNat_le]
  omega

end FixedBytes

/-- `u256_struct!`: accounts, block hashes, public keys, links and roots share one layout,
and `From` conversions between them keep the bytes. -/
abbrev U256 := FixedBytes 32
abbrev Account := U256
abbrev BlockHash := U256
abbrev PublicKey := U256
abbrev Link := U256
abbrev Root := U256
abbrev Signature := FixedBytes 64

/-- `Amount` wraps a `u128`; its `+` and `-` are the release build's wrapping operations. -/
abbrev Amount := BitVec 128

inductive Epoch
  | invalid
  | unspecified
  | epoch0
  | epoch1
  | epoch2
deriving DecidableEq, Repr

namespace Epoch

/-- The `#[repr(u8)]` discriminant. -/
def toU8 : Epoch → UInt8
  | invalid => 0
  | unspecified => 1
  | epoch0 => 2
  | epoch1 => 3
  | epoch2 => 4

def fromU8 (v : UInt8) : Option Epoch :=
  if v = 0 then some invalid
  else if v = 1 then some unspecified
  else if v = 2 then some epoch0
  else if v = 3 then some epoch1
  else if v = 4 then some epoch2
  else none

@[simp] theorem fromU8_toU8 (e : Epoch) : fromU8 e.toU8 = some e := by
  cases e <;> decide

theorem toU8_lt (e : Epoch) : e.toU8.toNat < 5 := by
  cases e <;> decide

/-- `std::cmp::max` on the derived order, which follows the discriminants. -/
def max (a b : Epoch) : Epoch := if a.toU8 ≤ b.toU8 then b else a

end Epoch

structure EpochInfo where
  signer : PublicKey
  link : Link
deriving DecidableEq

/-- The released epochs, `HashMap<Epoch, EpochInfo>`. -/
structure Epochs where
  epochs : Table Epoch EpochInfo

namespace Epochs

def isEpochLink (e : Epochs) (link : Link) : Bool :=
  e.epochs.entries.any (fun x => x.2.link == link)

def link (e : Epochs) (epoch : Epoch) : Option Link := (e.epochs.lookup epoch).map (·.link)

def signer (e : Epochs) (epoch : Epoch) : Option PublicKey := (e.epochs.lookup epoch).map (·.signer)

def epoch (e : Epochs) (link : Link) : Option Epoch :=
  (e.epochs.entries.find? (fun x => x.2.link == link)).map (·.1)

def isSequential (epoch newEpoch : Epoch) : Bool :=
  epoch.toU8 ≥ Epoch.epoch0.toU8 && newEpoch.toU8 == epoch.toU8 + 1

def epochSigner (e : Epochs) (link : Link) : Option Account := (e.epoch link).bind e.signer

theorem isEpochLink_iff_epoch_isSome (e : Epochs) (link : Link) :
    e.isEpochLink link = true ↔ (e.epoch link).isSome := by
  simp [isEpochLink, epoch, List.find?_isSome]

end Epochs

/-- The primitives the node takes from crates outside the repository: Blake2b-256 for block
hashes, Blake2b with a 5-byte digest for account checksums, Ed25519 (over Blake2b) for
signatures, and the Blake2b-64 work difficulty. -/
structure Crypto where
  blake2b : List UInt8 → U256
  blake2b40 : List UInt8 → FixedBytes 5
  verify : PublicKey → List UInt8 → Signature → Bool
  difficulty : Root → UInt64 → UInt64

end RsbanNode.Primitives
