import RsbanNode.Library.Radix
import RsbanNode.Core.Primitives

namespace RsbanNode.AccountCodec

open RsbanNode.ByteCodec RsbanNode.Primitives RsbanNode.Radix

def accountLookup : List Char :=
  ['1', '3', '4', '5', '6', '7', '8', '9', 'a', 'b', 'c', 'd', 'e', 'f', 'g', 'h', 'i', 'j', 'k',
    'm', 'n', 'o', 'p', 'q', 'r', 's', 't', 'u', 'w', 'x', 'y', 'z']

/-- `ACCOUNT_REVERSE`, indexed by the character's code minus `0x30`; `'~'` marks a character
outside the alphabet, and a digit's value is its entry's code minus `0x30`. -/
def accountReverse : List Char :=
  ['~', '0', '~', '1', '2', '3', '4', '5', '6', '7', '~', '~', '~', '~', '~', '~', '~', '~', '~',
    '~', '~', '~', '~', '~', '~', '~', '~', '~', '~', '~', '~', '~', '~', '~', '~', '~', '~', '~',
    '~', '~', '~', '~', '~', '~', '~', '~', '~', '~', '~', '8', '9', ':', ';', '<', '=', '>', '?',
    '@', 'A', 'B', '~', 'C', 'D', 'E', 'F', 'G', 'H', 'I', 'J', 'K', '~', 'L', 'M', 'N', 'O', '~',
    '~', '~', '~', '~']

/-- `account_encode`. The source indexes the slice, which panics out of range; every caller
passes a 5-bit value, so the default is never read. -/
def accountEncode (value : UInt8) : Char := accountLookup.getD value.toNat '~'

/-- `account_decode`, called only on bytes in `0x30..0x80`. -/
def accountDecode (value : UInt8) : UInt8 :=
  let result := (accountReverse.getD (value - 0x30).toNat '~').toUInt8
  if result ≠ '~'.toUInt8 then result - 0x30 else result

/-- `Account::account_checksum`: Blake2b with a 5-byte digest of the account bytes. -/
def accountChecksum (c : Crypto) (a : Account) : FixedBytes 5 := c.blake2b40 a.bytes

/-- The `U512` that `encode_account` writes out: the account shifted above its checksum. The
shift drops the bits past 512, as `<<=` on `U512` does. -/
def accountNumber (c : Crypto) (a : Account) : Nat :=
  (a.toNat <<< 40) % 2 ^ 512 ||| ofBytesLE (accountChecksum c a).bytes

/-- The digit loop of `encode_account`: each round pushes the character of the low five bits
and shifts them out. -/
def encodeLoop : Nat → Nat → List Char
  | 0, _ => []
  | i + 1, number => accountEncode (UInt8.ofNat number &&& 0x1f) :: encodeLoop i (number >>> 5)

/-- `Account::encode_account`: 60 digits, least significant first, then `"_nab"`, reversed. -/
def encodeAccount (c : Crypto) (a : Account) : String :=
  String.ofList (encodeLoop 60 (accountNumber c a) ++ "_nab".toList).reverse

def startsWith (s pre : String) : Bool := pre.toList.isPrefixOf s.toList

/-- The decoded `U512`, as the newtype `EncodedAccountU512` holds it. -/
structure EncodedAccountU512 where
  value : Nat

namespace EncodedAccountU512

/-- `account_bytes`: the low 32 of the 64 big-endian bytes of the value shifted down by 40. -/
def accountBytes (e : EncodedAccountU512) : Account :=
  ⟨(toBytesBE 64 (e.value >>> 40)).drop 32, by simp⟩

/-- `checksum_bytes`: bytes 0 to 4 of the value, least significant first. -/
def checksumBytes (e : EncodedAccountU512) : FixedBytes 5 := ⟨toBytesLE 5 e.value, by simp⟩

def toAccount (c : Crypto) (e : EncodedAccountU512) : Except String Account :=
  let account := e.accountBytes
  if accountChecksum c account = e.checksumBytes then .ok account
  else .error "invalid checksum"

end EncodedAccountU512

/-- The string being decoded, as the newtype `EncodedAccountStr` holds it. -/
structure EncodedAccountStr where
  str : String

namespace EncodedAccountStr

def hasBanPrefix (e : EncodedAccountStr) : Bool :=
  startsWith e.str "ban_" || startsWith e.str "ban-"

def hasNodeIdPrefix (e : EncodedAccountStr) : Bool := startsWith e.str "node_"

def hasValidPrefix (e : EncodedAccountStr) : Bool := e.hasBanPrefix || e.hasNodeIdPrefix

/-- Only the `ban` prefixes fix the length; it counts characters, not bytes. -/
def isLengthValid (e : EncodedAccountStr) : Bool :=
  if e.hasBanPrefix && e.str.length != 64 then false else true

/-- Four for every prefix, `"node_"` included. -/
def prefixLen (_ : EncodedAccountStr) : Nat := 4

def firstDigit (e : EncodedAccountStr) : Option Char := e.str.toList[e.prefixLen]?

def isFirstDigitValid (e : EncodedAccountStr) : Bool :=
  match e.firstDigit with
  | some '1' | some '3' => true
  | _ => false

def charsAfterPrefix (e : EncodedAccountStr) : List Char := e.str.toList.drop e.prefixLen

/-- The first test is on the length in bytes, `str::len`. -/
def isValid (e : EncodedAccountStr) : Bool :=
  decide (e.str.utf8ByteSize > 4) && e.hasValidPrefix && e.isLengthValid && e.isFirstDigitValid

def decodeByte (character : Char) : Option UInt8 :=
  if character.isAscii then
    let character := character.toUInt8
    if 0x30 ≤ character ∧ character < 0x80 then
      let byte := accountDecode character
      if byte ≠ '~'.toUInt8 then some byte else none
    else none
  else none

/-- The loop of `to_u512`. After the shift the low five bits are zero, so adding a digit never
overflows the `U512`. -/
def toU512Loop : Nat → List Char → Except String Nat
  | number, [] => .ok number
  | number, character :: rest =>
    match decodeByte character with
    | some byte => toU512Loop ((number <<< 5) % 2 ^ 512 + byte.toNat) rest
    | none => .error "invalid hex string"

def toU512 (e : EncodedAccountStr) : Except String EncodedAccountU512 :=
  if !e.isValid then .error "invalid account string"
  else EncodedAccountU512.mk <$> toU512Loop 0 e.charsAfterPrefix

end EncodedAccountStr

def decodeAccount (c : Crypto) (source : String) : Except String Account := do
  let e ← (EncodedAccountStr.mk source).toU512
  e.toAccount c

/-! ## Digits and characters -/

def digitChar (d : Nat) : Char := accountEncode (UInt8.ofNat d)

open EncodedAccountStr

theorem mask_eq (n : Nat) : UInt8.ofNat n &&& 0x1f = UInt8.ofNat (n % 32) := by
  apply UInt8.toNat_inj.mp
  have hmask : (0x1f : UInt8).toNat = 2 ^ 5 - 1 := rfl
  rw [UInt8.toNat_and, hmask, Nat.and_two_pow_sub_one_eq_mod, UInt8.toNat_ofNat',
    UInt8.toNat_ofNat']
  omega

theorem encodeLoop_eq (width n : Nat) :
    encodeLoop width n = (digitsLE 32 width n).map digitChar := by
  induction width generalizing n with
  | zero => rfl
  | succ w ih =>
    rw [encodeLoop, digitsLE, List.map_cons, ih, mask_eq, Nat.shiftRight_eq_div_pow]
    rfl

theorem decodeByte_digitChar {d : Nat} (hd : d < 32) :
    decodeByte (digitChar d) = some (UInt8.ofNat d) := by
  revert d
  decide

theorem isAscii_of_decodeByte {character : Char} {byte : UInt8}
    (h : decodeByte character = some byte) : character.toNat < 128 := by
  unfold decodeByte at h
  split at h
  · simpa [Char.isAscii] using ‹character.isAscii = true›
  · cases h

theorem digitChar_of_decodeByte {character : Char} {byte : UInt8}
    (h : decodeByte character = some byte) : byte.toNat < 32 ∧ digitChar byte.toNat = character := by
  have hascii := isAscii_of_decodeByte h
  have htable : ∀ n < 128, (decodeByte (Char.ofNat n)).all
      (fun b => decide (b.toNat < 32) && digitChar b.toNat == Char.ofNat n) := by
    decide
  have hc := htable character.toNat hascii
  rw [Char.ofNat_toNat, h] at hc
  simpa using hc

theorem digit_lt_two {d : Nat} (hd : d < 32) (h : digitChar d = '1' ∨ digitChar d = '3') :
    d < 2 := by
  revert d
  decide

theorem length_le_utf8Len (cs : List Char) : cs.length ≤ String.utf8Len cs := by
  induction cs with
  | nil => simp
  | cons ch cs ih =>
    rw [String.utf8Len_cons, List.length_cons]
    have := Char.utf8Size_pos ch
    omega

/-! ## The decoding loop -/

theorem toU512Loop_map_digitChar (ds : List Nat) (acc : Nat) (hds : ∀ d ∈ ds, d < 32) :
    toU512Loop acc (ds.map digitChar) = .ok (ds.foldl (fun a d => a * 32 % 2 ^ 512 + d) acc) := by
  induction ds generalizing acc with
  | nil => rfl
  | cons d ds ih =>
    have hd : d < 32 := hds d (List.mem_cons_self ..)
    have hbyte : (UInt8.ofNat d).toNat = d := by
      rw [UInt8.toNat_ofNat']
      omega
    rw [List.map_cons, toU512Loop, decodeByte_digitChar hd]
    dsimp only
    rw [hbyte, Nat.shiftLeft_eq, ih _ (fun x hx => hds x (List.mem_cons_of_mem _ hx))]
    rfl

theorem toU512Loop_eq_ok {acc n : Nat} {cs : List Char} (h : toU512Loop acc cs = .ok n) :
    ∃ ds : List Nat, (∀ d ∈ ds, d < 32) ∧ cs = ds.map digitChar ∧
      n = ds.foldl (fun a d => a * 32 % 2 ^ 512 + d) acc := by
  induction cs generalizing acc with
  | nil =>
    rw [toU512Loop] at h
    exact ⟨[], by simp, rfl, (Except.ok.inj h).symm⟩
  | cons ch cs ih =>
    rw [toU512Loop] at h
    cases hb : decodeByte ch with
    | none => rw [hb] at h; cases h
    | some byte =>
      rw [hb] at h
      obtain ⟨hlt, hch⟩ := digitChar_of_decodeByte hb
      obtain ⟨ds, hds, rfl, rfl⟩ := ih h
      refine ⟨byte.toNat :: ds, ?_, by rw [List.map_cons, hch], ?_⟩
      · intro d hd
        rcases List.mem_cons.mp hd with rfl | hd
        · exact hlt
        · exact hds d hd
      · rw [List.foldl_cons, Nat.shiftLeft_eq]

theorem foldl_digits_eq {ds : List Nat} (hds : ∀ d ∈ ds, d < 32) (hlen : ds.length = 60) :
    ds.foldl (fun a d => a * 32 % 2 ^ 512 + d) 0 = Nat.ofDigits 32 ds.reverse := by
  have hbound : (0 + 1) * 32 ^ ds.length ≤ 2 ^ 512 := by
    rw [hlen, Nat.zero_add, Nat.one_mul, show (32 : Nat) = 2 ^ 5 from rfl, ← Nat.pow_mul]
    apply Nat.pow_le_pow_right Nat.two_pos
    norm_num
  have hexact := foldl_shift_mod_eq 32 (2 ^ 512) ds 0 hds hbound
  rw [hexact, foldl_horner, Nat.zero_mul, Nat.zero_add]

/-! ## The account number -/

theorem checksum_lt (c : Crypto) (a : Account) :
    ofBytesLE (accountChecksum c a).bytes < 2 ^ 40 := by
  have := ofBytesLE_lt (accountChecksum c a).bytes
  rwa [(accountChecksum c a).length_eq] at this

theorem accountNumber_eq (c : Crypto) (a : Account) :
    accountNumber c a = a.toNat * 2 ^ 40 + ofBytesLE (accountChecksum c a).bytes := by
  have hck := checksum_lt c a
  have ha : a.toNat * 2 ^ 40 < 2 ^ 512 := by
    have := a.toNat_lt
    omega
  rw [accountNumber, Nat.shiftLeft_eq, Nat.mod_eq_of_lt ha, ← Nat.shiftLeft_eq,
    ← Nat.shiftLeft_add_eq_or_of_lt hck, Nat.shiftLeft_eq]

theorem accountNumber_lt (c : Crypto) (a : Account) : accountNumber c a < 2 * 32 ^ 59 := by
  have hck := checksum_lt c a
  have ha := a.toNat_lt
  rw [accountNumber_eq]
  omega

theorem accountBytes_eq (e : EncodedAccountU512) :
    e.accountBytes = FixedBytes.ofNat 32 (e.value >>> 40) := by
  apply FixedBytes.ext
  exact drop_toBytesBE 32 32 _

theorem toAccount_accountNumber (c : Crypto) (a : Account) :
    EncodedAccountU512.toAccount c ⟨accountNumber c a⟩ = .ok a := by
  have hck := checksum_lt c a
  have hacc : EncodedAccountU512.accountBytes ⟨accountNumber c a⟩ = a := by
    rw [accountBytes_eq, accountNumber_eq, Nat.shiftRight_eq_div_pow,
      Nat.add_comm, Nat.add_mul_div_right _ _ (by positivity), Nat.div_eq_of_lt hck,
      Nat.zero_add, FixedBytes.ofNat_toNat]
  have hsum : EncodedAccountU512.checksumBytes ⟨accountNumber c a⟩ = accountChecksum c a := by
    apply FixedBytes.ext
    apply eq_of_ofBytesLE_eq
      (by simp only [EncodedAccountU512.checksumBytes, length_toBytesLE, FixedBytes.length_eq])
    simp only [EncodedAccountU512.checksumBytes, ofBytesLE_toBytesLE, accountNumber_eq]
    omega
  simp [EncodedAccountU512.toAccount, hacc, hsum]

theorem accountNumber_of_toAccount {c : Crypto} {n : Nat} {a : Account}
    (h : EncodedAccountU512.toAccount c ⟨n⟩ = .ok a) (hn : n < 2 * 32 ^ 59) :
    accountNumber c a = n := by
  simp only [EncodedAccountU512.toAccount] at h
  split at h
  · rename_i hsum
    cases h
    have hval : (EncodedAccountU512.accountBytes ⟨n⟩).toNat = n / 2 ^ 40 := by
      rw [accountBytes_eq, FixedBytes.toNat_ofNat, Nat.shiftRight_eq_div_pow]
      show n / 2 ^ 40 % 256 ^ 32 = n / 2 ^ 40
      exact Nat.mod_eq_of_lt (by omega)
    rw [accountNumber_eq, hval, hsum]
    simp only [EncodedAccountU512.checksumBytes, ofBytesLE_toBytesLE]
    omega
  · cases h

/-! ## Round trips -/

theorem toList_encodeAccount (c : Crypto) (a : Account) :
    (encodeAccount c a).toList =
      "ban_".toList ++ (digitsLE 32 60 (accountNumber c a)).reverse.map digitChar := by
  rw [encodeAccount, String.toList_ofList, List.reverse_append, encodeLoop_eq, List.map_reverse]
  rfl

theorem digitsLE_accountNumber (c : Crypto) (a : Account) :
    ∃ d < 2, (digitsLE 32 60 (accountNumber c a)).reverse =
      d :: (digitsLE 32 59 (accountNumber c a)).reverse := by
  refine ⟨accountNumber c a / 32 ^ 59 % 32, ?_, ?_⟩
  · have hlt := accountNumber_lt c a
    have hdiv : accountNumber c a / 32 ^ 59 < 2 := by
      rw [Nat.div_lt_iff_lt_mul (by positivity)]
      exact hlt
    omega
  · rw [digitsLE_succ, List.reverse_append, List.reverse_singleton, List.singleton_append]

theorem decodeAccount_encodeAccount (c : Crypto) (a : Account) :
    decodeAccount c (encodeAccount c a) = .ok a ∧ (encodeAccount c a).length = 64 ∧
      ∃ d < 2, (encodeAccount c a).toList = "ban_".toList ++
        digitChar d :: ((digitsLE 32 59 (accountNumber c a)).reverse.map digitChar) := by
  obtain ⟨d, hd, hrev⟩ := digitsLE_accountNumber c a
  have hlist := toList_encodeAccount c a
  have hdigits : ∀ x ∈ (digitsLE 32 60 (accountNumber c a)).reverse, x < 32 := fun x hx =>
    digit_lt_of_mem 32 (by omega) (List.mem_reverse.mp hx)
  have hlen : (encodeAccount c a).length = 64 := by
    rw [← String.length_toList, hlist]
    simp
  have hfirst : digitChar d = '1' ∨ digitChar d = '3' := by
    interval_cases d <;> decide
  have hvalid : (EncodedAccountStr.mk (encodeAccount c a)).isValid = true := by
    have hbytes : (encodeAccount c a).utf8ByteSize > 4 := by
      have := length_le_utf8Len (encodeAccount c a).toList
      rw [← String.utf8ByteSize_ofList, String.ofList_toList, String.length_toList] at this
      omega
    have hban : (EncodedAccountStr.mk (encodeAccount c a)).hasBanPrefix = true := by
      simp [hasBanPrefix, startsWith, hlist]
    have hdigit : (EncodedAccountStr.mk (encodeAccount c a)).firstDigit = some (digitChar d) := by
      simp [firstDigit, prefixLen, hlist, hrev]
    simp only [isValid, hasValidPrefix, isLengthValid, isFirstDigitValid, hban, hdigit, hlen,
      hbytes]
    rcases hfirst with h | h <;> simp [h]
  have hloop : (EncodedAccountStr.mk (encodeAccount c a)).charsAfterPrefix =
      (digitsLE 32 60 (accountNumber c a)).reverse.map digitChar := by
    rw [charsAfterPrefix, hlist]
    rfl
  have hnum : Nat.ofDigits 32 (digitsLE 32 60 (accountNumber c a)).reverse.reverse =
      accountNumber c a := by
    rw [List.reverse_reverse, ofDigits_digitsLE, Nat.mod_eq_of_lt]
    have := accountNumber_lt c a
    omega
  refine ⟨?_, hlen, d, hd, by rw [hlist, hrev, List.map_cons]⟩
  rw [decodeAccount, toU512, hvalid, hloop, toU512Loop_map_digitChar _ _ hdigits,
    foldl_digits_eq hdigits (by simp), hnum]
  exact toAccount_accountNumber c a

/-- What a successful decode went through: the string passed `is_valid`, the digit loop read
a number, and the checksum test accepted it. -/
theorem decodeAccount_eq_ok {c : Crypto} {s : String} {a : Account}
    (h : decodeAccount c s = .ok a) :
    (EncodedAccountStr.mk s).isValid = true ∧ ∃ n,
      toU512Loop 0 (EncodedAccountStr.mk s).charsAfterPrefix = .ok n ∧
      EncodedAccountU512.toAccount c ⟨n⟩ = .ok a := by
  simp only [decodeAccount, toU512] at h
  split at h
  · cases h
  · rename_i hvalid
    refine ⟨by simpa using hvalid, ?_⟩
    cases hloop : toU512Loop 0 (EncodedAccountStr.mk s).charsAfterPrefix with
    | error err => rw [hloop] at h; cases h
    | ok n =>
      rw [hloop] at h
      exact ⟨n, rfl, h⟩

theorem isValid_of_ban_prefix {s : String} (hpre : "ban_".toList <+: s.toList)
    (hvalid : (EncodedAccountStr.mk s).isValid = true) :
    s.length = 64 ∧ ((s.toList.drop 4)[0]? = some '1' ∨ (s.toList.drop 4)[0]? = some '3') := by
  have hban : (EncodedAccountStr.mk s).hasBanPrefix = true := by
    simp only [hasBanPrefix, startsWith, Bool.or_eq_true, List.isPrefixOf_iff_prefix]
    exact Or.inl hpre
  simp only [isValid, Bool.and_eq_true] at hvalid
  obtain ⟨⟨⟨-, -⟩, hlen⟩, hfirst⟩ := hvalid
  refine ⟨?_, ?_⟩
  · simpa [isLengthValid, hban] using hlen
  · simp only [isFirstDigitValid, firstDigit, prefixLen] at hfirst
    rw [List.getElem?_drop]
    split at hfirst <;> simp_all

theorem ofDigits_lt_of_head_lt_two {d : Nat} {ds : List Nat} (hd : d < 2)
    (hds : ∀ x ∈ ds, x < 32) (hlen : ds.length = 59) :
    Nat.ofDigits 32 (d :: ds).reverse < 2 * 32 ^ 59 := by
  have hrest : Nat.ofDigits 32 ds.reverse < 32 ^ 59 := by
    have := Nat.ofDigits_lt_base_pow_length (by norm_num : 1 < 32)
      (fun x hx => hds x (List.mem_reverse.mp hx))
    rwa [List.length_reverse, hlen] at this
  rw [List.reverse_cons, Nat.ofDigits_append, List.length_reverse, hlen, Nat.ofDigits_singleton]
  have hmul : 32 ^ 59 * d ≤ 32 ^ 59 * 1 := Nat.mul_le_mul_left _ (by omega)
  omega

theorem encodeAccount_decodeAccount (c : Crypto) {s : String} {a : Account}
    (hpre : "ban_".toList <+: s.toList) (h : decodeAccount c s = .ok a) :
    encodeAccount c a = s := by
  obtain ⟨hvalid, n, hloop, hacc⟩ := decodeAccount_eq_ok h
  obtain ⟨hlen, hfirst⟩ := isValid_of_ban_prefix hpre hvalid
  obtain ⟨ds, hds, hcs, rfl⟩ := toU512Loop_eq_ok hloop
  have hsplit : s.toList = "ban_".toList ++ ds.map digitChar := by
    rw [← hcs, charsAfterPrefix, prefixLen, List.prefix_iff_eq_take.mp hpre]
    exact (List.take_append_drop 4 s.toList).symm
  have hdlen : ds.length = 60 := by
    have := congrArg List.length hsplit
    rw [String.length_toList, hlen, List.length_append, List.length_map] at this
    simp at this
    omega
  obtain ⟨d, rest, rfl⟩ : ∃ d rest, ds = d :: rest := List.exists_cons_of_length_eq_add_one hdlen
  have hd : d < 2 := by
    apply digit_lt_two (hds d (List.mem_cons_self ..))
    have hdrop : s.toList.drop 4 = (d :: rest).map digitChar := hcs
    rw [hdrop, List.map_cons] at hfirst
    simpa using hfirst
  have hnum := foldl_digits_eq hds hdlen
  have hlt : Nat.ofDigits 32 (d :: rest).reverse < 2 * 32 ^ 59 :=
    ofDigits_lt_of_head_lt_two hd (fun x hx => hds x (List.mem_cons_of_mem _ hx))
      (by simpa using hdlen)
  rw [hnum] at hacc
  have hnumber := accountNumber_of_toAccount hacc hlt
  have hdigits : digitsLE 32 60 (accountNumber c a) = (d :: rest).reverse := by
    rw [hnumber, ← hdlen, ← List.length_reverse]
    exact digitsLE_ofDigits 32 _ (fun x hx => hds x (List.mem_reverse.mp hx))
  apply String.ext
  rw [toList_encodeAccount, hdigits, List.reverse_reverse, hsplit]

theorem account_address_roundtrip (c : Crypto) :
    (∀ a : Account, decodeAccount c (encodeAccount c a) = .ok a ∧
        (encodeAccount c a).length = 64 ∧
        ("ban_1".toList <+: (encodeAccount c a).toList ∨
          "ban_3".toList <+: (encodeAccount c a).toList)) ∧
      ∀ (s : String) (a : Account), "ban_".toList <+: s.toList → decodeAccount c s = .ok a →
        encodeAccount c a = s := by
  refine ⟨fun a => ?_, fun s a hpre h => encodeAccount_decodeAccount c hpre h⟩
  obtain ⟨hdec, hlen, d, hd, hlist⟩ := decodeAccount_encodeAccount c a
  refine ⟨hdec, hlen, ?_⟩
  rw [hlist]
  interval_cases d
  · exact Or.inl ⟨_, rfl⟩
  · exact Or.inr ⟨_, rfl⟩

end RsbanNode.AccountCodec
