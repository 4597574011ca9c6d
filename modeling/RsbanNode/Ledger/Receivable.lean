import RsbanNode.Ledger.Store
import RsbanNode.Library.OrdMap

namespace RsbanNode.Ledger

open RsbanNode.Primitives RsbanNode.OrderedMap

namespace PendingKey

/-- The key as LMDB compares it: its bytes are the account's followed by the hash's. -/
def sortKey (k : PendingKey) : Account ×ₗ BlockHash := toLex (k.receivingAccount, k.sendBlockHash)

theorem sortKey_injective : Function.Injective sortKey := by
  intro k k' h
  have hpair : (k.receivingAccount, k.sendBlockHash) = (k'.receivingAccount, k'.sendBlockHash) :=
    toLex.injective h
  cases k
  cases k'
  simpa using hpair

instance : LinearOrder PendingKey := LinearOrder.lift' sortKey sortKey_injective

theorem lt_iff {k k' : PendingKey} : k < k' ↔ k.receivingAccount < k'.receivingAccount ∨
    k.receivingAccount = k'.receivingAccount ∧ k.sendBlockHash < k'.sendBlockHash :=
  Prod.Lex.lt_iff

theorem le_iff {k k' : PendingKey} : k ≤ k' ↔ k.receivingAccount < k'.receivingAccount ∨
    k.receivingAccount = k'.receivingAccount ∧ k.sendBlockHash ≤ k'.sendBlockHash :=
  Prod.Lex.le_iff

end PendingKey

/-- The pending table as LMDB holds it, in ascending key order. -/
abbrev PendingDb := OrdMap PendingKey PendingInfo

/-- `AnyReceivableIterator`; `inner` is what the LMDB iterator's next reads return from here. -/
structure AnyReceivableIterator where
  pending : PendingDb
  requestedAccount : Account
  actualAccount : Option Account
  nextHash : Option BlockHash
  inner : List (PendingKey × PendingInfo)
  isFirst : Bool

namespace AnyReceivableIterator

def new (pending : PendingDb) (requestedAccount : Account) (actualAccount : Option Account)
    (nextHash : Option BlockHash) : AnyReceivableIterator :=
  { pending, requestedAccount, actualAccount, nextHash, inner := pending.entries, isFirst := true }

/-- `next`: the first call seeks to the requested key and pins the account found there, unless
another one was pinned; later calls step the cursor while the account stays the same. -/
def next (it : AnyReceivableIterator) :
    Option (PendingKey × PendingInfo) × AnyReceivableIterator :=
  match it.nextHash with
  | none => (none, it)
  | some hash =>
    if it.isFirst then
      match it.pending.seek ⟨it.requestedAccount, hash⟩ with
      | [] => (none, { it with isFirst := false, inner := [] })
      | (key, info) :: rest =>
        if it.actualAccount.any (· != key.receivingAccount) then
          (none, { it with isFirst := false, inner := rest })
        else
          (some (key, info),
            { it with isFirst := false, inner := rest, actualAccount := some key.receivingAccount })
    else
      match it.inner with
      | [] => (none, it)
      | (key, info) :: rest =>
        match it.actualAccount with
        | some account =>
          if key.receivingAccount = account then
            (some (key, info), { it with inner := rest, nextHash := key.sendBlockHash.inc })
          else (none, { it with inner := rest })
        | none =>
          (some (key, info), { it with inner := rest, actualAccount := some key.receivingAccount })

/-- What `take(n)` collects: the items of up to `n` calls of `next`, to the first `None`. -/
def take : Nat → AnyReceivableIterator → List (PendingKey × PendingInfo)
  | 0, _ => []
  | n + 1, it =>
    match it.next with
    | (some e, it') => e :: take n it'
    | (none, _) => []

end AnyReceivableIterator

namespace LedgerSetAny

/-- The entries of `account` with a send hash above `hash`. -/
def accountReceivableUpperBound (pending : PendingDb) (account : Account) (hash : BlockHash) :
    AnyReceivableIterator :=
  AnyReceivableIterator.new pending account (some account) hash.inc

/-- The entries of the first account above `account` that has any. -/
def receivableUpperBound (pending : PendingDb) (account : Account) : AnyReceivableIterator :=
  match account.inc with
  | none => AnyReceivableIterator.new pending default none none
  | some account => AnyReceivableIterator.new pending account none (some (FixedBytes.zero 32))

/-- The entries of the first account from `account` on that has any. -/
def receivableLowerBound (pending : PendingDb) (account : Account) : AnyReceivableIterator :=
  AnyReceivableIterator.new pending account none (some (FixedBytes.zero 32))

end LedgerSetAny

namespace LedgerSetConfirmed

/-- `block_exists` of the confirmed set: the block is stored and cemented. -/
def blockExists (s : LedgerStore) (hash : BlockHash) : Bool := (s.confirmedGetBlock hash).isSome

/-- `first_receivable_lower_bound`: from the seek on, the first entry whose send block the set
holds; the loop steps the cursor past the others, across accounts. -/
def firstReceivableLowerBound (pending : PendingDb) (blockExists : BlockHash → Bool)
    (account : Account) (sendHash : BlockHash) : Option (PendingKey × PendingInfo) :=
  (pending.seek ⟨account, sendHash⟩).find? (fun e => blockExists e.1.sendBlockHash)

end LedgerSetConfirmed

/-- `ConfirmedReceivableIterator`, over the set's pending table and `block_exists`. -/
structure ConfirmedReceivableIterator where
  pending : PendingDb
  blockExists : BlockHash → Bool
  requestedAccount : Account
  actualAccount : Option Account
  nextHash : Option BlockHash

namespace ConfirmedReceivableIterator

/-- `next`: every call seeks afresh from the pinned account (the requested one before the first
item) and the next hash. -/
def next (it : ConfirmedReceivableIterator) :
    Option (PendingKey × PendingInfo) × ConfirmedReceivableIterator :=
  match it.nextHash with
  | none => (none, it)
  | some hash =>
    let account := it.actualAccount.getD it.requestedAccount
    match LedgerSetConfirmed.firstReceivableLowerBound it.pending it.blockExists account hash with
    | none => (none, it)
    | some (key, info) =>
      match it.actualAccount with
      | some account =>
        if key.receivingAccount = account then
          (some (key, info), { it with nextHash := key.sendBlockHash.inc })
        else (none, it)
      | none =>
        (some (key, info),
          { it with actualAccount := some key.receivingAccount,
                    nextHash := key.sendBlockHash.inc })

def take : Nat → ConfirmedReceivableIterator → List (PendingKey × PendingInfo)
  | 0, _ => []
  | n + 1, it =>
    match it.next with
    | (some e, it') => e :: take n it'
    | (none, _) => []

end ConfirmedReceivableIterator

namespace LedgerSetConfirmed

/-- The confirmed entries of the first account from `account` on that has one. -/
def receivableLowerBound (pending : PendingDb) (blockExists : BlockHash → Bool)
    (account : Account) : ConfirmedReceivableIterator :=
  { pending, blockExists, requestedAccount := account, actualAccount := none,
    nextHash := some (FixedBytes.zero 32) }

end LedgerSetConfirmed

/-! ### What the iterators are meant to yield -/

/-- The least receiving account among the entries whose key satisfies `p`. -/
def leastAccount (pending : PendingDb) (p : PendingKey → Bool) : Option Account :=
  ((pending.entries.filter (fun e => p e.1)).map (·.1.receivingAccount)).min?

/-- The entries of `account` whose key satisfies `p`, in the table's order. -/
def entriesOf (pending : PendingDb) (account : Account) (p : PendingKey → Bool) :
    List (PendingKey × PendingInfo) :=
  pending.entries.filter (fun e => e.1.receivingAccount = account && p e.1)

namespace PendingKey

theorem receivingAccount_le_of_le {k k' : PendingKey} (h : k ≤ k') :
    k.receivingAccount ≤ k'.receivingAccount := by
  rcases le_iff.mp h with hlt | ⟨heq, -⟩
  · exact le_of_lt hlt
  · exact le_of_eq heq

theorem zero_le_iff {a : Account} {k : PendingKey} :
    (⟨a, FixedBytes.zero 32⟩ : PendingKey) ≤ k ↔ a ≤ k.receivingAccount := by
  rw [le_iff]
  constructor
  · rintro (hlt | ⟨heq, -⟩)
    · exact le_of_lt hlt
    · exact le_of_eq heq
  · intro hle
    rcases lt_or_eq_of_le hle with hlt | heq
    · exact .inl hlt
    · exact .inr ⟨heq, FixedBytes.zero_le _⟩

theorem lt_iff_of_receivingAccount_eq {k k' : PendingKey}
    (h : k.receivingAccount = k'.receivingAccount) : k < k' ↔ k.sendBlockHash < k'.sendBlockHash := by
  rw [lt_iff, h]
  simp

theorem le_iff_of_receivingAccount_eq {k k' : PendingKey}
    (h : k.receivingAccount = k'.receivingAccount) : k ≤ k' ↔ k.sendBlockHash ≤ k'.sendBlockHash := by
  rw [le_iff, h]
  simp

end PendingKey

/-- The keys of `account` from the next hash on; none once the hash has run out. -/
def fromHash (account : Account) : Option BlockHash → PendingKey → Bool
  | none, _ => false
  | some hash, k => decide (⟨account, hash⟩ ≤ k)

theorem fromHash_inc (k k' : PendingKey) (h : k'.receivingAccount = k.receivingAccount) :
    fromHash k.receivingAccount k.sendBlockHash.inc k' = decide (k < k') := by
  have hlt := PendingKey.lt_iff_of_receivingAccount_eq h.symm
  cases hinc : k.sendBlockHash.inc with
  | none =>
    have hle := FixedBytes.le_of_inc_eq_none hinc k'.sendBlockHash
    simp [fromHash, hlt, not_lt.mpr hle]
  | some next =>
    have hle : (⟨k.receivingAccount, next⟩ : PendingKey) ≤ k' ↔ next ≤ k'.sendBlockHash :=
      PendingKey.le_iff_of_receivingAccount_eq h.symm
    simp [fromHash, hlt, hle, FixedBytes.le_iff_lt_of_inc hinc]

section Sorted

variable {l : List (PendingKey × PendingInfo)}

theorem takeWhile_account_eq (hs : l.Pairwise (fun x y => x.1 < y.1)) {a : Account}
    (hle : ∀ x ∈ l, a ≤ x.1.receivingAccount) :
    l.takeWhile (fun x => x.1.receivingAccount = a) =
      l.filter (fun x => x.1.receivingAccount = a) := by
  apply OrdMap.takeWhile_eq_filter
  refine hs.imp_of_mem fun {x y} hx _ hxy hy => ?_
  have hxy' := PendingKey.receivingAccount_le_of_le (le_of_lt hxy)
  simp only [decide_eq_true_eq] at hy ⊢
  exact le_antisymm (hy ▸ hxy') (hle x hx)

theorem head_le_of_pairwise {e : PendingKey × PendingInfo}
    (hs : (e :: l).Pairwise (fun x y => x.1 < y.1)) : ∀ x ∈ e :: l, e.1 ≤ x.1 := by
  intro x hx
  rcases List.mem_cons.mp hx with rfl | hx
  · exact le_refl _
  · exact le_of_lt (List.rel_of_pairwise_cons hs hx)

end Sorted

theorem leastAccount_eq (pending : PendingDb) (p : PendingKey → Bool) :
    leastAccount pending p =
      (pending.entries.filter (fun e => p e.1)).head?.map (·.1.receivingAccount) := by
  apply OrdMap.min?_map_eq_head?
  exact (pending.pairwise_entries.filter _).imp
    fun h => PendingKey.receivingAccount_le_of_le (le_of_lt h)

theorem entriesOf_eq_filter {pending : PendingDb} {b : Account} {R : PendingKey → Bool}
    {Q : PendingKey × PendingInfo → Bool}
    (hQR : ∀ x ∈ pending.entries, x.1.receivingAccount = b → Q x = R x.1) :
    entriesOf pending b R =
      (pending.entries.filter Q).filter (fun x => x.1.receivingAccount = b) := by
  rw [entriesOf, List.filter_filter]
  apply List.filter_congr
  intro x hx
  by_cases hxa : x.1.receivingAccount = b
  · simp [hxa, hQR x hx hxa]
  · simp [hxa]

theorem filter_account_of_filter_eq_cons {pending : PendingDb}
    {Q : PendingKey × PendingInfo → Bool} {R : PendingKey → Bool}
    {e : PendingKey × PendingInfo} {t : List (PendingKey × PendingInfo)}
    (h : pending.entries.filter Q = e :: t)
    (hQR : ∀ x ∈ pending.entries, x.1.receivingAccount = e.1.receivingAccount → e.1 < x.1 →
      Q x = R x.1) :
    t.filter (fun x => x.1.receivingAccount = e.1.receivingAccount) =
      entriesOf pending e.1.receivingAccount
        (fun k => R k && fromHash e.1.receivingAccount e.1.sendBlockHash.inc k) := by
  rw [OrdMap.filter_eq_cons pending.pairwise_entries h, List.filter_filter, entriesOf]
  apply List.filter_congr
  intro x hx
  by_cases hxa : x.1.receivingAccount = e.1.receivingAccount
  · rw [fromHash_inc e.1 x.1 hxa]
    by_cases hlt : e.1 < x.1
    · simp [hxa, hlt, hQR x hx hxa hlt]
    · simp [hxa, hlt]
  · simp [hxa]

namespace AnyReceivableIterator

theorem take_succ_of_next {it it' : AnyReceivableIterator} {e : PendingKey × PendingInfo}
    (h : it.next = (some e, it')) (n : Nat) : it.take (n + 1) = e :: it'.take n := by
  rw [take, h]

theorem take_succ_of_next_none {it it' : AnyReceivableIterator} (h : it.next = (none, it'))
    (n : Nat) : it.take (n + 1) = [] := by
  rw [take, h]

theorem take_of_started (n : Nat) : ∀ (it : AnyReceivableIterator) (a : Account),
    it.isFirst = false → it.actualAccount = some a →
    it.inner.Pairwise (fun x y => x.1 < y.1) →
    (it.nextHash = none → it.inner.takeWhile (fun x => x.1.receivingAccount = a) = []) →
    it.take n = (it.inner.takeWhile (fun x => x.1.receivingAccount = a)).take n := by
  induction n with
  | zero => intros; rfl
  | succ n ih =>
    intro it a hfirst hacc hs hend
    cases hnext : it.nextHash with
    | none =>
      rw [hend hnext]
      simp [take, next, hnext]
    | some hash =>
      cases hinner : it.inner with
      | nil => simp [take, next, hnext, hfirst, hinner]
      | cons e rest =>
        obtain ⟨key, info⟩ := e
        rw [hinner] at hs
        obtain ⟨hhead, htail⟩ := List.pairwise_cons.mp hs
        by_cases hk : key.receivingAccount = a
        · have hstep : it.next = (some (key, info),
              { it with inner := rest, nextHash := key.sendBlockHash.inc }) := by
            simp [next, hnext, hfirst, hinner, hacc, hk]
          rw [take_succ_of_next hstep, List.takeWhile_cons_of_pos (by simpa using hk),
            List.take_succ_cons]
          congr 1
          refine ih { it with inner := rest, nextHash := key.sendBlockHash.inc } a hfirst hacc htail
            fun hinc => ?_
          cases rest with
          | nil => rfl
          | cons y rest =>
            apply List.takeWhile_cons_of_neg
            intro hya
            have hacc' : key.receivingAccount = y.1.receivingAccount := by
              rw [hk, of_decide_eq_true hya]
            have hlt := (PendingKey.lt_iff_of_receivingAccount_eq hacc').mp
              (hhead y List.mem_cons_self)
            exact absurd hlt (not_lt.mpr (FixedBytes.le_of_inc_eq_none hinc _))
        · have hstep : it.next = (none, { it with inner := rest }) := by
            simp [next, hnext, hfirst, hinner, hacc, hk]
          rw [take_succ_of_next_none hstep, List.takeWhile_cons_of_neg (by simpa using hk)]
          rfl

theorem take_new (pending : PendingDb) (req : Account) (actual : Option Account)
    (hash : BlockHash) (n : Nat) :
    (new pending req actual (some hash)).take (n + 1) =
      match pending.seek ⟨req, hash⟩ with
      | [] => []
      | e :: rest =>
        if actual.any (· != e.1.receivingAccount) then []
        else e :: (rest.takeWhile (fun x => x.1.receivingAccount = e.1.receivingAccount)).take n := by
  have hs : (pending.seek ⟨req, hash⟩).Pairwise (fun x y => x.1 < y.1) := by
    rw [OrdMap.seek_eq_filter]
    exact pending.pairwise_entries.filter _
  cases hseek : pending.seek ⟨req, hash⟩ with
  | nil => simp [take, next, new, hseek]
  | cons e rest =>
    obtain ⟨key, info⟩ := e
    rw [hseek] at hs
    by_cases hany : actual.any (· != key.receivingAccount) = true
    · simp [take, next, new, hseek, hany]
    · have hstep : (new pending req actual (some hash)).next = (some (key, info),
          { new pending req actual (some hash) with
            isFirst := false, inner := rest, actualAccount := some key.receivingAccount }) := by
        simp [next, new, hseek, hany]
      rw [take_succ_of_next hstep]
      dsimp only
      rw [if_neg hany]
      congr 1
      exact take_of_started n _ _ rfl rfl (List.pairwise_cons.mp hs).2 (fun h => by simp [new] at h)

theorem take_new_pinned (pending : PendingDb) (req a : Account) (hash : BlockHash) (n : Nat) :
    (new pending req (some a) (some hash)).take n =
      ((pending.seek ⟨req, hash⟩).takeWhile (fun x => x.1.receivingAccount = a)).take n := by
  cases n with
  | zero => rfl
  | succ n =>
    rw [take_new]
    cases pending.seek ⟨req, hash⟩ with
    | nil => rfl
    | cons e rest =>
      dsimp only
      by_cases hk : e.1.receivingAccount = a
      · rw [if_neg (by simp [hk]), List.takeWhile_cons_of_pos (by simpa using hk),
          List.take_succ_cons, hk]
      · rw [if_pos (by simpa using Ne.symm hk), List.takeWhile_cons_of_neg (by simpa using hk)]
        rfl

theorem take_from_account (pending : PendingDb) (a : Account) (n : Nat) :
    (new pending a none (some (FixedBytes.zero 32))).take n =
      ((leastAccount pending fun k => decide (a ≤ k.receivingAccount)).elim [] fun a' =>
        entriesOf pending a' fun _ => true).take n := by
  have hseek : pending.seek ⟨a, FixedBytes.zero 32⟩ =
      pending.entries.filter (fun e => decide (a ≤ e.1.receivingAccount)) := by
    rw [OrdMap.seek_eq_filter]
    apply List.filter_congr
    intro x _
    simp [PendingKey.zero_le_iff]
  have hs := pending.pairwise_entries.filter (fun e => decide (a ≤ e.1.receivingAccount))
  rw [leastAccount_eq]
  cases n with
  | zero => simp [take]
  | succ n =>
    rw [take_new, hseek]
    cases hF : pending.entries.filter (fun e => decide (a ≤ e.1.receivingAccount)) with
    | nil => rfl
    | cons e rest =>
      rw [hF] at hs
      have hle := head_le_of_pairwise hs
      have hmem : e ∈ pending.entries.filter (fun e => decide (a ≤ e.1.receivingAccount)) := by
        rw [hF]
        exact List.mem_cons_self
      have hae : a ≤ e.1.receivingAccount := of_decide_eq_true (List.mem_filter.mp hmem).2
      have hentries : entriesOf pending e.1.receivingAccount (fun _ => true) =
          (e :: rest).takeWhile (fun x => x.1.receivingAccount = e.1.receivingAccount) := by
        rw [takeWhile_account_eq hs (fun x hx => PendingKey.receivingAccount_le_of_le (hle x hx)),
          ← hF]
        apply entriesOf_eq_filter
        intro x _ hxa
        simp [hxa, hae]
      dsimp only
      rw [if_neg (by simp), List.head?_cons, Option.map_some, Option.elim_some, hentries,
        List.takeWhile_cons_of_pos (by simp), List.take_succ_cons]

end AnyReceivableIterator

namespace LedgerSetAny

theorem take_receivableLowerBound (pending : PendingDb) (a : Account) (n : Nat) :
    (receivableLowerBound pending a).take n =
      ((leastAccount pending fun k => decide (a ≤ k.receivingAccount)).elim [] fun a' =>
        entriesOf pending a' fun _ => true).take n :=
  AnyReceivableIterator.take_from_account pending a n

/-- The source's `iter_all_lower_bound` case: from account 1, the two entries of account 1. -/
example :
    ((receivableLowerBound
      (((OrdMap.empty.insert ⟨FixedBytes.ofNat 32 1, FixedBytes.ofNat 32 100⟩
          ⟨FixedBytes.zero 32, 0, .epoch0⟩).insert
        ⟨FixedBytes.ofNat 32 1, FixedBytes.ofNat 32 101⟩ ⟨FixedBytes.zero 32, 0, .epoch0⟩).insert
        ⟨FixedBytes.ofNat 32 3, FixedBytes.ofNat 32 4⟩ ⟨FixedBytes.zero 32, 0, .epoch0⟩)
      (FixedBytes.ofNat 32 1)).take 4).map (·.1) =
      [⟨FixedBytes.ofNat 32 1, FixedBytes.ofNat 32 100⟩,
        ⟨FixedBytes.ofNat 32 1, FixedBytes.ofNat 32 101⟩] := by
  decide

theorem take_receivableUpperBound (pending : PendingDb) (a : Account) (n : Nat) :
    (receivableUpperBound pending a).take n =
      ((leastAccount pending fun k => decide (a < k.receivingAccount)).elim [] fun a' =>
        entriesOf pending a' fun _ => true).take n := by
  unfold receivableUpperBound
  cases hinc : a.inc with
  | none =>
    have hnone : leastAccount pending (fun k => decide (a < k.receivingAccount)) = none := by
      rw [leastAccount_eq, List.filter_eq_nil_iff.mpr]
      · rfl
      · intro x _
        simpa using FixedBytes.le_of_inc_eq_none hinc x.1.receivingAccount
    rw [hnone]
    cases n <;> rfl
  | some next =>
    have hleast : leastAccount pending (fun k => decide (a < k.receivingAccount)) =
        leastAccount pending (fun k => decide (next ≤ k.receivingAccount)) := by
      congr 1
      funext k
      simp [FixedBytes.le_iff_lt_of_inc hinc]
    rw [hleast]
    exact AnyReceivableIterator.take_from_account pending next n

theorem take_accountReceivableUpperBound (pending : PendingDb) (a : Account) (hash : BlockHash)
    (n : Nat) :
    (accountReceivableUpperBound pending a hash).take n =
      (entriesOf pending a fun k => decide (hash < k.sendBlockHash)).take n := by
  unfold accountReceivableUpperBound
  cases hinc : hash.inc with
  | none =>
    have hnil : entriesOf pending a (fun k => decide (hash < k.sendBlockHash)) = [] := by
      apply List.filter_eq_nil_iff.mpr
      intro x _
      simpa using fun _ => FixedBytes.le_of_inc_eq_none hinc x.1.sendBlockHash
    rw [hnil]
    cases n <;> rfl
  | some next =>
    rw [AnyReceivableIterator.take_new_pinned]
    congr 1
    have hs : (pending.seek ⟨a, next⟩).Pairwise (fun x y => x.1 < y.1) := by
      rw [OrdMap.seek_eq_filter]
      exact pending.pairwise_entries.filter _
    have hle : ∀ x ∈ pending.seek ⟨a, next⟩, a ≤ x.1.receivingAccount := by
      intro x hx
      rw [OrdMap.seek_eq_filter] at hx
      exact PendingKey.receivingAccount_le_of_le (of_decide_eq_true (List.mem_filter.mp hx).2)
    rw [takeWhile_account_eq hs hle, OrdMap.seek_eq_filter]
    symm
    apply entriesOf_eq_filter
    intro x _ hxa
    have hkey : (⟨a, next⟩ : PendingKey) ≤ x.1 ↔ next ≤ x.1.sendBlockHash :=
      PendingKey.le_iff_of_receivingAccount_eq hxa.symm
    simp [hkey, FixedBytes.le_iff_lt_of_inc hinc]

end LedgerSetAny

namespace ConfirmedReceivableIterator

theorem take_succ_of_next {it it' : ConfirmedReceivableIterator} {e : PendingKey × PendingInfo}
    (h : it.next = (some e, it')) (n : Nat) : it.take (n + 1) = e :: it'.take n := by
  rw [take, h]

theorem take_succ_of_next_none {it it' : ConfirmedReceivableIterator} (h : it.next = (none, it'))
    (n : Nat) : it.take (n + 1) = [] := by
  rw [take, h]

theorem firstReceivableLowerBound_eq (pending : PendingDb) (blockExists : BlockHash → Bool)
    (account : Account) (hash : BlockHash) :
    LedgerSetConfirmed.firstReceivableLowerBound pending blockExists account hash =
      (pending.entries.filter (fun e =>
        blockExists e.1.sendBlockHash && decide (⟨account, hash⟩ ≤ e.1))).head? := by
  rw [LedgerSetConfirmed.firstReceivableLowerBound, OrdMap.seek_eq_filter, ← List.head?_filter,
    List.filter_filter]

/-- Once an account is pinned, each call yields its next confirmed entry from the next hash on. -/
theorem take_of_pinned (n : Nat) : ∀ (it : ConfirmedReceivableIterator) (a : Account),
    it.actualAccount = some a →
    it.take n = (entriesOf it.pending a fun k =>
      it.blockExists k.sendBlockHash && fromHash a it.nextHash k).take n := by
  induction n with
  | zero => intros; rfl
  | succ n ih =>
    intro it a hacc
    cases hnext : it.nextHash with
    | none =>
      have hnil : entriesOf it.pending a
          (fun k => it.blockExists k.sendBlockHash && fromHash a none k) = [] := by
        simp [entriesOf, fromHash]
      rw [hnil]
      simp [take, next, hnext]
    | some hash =>
      have hfirst := firstReceivableLowerBound_eq it.pending it.blockExists a hash
      have hspec : entriesOf it.pending a
          (fun k => it.blockExists k.sendBlockHash && fromHash a (some hash) k) =
          (it.pending.entries.filter (fun e =>
            it.blockExists e.1.sendBlockHash && decide (⟨a, hash⟩ ≤ e.1))).filter
            (fun e => e.1.receivingAccount = a) :=
        entriesOf_eq_filter fun _ _ _ => rfl
      rw [hspec]
      cases hG : it.pending.entries.filter (fun e =>
          it.blockExists e.1.sendBlockHash && decide (⟨a, hash⟩ ≤ e.1)) with
      | nil => simp [take, next, hnext, hacc, hfirst, hG]
      | cons e t =>
        obtain ⟨key, info⟩ := e
        have hkey : (⟨a, hash⟩ : PendingKey) ≤ key := by
          have hmem : (key, info) ∈ it.pending.entries.filter (fun e =>
              it.blockExists e.1.sendBlockHash && decide (⟨a, hash⟩ ≤ e.1)) := by
            rw [hG]
            exact List.mem_cons_self
          have hkey := (List.mem_filter.mp hmem).2
          simp only [Bool.and_eq_true, decide_eq_true_eq] at hkey
          exact hkey.2
        by_cases hk : key.receivingAccount = a
        · have hstep : it.next =
              (some (key, info), { it with nextHash := key.sendBlockHash.inc }) := by
            simp [next, hnext, hacc, hfirst, hG, hk]
          rw [take_succ_of_next hstep, List.filter_cons_of_pos (by simpa using hk),
            List.take_succ_cons, ih { it with nextHash := key.sendBlockHash.inc } a hacc]
          congr 1
          have htail := filter_account_of_filter_eq_cons (R := fun k => it.blockExists k.sendBlockHash) hG
            (fun x _ _ hlt => by simp [le_trans hkey (le_of_lt hlt)])
          simp only at htail
          rw [hk] at htail
          rw [htail]
        · have hstep : it.next = (none, it) := by
            simp [next, hnext, hacc, hfirst, hG, hk]
          rw [take_succ_of_next_none hstep, List.filter_cons_of_neg (by simpa using hk)]
          have hlt : a < key.receivingAccount :=
            lt_of_le_of_ne (PendingKey.receivingAccount_le_of_le hkey) (Ne.symm hk)
          have hs := it.pending.pairwise_entries.filter (fun e =>
            it.blockExists e.1.sendBlockHash && decide (⟨a, hash⟩ ≤ e.1))
          rw [hG] at hs
          rw [List.filter_eq_nil_iff.mpr]
          · rfl
          · intro x hx hxa
            have hxk := PendingKey.receivingAccount_le_of_le (le_of_lt (List.rel_of_pairwise_cons hs hx))
            simp only [decide_eq_true_eq] at hxa
            exact absurd (hxa ▸ hxk) (not_le.mpr hlt)

end ConfirmedReceivableIterator

namespace LedgerSetConfirmed

theorem take_receivableLowerBound (pending : PendingDb) (blockExists : BlockHash → Bool)
    (a : Account) (n : Nat) :
    (receivableLowerBound pending blockExists a).take n =
      ((leastAccount pending fun k => decide (a ≤ k.receivingAccount) && blockExists k.sendBlockHash).elim
        [] fun a' => entriesOf pending a' fun k => blockExists k.sendBlockHash).take n := by
  have hfirst : firstReceivableLowerBound pending blockExists a (FixedBytes.zero 32) =
      (pending.entries.filter (fun e =>
        decide (a ≤ e.1.receivingAccount) && blockExists e.1.sendBlockHash)).head? := by
    rw [ConfirmedReceivableIterator.firstReceivableLowerBound_eq]
    congr 1
    apply List.filter_congr
    intro x _
    rw [Bool.and_comm]
    simp [PendingKey.zero_le_iff]
  rw [leastAccount_eq]
  cases n with
  | zero => simp [ConfirmedReceivableIterator.take]
  | succ n =>
    cases hF : pending.entries.filter (fun e =>
        decide (a ≤ e.1.receivingAccount) && blockExists e.1.sendBlockHash) with
    | nil =>
      simp [ConfirmedReceivableIterator.take, ConfirmedReceivableIterator.next, receivableLowerBound,
        hfirst, hF]
    | cons e t =>
      obtain ⟨key, info⟩ := e
      have hae : a ≤ key.receivingAccount := by
        have hmem : (key, info) ∈ pending.entries.filter (fun e =>
            decide (a ≤ e.1.receivingAccount) && blockExists e.1.sendBlockHash) := by
          rw [hF]
          exact List.mem_cons_self
        have hae := (List.mem_filter.mp hmem).2
        simp only [Bool.and_eq_true, decide_eq_true_eq] at hae
        exact hae.1
      have hstep : (receivableLowerBound pending blockExists a).next = (some (key, info),
          { receivableLowerBound pending blockExists a with
            actualAccount := some key.receivingAccount, nextHash := key.sendBlockHash.inc }) := by
        simp [ConfirmedReceivableIterator.next, receivableLowerBound, hfirst, hF]
      have hentries : entriesOf pending key.receivingAccount (fun k => blockExists k.sendBlockHash) =
          (key, info) :: entriesOf pending key.receivingAccount
            (fun k => blockExists k.sendBlockHash && fromHash key.receivingAccount key.sendBlockHash.inc k) := by
        rw [entriesOf_eq_filter (Q := fun e => decide (a ≤ e.1.receivingAccount) && blockExists e.1.sendBlockHash)
          (fun x _ hxa => by simp [hxa, hae]), hF, List.filter_cons_of_pos (by simp)]
        congr 1
        exact filter_account_of_filter_eq_cons hF (fun x _ hxa _ => by simp [hxa, hae])
      rw [ConfirmedReceivableIterator.take_succ_of_next hstep, List.head?_cons, Option.map_some,
        Option.elim_some,
        hentries, List.take_succ_cons, ConfirmedReceivableIterator.take_of_pinned n _ _ rfl]
      rfl

end LedgerSetConfirmed

theorem entriesOf_sorted (pending : PendingDb) (a : Account) (p : PendingKey → Bool) :
    (entriesOf pending a p).Pairwise (fun x y => x.1.sendBlockHash < y.1.sendBlockHash) := by
  refine (pending.pairwise_entries.filter _).imp_of_mem fun {x y} hx hy hxy => ?_
  have hxa : x.1.receivingAccount = a := by
    have hx' := (List.mem_filter.mp hx).2
    simp only [Bool.and_eq_true, decide_eq_true_eq] at hx'
    exact hx'.1
  have hya : y.1.receivingAccount = a := by
    have hy' := (List.mem_filter.mp hy).2
    simp only [Bool.and_eq_true, decide_eq_true_eq] at hy'
    exact hy'.1
  exact (PendingKey.lt_iff_of_receivingAccount_eq (hxa.trans hya.symm)).mp hxy

/-- The receivable iterators of both ledger sets read the pending table in key order: each
yields the entries of one account, by ascending send hash, and then stops. -/
theorem receivable_iterators_follow_key_order (pending : PendingDb)
    (blockExists : BlockHash → Bool) (a : Account) (hash : BlockHash) (n : Nat) :
    (LedgerSetAny.receivableLowerBound pending a).take n =
      ((leastAccount pending fun k => decide (a ≤ k.receivingAccount)).elim [] fun a' =>
        entriesOf pending a' fun _ => true).take n ∧
    (LedgerSetAny.receivableUpperBound pending a).take n =
      ((leastAccount pending fun k => decide (a < k.receivingAccount)).elim [] fun a' =>
        entriesOf pending a' fun _ => true).take n ∧
    (LedgerSetAny.accountReceivableUpperBound pending a hash).take n =
      (entriesOf pending a fun k => decide (hash < k.sendBlockHash)).take n ∧
    (LedgerSetConfirmed.receivableLowerBound pending blockExists a).take n =
      ((leastAccount pending fun k =>
          decide (a ≤ k.receivingAccount) && blockExists k.sendBlockHash).elim [] fun a' =>
        entriesOf pending a' fun k => blockExists k.sendBlockHash).take n ∧
    ∀ a' p, (entriesOf pending a' p).Pairwise
      (fun x y => x.1.sendBlockHash < y.1.sendBlockHash) :=
  ⟨LedgerSetAny.take_receivableLowerBound pending a n,
    LedgerSetAny.take_receivableUpperBound pending a n,
    LedgerSetAny.take_accountReceivableUpperBound pending a hash n,
    LedgerSetConfirmed.take_receivableLowerBound pending blockExists a n,
    entriesOf_sorted pending⟩

end RsbanNode.Ledger
