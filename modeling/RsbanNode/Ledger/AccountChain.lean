import RsbanNode.Ledger.Cementer
import RsbanNode.Library.Walk

namespace RsbanNode.Blocks

/-- The kinds of block `find_rep_block` stops at: those that name the account's
representative. -/
def Block.fixesRepresentative : Block → Bool
  | .legacySend _ | .legacyReceive _ => false
  | .legacyOpen _ | .legacyChange _ | .state _ => true

theorem Block.fixesRepresentative_iff (b : Block) :
    b.fixesRepresentative = true ↔ b.representativeField.isSome := by
  cases b <;> rfl

end RsbanNode.Blocks

namespace RsbanNode.Ledger

open RsbanNode.Primitives RsbanNode.Blocks RsbanNode.Walk Relation

namespace LedgerStore

variable (s : LedgerStore)

/-- A step down an account chain: from a stored block to the hash of its previous block. -/
def PreviousStep (hi lo : BlockHash) : Prop := ∃ b, s.getBlock hi = some b ∧ b.previous = lo

/-- The hash of a stored block that fixes its account's representative. -/
def NamesRepresentative (h : BlockHash) : Prop :=
  ∃ b, s.getBlock h = some b ∧ b.block.fixesRepresentative = true

/-- The account-chain invariant of a ledger without pruning. Each block is stored under its
hash, and the zero hash, which stands for "no block", is stored nowhere. A block's previous
block is stored one below it on the same account. A chain starts, at height one, with a block
that names a representative. -/
structure ChainInv (c : Crypto) : Prop where
  hash_eq : ∀ h b, s.getBlock h = some b → b.hash c = h
  zero_absent : s.getBlock (FixedBytes.zero 32) = none
  previous_stored : ∀ h b, s.getBlock h = some b → b.previous ≠ FixedBytes.zero 32 →
    ∃ b', s.getBlock b.previous = some b' ∧ b'.account = b.account ∧ b'.height + 1 = b.height
  chain_start : ∀ h b, s.getBlock h = some b → b.previous = FixedBytes.zero 32 →
    b.block.fixesRepresentative = true ∧ b.height = 1

def heightOf (h : BlockHash) : Nat := ((s.getBlock h).map (·.height)).getD 0

def chainBelow : Nat → BlockHash → List BlockHash
  | 0, _ => []
  | n + 1, h => h :: chainBelow n (((s.getBlock h).map (·.previous)).getD (FixedBytes.zero 32))

end LedgerStore

/-! ## The chain below a block -/

namespace LedgerStore

variable {s : LedgerStore} {c : Crypto}

theorem previousStep_rightUnique : Relator.RightUnique s.PreviousStep := by
  rintro hi lo₁ lo₂ ⟨b₁, hb₁, rfl⟩ ⟨b₂, hb₂, rfl⟩
  rw [hb₁, Option.some.injEq] at hb₂
  rw [hb₂]

theorem ChainInv.previous_of_stored (hinv : s.ChainInv c) {h : BlockHash} {b b' : SavedBlock}
    (hb : s.getBlock h = some b) (hb' : s.getBlock b.previous = some b') :
    b'.account = b.account ∧ b'.height + 1 = b.height := by
  have hne : b.previous ≠ FixedBytes.zero 32 := by
    intro hzero
    rw [hzero, hinv.zero_absent] at hb'
    cases hb'
  obtain ⟨b'', hb'', hacc, hheight⟩ := hinv.previous_stored h b hb hne
  rw [hb', Option.some.injEq] at hb''
  subst hb''
  exact ⟨hacc, hheight⟩

theorem isSome_of_previousStep {hi lo : BlockHash} (hstep : s.PreviousStep hi lo) :
    (s.getBlock hi).isSome := by
  obtain ⟨b, hb, _⟩ := hstep
  simp [hb]

theorem ChainInv.heightOf_lt (hinv : s.ChainInv c) {hi lo : BlockHash}
    (hstep : s.PreviousStep hi lo) (hlo : (s.getBlock lo).isSome) :
    s.heightOf lo < s.heightOf hi := by
  obtain ⟨b, hb, rfl⟩ := hstep
  obtain ⟨b', hb'⟩ := Option.isSome_iff_exists.mp hlo
  have hheight := (hinv.previous_of_stored hb hb').2
  simp only [heightOf, hb, hb', Option.map_some, Option.getD_some]
  omega

theorem ChainInv.not_transGen_self (hinv : s.ChainInv c) {h : BlockHash}
    (hh : (s.getBlock h).isSome) : ¬ TransGen s.PreviousStep h h :=
  not_transGen_self_of_rank s.heightOf (Q := fun x => (s.getBlock x).isSome)
    (fun _ _ hstep hlo => hinv.heightOf_lt hstep hlo) (fun _ _ => isSome_of_previousStep) hh

theorem ChainInv.account_of_reaches (hinv : s.ChainInv c) {h r : BlockHash} {b br : SavedBlock}
    (hreach : ReflTransGen s.PreviousStep h r) (hb : s.getBlock h = some b)
    (hbr : s.getBlock r = some br) : br.account = b.account := by
  have hstep : ∀ hi lo, s.PreviousStep hi lo → (s.getBlock lo).isSome →
      (s.getBlock lo).map (·.account) = (s.getBlock hi).map (·.account) := by
    rintro hi lo ⟨b₁, hb₁, rfl⟩ hlo
    obtain ⟨b₂, hb₂⟩ := Option.isSome_iff_exists.mp hlo
    simp [hb₁, hb₂, (hinv.previous_of_stored hb₁ hb₂).1]
  have heq := ReflTransGen.eq_of_step (Q := fun x => (s.getBlock x).isSome)
    (fun x => (s.getBlock x).map (·.account)) hstep (fun _ _ => isSome_of_previousStep) hreach
    (by simp [hbr])
  simpa [hb, hbr] using heq

theorem ChainInv.height_le_of_reaches (hinv : s.ChainInv c) {h r : BlockHash}
    {b br : SavedBlock} (hreach : ReflTransGen s.PreviousStep h r) (hb : s.getBlock h = some b)
    (hbr : s.getBlock r = some br) : br.height ≤ b.height := by
  rcases reflTransGen_iff_eq_or_transGen.mp hreach with rfl | htrans
  · rw [hb, Option.some.injEq] at hbr
    rw [hbr]
  · have hlt := TransGen.rank_lt s.heightOf (Q := fun x => (s.getBlock x).isSome)
      (fun _ _ hstep hlo => hinv.heightOf_lt hstep hlo) (fun _ _ => isSome_of_previousStep)
      htrans (by simp [hbr])
    simp only [heightOf, hb, hbr, Option.map_some, Option.getD_some] at hlt
    exact Nat.le_of_lt hlt

theorem length_chainBelow (n : Nat) (h : BlockHash) : (s.chainBelow n h).length = n := by
  induction n generalizing h with
  | zero => rfl
  | succ n ih => rw [chainBelow, List.length_cons, ih]

theorem ChainInv.chainBelow_stored (hinv : s.ChainInv c) (n : Nat) :
    ∀ h b, s.getBlock h = some b → b.height = n →
      (∀ x ∈ s.chainBelow n h, ∃ bx, s.getBlock x = some bx ∧ bx.height ≤ n) ∧
        (s.chainBelow n h).Nodup := by
  induction n with
  | zero => exact fun _ _ _ _ => ⟨by simp [chainBelow], List.nodup_nil⟩
  | succ n ih =>
    intro h b hb hheight
    simp only [chainBelow, hb, Option.map_some, Option.getD_some]
    cases n with
    | zero => exact ⟨by simp [chainBelow, hb, hheight], List.nodup_singleton h⟩
    | succ n =>
      -- a block above height one is no chain start, so its previous block is stored
      have hne : b.previous ≠ FixedBytes.zero 32 := fun hzero => by
        have := (hinv.chain_start h b hb hzero).2
        omega
      obtain ⟨b', hb', _, hheight'⟩ := hinv.previous_stored h b hb hne
      obtain ⟨hbelow, hnodup⟩ := ih b.previous b' hb' (by omega)
      refine ⟨fun x hx => ?_, List.nodup_cons.mpr ⟨fun hmem => ?_, hnodup⟩⟩
      · rcases List.mem_cons.mp hx with rfl | hx
        · exact ⟨b, hb, Nat.le_of_eq hheight⟩
        · obtain ⟨bx, hbx, hle⟩ := hbelow x hx
          exact ⟨bx, hbx, Nat.le_succ_of_le hle⟩
      · obtain ⟨bx, hbx, hle⟩ := hbelow h hmem
        rw [hb, Option.some.injEq] at hbx
        subst hbx
        omega

theorem ChainInv.height_le_length (hinv : s.ChainInv c) {h : BlockHash} {b : SavedBlock}
    (hb : s.getBlock h = some b) : b.height ≤ s.blocks.entries.length := by
  obtain ⟨hstored, hnodup⟩ := hinv.chainBelow_stored b.height h b hb rfl
  have hsub : s.chainBelow b.height h ⊆ s.blocks.keys := fun x hx => by
    obtain ⟨bx, hbx, _⟩ := hstored x hx
    exact AList.mem_keys.mpr (AList.lookup_isSome.mp (Option.isSome_iff_exists.mpr ⟨bx, hbx⟩))
  have hle := (hnodup.subperm hsub).length_le
  rw [length_chainBelow] at hle
  simpa [AList.keys, List.keys] using hle

end LedgerStore

/-! ## Finding the representative block -/

variable {s : LedgerStore} {c : Crypto}

open LedgerStore

theorem findRepBlock_of_getBlock_none {h : BlockHash} (hh : s.getBlock h = none) (fuel : Nat) :
    findRepBlock c s fuel h = FixedBytes.zero 32 := by
  cases fuel with
  | zero => rfl
  | succ fuel => simp [findRepBlock, hh]

theorem findRepBlock_of_back {h : BlockHash} {b : SavedBlock} (hb : s.getBlock h = some b)
    (hback : b.block.fixesRepresentative = false) (fuel : Nat) :
    findRepBlock c s (fuel + 1) h = findRepBlock c s fuel b.previous := by
  simp only [findRepBlock, hb]
  cases hblock : b.block <;> simp_all [Block.fixesRepresentative, SavedBlock.previous]

theorem findRepBlock_of_fixes (hinv : s.ChainInv c) {h : BlockHash} {b : SavedBlock}
    (hb : s.getBlock h = some b) (hfix : b.block.fixesRepresentative = true) (fuel : Nat) :
    findRepBlock c s (fuel + 1) h = h := by
  have hhash : b.hash c = h := hinv.hash_eq h b hb
  have hnz : h ≠ FixedBytes.zero 32 := by
    rintro rfl
    rw [hinv.zero_absent] at hb
    cases hb
  simp only [findRepBlock, hb]
  cases hblock : b.block <;> simp_all [Block.fixesRepresentative]

theorem findRepBlock_nearest (hinv : s.ChainInv c) (fuel : Nat) :
    ∀ h b, s.getBlock h = some b → b.height < fuel →
      Nearest s.PreviousStep s.NamesRepresentative h (findRepBlock c s fuel h) := by
  induction fuel with
  | zero => exact fun _ _ _ hlt => absurd hlt (Nat.not_lt_zero _)
  | succ fuel ih =>
    intro h b hb hlt
    cases hfix : b.block.fixesRepresentative with
    | true =>
      rw [findRepBlock_of_fixes hinv hb hfix]
      exact nearest_self ⟨b, hb, hfix⟩ (hinv.not_transGen_self (by simp [hb]))
    | false =>
      have hne : b.previous ≠ FixedBytes.zero 32 := fun hzero => by
        rw [(hinv.chain_start h b hb hzero).1] at hfix
        cases hfix
      obtain ⟨b', hb', _, hheight⟩ := hinv.previous_stored h b hb hne
      rw [findRepBlock_of_back hb hfix]
      refine Nearest.head previousStep_rightUnique ⟨b, hb, rfl⟩ ?_ (ih b.previous b' hb' (by omega))
      rintro ⟨b₁, hb₁, hfix₁⟩
      rw [hb, Option.some.injEq] at hb₁
      rw [← hb₁, hfix] at hfix₁
      cases hfix₁

/-- With the fuel `representative_block_hash` gives it, the walk from a stored block ends at
the nearest block that names a representative. -/
theorem representativeBlockHash_nearest (hinv : s.ChainInv c) {h : BlockHash} {b : SavedBlock}
    (hb : s.getBlock h = some b) :
    Nearest s.PreviousStep s.NamesRepresentative h (representativeBlockHash c s h) :=
  findRepBlock_nearest hinv _ h b hb (Nat.lt_succ_of_le (hinv.height_le_length hb))

/-- `RepresentativeBlockFinder::find_rep_block` on a ledger with the account-chain invariant.
From a stored hash, every fuel above the block's height gives one result, which the fuel of
`representative_block_hash` gives too: the hash of the nearest block at or below it on its
account chain that is a legacy open, legacy change or state block, on the same account and at
most as high. From a hash that is not stored the result is zero. -/
theorem find_rep_block_nearest (hinv : s.ChainInv c) :
    (∀ h b, s.getBlock h = some b →
      ∃ r, (∀ fuel, b.height < fuel → findRepBlock c s fuel h = r) ∧
        representativeBlockHash c s h = r ∧
        Nearest s.PreviousStep s.NamesRepresentative h r ∧
        ∃ br, s.getBlock r = some br ∧ br.account = b.account ∧ br.height ≤ b.height ∧
          br.block.fixesRepresentative = true) ∧
    ∀ h, s.getBlock h = none → ∀ fuel, findRepBlock c s fuel h = FixedBytes.zero 32 := by
  refine ⟨fun h b hb => ?_, fun h hh fuel => findRepBlock_of_getBlock_none hh fuel⟩
  have hnearest := representativeBlockHash_nearest hinv hb
  refine ⟨representativeBlockHash c s h, fun fuel hlt => ?_, rfl, hnearest, ?_⟩
  · exact (findRepBlock_nearest hinv fuel h b hb hlt).unique previousStep_rightUnique hnearest
  · obtain ⟨br, hbr, hfix⟩ := hnearest.holds
    exact ⟨br, hbr, hinv.account_of_reaches hnearest.reaches hb hbr,
      hinv.height_le_of_reaches hnearest.reaches hb hbr, hfix⟩

open BlockCementer in
/-- The self-send chain of the cementer: open `96`, send `80`, receive `64`. The walk from the
receive passes the send and ends at the open. -/
theorem find_rep_block_nearest_self_send :
    selfStore.ChainInv countingCrypto ∧
      representativeBlockHash countingCrypto selfStore (FixedBytes.ofNat 32 64) =
        FixedBytes.ofNat 32 96 ∧
      (∀ h b, selfStore.getBlock h = some b →
        ∃ r, (∀ fuel, b.height < fuel → findRepBlock countingCrypto selfStore fuel h = r) ∧
          representativeBlockHash countingCrypto selfStore h = r ∧
          Nearest selfStore.PreviousStep selfStore.NamesRepresentative h r ∧
          ∃ br, selfStore.getBlock r = some br ∧ br.account = b.account ∧
            br.height ≤ b.height ∧ br.block.fixesRepresentative = true) ∧
      ∀ h, selfStore.getBlock h = none →
        ∀ fuel, findRepBlock countingCrypto selfStore fuel h = FixedBytes.zero 32 := by
  have hinv : selfStore.ChainInv countingCrypto := by
    refine ⟨fun h b hb => ?_, by decide, fun h b hb hne => ?_, fun h b hb => ?_⟩
    · rcases selfStore_getBlock hb with ⟨rfl, rfl⟩ | ⟨rfl, rfl⟩ | ⟨rfl, rfl⟩ <;> rfl
    · rcases selfStore_getBlock hb with ⟨rfl, rfl⟩ | ⟨rfl, rfl⟩ | ⟨rfl, rfl⟩
      · exact absurd rfl hne
      · exact ⟨openG, by decide, rfl, rfl⟩
      · exact ⟨sendS, by decide, rfl, rfl⟩
    · rcases selfStore_getBlock hb with ⟨rfl, rfl⟩ | ⟨rfl, rfl⟩ | ⟨rfl, rfl⟩ <;> decide
  exact ⟨hinv, by decide +kernel, find_rep_block_nearest hinv⟩

end RsbanNode.Ledger
