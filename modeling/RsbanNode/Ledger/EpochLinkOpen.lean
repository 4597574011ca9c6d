import RsbanNode.Ledger.System

namespace RsbanNode.Ledger

open RsbanNode.Primitives RsbanNode.Blocks RsbanNode.FiniteMap

/-! ## A state block that opens an account with an epoch link

`is_receive` is false for any block with an epoch link, and `is_epoch_block` needs the balance
to stay the previous one. A state block that opens a new account with an epoch link and a
nonzero balance is therefore neither a receive nor an epoch block: no rule asks for a pending
entry, and `ensure_no_reveive_balance_change_without_link` only looks at a zero link. -/

section EpochLinkOpen

variable {l : Ledger} {s : LedgerStore} {b : StateBlock} (now : UInt64)

/-- The conditions under which the validator accepts such a block: a fresh, unconfirmed and
nonzero account, a link of a released epoch that names no stored block and no pending entry,
the owner's signature and enough work for an epoch 0 block. -/
structure EpochLinkOpen (l : Ledger) (s : LedgerStore) (b : StateBlock) : Prop where
  previous_eq : b.previous = FixedBytes.zero 32
  link_isEpochLink : l.constants.epochs.isEpochLink b.link = true
  link_ne : b.link.isZero = false
  balance_ne : b.balance ≠ 0
  account_ne : b.account.isZero = false
  accountInfo_eq : s.accountInfo b.account = none
  confirmationHeight_eq : s.confirmationHeight.lookup b.account = none
  pending_eq : s.getPending ⟨b.account, b.link⟩ = none
  hash_ne : ((Block.state b).hash l.crypto).isZero = false
  not_exists : s.blockExistsOrPruned ((Block.state b).hash l.crypto) = false
  signed : l.crypto.verify b.account ((Block.state b).hash l.crypto).bytes b.signature = true
  work_ok : l.crypto.difficulty (Block.state b).root b.work ≥ l.constants.work.epoch1

variable (h : EpochLinkOpen l s b)
include h

theorem EpochLinkOpen.validator_fields :
    let v := BlockValidatorFactory.createValidator l s (.state b) now
    v.previousBlock = none ∧ v.account = b.account ∧ v.oldAccountInfo = none ∧
      v.pendingReceiveInfo = none ∧ v.blockExists = false := by
  have hz : b.previous.isZero = true := by simp [h.previous_eq]
  simp [BlockValidatorFactory.createValidator, Block.previous, Block.accountField,
    Block.sourceOrLink, Block.sourceField, Block.linkField, hz, h.link_ne, h.accountInfo_eq,
    h.pending_eq, h.not_exists]

theorem EpochLinkOpen.classification :
    let v := BlockValidatorFactory.createValidator l s (.state b) now
    v.isEpochBlock = false ∧ v.isSend = false ∧ v.isReceive = false ∧
      v.amountReceived = b.balance ∧ v.amountSent = 0 ∧ v.newBalance = b.balance ∧
      v.epoch = .epoch0 := by
  obtain ⟨hp, ha, ho, hpe, -⟩ := h.validator_fields now
  intro v
  have hlink : v.hasEpochLink b = true := h.link_isEpochLink
  have hprev : v.previousBalance = 0 := by simp [v, BlockValidator.previousBalance, hp]
  have hne : ¬ (0#128 = b.balance) := fun h0 => h.balance_ne h0.symm
  have hepoch : v.isEpochBlock = false := by
    simp [v, BlockValidator.isEpochBlock, hlink, hprev, hne]
  have hreceived : v.amountReceived = b.balance := by
    have hne' : ¬ (b.balance = 0#128) := h.balance_ne
    simp [v, BlockValidator.amountReceived, hprev, hne']
  have hsent : v.amountSent = 0 := by
    simp [v, BlockValidator.amountSent, ho]
  refine ⟨hepoch, by simp [v, BlockValidator.isSend, ho], ?_, hreceived, hsent, ?_, ?_⟩
  · simp [v, BlockValidator.isReceive, hlink]
  · simp [BlockValidator.newBalance, BlockValidator.oldBalance, v, ho, hreceived, hsent]
  · simp [BlockValidator.epoch, hepoch, BlockValidator.oldEpochVersion,
      BlockValidator.sourceEpoch, v, ho, hpe, Epoch.max]

theorem EpochLinkOpen.validate_eq :
    (BlockValidatorFactory.createValidator l s (.state b) now).validate =
      .ok (BlockValidatorFactory.createValidator l s (.state b) now).createInstructions := by
  obtain ⟨hp, ha, ho, hpe, he⟩ := h.validator_fields now
  obtain ⟨hepoch, hsend, hreceive, hreceived, -, -, hv⟩ := h.classification now
  set v := BlockValidatorFactory.createValidator l s (.state b) now
  have hlink : v.hasEpochLink b = true := h.link_isEpochLink
  have hopen : v.block.isOpen = true := by simp [v, Block.isOpen, h.previous_eq]
  have hprevz : v.block.previous.isZero = true := by simp [v, Block.previous, h.previous_eq]
  have hacct : v.account.isZero = false := by rw [ha]; exact h.account_ne
  rw [BlockValidator.validate_eq_ok]
  refine ⟨?_, ?_, ?_, ?_, ?_, ?_, ?_, ?_, ?_, ?_, ?_, ?_, ?_, ?_, rfl⟩
  · simp [BlockValidator.epochBlockPreChecks, Result.seq_eq_ok,
      BlockValidator.ensureEpochBlockCandidateIsSignedByOwnerOrEpochAccount,
      BlockValidator.ensurePreviousBlockExistsForEpochBlockCandidate, v, h.signed, Block.previous,
      h.previous_eq]
  · simp [BlockValidator.ensureBlockDoesNotExistYet, he]
  · simp [BlockValidator.ensureValidPredecessor, hprevz]
  · simp [BlockValidator.ensureValidSignature, hepoch, ha, v, Block.signature, h.signed]
  · simp [BlockValidator.ensureBlockIsNotForBurnAccount, hacct]
  · simp [BlockValidator.ensureAccountExistsForNoneOpenBlock, hopen]
  · simp [BlockValidator.ensureNoDoubleAccountOpen, BlockValidator.accountExists, ho]
  · simp [BlockValidator.ensurePreviousBlockIsCorrect, Result.seq_eq_ok,
      BlockValidator.ensurePreviousBlockExists, BlockValidator.accountExists,
      BlockValidator.isNewAccount, BlockValidator.ensurePreviousBlockIsAccountHead, ho, hprevz]
  · simp [BlockValidator.ensureOpenBlockHasLink, v, h.link_ne]
  · simp [BlockValidator.ensureNoReveiveBalanceChangeWithoutLink, v, h.link_ne]
  · simp [BlockValidator.ensurePendingReceiveIsCorrect, Result.seq_eq_ok,
      BlockValidator.ensureSourceBlockExists, BlockValidator.ensureReceiveBlockReceivesPendingAmount,
      BlockValidator.ensureLegacySourceIsEpoch0, hreceive, v]
  · have hdetails : v.blockDetails = ⟨.epoch0, false, false, false⟩ := by
      simp [BlockValidator.blockDetails, hv, hsend, hreceive, hepoch]
    simp [BlockValidator.ensureSufficientWork, WorkThresholds.isValidPow, hdetails,
      WorkThresholds.threshold, v, Block.work, h.work_ok]
  · simp [BlockValidator.ensureNoNegativeAmountSend, v]
  · simp [BlockValidator.ensureValidEpochBlock, Result.seq_eq_ok,
      BlockValidator.ensureEpochBlockDoesNotChangeRepresentative,
      BlockValidator.ensureEpochOpenHasBurnAccountAsRep, BlockValidator.ensureEpochOpenHasPendingEntry,
      BlockValidator.ensureValidEpochForUnopenedAccount,
      BlockValidator.ensureEpochUpgradeIsSequentialForExistingAccount,
      BlockValidator.ensureEpochBlockDoesNotChangeBalance, hepoch, ho, v]

theorem EpochLinkOpen.process_eq :
    let v := BlockValidatorFactory.createValidator l s (.state b) now
    ∃ s', l.process s (.state b) now = .ok (⟨.state b, v.newSideband⟩, s') ∧
      s'.accounts = s.accounts.insert b.account v.newAccountInfo ∧ s'.pending = s.pending ∧
      s'.blocks = s.blocks.insert ((Block.state b).hash l.crypto)
        (SavedBlock.normalize ⟨.state b, v.newSideband⟩) ∧
      s'.confirmationHeight = s.confirmationHeight := by
  intro v
  obtain ⟨-, ha, -, -, -⟩ := h.validator_fields now
  obtain ⟨-, hsend, hreceive, -, -, -, -⟩ := h.classification now
  have hhead : v.newAccountInfo.head.isZero = false := h.hash_ne
  have hprevz : (SavedBlock.previous ⟨.state b, v.newSideband⟩).isZero = true := by
    simp [SavedBlock.previous, Block.previous, h.previous_eq]
  refine ⟨(BlockInserter.insert l s (.state b) v.createInstructions).2,
    by rw [process, h.validate_eq]; rfl, ?_, ?_, ?_, ?_⟩
  · have hacc : v.account = b.account := ha
    rw [BlockInserter.insert_accounts, LedgerStore.updateAccount_accounts]
    simp [BlockValidator.createInstructions, hacc, hhead]
  · rw [BlockInserter.insert_pending]
    simp [BlockValidator.createInstructions, BlockValidator.deleteReceivedPendingInfo,
      BlockValidator.newPendingInfo, hreceive, hsend, v]
  · rw [BlockInserter.insert_blocks]
    simp [LedgerStore.blockPut, LedgerStore.updatePredecessor, BlockValidator.createInstructions,
      hprevz, SavedBlock.hash]
  · exact BlockInserter.insert_confirmationHeight _ _ _ _

theorem EpochLinkOpen.weights_process {saved : SavedBlock} {s' : LedgerStore}
    (hs' : l.process s (.state b) now = .ok (saved, s')) :
    let weight := s.repWeight b.representative + b.balance
    s'.repWeights =
        LedgerStore.putStore s.repWeights b.representative (s.repWeight b.representative) weight ∧
      s'.weightCache = LedgerStore.putCache l.minRepWeight s.weightCache b.representative weight := by
  intro weight
  obtain ⟨-, -, ho, -, -⟩ := h.validator_fields now
  obtain ⟨-, -, -, -, -, hbalance, -⟩ := h.classification now
  rw [process, h.validate_eq] at hs'
  obtain ⟨-, rfl⟩ := Prod.mk.inj (Except.ok.inj hs')
  have hold : (BlockValidatorFactory.createValidator l s (.state b) now).createInstructions.oldAccountInfo
      = default := by
    simp [BlockValidator.createInstructions, ho]
  have hz : (default : AccountInfo).head.isZero = true := rfl
  have hnew : (BlockValidatorFactory.createValidator l s (.state b) now).createInstructions.setAccountInfo
      = (BlockValidatorFactory.createValidator l s (.state b) now).newAccountInfo := rfl
  simp only [BlockInserter.updateRepresentativeCache, hold, hnew, hz,
    BlockInserter.deleteOldPendingInfo_eq, BlockInserter.insertNewPendingInfo_eq]
  simp [LedgerStore.representationAdd, LedgerStore.repWeight,
    BlockValidator.newAccountInfo, BlockValidator.newRepresentative, hbalance, weight,
    Block.representativeField]

theorem EpochLinkOpen.supply_process :
    ∃ saved s', l.process s (.state b) now = .ok (saved, s') ∧
      supply s' = supply s + b.balance.toNat := by
  obtain ⟨s', hprocess, haccounts, hpending, -, -⟩ := h.process_eq now
  obtain ⟨-, -, -, -, -, hbalance, -⟩ := h.classification now
  refine ⟨_, s', hprocess, ?_⟩
  have hnot : b.account ∉ s.accounts := AList.lookup_eq_none.mp h.accountInfo_eq
  have hsum := sumBy_insert_eq (fun _ (info : AccountInfo) => info.balance.toNat) s.accounts
    b.account (BlockValidatorFactory.createValidator l s (.state b) now).newAccountInfo
  rw [weightAt_of_not_mem _ hnot] at hsum
  have hnew : (BlockValidatorFactory.createValidator l s (.state b) now).newAccountInfo.balance =
      b.balance := hbalance
  rw [supply, supply, haccounts, hpending]
  rw [hnew] at hsum
  omega

end EpochLinkOpen

/-! ## A ledger that shows it

Hashes that tell blocks apart by the length of their hashables, signatures that always verify
and no work threshold: the block below needs nothing else to be accepted. -/

/-- Hashes by length, accepts every signature, and asks for no work. -/
def permissiveCrypto : Crypto where
  blake2b bytes := FixedBytes.ofNat 32 bytes.length
  blake2b40 _ := FixedBytes.zero 5
  verify _ _ _ := true
  difficulty _ _ := 0

def mintEpochs : Epochs := ⟨(∅ : Table Epoch EpochInfo).insert .epoch1
  ⟨FixedBytes.ofNat 32 1, FixedBytes.ofNat 32 3⟩⟩

def mintLedger : Ledger where
  crypto := permissiveCrypto
  constants :=
    { work := ⟨0, 0, 0⟩
      genesisBlock := ⟨.legacyOpen ⟨FixedBytes.ofNat 32 1, FixedBytes.ofNat 32 1,
        FixedBytes.ofNat 32 1, FixedBytes.zero 64, 0⟩, genesisSideband (FixedBytes.ofNat 32 1) 0⟩
      genesisAccount := FixedBytes.ofNat 32 1
      epochs := mintEpochs }
  minRepWeight := 0

/-- Account `2` opens itself with the epoch 1 link and a balance of one raw. -/
def mintBlock : StateBlock :=
  ⟨FixedBytes.ofNat 32 2, FixedBytes.zero 32, FixedBytes.ofNat 32 2, 1, FixedBytes.ofNat 32 3,
    FixedBytes.zero 64, 0⟩

set_option maxRecDepth 8000 in
theorem mintBlock_epochLinkOpen : mintLedger.EpochLinkOpen (mintLedger.genesis 0) mintBlock where
  previous_eq := rfl
  link_isEpochLink := by decide
  link_ne := by decide
  balance_ne := by decide
  account_ne := by decide
  accountInfo_eq := by decide
  confirmationHeight_eq := by decide
  pending_eq := by decide
  hash_ne := by decide
  not_exists := by decide
  signed := rfl
  work_ok := by decide

theorem epoch_link_open_mints :
    supply (mintLedger.genesis 0) = 2 ^ 128 - 1 ∧
      ∃ s, Reachable mintLedger s ∧ supply s = 2 ^ 128 := by
  have hgenesis : supply (mintLedger.genesis 0) = 2 ^ 128 - 1 := by decide
  obtain ⟨saved, s', hprocess, hsupply⟩ :=
    mintBlock_epochLinkOpen.supply_process 0
  refine ⟨hgenesis, s', ?_, ?_⟩
  · apply Reachable.step (.process (.state mintBlock) 0) (Reachable.genesis 0)
    simp [LedgerOp.apply, hprocess]
  · rw [hsupply, hgenesis]
    rfl

def genesisMintBlock : StateBlock :=
  ⟨FixedBytes.ofNat 32 2, FixedBytes.zero 32, FixedBytes.ofNat 32 1, 1, FixedBytes.ofNat 32 3,
    FixedBytes.zero 64, 0⟩

set_option maxRecDepth 8000 in
theorem genesisMintBlock_epochLinkOpen :
    mintLedger.EpochLinkOpen (mintLedger.genesis 0) genesisMintBlock where
  previous_eq := rfl
  link_isEpochLink := by decide
  link_ne := by decide
  balance_ne := by decide
  account_ne := by decide
  accountInfo_eq := by decide
  confirmationHeight_eq := by decide
  pending_eq := by decide
  hash_ne := by decide
  not_exists := by decide
  signed := rfl
  work_ok := by decide

set_option maxRecDepth 8000 in
theorem epoch_link_open_erases_genesis_weight :
    delegatedBalance (mintLedger.genesis 0) (FixedBytes.ofNat 32 1) = 2 ^ 128 - 1 ∧
      ∃ s, Reachable mintLedger s ∧ delegatedBalance s (FixedBytes.ofNat 32 1) = 2 ^ 128 ∧
        s.repWeights.lookup (FixedBytes.ofNat 32 1) = none ∧
        s.weightCache.lookup (FixedBytes.ofNat 32 1) = none := by
  have hgenesis : delegatedBalance (mintLedger.genesis 0) (FixedBytes.ofNat 32 1) = 2 ^ 128 - 1 := by
    decide
  obtain ⟨s', hprocess, haccounts, -, -, -⟩ := genesisMintBlock_epochLinkOpen.process_eq 0
  obtain ⟨hweights, hcache⟩ := genesisMintBlock_epochLinkOpen.weights_process 0 hprocess
  obtain ⟨-, -, -, -, -, hbalance, -⟩ := genesisMintBlock_epochLinkOpen.classification 0
  refine ⟨hgenesis, s', ?_, ?_, ?_, ?_⟩
  · apply Reachable.step (.process (.state genesisMintBlock) 0) (Reachable.genesis 0)
    simp [LedgerOp.apply, hprocess]
  · have hnot : genesisMintBlock.account ∉ (mintLedger.genesis 0).accounts :=
      AList.lookup_eq_none.mp genesisMintBlock_epochLinkOpen.accountInfo_eq
    have hsum := sumBy_insert_eq
      (fun _ (info : AccountInfo) =>
        if info.representative = FixedBytes.ofNat 32 1 then info.balance.toNat else 0)
      (mintLedger.genesis 0).accounts genesisMintBlock.account
      (BlockValidatorFactory.createValidator mintLedger (mintLedger.genesis 0)
        (.state genesisMintBlock) 0).newAccountInfo
    rw [weightAt_of_not_mem _ hnot] at hsum
    have hnew : (BlockValidatorFactory.createValidator mintLedger (mintLedger.genesis 0)
        (.state genesisMintBlock) 0).newAccountInfo.balance.toNat = 1 := by
      rw [show (BlockValidatorFactory.createValidator mintLedger (mintLedger.genesis 0)
        (.state genesisMintBlock) 0).newAccountInfo.balance = _ from hbalance]
      rfl
    have hrep : (BlockValidatorFactory.createValidator mintLedger (mintLedger.genesis 0)
        (.state genesisMintBlock) 0).newAccountInfo.representative = FixedBytes.ofNat 32 1 := rfl
    rw [delegatedBalance, haccounts]
    simp only [hrep, if_true, hnew] at hsum
    rw [delegatedBalance] at hgenesis
    omega
  · -- the weight wraps to zero and its entry is deleted
    have hzero : (mintLedger.genesis 0).repWeight genesisMintBlock.representative +
        genesisMintBlock.balance = 0 := by decide
    rw [hweights, hzero]
    have hprev : ((mintLedger.genesis 0).repWeight genesisMintBlock.representative != 0) = true := by
      decide
    simp only [LedgerStore.putStore, hprev, beq_self_eq_true, if_true]
    exact AList.lookup_erase _ _
  · rw [hcache]
    have hzero : (mintLedger.genesis 0).repWeight genesisMintBlock.representative +
        genesisMintBlock.balance = 0 := by decide
    rw [hzero]
    simp [LedgerStore.putCache, genesisMintBlock]

end RsbanNode.Ledger

namespace RsbanNode.Ledger

open RsbanNode.Primitives RsbanNode.Blocks RsbanNode.FiniteMap RsbanNode.Result

/-! ## Rolling such a block back

`RollbackPlanner::block_sub_type` classifies by the balance change alone, so the block rolls
back as an open and `add_pending` writes a pending entry for its link, which the insertion
never consumed. -/

section Rollback

variable {l : Ledger} {s : LedgerStore} {b : StateBlock} (now : UInt64)
variable (h : EpochLinkOpen l s b)
include h

theorem EpochLinkOpen.rollback_after_process (now' : UInt64) (fuel : Nat) :
    let v := BlockValidatorFactory.createValidator l s (.state b) now
    let stored := SavedBlock.normalize ⟨.state b, v.newSideband⟩
    ∃ s' s'', l.process s (.state b) now = .ok (⟨.state b, v.newSideband⟩, s') ∧
      l.rollback (fuel + 2) s' ((Block.state b).hash l.crypto) now' = .ok ([stored], s'') ∧
      s''.pending.lookup ⟨b.account, b.link⟩ =
        some ⟨(s'.blockAccount b.link).getD default, b.balance, .epoch0⟩ := by
  intro v stored
  obtain ⟨s', hprocess, haccounts, hpending, hblocks, hconf⟩ := h.process_eq now
  obtain ⟨-, -, ho, hpe, -⟩ := h.validator_fields now
  obtain ⟨-, -, -, -, -, hbalance, -⟩ := h.classification now
  have hget : s'.getBlock ((Block.state b).hash l.crypto) = some stored := by
    simp [LedgerStore.getBlock, hblocks, stored, v]
  have hinfo : s'.accountInfo b.account = some v.newAccountInfo := by
    simp [LedgerStore.accountInfo, haccounts, v]
  have hsprev : stored.previous.isZero = true := by
    simp [stored, SavedBlock.previous, SavedBlock.normalize, Block.previous, h.previous_eq]
  have hsheight : stored.height = 1 := by
    simp [stored, v, SavedBlock.height, SavedBlock.normalize, BlockSideband.decoded,
      BlockSideband.hasHeight, SavedBlock.backfill, BlockValidator.newSideband,
      BlockValidator.newBlockCount, ho]
  have hhead : v.newAccountInfo.head = (Block.state b).hash l.crypto := rfl
  have hsaccount : stored.account = b.account := rfl
  have hsblock : stored.block = .state b := rfl
  have hload : BlockRollbackPerformer.loadAccountHead s' stored = .ok stored := by
    simp [BlockRollbackPerformer.loadAccountHead, hsaccount, hinfo, loadBlock, hhead, hget]
  have hacc : RollbackPlannerFactory.getAccount l.crypto s' stored = .ok b.account := by
    simp [RollbackPlannerFactory.getAccount, LedgerStore.blockAccount, SavedBlock.hash, hsblock,
      hget, hsaccount]
  have hrep : RollbackPlannerFactory.getPreviousRepresentative l.crypto s' stored = .ok none := by
    simp [RollbackPlannerFactory.getPreviousRepresentative, hsprev]
  have hprev : RollbackPlannerFactory.loadPreviousBlock s' stored = .ok none := by
    simp [RollbackPlannerFactory.loadPreviousBlock, hsprev]
  obtain ⟨p, hplanner, hph, hpa, hpc, hpr, hpp, hpch, hpl, hpcr⟩ : ∃ p,
      RollbackPlannerFactory.createPlanner l s' stored now' = .ok p ∧ p.headBlock = stored ∧
        p.account = b.account ∧ p.currentAccountInfo = v.newAccountInfo ∧
        p.previousRepresentative = none ∧ p.previous = none ∧ p.confirmationHeight.height = 0 ∧
        p.linkedAccount = (s'.blockAccount b.link).getD default ∧ p.crypto = l.crypto :=
    ⟨_, RollbackPlannerFactory.createPlanner_eq_ok.mpr ⟨b.account, none, none, hacc, hrep, hprev, rfl⟩,
      rfl, rfl, by simp [hinfo], rfl, rfl, by rw [hconf, hsaccount, h.confirmationHeight_eq]; rfl, rfl,
      rfl⟩
  have hpbal : p.previousBalance = 0 := by simp [RollbackPlanner.previousBalance, hpp]
  have hpos : p.previousBalance < p.currentAccountInfo.balance := by
    have hne : b.balance.toNat ≠ 0 := fun h0 => h.balance_ne (BitVec.eq_of_toNat_eq h0)
    rw [hpbal, hpc, BitVec.lt_def]
    show 0 < v.newBalance.toNat
    rw [hbalance]
    omega
  have hsub : p.blockSubType = .open := by
    have hopen : p.headBlock.block.isOpen = true := by
      simp [hph, stored, SavedBlock.normalize, h.previous_eq]
    simp [RollbackPlanner.blockSubType, hpos, hopen, BitVec.not_lt.mpr (BitVec.le_of_lt hpos)]
  have hstep : p.rollBackHeadBlock = .ok (.rollBackBlock p.instructions) := by
    simp [RollbackPlanner.rollBackHeadBlock, RollbackPlanner.ensureBlockIsNotConfirmed, hph,
      hsheight, hpch, hsub]
  have hexists : s'.blockExists ((Block.state b).hash l.crypto) = true := by
    simp [LedgerStore.blockExists, hblocks]
  have hgone : (RollbackInstructionsExecutor.execute l s' p.instructions).blockExists
      ((Block.state b).hash l.crypto) = false := by
    simp [LedgerStore.blockExists, RollbackInstructionsExecutor.execute_blocks,
      RollbackInstructionsExecutor.updateBlockTable, RollbackPlanner.instructions, hpp, hph, hpcr,
      LedgerStore.blockDel, stored, SavedBlock.hash, SavedBlock.normalize]
  refine ⟨s', RollbackInstructionsExecutor.execute l s' p.instructions, hprocess, ?_, ?_⟩
  · simp [rollback, loadBlock, hget, BlockRollbackPerformer.rollBackLoop, hexists, hload,
      hplanner, hstep, hgone]
  · rw [RollbackInstructionsExecutor.execute_pending, RollbackInstructionsExecutor.updatePendingTable_eq]
    have hnewbal : v.newAccountInfo.balance = b.balance := hbalance
    have hsrc : stored.sourceEpoch = .epoch0 := by
      simp [stored, SavedBlock.sourceEpoch, SavedBlock.normalize, BlockSideband.decoded,
        SavedBlock.backfill, BlockValidator.newSideband, BlockValidator.sourceEpoch, v, hpe]
    simp [RollbackPlanner.instructions, RollbackPlanner.removePending, RollbackPlanner.addPending,
      hsub, hpa, hph, hpl, hpbal, hpc, hnewbal, hsblock, hsrc, Block.sourceOrLink,
      Block.sourceField, Block.linkField]

end Rollback

theorem epoch_link_open_rollback_adds_pending :
    Reachable mintLedger (mintLedger.genesis 0) ∧
      ∃ saved s' s'', mintLedger.process (mintLedger.genesis 0) (.state mintBlock) 0 = .ok (saved, s') ∧
        mintLedger.rollback 2 s' ((Block.state mintBlock).hash mintLedger.crypto) 0 =
          .ok ([saved.normalize], s'') ∧
        (mintLedger.genesis 0).pending.lookup ⟨mintBlock.account, mintBlock.link⟩ = none ∧
        (s''.pending.lookup ⟨mintBlock.account, mintBlock.link⟩).isSome := by
  obtain ⟨s', s'', hprocess, hrollback, hpending⟩ :=
    mintBlock_epochLinkOpen.rollback_after_process 0 0 0
  refine ⟨Reachable.genesis 0, _, s', s'', hprocess, hrollback, by decide, ?_⟩
  rw [hpending]
  rfl

end RsbanNode.Ledger
