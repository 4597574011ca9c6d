import RsbanNode.Ledger.Validator

namespace RsbanNode.Ledger

open RsbanNode.Primitives RsbanNode.Blocks

/-- `BlockValidatorFactory::create_validator`: what validation reads from the store. -/
def BlockValidatorFactory.createValidator (l : Ledger) (s : LedgerStore) (block : Block)
    (now : UInt64) : BlockValidator :=
  let previousBlock : Option SavedBlock :=
    if !block.previous.isZero then s.getBlock block.previous else none
  let account :=
    (match block.accountField with
      | some account => some account
      | none => previousBlock.map SavedBlock.account).getD default
  let sourceBlock := block.sourceOrLink
  { block
    epochs := l.constants.epochs
    work := l.constants.work
    crypto := l.crypto
    account
    blockExists := s.blockExistsOrPruned (block.hash l.crypto)
    oldAccountInfo := s.accountInfo account
    pendingReceiveInfo := if sourceBlock.isZero then none else s.getPending ⟨account, sourceBlock⟩
    anyPendingExists := s.receivableExists account
    sourceBlockExists := !sourceBlock.isZero && s.blockExistsOrPruned sourceBlock
    previousBlock
    secondsSinceEpoch := now }

namespace BlockValidatorFactory

variable (l : Ledger) (s : LedgerStore) (block : Block) (now : UInt64)

@[simp] theorem createValidator_block : (createValidator l s block now).block = block := rfl

@[simp] theorem createValidator_epochs :
    (createValidator l s block now).epochs = l.constants.epochs := rfl

@[simp] theorem createValidator_work : (createValidator l s block now).work = l.constants.work :=
  rfl

@[simp] theorem createValidator_crypto : (createValidator l s block now).crypto = l.crypto := rfl

@[simp] theorem createValidator_secondsSinceEpoch :
    (createValidator l s block now).secondsSinceEpoch = now := rfl

end BlockValidatorFactory

namespace BlockInserter

/-- `update_representative_cache`: an existing account moves its old balance away from its old
representative and puts the new balance on the new one. -/
def updateRepresentativeCache (minWeight : Amount) (s : LedgerStore)
    (instructions : BlockInsertInstructions) : LedgerStore :=
  if !instructions.oldAccountInfo.head.isZero then
    s.representationAddDual minWeight instructions.oldAccountInfo.representative
      (0 - instructions.oldAccountInfo.balance) instructions.setAccountInfo.representative
      instructions.setAccountInfo.balance
  else
    s.representationAdd minWeight instructions.setAccountInfo.representative
      instructions.setAccountInfo.balance

def deleteOldPendingInfo (s : LedgerStore) (instructions : BlockInsertInstructions) :
    LedgerStore :=
  match instructions.deletePending with
  | some key => s.pendingDel key
  | none => s

def insertNewPendingInfo (s : LedgerStore) (instructions : BlockInsertInstructions) :
    LedgerStore :=
  match instructions.insertPending with
  | some (key, info) => s.pendingPut key info
  | none => s

/-- `BlockInserter::insert`; the observer calls leave the store alone. -/
def insert (l : Ledger) (s : LedgerStore) (block : Block)
    (instructions : BlockInsertInstructions) : SavedBlock × LedgerStore :=
  let savedBlock : SavedBlock := ⟨block, instructions.setSideband⟩
  let s := s.blockPut l.crypto savedBlock
  let s := s.updateAccount instructions.account instructions.oldAccountInfo
    instructions.setAccountInfo
  let s := deleteOldPendingInfo s instructions
  let s := insertNewPendingInfo s instructions
  let s := updateRepresentativeCache l.minRepWeight s instructions
  (savedBlock, { s with blockCount := s.blockCount + 1 })

section Frame

variable (l : Ledger) (s : LedgerStore) (block : Block) (instructions : BlockInsertInstructions)
  (minWeight : Amount)

theorem deleteOldPendingInfo_eq :
    deleteOldPendingInfo s instructions =
      { s with pending := match instructions.deletePending with
          | some key => s.pending.erase key
          | none => s.pending } := by
  unfold deleteOldPendingInfo
  split <;> rfl

theorem insertNewPendingInfo_eq :
    insertNewPendingInfo s instructions =
      { s with pending := match instructions.insertPending with
          | some (key, info) => s.pending.insert key info
          | none => s.pending } := by
  unfold insertNewPendingInfo
  split <;> rfl

theorem updateRepresentativeCache_frame :
    (updateRepresentativeCache minWeight s instructions).blocks = s.blocks ∧
      (updateRepresentativeCache minWeight s instructions).accounts = s.accounts ∧
      (updateRepresentativeCache minWeight s instructions).pending = s.pending ∧
      (updateRepresentativeCache minWeight s instructions).confirmationHeight =
        s.confirmationHeight := by
  unfold updateRepresentativeCache
  split <;> simp

theorem insert_fst : (insert l s block instructions).1 = ⟨block, instructions.setSideband⟩ := rfl

theorem insert_blocks :
    (insert l s block instructions).2.blocks =
      (s.blockPut l.crypto ⟨block, instructions.setSideband⟩).blocks := by
  simp [insert, deleteOldPendingInfo_eq, insertNewPendingInfo_eq,
    (updateRepresentativeCache_frame _ _ _).1]

theorem insert_accounts :
    (insert l s block instructions).2.accounts =
      (s.updateAccount instructions.account instructions.oldAccountInfo
        instructions.setAccountInfo).accounts := by
  simp [insert, deleteOldPendingInfo_eq, insertNewPendingInfo_eq,
    (updateRepresentativeCache_frame _ _ _).2.1, LedgerStore.updateAccount_accounts]

theorem insert_pending :
    (insert l s block instructions).2.pending =
      let pending := match instructions.deletePending with
        | some key => s.pending.erase key
        | none => s.pending
      match instructions.insertPending with
      | some (key, info) => pending.insert key info
      | none => pending := by
  simp [insert, deleteOldPendingInfo_eq, insertNewPendingInfo_eq,
    (updateRepresentativeCache_frame _ _ _).2.2.1]

theorem insert_confirmationHeight :
    (insert l s block instructions).2.confirmationHeight = s.confirmationHeight := by
  simp [insert, deleteOldPendingInfo_eq, insertNewPendingInfo_eq,
    (updateRepresentativeCache_frame _ _ _).2.2.2]

end Frame

end BlockInserter

def process (l : Ledger) (s : LedgerStore) (block : Block) (now : UInt64) :
    Except BlockStatus (SavedBlock × LedgerStore) := do
  let instructions ← (BlockValidatorFactory.createValidator l s block now).validate
  pure (BlockInserter.insert l s block instructions)

end RsbanNode.Ledger
