import RsbanNode.Ledger.Insert

namespace RsbanNode.Ledger

open RsbanNode.Primitives RsbanNode.Blocks

structure RollbackInstructions where
  blockHash : BlockHash
  blockSubType : BlockSubType
  account : Account
  removePending : Option PendingKey
  addPending : Option (PendingKey × PendingInfo)
  setAccountInfo : AccountInfo
  oldAccountInfo : AccountInfo
  clearSuccessor : Option BlockHash
  newBalance : Amount
  newRepresentative : Option PublicKey

inductive RollbackStep
  | rollBackBlock (instructions : RollbackInstructions)
  /-- the given dependent block has to be rolled back first -/
  | requestDependencyRollback (hash : BlockHash)

/-- Everything the rollback of an account's head block reads from the ledger. -/
structure RollbackPlanner where
  epochs : Epochs
  crypto : Crypto
  headBlock : SavedBlock
  account : Account
  currentAccountInfo : AccountInfo
  previousRepresentative : Option PublicKey
  previous : Option SavedBlock
  linkedAccount : Account
  pendingReceive : Option PendingInfo
  latestBlockForDestination : Option BlockHash
  confirmationHeight : ConfirmationHeightInfo
  secondsSinceEpoch : UInt64

namespace RollbackPlanner

variable (p : RollbackPlanner)

def previousBalance : Amount := (p.previous.map (·.balance)).getD 0

def previousEpoch : Epoch := (p.previous.map (·.epoch)).getD .epoch0

/-- The subtype is read off the balance change, not off the sideband. -/
def blockSubType : BlockSubType :=
  if p.currentAccountInfo.balance < p.previousBalance then .send
  else if p.currentAccountInfo.balance > p.previousBalance then
    if p.headBlock.block.isOpen then .open else .receive
  else if p.epochs.isEpochLink (p.headBlock.block.linkField.getD default) then .epoch
  else .change

def ensureBlockIsNotConfirmed : Except String Unit :=
  if p.headBlock.height ≤ p.confirmationHeight.height then
    .error "Only unconfirmed blocks can be rolled back"
  else .ok ()

/-- A send whose pending entry is gone was received: the destination's head goes first. -/
def rollBackDestinationAccountIfSendBlockIsReceived : Except String (Option RollbackStep) :=
  if p.pendingReceive.isSome then .ok none
  else
    match p.latestBlockForDestination with
    | some latestDestinationBlock => .ok (some (.requestDependencyRollback latestDestinationBlock))
    | none => .error "no latest block for destination"

/-- The source's comment: the entry's account can be wrong if the source block was pruned. -/
def addPending : Option (PendingKey × PendingInfo) :=
  match p.blockSubType with
  | .open | .receive =>
    some (⟨p.account, p.headBlock.block.sourceOrLink⟩,
      ⟨p.linkedAccount, p.currentAccountInfo.balance - p.previousBalance,
        p.headBlock.sourceEpoch⟩)
  | _ => none

def removePending : Option PendingKey :=
  if p.blockSubType = .send then
    some ⟨p.headBlock.block.destinationOrLink, p.headBlock.hash p.crypto⟩
  else none

def previousRepresentativeOrCurrent : PublicKey :=
  p.previousRepresentative.getD p.currentAccountInfo.representative

def previousAccountInfo : AccountInfo :=
  if p.headBlock.previous.isZero then default
  else
    ⟨p.headBlock.previous, p.previousRepresentativeOrCurrent, p.currentAccountInfo.openBlock,
      p.previousBalance, p.secondsSinceEpoch, p.currentAccountInfo.blockCount - 1,
      p.previousEpoch⟩

def instructions : RollbackInstructions :=
  { blockHash := p.headBlock.hash p.crypto
    account := p.account
    oldAccountInfo := p.currentAccountInfo
    newRepresentative := p.previousRepresentative
    blockSubType := p.blockSubType
    removePending := p.removePending
    addPending := p.addPending
    setAccountInfo := p.previousAccountInfo
    clearSuccessor := p.previous.map (·.hash p.crypto)
    newBalance := p.previousBalance }

def rollBackHeadBlock : Except String RollbackStep :=
  p.ensureBlockIsNotConfirmed >>= fun _ =>
    if p.blockSubType = .send then
      p.rollBackDestinationAccountIfSendBlockIsReceived >>= fun
        | some step => .ok step
        | none => .ok (.rollBackBlock p.instructions)
    else .ok (.rollBackBlock p.instructions)

end RollbackPlanner

/-- `RepresentativeBlockFinder::find_rep_block`: walk back over legacy sends and receives to
the latest block that names a representative; zero if the walk leaves the store. The fuel
is the number of stored blocks, which a walk down one account chain never exceeds. -/
def findRepBlock (c : Crypto) (s : LedgerStore) : Nat → BlockHash → BlockHash
  | 0, _ => FixedBytes.zero 32
  | fuel + 1, current =>
    match s.getBlock current with
    | none => FixedBytes.zero 32
    | some block =>
      match block.block with
      | .legacySend _ | .legacyReceive _ => findRepBlock c s fuel block.previous
      | _ =>
        -- the loop runs while the result is zero, so a zero hash keeps it going
        let result := block.hash c
        if result.isZero then findRepBlock c s fuel (FixedBytes.zero 32) else result

def representativeBlockHash (c : Crypto) (s : LedgerStore) (hash : BlockHash) : BlockHash :=
  findRepBlock c s (s.blocks.entries.length + 1) hash

def loadBlock (s : LedgerStore) (hash : BlockHash) : Except String SavedBlock :=
  match s.getBlock hash with
  | some block => .ok block
  | none => .error "block not found"

namespace RollbackPlannerFactory

def getAccount (c : Crypto) (s : LedgerStore) (block : SavedBlock) : Except String Account :=
  match s.blockAccount (block.hash c) with
  | some account => .ok account
  | none => .error "account not found"

def getPreviousRepresentative (c : Crypto) (s : LedgerStore) (headBlock : SavedBlock) :
    Except String (Option PublicKey) :=
  let previous := headBlock.previous
  let repBlockHash :=
    if !previous.isZero then representativeBlockHash c s previous else FixedBytes.zero 32
  if !repBlockHash.isZero then
    (fun repBlock => some (repBlock.block.representativeField.getD default)) <$>
      loadBlock s repBlockHash
  else .ok none

def loadPreviousBlock (s : LedgerStore) (headBlock : SavedBlock) :
    Except String (Option SavedBlock) :=
  if headBlock.previous.isZero then .ok none else some <$> loadBlock s headBlock.previous

def createPlanner (l : Ledger) (s : LedgerStore) (headBlock : SavedBlock) (now : UInt64) :
    Except String RollbackPlanner := do
  let account ← getAccount l.crypto s headBlock
  let previousRepresentative ← getPreviousRepresentative l.crypto s headBlock
  let previous ← loadPreviousBlock s headBlock
  pure
    { epochs := l.constants.epochs
      crypto := l.crypto
      headBlock
      account
      currentAccountInfo := (s.accountInfo account).getD default
      previousRepresentative
      previous
      linkedAccount := (s.blockAccount headBlock.block.sourceOrLink).getD default
      pendingReceive :=
        s.getPending ⟨headBlock.block.destinationOrLink, headBlock.hash l.crypto⟩
      latestBlockForDestination := s.accountHead headBlock.block.destinationOrLink
      confirmationHeight := (s.confirmationHeight.lookup headBlock.account).getD ⟨0, default⟩
      secondsSinceEpoch := now }

open RsbanNode.Result in
/-- A planner is built exactly when the head block's account, its previous representative and
its previous block can be loaded. -/
theorem createPlanner_eq_ok {l : Ledger} {s : LedgerStore} {headBlock : SavedBlock}
    {now : UInt64} {p : RollbackPlanner} :
    createPlanner l s headBlock now = .ok p ↔
      ∃ account previousRepresentative previous,
        getAccount l.crypto s headBlock = .ok account ∧
        getPreviousRepresentative l.crypto s headBlock = .ok previousRepresentative ∧
        loadPreviousBlock s headBlock = .ok previous ∧
        p = { epochs := l.constants.epochs
              crypto := l.crypto
              headBlock
              account
              currentAccountInfo := (s.accountInfo account).getD default
              previousRepresentative
              previous
              linkedAccount := (s.blockAccount headBlock.block.sourceOrLink).getD default
              pendingReceive :=
                s.getPending ⟨headBlock.block.destinationOrLink, headBlock.hash l.crypto⟩
              latestBlockForDestination := s.accountHead headBlock.block.destinationOrLink
              confirmationHeight :=
                (s.confirmationHeight.lookup headBlock.account).getD ⟨0, default⟩
              secondsSinceEpoch := now } := by
  simp only [createPlanner, bind_eq_ok]
  constructor
  · rintro ⟨account, ha, previousRepresentative, hr, previous, hp, he⟩
    exact ⟨account, previousRepresentative, previous, ha, hr, hp, (Except.ok.inj he).symm⟩
  · rintro ⟨account, previousRepresentative, previous, ha, hr, hp, rfl⟩
    exact ⟨account, ha, previousRepresentative, hr, previous, hp, rfl⟩

end RollbackPlannerFactory

namespace RollbackInstructionsExecutor

def updatePendingTable (s : LedgerStore) (instructions : RollbackInstructions) : LedgerStore :=
  let s := match instructions.removePending with
    | some key => s.pendingDel key
    | none => s
  match instructions.addPending with
  | some (key, info) => s.pendingPut key info
  | none => s

def updateBlockTable (s : LedgerStore) (instructions : RollbackInstructions) : LedgerStore :=
  let s := s.blockDel instructions.blockHash
  match instructions.clearSuccessor with
  | some hash => s.successorClear hash
  | none => s

/-- With a previous representative the account's weight moves back to it; without one (an open
block) it only leaves the current representative. -/
def rollBackRepresentativeCache (minWeight : Amount) (s : LedgerStore)
    (instructions : RollbackInstructions) : LedgerStore :=
  match instructions.newRepresentative with
  | some previousRepresentative =>
    s.representationAddDual minWeight instructions.oldAccountInfo.representative
      (0 - instructions.oldAccountInfo.balance) previousRepresentative instructions.newBalance
  | none =>
    s.representationAdd minWeight instructions.oldAccountInfo.representative
      (0 - instructions.oldAccountInfo.balance)

def execute (l : Ledger) (s : LedgerStore) (instructions : RollbackInstructions) : LedgerStore :=
  let s := updatePendingTable s instructions
  let s := s.updateAccount instructions.account instructions.oldAccountInfo
    instructions.setAccountInfo
  let s := updateBlockTable s instructions
  let s := rollBackRepresentativeCache l.minRepWeight s instructions
  { s with blockCount := s.blockCount - 1 }

section Frame

variable (l : Ledger) (s : LedgerStore) (instructions : RollbackInstructions) (minWeight : Amount)

theorem updatePendingTable_eq :
    updatePendingTable s instructions =
      { s with pending :=
          let pending := match instructions.removePending with
            | some key => s.pending.erase key
            | none => s.pending
          match instructions.addPending with
          | some (key, info) => pending.insert key info
          | none => pending } := by
  unfold updatePendingTable
  cases instructions.removePending <;> cases instructions.addPending <;> rfl

theorem updateBlockTable_frame :
    (updateBlockTable s instructions).accounts = s.accounts ∧
      (updateBlockTable s instructions).pending = s.pending ∧
      (updateBlockTable s instructions).confirmationHeight = s.confirmationHeight := by
  unfold updateBlockTable
  split <;> simp

theorem rollBackRepresentativeCache_frame :
    (rollBackRepresentativeCache minWeight s instructions).blocks = s.blocks ∧
      (rollBackRepresentativeCache minWeight s instructions).accounts = s.accounts ∧
      (rollBackRepresentativeCache minWeight s instructions).pending = s.pending ∧
      (rollBackRepresentativeCache minWeight s instructions).confirmationHeight =
        s.confirmationHeight := by
  unfold rollBackRepresentativeCache
  split <;> simp

theorem execute_blocks :
    (execute l s instructions).blocks = (updateBlockTable s instructions).blocks := by
  simp only [execute, (rollBackRepresentativeCache_frame _ _ _).1, updateBlockTable]
  split <;> simp [updatePendingTable_eq, LedgerStore.successorClear, LedgerStore.blockDel]

theorem execute_accounts :
    (execute l s instructions).accounts =
      (s.updateAccount instructions.account instructions.oldAccountInfo
        instructions.setAccountInfo).accounts := by
  simp [execute, (rollBackRepresentativeCache_frame _ _ _).2.1, (updateBlockTable_frame _ _).1,
    updatePendingTable_eq, LedgerStore.updateAccount_accounts]

theorem execute_pending :
    (execute l s instructions).pending = (updatePendingTable s instructions).pending := by
  simp [execute, (rollBackRepresentativeCache_frame _ _ _).2.2.1, (updateBlockTable_frame _ _).2.1]

theorem execute_confirmationHeight :
    (execute l s instructions).confirmationHeight = s.confirmationHeight := by
  simp [execute, (rollBackRepresentativeCache_frame _ _ _).2.2.2,
    (updateBlockTable_frame _ _).2.2, updatePendingTable_eq]

end Frame

end RollbackInstructionsExecutor

namespace BlockRollbackPerformer

/-- `load_account_head`; the source unwraps the account's info. -/
def loadAccountHead (s : LedgerStore) (block : SavedBlock) : Except String SavedBlock :=
  match s.accountInfo block.account with
  | some accountInfo => loadBlock s accountInfo.head
  | none => .error "account info not found"

/-- The loop of `roll_back_block_and_successors`: while the block exists, roll back the head of
its account, first rolling back whatever received from a send. Fuel bounds the loop and the
recursion together. -/
def rollBackLoop (l : Ledger) (now : UInt64) :
    Nat → BlockHash → SavedBlock → List SavedBlock → LedgerStore →
      Except String (List SavedBlock × LedgerStore)
  | 0, _, _, _, _ => .error "rollback did not finish"
  | fuel + 1, blockHash, block, rolledBack, s =>
    if s.blockExists blockHash then do
      let headBlock ← loadAccountHead s block
      let planner ← RollbackPlannerFactory.createPlanner l s headBlock now
      match ← planner.rollBackHeadBlock with
      | .rollBackBlock instructions =>
        rollBackLoop l now fuel blockHash block (rolledBack ++ [headBlock])
          (RollbackInstructionsExecutor.execute l s instructions)
      | .requestDependencyRollback dependencyHash => do
        let dependency ← loadBlock s dependencyHash
        let (rolledBack, s) ← rollBackLoop l now fuel dependencyHash dependency rolledBack s
        rollBackLoop l now fuel blockHash block rolledBack s
    else .ok (rolledBack, s)

end BlockRollbackPerformer

/-- `Ledger::rollback`: roll back blocks until `block` no longer exists. -/
def rollback (l : Ledger) (fuel : Nat) (s : LedgerStore) (block : BlockHash) (now : UInt64) :
    Except String (List SavedBlock × LedgerStore) := do
  let saved ← loadBlock s block
  BlockRollbackPerformer.rollBackLoop l now fuel block saved [] s

end RsbanNode.Ledger
