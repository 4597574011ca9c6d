import RsbanNode.Ledger.Store
import RsbanNode.Library.Result

namespace RsbanNode.Ledger

open RsbanNode.Primitives RsbanNode.Blocks

inductive BlockStatus
  | progress
  | badSignature
  | old
  | negativeSpend
  | fork
  | unreceivable
  | gapPrevious
  | gapSource
  | gapEpochOpenPending
  | openedBurnAccount
  | balanceMismatch
  | representativeMismatch
  | blockPosition
  | insufficientWork
deriving DecidableEq, Repr

/-- `PendingKey::for_send_block`: the link names the destination. -/
def PendingKey.forSendBlock (c : Crypto) (block : Block) : PendingKey :=
  ⟨block.linkField.getD default, block.hash c⟩

structure BlockInsertInstructions where
  account : Account
  oldAccountInfo : AccountInfo
  setAccountInfo : AccountInfo
  deletePending : Option PendingKey
  insertPending : Option (PendingKey × PendingInfo)
  setSideband : BlockSideband
  isEpochBlock : Bool

/-- Everything the validation of one block reads from the ledger. -/
structure BlockValidator where
  block : Block
  epochs : Epochs
  work : WorkThresholds
  crypto : Crypto
  blockExists : Bool
  account : Account
  previousBlock : Option SavedBlock
  oldAccountInfo : Option AccountInfo
  pendingReceiveInfo : Option PendingInfo
  anyPendingExists : Bool
  sourceBlockExists : Bool
  secondsSinceEpoch : UInt64

/-- The shape of every validation rule: fail with `status` when the condition holds. -/
def ensure (failed : Bool) (status : BlockStatus) : Except BlockStatus Unit :=
  if failed then .error status else .ok ()

@[simp] theorem ensure_eq_ok {failed : Bool} {status : BlockStatus} :
    ensure failed status = .ok () ↔ failed = false := by
  cases failed <;> simp [ensure]

namespace BlockValidator

variable (v : BlockValidator)

/-! ## Helpers -/

def accountExists : Bool := v.oldAccountInfo.isSome

def isNewAccount : Bool := v.oldAccountInfo.isNone

def previousBalance : Amount := (v.previousBlock.map (·.balance)).getD 0

def isSend : Bool :=
  match v.block with
  | .legacySend _ => true
  | .state state =>
    match v.oldAccountInfo with
    | some info => state.balance < info.balance
    | none => false
  | _ => false

def hasEpochLink (state : StateBlock) : Bool := v.epochs.isEpochLink state.link

def isReceive : Bool :=
  match v.block with
  | .legacyReceive _ | .legacyOpen _ => true
  | .state state =>
    -- receives from the epoch account are forbidden
    if v.hasEpochLink state then false
    else
      match v.oldAccountInfo with
      | some info => state.balance ≥ info.balance && !state.link.isZero
      | none => true
  | _ => false

def sourceEpoch : Epoch := (v.pendingReceiveInfo.map (·.epoch)).getD .epoch0

def pendingAmount : Amount := (v.pendingReceiveInfo.map (·.amount)).getD 0

def amountReceived : Amount :=
  match v.block with
  | .legacyReceive _ | .legacyOpen _ => v.pendingAmount
  | .state state =>
    if v.previousBalance < state.balance then state.balance - v.previousBalance else 0
  | _ => 0

def amountSent : Amount :=
  match v.oldAccountInfo, v.block.balanceField with
  | some info, some balance => if balance < info.balance then info.balance - balance else 0
  | _, _ => 0

def oldBalance : Amount := (v.oldAccountInfo.map (·.balance)).getD 0

/-- `old + received - sent`, with the wrapping arithmetic of a release build. -/
def newBalance : Amount := v.oldBalance + v.amountReceived - v.amountSent

def isEpochBlock : Bool :=
  match v.block with
  | .state state => v.hasEpochLink state && v.previousBalance == state.balance
  | _ => false

def blockEpochVersion : Epoch :=
  match v.block with
  | .state state => (v.epochs.epoch state.link).getD .invalid
  | _ => .epoch0

def oldEpochVersion : Epoch := (v.oldAccountInfo.map (·.epoch)).getD .epoch0

def epoch : Epoch :=
  if v.isEpochBlock then v.blockEpochVersion else Epoch.max v.oldEpochVersion v.sourceEpoch

def openBlock : BlockHash :=
  match v.oldAccountInfo with
  | some info => info.openBlock
  | none => v.block.hash v.crypto

def oldRepresentative : PublicKey := (v.oldAccountInfo.map (·.representative)).getD default

def newRepresentative : PublicKey := v.block.representativeField.getD v.oldRepresentative

def amount : Amount :=
  if v.oldBalance > v.newBalance then v.oldBalance - v.newBalance
  else v.newBalance - v.oldBalance

def deleteReceivedPendingInfo : Option PendingKey :=
  if v.isReceive then some ⟨v.account, v.block.sourceOrLink⟩ else none

def newPendingInfo : Option (PendingKey × PendingInfo) :=
  match v.block with
  | .state _ =>
    if v.isSend then some (PendingKey.forSendBlock v.crypto v.block, ⟨v.account, v.amount, v.epoch⟩)
    else none
  | .legacySend send =>
    some (⟨send.destination, v.block.hash v.crypto⟩, ⟨v.account, v.amountSent, .epoch0⟩)
  | _ => none

def newBlockCount : Nat := (v.oldAccountInfo.map (·.blockCount)).getD 0 + 1

def blockDetails : BlockDetails := ⟨v.epoch, v.isSend, v.isReceive, v.isEpochBlock⟩

def newSideband : BlockSideband :=
  ⟨v.newBlockCount, v.secondsSinceEpoch, FixedBytes.zero 32, v.account, v.newBalance,
    v.blockDetails, v.sourceEpoch⟩

def newAccountInfo : AccountInfo :=
  ⟨v.block.hash v.crypto, v.newRepresentative, v.openBlock, v.newBalance, v.secondsSinceEpoch,
    v.newBlockCount, v.epoch⟩

def balanceChanged : Bool :=
  match v.oldAccountInfo with
  | some info => v.newBalance != info.balance
  | none => false

/-! ## The rules -/

def ensureBlockDoesNotExistYet : Except BlockStatus Unit := ensure v.blockExists .old

def ensureValidSignature : Except BlockStatus Unit :=
  let valid :=
    if v.isEpochBlock then v.epochs.validateEpochSignature v.crypto v.block
    else v.crypto.verify v.account (v.block.hash v.crypto).bytes v.block.signature
  ensure (!valid) .badSignature

def ensureAccountExistsForNoneOpenBlock : Except BlockStatus Unit :=
  ensure (!v.block.isOpen && v.isNewAccount) .gapPrevious

def ensurePreviousBlockExists : Except BlockStatus Unit := do
  ensure (v.accountExists && v.previousBlock.isNone) .gapPrevious
  ensure (v.isNewAccount && !v.block.previous.isZero) .gapPrevious

def ensurePreviousBlockIsAccountHead : Except BlockStatus Unit :=
  match v.oldAccountInfo with
  | some info => ensure (v.block.previous != info.head) .fork
  | none => .ok ()

def ensurePreviousBlockIsCorrect : Except BlockStatus Unit := do
  v.ensurePreviousBlockExists
  v.ensurePreviousBlockIsAccountHead

def ensureSufficientWork : Except BlockStatus Unit :=
  ensure (!v.work.isValidPow v.crypto v.block v.blockDetails) .insufficientWork

def ensureValidPredecessor : Except BlockStatus Unit :=
  if v.block.previous.isZero then .ok ()
  else
    match v.previousBlock with
    | none => .error .gapPrevious
    | some previous => ensure (!v.block.validPredecessor previous.block.blockType) .blockPosition

def ensureNoReveiveBalanceChangeWithoutLink : Except BlockStatus Unit :=
  match v.block with
  | .state state => ensure (state.link.isZero && v.amountReceived != 0) .balanceMismatch
  | _ => .ok ()

def ensureNoNegativeAmountSend : Except BlockStatus Unit :=
  match v.block with
  | .legacySend send => ensure (v.previousBalance < send.balance) .negativeSpend
  | _ => .ok ()

def ensureSourceBlockExists : Except BlockStatus Unit :=
  ensure (v.isReceive && !v.sourceBlockExists) .gapSource

def ensureReceiveBlockReceivesPendingAmount : Except BlockStatus Unit :=
  if v.isReceive then
    match v.pendingReceiveInfo with
    | some pending => ensure (v.amountReceived != pending.amount) .balanceMismatch
    | none => .error .unreceivable
  else .ok ()

/-- A legacy receive or open must receive from an epoch 0 send; a missing entry reads as the
default epoch, `Unspecified`. -/
def ensureLegacySourceIsEpoch0 : Except BlockStatus Unit :=
  let isLegacyReceive :=
    match v.block with
    | .legacyReceive _ | .legacyOpen _ => true
    | _ => false
  ensure (isLegacyReceive &&
    (v.pendingReceiveInfo.map (·.epoch)).getD .unspecified != .epoch0) .unreceivable

def ensurePendingReceiveIsCorrect : Except BlockStatus Unit := do
  v.ensureSourceBlockExists
  v.ensureReceiveBlockReceivesPendingAmount
  v.ensureLegacySourceIsEpoch0

def ensureBlockIsNotForBurnAccount : Except BlockStatus Unit :=
  ensure v.account.isZero .openedBurnAccount

def ensureNoDoubleAccountOpen : Except BlockStatus Unit :=
  ensure (v.accountExists && v.block.isOpen) .fork

def ensureOpenBlockHasLink : Except BlockStatus Unit :=
  match v.block with
  | .state state => ensure (v.block.isOpen && state.link.isZero) .gapSource
  | _ => .ok ()

def ensureEpochBlockDoesNotChangeRepresentative : Except BlockStatus Unit :=
  match v.block, v.oldAccountInfo with
  | .state state, some info =>
    ensure (v.isEpochBlock && state.representative != info.representative)
      .representativeMismatch
  | _, _ => .ok ()

def ensureEpochOpenHasBurnAccountAsRep : Except BlockStatus Unit :=
  match v.block with
  | .state state =>
    ensure (v.isEpochBlock && v.block.isOpen && !state.representative.isZero)
      .representativeMismatch
  | _ => .ok ()

def ensureEpochOpenHasPendingEntry : Except BlockStatus Unit :=
  ensure (v.block.isOpen && v.isEpochBlock && !v.anyPendingExists) .gapEpochOpenPending

def ensureValidEpochForUnopenedAccount : Except BlockStatus Unit :=
  ensure (v.block.isOpen && v.isEpochBlock && v.blockEpochVersion == .invalid) .blockPosition

def ensureEpochUpgradeIsSequentialForExistingAccount : Except BlockStatus Unit :=
  match v.oldAccountInfo with
  | some info =>
    ensure (v.isEpochBlock && !Epochs.isSequential info.epoch v.blockEpochVersion) .blockPosition
  | none => .ok ()

def ensureEpochBlockDoesNotChangeBalance : Except BlockStatus Unit :=
  ensure (v.isEpochBlock && v.balanceChanged) .balanceMismatch

def ensureValidEpochBlock : Except BlockStatus Unit := do
  v.ensureEpochBlockDoesNotChangeRepresentative
  v.ensureEpochOpenHasBurnAccountAsRep
  v.ensureEpochOpenHasPendingEntry
  v.ensureValidEpochForUnopenedAccount
  v.ensureEpochUpgradeIsSequentialForExistingAccount
  v.ensureEpochBlockDoesNotChangeBalance

/-- A block with an epoch link may still be a plain send to the epoch account, so it passes if
either its owner or the epoch signer signed it. -/
def ensureEpochBlockCandidateIsSignedByOwnerOrEpochAccount : Except BlockStatus Unit :=
  match v.block with
  | .state state =>
    ensure (v.hasEpochLink state &&
      (!v.crypto.verify state.account (v.block.hash v.crypto).bytes state.signature &&
        !v.epochs.validateEpochSignature v.crypto v.block)) .badSignature
  | _ => .ok ()

def ensurePreviousBlockExistsForEpochBlockCandidate : Except BlockStatus Unit :=
  match v.block with
  | .state state =>
    ensure (v.hasEpochLink state && !v.block.previous.isZero && v.previousBlock.isNone)
      .gapPrevious
  | _ => .ok ()

def epochBlockPreChecks : Except BlockStatus Unit := do
  v.ensureEpochBlockCandidateIsSignedByOwnerOrEpochAccount
  v.ensurePreviousBlockExistsForEpochBlockCandidate

def createInstructions : BlockInsertInstructions :=
  ⟨v.account, v.oldAccountInfo.getD default, v.newAccountInfo, v.deleteReceivedPendingInfo,
    v.newPendingInfo, v.newSideband, v.isEpochBlock⟩

def validate : Except BlockStatus BlockInsertInstructions := do
  v.epochBlockPreChecks
  v.ensureBlockDoesNotExistYet
  v.ensureValidPredecessor
  v.ensureValidSignature
  v.ensureBlockIsNotForBurnAccount
  v.ensureAccountExistsForNoneOpenBlock
  v.ensureNoDoubleAccountOpen
  v.ensurePreviousBlockIsCorrect
  v.ensureOpenBlockHasLink
  v.ensureNoReveiveBalanceChangeWithoutLink
  v.ensurePendingReceiveIsCorrect
  v.ensureSufficientWork
  v.ensureNoNegativeAmountSend
  v.ensureValidEpochBlock
  pure v.createInstructions

open RsbanNode.Result in
/-- A block is accepted exactly when all fourteen rules pass, and then the instructions are the
validator's. -/
theorem validate_eq_ok {instr : BlockInsertInstructions} :
    v.validate = .ok instr ↔
      v.epochBlockPreChecks = .ok () ∧ v.ensureBlockDoesNotExistYet = .ok () ∧
      v.ensureValidPredecessor = .ok () ∧ v.ensureValidSignature = .ok () ∧
      v.ensureBlockIsNotForBurnAccount = .ok () ∧ v.ensureAccountExistsForNoneOpenBlock = .ok () ∧
      v.ensureNoDoubleAccountOpen = .ok () ∧ v.ensurePreviousBlockIsCorrect = .ok () ∧
      v.ensureOpenBlockHasLink = .ok () ∧ v.ensureNoReveiveBalanceChangeWithoutLink = .ok () ∧
      v.ensurePendingReceiveIsCorrect = .ok () ∧ v.ensureSufficientWork = .ok () ∧
      v.ensureNoNegativeAmountSend = .ok () ∧ v.ensureValidEpochBlock = .ok () ∧
      v.createInstructions = instr := by
  simp only [validate, seq_eq_ok]
  constructor
  · rintro ⟨h1, h2, h3, h4, h5, h6, h7, h8, h9, h10, h11, h12, h13, h14, h15⟩
    exact ⟨h1, h2, h3, h4, h5, h6, h7, h8, h9, h10, h11, h12, h13, h14, Except.ok.inj h15⟩
  · rintro ⟨h1, h2, h3, h4, h5, h6, h7, h8, h9, h10, h11, h12, h13, h14, rfl⟩
    exact ⟨h1, h2, h3, h4, h5, h6, h7, h8, h9, h10, h11, h12, h13, h14, rfl⟩

end BlockValidator

end RsbanNode.Ledger
