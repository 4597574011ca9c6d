import RsbanNode.Core.BlockCodec

namespace RsbanNode.Ledger

open RsbanNode.Primitives RsbanNode.Blocks RsbanNode.FiniteMap

structure AccountInfo where
  head : BlockHash
  representative : PublicKey
  openBlock : BlockHash
  balance : Amount
  modified : UInt64
  blockCount : Nat
  epoch : Epoch
deriving DecidableEq

/-- `AccountInfo::default()`: zero fields and the default epoch, `Unspecified`. -/
def AccountInfo.default : AccountInfo :=
  ⟨FixedBytes.zero 32, FixedBytes.zero 32, FixedBytes.zero 32, 0, 0, 0, .unspecified⟩

instance : Inhabited AccountInfo := ⟨AccountInfo.default⟩

@[simp] theorem AccountInfo.default_head : (default : AccountInfo).head = FixedBytes.zero 32 := rfl

structure PendingKey where
  receivingAccount : Account
  sendBlockHash : BlockHash
deriving DecidableEq

structure PendingInfo where
  source : Account
  amount : Amount
  epoch : Epoch
deriving DecidableEq

structure ConfirmationHeightInfo where
  height : Nat
  frontier : BlockHash
deriving DecidableEq

/-- The thresholds `WorkThresholds::threshold` chooses from. -/
structure WorkThresholds where
  epoch1 : UInt64
  epoch2 : UInt64
  epoch2Receive : UInt64

namespace WorkThresholds

def threshold (w : WorkThresholds) (details : BlockDetails) : UInt64 :=
  match details.epoch with
  | .epoch2 => if details.isReceive || details.isEpoch then w.epoch2Receive else w.epoch2
  | .epoch1 | .epoch0 => w.epoch1
  -- a `debug_assert!(false)` in the source; release builds use `u64::MAX`
  | _ => UInt64.ofNat (2 ^ 64 - 1)

def isValidPow (w : WorkThresholds) (c : Crypto) (block : Block) (details : BlockDetails) :
    Bool :=
  c.difficulty block.root block.work ≥ w.threshold details

end WorkThresholds

structure LedgerConstants where
  work : WorkThresholds
  genesisBlock : SavedBlock
  genesisAccount : Account
  epochs : Epochs

def genesisSideband (genesisAccount : Account) (timestamp : UInt64) : BlockSideband :=
  ⟨1, timestamp, FixedBytes.zero 32, genesisAccount, BitVec.allOnes 128,
    ⟨.epoch0, false, false, false⟩, .epoch0⟩

end RsbanNode.Ledger

namespace RsbanNode

open RsbanNode.Primitives RsbanNode.Ledger

/-- What a `Ledger` holds besides its store: the primitives, the constants and the minimum
weight of the representative cache. -/
structure Ledger where
  crypto : Crypto
  constants : LedgerConstants
  minRepWeight : Amount

end RsbanNode

namespace RsbanNode.Ledger

open RsbanNode.Primitives RsbanNode.Blocks RsbanNode.FiniteMap

/-- The store as one write transaction sees it: the block, account, pending, rep-weight,
confirmation-height and pruned tables, the counters of `LedgerCache`, and the in-memory
`RepWeightCache`. Blocks are kept as `SavedBlock::deserialize` reads them back. -/
structure LedgerStore where
  blocks : Table BlockHash SavedBlock
  accounts : Table Account AccountInfo
  pending : Table PendingKey PendingInfo
  repWeights : Table PublicKey Amount
  confirmationHeight : Table Account ConfirmationHeightInfo
  pruned : List BlockHash
  weightCache : Table PublicKey Amount
  blockCount : Nat
  accountCount : Nat
  cementedCount : Nat

namespace LedgerStore

variable (s : LedgerStore)

/-! ## Reads -/

def getBlock (hash : BlockHash) : Option SavedBlock := s.blocks.lookup hash

def blockExists (hash : BlockHash) : Bool := (s.blocks.lookup hash).isSome

def blockExistsOrPruned (hash : BlockHash) : Bool := s.pruned.contains hash || s.blockExists hash

def accountInfo (account : Account) : Option AccountInfo := s.accounts.lookup account

def accountHead (account : Account) : Option BlockHash := (s.accountInfo account).map (·.head)

def blockAccount (hash : BlockHash) : Option Account := (s.getBlock hash).map (·.account)

def getPending (key : PendingKey) : Option PendingInfo := s.pending.lookup key

/-- `receivable_exists`: the first pending key after `(account, 0)` belongs to `account`. -/
def receivableExists (account : Account) : Bool :=
  s.pending.entries.any (fun e => e.1.receivingAccount == account && !e.1.sendBlockHash.isZero)

/-- `LedgerSetConfirmed::get_block`: a block at or below its account's confirmation height. -/
def confirmedGetBlock (hash : BlockHash) : Option SavedBlock := do
  let block ← s.getBlock hash
  let info ← s.confirmationHeight.lookup block.account
  if block.height ≤ info.height then some block else none

def confirmedBlockExistsOrPruned (hash : BlockHash) : Bool :=
  s.pruned.contains hash || (s.confirmedGetBlock hash).isSome

/-! ## The block store -/

/-- `update_predecessor`: the successor field of the previous block's sideband is patched in
place. The source `expect`s the previous block, which validation guarantees. -/
def updatePredecessor (blocks : Table BlockHash SavedBlock) (hash : BlockHash)
    (block : SavedBlock) : Table BlockHash SavedBlock :=
  if block.previous.isZero then blocks
  else
    match blocks.lookup block.previous with
    | some p => blocks.insert block.previous { p with sideband.successor := hash }
    | none => blocks

/-- `LmdbBlockStore::put`: the block is written with its sideband, and what is stored is what
`get` decodes. -/
def blockPut (c : Crypto) (block : SavedBlock) : LedgerStore :=
  let hash := block.hash c
  { s with blocks := updatePredecessor (s.blocks.insert hash block.normalize) hash block }

def blockDel (hash : BlockHash) : LedgerStore := { s with blocks := s.blocks.erase hash }

/-- `successor_clear`; the source unwraps the stored block. -/
def successorClear (hash : BlockHash) : LedgerStore :=
  { s with
    blocks :=
      match s.blocks.lookup hash with
      | some b => s.blocks.insert hash { b with sideband.successor := FixedBytes.zero 32 }
      | none => s.blocks }

def pendingPut (key : PendingKey) (info : PendingInfo) : LedgerStore :=
  { s with pending := s.pending.insert key info }

def pendingDel (key : PendingKey) : LedgerStore := { s with pending := s.pending.erase key }

/-- `Ledger::update_account`. An account whose epoch changes is deleted before it is written
again, as the two epochs once had tables of their own. -/
def updateAccount (account : Account) (oldInfo newInfo : AccountInfo) : LedgerStore :=
  if !newInfo.head.isZero then
    let accountCount :=
      if oldInfo.head.isZero && newInfo.openBlock == newInfo.head then s.accountCount + 1
      else s.accountCount
    let accounts :=
      if !oldInfo.head.isZero && oldInfo.epoch != newInfo.epoch then s.accounts.erase account
      else s.accounts
    { s with accounts := accounts.insert account newInfo, accountCount }
  else
    { s with accounts := s.accounts.erase account, accountCount := s.accountCount - 1 }

/-! ## `RepWeightsUpdater` -/

/-- `put_cache`: weights below the minimum, and zero weights, are not cached. -/
def putCache (minWeight : Amount) (weights : Table PublicKey Amount) (representative : PublicKey)
    (newWeight : Amount) : Table PublicKey Amount :=
  if newWeight < minWeight || newWeight == 0 then weights.erase representative
  else weights.insert representative newWeight

/-- `put_store`: a zero weight is deleted rather than stored. -/
def putStore (weights : Table PublicKey Amount) (representative : PublicKey)
    (previousWeight newWeight : Amount) : Table PublicKey Amount :=
  if newWeight == 0 then
    if previousWeight != 0 then weights.erase representative else weights
  else weights.insert representative newWeight

def repWeight (representative : PublicKey) : Amount :=
  (s.repWeights.lookup representative).getD 0

def representationAdd (minWeight : Amount) (representative : PublicKey) (amount : Amount) :
    LedgerStore :=
  let previousWeight := s.repWeight representative
  let newWeight := previousWeight + amount
  { s with
    repWeights := putStore s.repWeights representative previousWeight newWeight
    weightCache := putCache minWeight s.weightCache representative newWeight }

def representationAddDual (minWeight : Amount) (rep1 : PublicKey) (amount1 : Amount)
    (rep2 : PublicKey) (amount2 : Amount) : LedgerStore :=
  if rep1 ≠ rep2 then
    let previousWeight1 := s.repWeight rep1
    let previousWeight2 := s.repWeight rep2
    let newWeight1 := previousWeight1 + amount1
    let newWeight2 := previousWeight2 + amount2
    { s with
      repWeights := putStore (putStore s.repWeights rep1 previousWeight1 newWeight1) rep2
        previousWeight2 newWeight2
      weightCache := putCache minWeight (putCache minWeight s.weightCache rep1 newWeight1) rep2
        newWeight2 }
  else s.representationAdd minWeight rep1 (amount1 + amount2)

/-! ## What each write leaves alone -/

section Frame

variable (c : Crypto) (block : SavedBlock) (hash : BlockHash) (key : PendingKey)
  (info : PendingInfo) (account : Account) (oldInfo newInfo : AccountInfo) (minWeight : Amount)
  (rep rep1 rep2 : PublicKey) (amount amount1 amount2 : Amount)

@[simp] theorem blockPut_accounts : (s.blockPut c block).accounts = s.accounts := rfl
@[simp] theorem blockPut_pending : (s.blockPut c block).pending = s.pending := rfl
@[simp] theorem blockPut_repWeights : (s.blockPut c block).repWeights = s.repWeights := rfl
@[simp] theorem blockPut_weightCache : (s.blockPut c block).weightCache = s.weightCache := rfl
@[simp] theorem blockPut_confirmationHeight :
    (s.blockPut c block).confirmationHeight = s.confirmationHeight := rfl

@[simp] theorem blockDel_accounts : (s.blockDel hash).accounts = s.accounts := rfl
@[simp] theorem blockDel_pending : (s.blockDel hash).pending = s.pending := rfl
@[simp] theorem blockDel_repWeights : (s.blockDel hash).repWeights = s.repWeights := rfl
@[simp] theorem blockDel_weightCache : (s.blockDel hash).weightCache = s.weightCache := rfl
@[simp] theorem blockDel_confirmationHeight :
    (s.blockDel hash).confirmationHeight = s.confirmationHeight := rfl

@[simp] theorem successorClear_accounts : (s.successorClear hash).accounts = s.accounts := rfl
@[simp] theorem successorClear_pending : (s.successorClear hash).pending = s.pending := rfl
@[simp] theorem successorClear_repWeights : (s.successorClear hash).repWeights = s.repWeights :=
  rfl
@[simp] theorem successorClear_weightCache :
    (s.successorClear hash).weightCache = s.weightCache := rfl
@[simp] theorem successorClear_confirmationHeight :
    (s.successorClear hash).confirmationHeight = s.confirmationHeight := rfl

@[simp] theorem pendingPut_pending : (s.pendingPut key info).pending = s.pending.insert key info :=
  rfl
@[simp] theorem pendingPut_blocks : (s.pendingPut key info).blocks = s.blocks := rfl
@[simp] theorem pendingPut_accounts : (s.pendingPut key info).accounts = s.accounts := rfl
@[simp] theorem pendingPut_repWeights : (s.pendingPut key info).repWeights = s.repWeights := rfl
@[simp] theorem pendingPut_weightCache : (s.pendingPut key info).weightCache = s.weightCache :=
  rfl
@[simp] theorem pendingPut_confirmationHeight :
    (s.pendingPut key info).confirmationHeight = s.confirmationHeight := rfl

@[simp] theorem pendingDel_pending : (s.pendingDel key).pending = s.pending.erase key := rfl
@[simp] theorem pendingDel_blocks : (s.pendingDel key).blocks = s.blocks := rfl
@[simp] theorem pendingDel_accounts : (s.pendingDel key).accounts = s.accounts := rfl
@[simp] theorem pendingDel_repWeights : (s.pendingDel key).repWeights = s.repWeights := rfl
@[simp] theorem pendingDel_weightCache : (s.pendingDel key).weightCache = s.weightCache := rfl
@[simp] theorem pendingDel_confirmationHeight :
    (s.pendingDel key).confirmationHeight = s.confirmationHeight := rfl

theorem updateAccount_frame :
    (s.updateAccount account oldInfo newInfo).blocks = s.blocks ∧
      (s.updateAccount account oldInfo newInfo).pending = s.pending ∧
      (s.updateAccount account oldInfo newInfo).repWeights = s.repWeights ∧
      (s.updateAccount account oldInfo newInfo).weightCache = s.weightCache ∧
      (s.updateAccount account oldInfo newInfo).confirmationHeight = s.confirmationHeight := by
  unfold updateAccount
  split <;> exact ⟨rfl, rfl, rfl, rfl, rfl⟩

@[simp] theorem updateAccount_blocks : (s.updateAccount account oldInfo newInfo).blocks = s.blocks :=
  (updateAccount_frame s account oldInfo newInfo).1
@[simp] theorem updateAccount_pending :
    (s.updateAccount account oldInfo newInfo).pending = s.pending :=
  (updateAccount_frame s account oldInfo newInfo).2.1
@[simp] theorem updateAccount_repWeights :
    (s.updateAccount account oldInfo newInfo).repWeights = s.repWeights :=
  (updateAccount_frame s account oldInfo newInfo).2.2.1
@[simp] theorem updateAccount_weightCache :
    (s.updateAccount account oldInfo newInfo).weightCache = s.weightCache :=
  (updateAccount_frame s account oldInfo newInfo).2.2.2.1
@[simp] theorem updateAccount_confirmationHeight :
    (s.updateAccount account oldInfo newInfo).confirmationHeight = s.confirmationHeight :=
  (updateAccount_frame s account oldInfo newInfo).2.2.2.2

theorem updateAccount_accounts :
    (s.updateAccount account oldInfo newInfo).accounts =
      if newInfo.head.isZero then s.accounts.erase account
      else s.accounts.insert account newInfo := by
  unfold updateAccount
  cases hz : newInfo.head.isZero
  · by_cases he : !oldInfo.head.isZero && oldInfo.epoch != newInfo.epoch
    · simp only [Bool.not_false, if_true, he, if_true, Bool.false_eq_true, if_false]
      exact insert_erase_self _ _ _
    · simp [he]
  · simp

theorem representationAddDual_frame :
    (s.representationAddDual minWeight rep1 amount1 rep2 amount2).blocks = s.blocks ∧
      (s.representationAddDual minWeight rep1 amount1 rep2 amount2).accounts = s.accounts ∧
      (s.representationAddDual minWeight rep1 amount1 rep2 amount2).pending = s.pending ∧
      (s.representationAddDual minWeight rep1 amount1 rep2 amount2).confirmationHeight =
        s.confirmationHeight := by
  unfold representationAddDual
  split <;> exact ⟨rfl, rfl, rfl, rfl⟩

@[simp] theorem representationAdd_blocks :
    (s.representationAdd minWeight rep amount).blocks = s.blocks := rfl
@[simp] theorem representationAdd_accounts :
    (s.representationAdd minWeight rep amount).accounts = s.accounts := rfl
@[simp] theorem representationAdd_pending :
    (s.representationAdd minWeight rep amount).pending = s.pending := rfl
@[simp] theorem representationAdd_confirmationHeight :
    (s.representationAdd minWeight rep amount).confirmationHeight = s.confirmationHeight := rfl
@[simp] theorem representationAddDual_blocks :
    (s.representationAddDual minWeight rep1 amount1 rep2 amount2).blocks = s.blocks :=
  (representationAddDual_frame s minWeight rep1 rep2 amount1 amount2).1
@[simp] theorem representationAddDual_accounts :
    (s.representationAddDual minWeight rep1 amount1 rep2 amount2).accounts = s.accounts :=
  (representationAddDual_frame s minWeight rep1 rep2 amount1 amount2).2.1
@[simp] theorem representationAddDual_pending :
    (s.representationAddDual minWeight rep1 amount1 rep2 amount2).pending = s.pending :=
  (representationAddDual_frame s minWeight rep1 rep2 amount1 amount2).2.2.1
@[simp] theorem representationAddDual_confirmationHeight :
    (s.representationAddDual minWeight rep1 amount1 rep2 amount2).confirmationHeight =
      s.confirmationHeight :=
  (representationAddDual_frame s minWeight rep1 rep2 amount1 amount2).2.2.2

end Frame

end LedgerStore

/-- The store `Ledger::new` builds on an empty database: `add_genesis_block`, then the caches
`initialize` computes from the account table. -/
def genesis (l : Ledger) (now : UInt64) : LedgerStore :=
  let genesisHash := l.constants.genesisBlock.hash l.crypto
  let genesisAccount := l.constants.genesisAccount
  let info : AccountInfo :=
    ⟨genesisHash, genesisAccount, genesisHash, BitVec.allOnes 128, now, 1, .epoch0⟩
  let empty : LedgerStore := ⟨∅, ∅, ∅, ∅, ∅, [], ∅, 0, 0, 0⟩
  let s := empty.blockPut l.crypto l.constants.genesisBlock
  { s with
    accounts := s.accounts.insert genesisAccount info
    confirmationHeight := s.confirmationHeight.insert genesisAccount ⟨1, genesisHash⟩
    repWeights := s.repWeights.insert genesisAccount (BitVec.allOnes 128)
    -- `copy_from` adds each account's nonzero balance onto its representative
    weightCache := LedgerStore.putCache l.minRepWeight ∅ genesisAccount (0 + BitVec.allOnes 128)
    blockCount := 1
    accountCount := 1
    cementedCount := 1 }

end RsbanNode.Ledger
