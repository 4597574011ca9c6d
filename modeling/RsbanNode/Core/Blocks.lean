import RsbanNode.Core.Primitives

namespace RsbanNode.Blocks

open RsbanNode.ByteCodec RsbanNode.Primitives

structure SendBlock where
  previous : BlockHash
  destination : Account
  balance : Amount
  signature : Signature
  work : UInt64
deriving DecidableEq

structure ReceiveBlock where
  previous : BlockHash
  source : BlockHash
  signature : Signature
  work : UInt64
deriving DecidableEq

structure OpenBlock where
  source : BlockHash
  representative : PublicKey
  account : Account
  signature : Signature
  work : UInt64
deriving DecidableEq

structure ChangeBlock where
  previous : BlockHash
  representative : PublicKey
  signature : Signature
  work : UInt64
deriving DecidableEq

structure StateBlock where
  account : Account
  previous : BlockHash
  representative : PublicKey
  balance : Amount
  link : Link
  signature : Signature
  work : UInt64
deriving DecidableEq

/-- The five block kinds. The cached hash of the source structs is left out: it is a function of
the other fields, and the derived equalities ignore it. -/
inductive Block
  | legacySend (b : SendBlock)
  | legacyReceive (b : ReceiveBlock)
  | legacyOpen (b : OpenBlock)
  | legacyChange (b : ChangeBlock)
  | state (b : StateBlock)
deriving DecidableEq

inductive BlockType
  | invalid
  | notABlock
  | legacySend
  | legacyReceive
  | legacyOpen
  | legacyChange
  | state
deriving DecidableEq, Repr

namespace BlockType

def toU8 : BlockType → UInt8
  | invalid => 0
  | notABlock => 1
  | legacySend => 2
  | legacyReceive => 3
  | legacyOpen => 4
  | legacyChange => 5
  | state => 6

def fromU8 (v : UInt8) : Option BlockType :=
  if v = 0 then some invalid
  else if v = 1 then some notABlock
  else if v = 2 then some legacySend
  else if v = 3 then some legacyReceive
  else if v = 4 then some legacyOpen
  else if v = 5 then some legacyChange
  else if v = 6 then some state
  else none

@[simp] theorem fromU8_toU8 (t : BlockType) : fromU8 t.toU8 = some t := by
  cases t <;> decide

end BlockType

inductive BlockSubType
  | send
  | receive
  | open
  | change
  | epoch
deriving DecidableEq, Repr

/-- `valid_send_block_predecessor`, shared by receive and change blocks. -/
def validLegacyPredecessor : BlockType → Bool
  | .legacySend | .legacyReceive | .legacyOpen | .legacyChange => true
  | _ => false

namespace Block

def blockType : Block → BlockType
  | legacySend _ => .legacySend
  | legacyReceive _ => .legacyReceive
  | legacyOpen _ => .legacyOpen
  | legacyChange _ => .legacyChange
  | state _ => .state

def accountField : Block → Option Account
  | legacyOpen b => some b.account
  | state b => some b.account
  | _ => none

def linkField : Block → Option Link
  | state b => some b.link
  | _ => none

def previous : Block → BlockHash
  | legacySend b => b.previous
  | legacyReceive b => b.previous
  | legacyOpen _ => FixedBytes.zero 32
  | legacyChange b => b.previous
  | state b => b.previous

def balanceField : Block → Option Amount
  | legacySend b => some b.balance
  | state b => some b.balance
  | _ => none

def sourceField : Block → Option BlockHash
  | legacyReceive b => some b.source
  | legacyOpen b => some b.source
  | _ => none

def representativeField : Block → Option PublicKey
  | legacyOpen b => some b.representative
  | legacyChange b => some b.representative
  | state b => some b.representative
  | _ => none

def destinationField : Block → Option Account
  | legacySend b => some b.destination
  | _ => none

def signature : Block → Signature
  | legacySend b => b.signature
  | legacyReceive b => b.signature
  | legacyOpen b => b.signature
  | legacyChange b => b.signature
  | state b => b.signature

def work : Block → UInt64
  | legacySend b => b.work
  | legacyReceive b => b.work
  | legacyOpen b => b.work
  | legacyChange b => b.work
  | state b => b.work

def root : Block → Root
  | legacyOpen b => b.account
  | state b => if b.previous.isZero then b.account else b.previous
  | b => b.previous

def isOpen : Block → Bool
  | legacyOpen _ => true
  | state b => b.previous.isZero
  | _ => false

def isLegacy : Block → Bool
  | state _ => false
  | _ => true

def sourceOrLink (b : Block) : BlockHash := b.sourceField.getD (b.linkField.getD default)

def destinationOrLink (b : Block) : Account := b.destinationField.getD (b.linkField.getD default)

def validPredecessor : Block → BlockType → Bool
  | legacyOpen _, _ => false
  | state _, _ => true
  | _, t => validLegacyPredecessor t

/-- The bytes each kind's `Hashables::hash` feeds to Blake2b; a state block is prefixed with
a 32-byte preamble ending in its type. -/
def hashableBytes : Block → List UInt8
  | legacySend b => b.previous.bytes ++ b.destination.bytes ++ toBytesBE 16 b.balance.toNat
  | legacyReceive b => b.previous.bytes ++ b.source.bytes
  | legacyOpen b => b.source.bytes ++ b.representative.bytes ++ b.account.bytes
  | legacyChange b => b.previous.bytes ++ b.representative.bytes
  | state b => List.replicate 31 0 ++ [BlockType.state.toU8] ++ b.account.bytes ++
      b.previous.bytes ++ b.representative.bytes ++ toBytesBE 16 b.balance.toNat ++ b.link.bytes

def hash (c : Crypto) (b : Block) : BlockHash := c.blake2b b.hashableBytes

@[simp] theorem previous_legacyOpen (b : OpenBlock) :
    (legacyOpen b).previous = FixedBytes.zero 32 := rfl

@[simp] theorem isOpen_state (b : StateBlock) : (state b).isOpen = b.previous.isZero := rfl

end Block

structure BlockDetails where
  epoch : Epoch
  isSend : Bool
  isReceive : Bool
  isEpoch : Bool
deriving DecidableEq

def BlockDetails.subtype (d : BlockDetails) : BlockSubType :=
  if d.isSend then .send
  else if d.isReceive then .receive
  else if d.isEpoch then .epoch
  else .change

structure BlockSideband where
  height : Nat
  timestamp : UInt64
  successor : BlockHash
  account : Account
  balance : Amount
  details : BlockDetails
  sourceEpoch : Epoch
deriving DecidableEq

/-- A block with the data the ledger attaches to it when it is saved. -/
structure SavedBlock where
  block : Block
  sideband : BlockSideband
deriving DecidableEq

/-- `DependentBlocks::iter`: the previous block and the linked block, zero entries left out. -/
def dependentBlocksOf (previous link : BlockHash) : List BlockHash :=
  [previous, link].filter (fun h => !h.isZero)

namespace SavedBlock

def hash (c : Crypto) (s : SavedBlock) : BlockHash := s.block.hash c

def previous (s : SavedBlock) : BlockHash := s.block.previous

def account (s : SavedBlock) : Account := s.block.accountField.getD s.sideband.account

def height (s : SavedBlock) : Nat := s.sideband.height

def epoch (s : SavedBlock) : Epoch := s.sideband.details.epoch

def sourceEpoch (s : SavedBlock) : Epoch := s.sideband.sourceEpoch

def subtype (s : SavedBlock) : BlockSubType := s.sideband.details.subtype

def isSend (s : SavedBlock) : Bool :=
  match s.block with
  | .legacySend _ => true
  | .state _ => s.sideband.details.isSend
  | _ => false

/-- The account a send pays into; the link of a state send. -/
def destination (s : SavedBlock) : Option Account :=
  match s.block with
  | .legacySend b => some b.destination
  | .state b => if s.sideband.details.isSend then some b.link else none
  | _ => none

def balance (s : SavedBlock) : Amount :=
  match s.block with
  | .legacySend b => b.balance
  | .state b => b.balance
  | _ => s.sideband.balance

/-- `SavedBlock::dependent_blocks`: the link of a state block counts unless the block is a
send or the link is an epoch link. -/
def dependentBlocks (epochs : Epochs) (genesisAccount : Account) (s : SavedBlock) :
    List BlockHash :=
  match s.block with
  | .legacySend b => dependentBlocksOf b.previous (FixedBytes.zero 32)
  | .legacyChange b => dependentBlocksOf b.previous (FixedBytes.zero 32)
  | .legacyReceive b => dependentBlocksOf b.previous b.source
  | .legacyOpen b =>
    if b.account = genesisAccount then []
    else dependentBlocksOf b.source (FixedBytes.zero 32)
  | .state b =>
    let linkRefersToBlock := !s.isSend && !epochs.isEpochLink b.link
    dependentBlocksOf s.previous (if linkRefersToBlock then b.link else FixedBytes.zero 32)

end SavedBlock

/-- `QualifiedRoot`: the root of a block together with its previous block. -/
structure QualifiedRoot where
  root : Root
  previous : BlockHash
deriving DecidableEq

def Block.qualifiedRoot (b : Block) : QualifiedRoot := ⟨b.root, b.previous⟩

/-- `MaybeSavedBlock`: a block the ledger holds with its sideband, or one only received. -/
inductive MaybeSavedBlock
  | saved (block : SavedBlock)
  | unsaved (block : Block)
deriving DecidableEq

/-- The block behind `Deref`. -/
def MaybeSavedBlock.block : MaybeSavedBlock → Block
  | .saved b => b.block
  | .unsaved b => b

def MaybeSavedBlock.hash (c : Crypto) (b : MaybeSavedBlock) : BlockHash := b.block.hash c

end RsbanNode.Blocks

namespace RsbanNode.Primitives.Epochs

open RsbanNode.Blocks

/-- `Epochs::validate_epoch_signature`: the block is signed by the signer of its epoch. -/
def validateEpochSignature (epochs : Epochs) (c : Crypto) (block : Block) : Bool :=
  match epochs.epochSigner (block.linkField.getD default) with
  | some signer => c.verify signer (block.hash c).bytes block.signature
  | none => false

end RsbanNode.Primitives.Epochs
