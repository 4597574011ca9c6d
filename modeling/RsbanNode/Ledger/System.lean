import RsbanNode.Ledger.Cementer

namespace RsbanNode.Ledger

open RsbanNode.Primitives RsbanNode.Blocks RsbanNode.FiniteMap

/-- The calls that change a ledger: `process`, `rollback` and `confirm_max`. Fuel only bounds
the loops of the model; a call that runs out of it is not a step. -/
inductive LedgerOp
  | process (block : Block) (now : UInt64)
  | rollback (hash : BlockHash) (now : UInt64) (fuel : Nat)
  | confirmMax (hash : BlockHash) (maxBlocks : Nat) (fuel : Nat)

def LedgerOp.apply (l : Ledger) (s : LedgerStore) : LedgerOp → Option LedgerStore
  | .process block now =>
    match l.process s block now with
    | .ok (_, s') => some s'
    | .error _ => none
  | .rollback hash now fuel =>
    match l.rollback fuel s hash now with
    | .ok (_, s') => some s'
    | .error _ => none
  | .confirmMax hash maxBlocks fuel =>
    match l.confirmMax fuel s hash maxBlocks with
    | .ok (_, s') => some s'
    | .error _ => none

/-- The stores a node reaches from its genesis ledger by calls that succeed. -/
inductive Reachable (l : Ledger) : LedgerStore → Prop
  | genesis (now : UInt64) : Reachable l (l.genesis now)
  | step {s s' : LedgerStore} (op : LedgerOp) :
      Reachable l s → op.apply l s = some s' → Reachable l s'

/-- All balances and all receivable amounts, added as natural numbers. -/
def supply (s : LedgerStore) : Nat :=
  sumBy (fun _ info => info.balance.toNat) s.accounts +
    sumBy (fun _ pending => pending.amount.toNat) s.pending

/-- The balances of the accounts that chose `representative`, added as natural numbers: what its
weight stands for. -/
def delegatedBalance (s : LedgerStore) (representative : PublicKey) : Nat :=
  sumBy (fun _ info => if info.representative = representative then info.balance.toNat else 0)
    s.accounts

end RsbanNode.Ledger
