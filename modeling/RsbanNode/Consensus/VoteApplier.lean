import RsbanNode.Consensus.ElectionForks

namespace RsbanNode.Consensus.Voting

open RsbanNode.Primitives RsbanNode.Blocks RsbanNode.Messages RsbanNode.OrderedMap OrdMap
  RsbanNode.Result

/-! ## The online weight the vote path reads -/

/-- The weights of `OnlineReps` that `quorum_delta` and `minimum_principal_weight` read. -/
structure OnlineReps where
  onlineWeight : Amount
  trendedWeight : Amount
  onlineWeightMinimum : Amount

def onlineWeightQuorum : Nat := 67

def maxAmount (a b : Amount) : Amount := if a ≤ b then b else a

namespace OnlineReps

def trendedWeightOrMinimumOnlineWeight (o : OnlineReps) : Amount :=
  maxAmount o.trendedWeight o.onlineWeightMinimum

def minimumPrincipalWeight (o : OnlineReps) : Amount := o.trendedWeightOrMinimumOnlineWeight / 1000

/-- `quorum_delta`: 67% of the largest of the three weights, computed in 256 bits; the result
always fits back into 128. -/
def quorumDelta (o : OnlineReps) : Amount :=
  let weight := maxAmount (maxAmount o.onlineWeight o.trendedWeight) o.onlineWeightMinimum
  BitVec.ofNat 128 (weight.toNat * onlineWeightQuorum / 100)

end OnlineReps

/-- What the vote path reads from the rest of the node during one call: the ledger's weights,
the online weight, the network and node settings, the wallets' count of voting
representatives, the `SystemTime` (`now`) and `Instant` (`instant`) in milliseconds, and the
order `block_weights` is visited in. -/
structure VoteEnv where
  weight : PublicKey → Amount
  onlineReps : OnlineReps
  isDevNetwork : Bool
  enableVoting : Bool
  votingRepsCount : Nat
  now : Int
  instant : Nat
  voteBroadcastInterval : Nat
  tallyOrder : HashOrder (BlockHash × Amount)

/-- Whether the node votes itself: `enable_voting && voting_reps_count() > 0`. -/
def VoteEnv.voting (env : VoteEnv) : Bool := env.enableVoting && decide (0 < env.votingRepsCount)

def cooldownTime (o : OnlineReps) (weight : Amount) : Nat :=
  let onlineStake := o.trendedWeightOrMinimumOnlineWeight
  if weight > onlineStake / 20 then 1
  else if weight > onlineStake / 100 then 5
  else 15

/-! ## Tallies -/

/-- `TallyKey`: an amount ordered the other way round, so that a `BTreeMap` over it starts at
the largest. -/
structure TallyKey where
  amount : Amount
deriving DecidableEq

namespace TallyKey

def key (k : TallyKey) : OrderDual Nat := OrderDual.toDual k.amount.toNat

theorem key_injective : Function.Injective key := by
  intro a b h
  cases a
  cases b
  simp only [mk.injEq]
  exact BitVec.toNat_inj.mp (OrderDual.toDual.injective h)

instance : LinearOrder TallyKey := LinearOrder.lift' key key_injective

end TallyKey

def u64Max : UInt64 := 18446744073709551615

/-- One round of the first loop of `tally_impl`: the vote adds its representative's weight to its
block, and a final vote adds it to the block's final weight too. -/
def addVoteWeight (weight : PublicKey → Amount)
    (acc : OrdMap BlockHash Amount × OrdMap BlockHash Amount) (vote : PublicKey × VoteInfo) :
    OrdMap BlockHash Amount × OrdMap BlockHash Amount :=
  let repWeight := weight vote.1
  (acc.1.addAt vote.2.hash repWeight,
    if vote.2.timestamp = u64Max then acc.2.addAt vote.2.hash repWeight else acc.2)

/-- `tally_impl`: the forks the election holds, keyed by the weight of the votes for them; with
`last_tally` rewritten and the final weight of the leading fork kept. -/
def tallyImpl (c : Crypto) (env : VoteEnv) (d : ElectionData) :
    OrdMap TallyKey MaybeSavedBlock × ElectionData :=
  let weights := d.lastVotes.entries.foldl (addVoteWeight env.weight) (empty, empty)
  let blockWeights := weights.1
  let finalWeights := weights.2
  let visited := env.tallyOrder.visit blockWeights.entries
  let lastTally := visited.foldl (fun t e => t.insert e.1 e.2) empty
  -- the forks held, in visiting order; of two with equal weight the later one stays
  let result := (visited.filterMap fun e =>
      (d.lastBlocks.find? e.1).map fun block => (TallyKey.mk e.2, block)).foldl
    (fun r e => r.insert e.1 e.2) empty
  let finalWeight :=
    if finalWeights.entries.isEmpty then d.finalWeight
    else
      match result.first? with
      | some (_, winner) => (finalWeights.find? (winner.hash c)).getD d.finalWeight
      | none => d.finalWeight
  (result, { d with lastTally, finalWeight })

/-- `have_quorum`: the leading weight is ahead of the next by the quorum. -/
def haveQuorum (o : OnlineReps) (tally : OrdMap TallyKey MaybeSavedBlock) : Bool :=
  let first := (tally.keys[0]?.map (·.amount)).getD 0
  let second := (tally.keys[1]?.map (·.amount)).getD 0
  decide (first - second ≥ o.quorumDelta)

/-- `remove_votes`: on a node that votes, the votes of its own representatives for `hash` leave
the election, and its own votes for the root are forgotten. -/
def removeVotes (env : VoteEnv) (root : Root) (d : ElectionData) (history : LocalVoteHistory)
    (hash : BlockHash) : Except String (ElectionData × LocalVoteHistory) :=
  if env.voting then do
    let listGeneratedVotes ← history.votes root hash false
    let lastVotes := listGeneratedVotes.foldl (fun m vote => m.erase vote.votingAccount) d.lastVotes
    pure ({ d with lastVotes }, history.erase root)
  else pure (d, history)

/-! ## Confirmation -/

/-- `update_status_to_confirmed`, without its times; the counts are cast `as u32`. -/
def updateStatusToConfirmed (confirmationRequestCount : UInt32) (d : ElectionData) :
    ElectionData :=
  { d with status := { d.status with
      confirmationRequestCount
      blockCount := d.lastBlocks.size.toUInt32
      voterCount := d.lastVotes.size.toUInt32 } }

/-- `confirm_once`: writes `Confirmed`; the first time, the winner goes to the recently confirmed
cache and the confirming set, and a task to process it is pushed. -/
def confirmOnce (c : Crypto) (e : Election) (d : ElectionData) :
    Except String (ElectionData × List Effect) :=
  let justConfirmed := d.state != .confirmed
  let d := { d with state := .confirmed }
  if justConfirmed then do
    let d := updateStatusToConfirmed e.confirmationRequestCount d
    let winner ← unwrap d.status.winner
    pure (d, [.recentlyConfirmed e.qualifiedRoot (winner.hash c), .confirmingSetAdd (winner.hash c),
      .processConfirmed winner])
  else pure (d, [])

/-- The sum `confirm_if_quorum` compares with the quorum: all tallies, added with wrapping. -/
def tallySum (tally : OrdMap TallyKey MaybeSavedBlock) : Amount :=
  tally.keys.foldl (fun sum k => sum + k.amount) 0

/-- The first `if` of `confirm_if_quorum`: a new leading fork with the quorum behind all forks
together becomes the winner, is forced into the ledger, and the node's own votes for the old
winner leave the election. -/
def switchWinner (c : Crypto) (env : VoteEnv) (root : Root) (tally : OrdMap TallyKey MaybeSavedBlock)
    (block : MaybeSavedBlock) (statusWinnerHash : BlockHash) (d : ElectionData)
    (history : LocalVoteHistory) : Except String (ElectionData × LocalVoteHistory × List Effect) :=
  if tallySum tally ≥ env.onlineReps.quorumDelta ∧ block.hash c ≠ statusWinnerHash then do
    let d := { d with status := { d.status with winner := some block } }
    let (d, history) ← removeVotes env root d history statusWinnerHash
    pure (d, history, [Effect.force block])
  else pure (d, history, [])

/-- The second `if` of `confirm_if_quorum`: with the quorum between the first two tallies the
node votes final, the first time only, for `status_winner_hash`, the winner read before the
switch; with the quorum in final votes too the election is confirmed. -/
def confirmOnQuorum (c : Crypto) (env : VoteEnv) (e : Election)
    (tally : OrdMap TallyKey MaybeSavedBlock) (statusWinnerHash : BlockHash) (d : ElectionData) :
    Except String (Election × List Effect) :=
  if haveQuorum env.onlineReps tally then
    -- the swap of `is_quorum` comes first in the condition, so it always happens
    let finalVote :=
      if !e.isQuorum && env.voting then [Effect.generateFinalVote e.root statusWinnerHash] else []
    let e := { e with isQuorum := true }
    if d.finalWeight ≥ env.onlineReps.quorumDelta then do
      let (d, confirmed) ← confirmOnce c e d
      pure ({ e with data := d }, finalVote ++ confirmed)
    else pure ({ e with data := d }, finalVote)
  else pure ({ e with data := d }, [])

def confirmIfQuorum (c : Crypto) (env : VoteEnv) (e : Election) (history : LocalVoteHistory) :
    Except String (Election × LocalVoteHistory × List Effect) := do
  let (tally, d) := tallyImpl c env e.data
  let (amount, block) ← unwrap tally.first?
  let d := { d with status := { d.status with tally := amount.amount, finalTally := d.finalWeight } }
  let statusWinner ← unwrap d.status.winner
  let (d, history, forced) ← switchWinner c env e.root tally block (statusWinner.hash c) d history
  let (e, effects) ← confirmOnQuorum c env e tally (statusWinner.hash c) d
  pure (e, history, forced ++ effects)

/-! ## Votes -/

/-- The checks `vote` makes against the representative's last vote: the code it returns early
with, or `none` when the vote is taken. -/
def checkLastVote (env : VoteEnv) (weight : Amount) (last : VoteInfo) (timestamp : UInt64)
    (blockHash : BlockHash) (source : VoteSource) : Option VoteCode :=
  if last.timestamp > timestamp then some .replay
  else if last.timestamp = timestamp ∧ ¬ last.hash < blockHash then some .replay
  else
    let maxVote := decide (timestamp = u64Max ∧ last.timestamp < timestamp)
    -- only live votes wait for the cooldown
    let pastCooldown :=
      if source ≠ .cache then decide (last.time ≤ env.now - cooldownTime env.onlineReps weight * 1000)
      else true
    if !maxVote && !pastCooldown then some .ignored else none

def vote (c : Crypto) (env : VoteEnv) (e : Election) (history : LocalVoteHistory)
    (rep : PublicKey) (timestamp : UInt64) (blockHash : BlockHash) (source : VoteSource) :
    Except String (VoteCode × Election × LocalVoteHistory × List Effect) :=
  let weight := env.weight rep
  if !env.isDevNetwork && decide (weight ≤ env.onlineReps.minimumPrincipalWeight) then
    .ok (.indeterminate, e, history, [])
  else
    match (e.data.lastVotes.find? rep).bind
        fun last => checkLastVote env weight last timestamp blockHash source with
    | some code => .ok (code, e, history, [])
    | none =>
      let e := { e with data := { e.data with
        lastVotes := e.data.lastVotes.insert rep ⟨env.now, timestamp, blockHash⟩ } }
      let live := if source ≠ .cache then [Effect.liveVote rep] else []
      if e.data.state.isConfirmed then .ok (.vote, e, history, live)
      else do
        let (e, history, effects) ← confirmIfQuorum c env e history
        pure (.vote, e, history, live ++ effects)

/-- `ActiveElections::try_confirm`: a cemented block that is the winner confirms the election. -/
def tryConfirm (c : Crypto) (e : Election) (hash : BlockHash) : Except String (Election × List Effect) :=
  match e.data.status.winner with
  | some winner =>
    if winner.hash c = hash ∧ e.data.state.isConfirmed = false then do
      let (d, effects) ← confirmOnce c e e.data
      pure ({ e with data := d }, effects)
    else .ok (e, [])
  | none => .ok (e, [])

/-- `last_vote_elapsed`: a year when the node never voted. -/
def lastVoteElapsed (env : VoteEnv) (d : ElectionData) : Nat :=
  match d.lastVote with
  | some t => env.instant - t
  | none => 365 * 24 * 60 * 60 * 1000

/-- `broadcast_vote_locked`: the node votes for the winner, final when the election is confirmed
or the tally has quorum. -/
def broadcastVoteLocked (c : Crypto) (env : VoteEnv) (e : Election) :
    Except String (Election × List Effect) :=
  if lastVoteElapsed env e.data < env.voteBroadcastInterval then .ok (e, [])
  else
    let d := { e.data with lastVote := some env.instant }
    if env.voting then do
      let (isFinal, d) :=
        if d.state.isConfirmed then (true, d)
        else
          let (tally, d) := tallyImpl c env d
          (haveQuorum env.onlineReps tally, d)
      let winner ← unwrap d.status.winner
      pure ({ e with data := d },
        [if isFinal then .generateFinalVote e.root (winner.hash c)
          else .generateNonFinalVote e.root (winner.hash c)])
    else .ok ({ e with data := d }, [])

def broadcastVote (c : Crypto) (env : VoteEnv) (e : Election) :
    Except String (Election × List Effect) :=
  if lastVoteElapsed env e.data ≥ env.voteBroadcastInterval then do
    let (e, effects) ← broadcastVoteLocked c env e
    pure ({ e with data := { e.data with lastVote := some env.instant } }, effects)
  else .ok (e, [])

end RsbanNode.Consensus.Voting
