import RsbanNode.Library.ByteCodec
import RsbanNode.Library.FiniteMap
import RsbanNode.Library.Radix
import RsbanNode.Library.Result
import RsbanNode.Library.OrdMap
import RsbanNode.Library.Sums
import RsbanNode.Library.Buckets
import RsbanNode.Core.Primitives
import RsbanNode.Core.Blocks
import RsbanNode.Core.BlockCodec
import RsbanNode.Core.AccountCodec
import RsbanNode.Ledger.Store
import RsbanNode.Ledger.Validator
import RsbanNode.Ledger.Insert
import RsbanNode.Ledger.Rollback
import RsbanNode.Ledger.Cementer
import RsbanNode.Ledger.System
import RsbanNode.Ledger.EpochLinkOpen
import RsbanNode.Ledger.BlockStore
import RsbanNode.Ledger.Receivable
import RsbanNode.Node.ConfirmingSet
import RsbanNode.Transport.SynCookies
import RsbanNode.Transport.HandshakeProcess
import RsbanNode.Transport.FairQueue
import RsbanNode.Consensus.ActiveElections
import RsbanNode.Consensus.Election
import RsbanNode.Bootstrap.OrderedSets
import RsbanNode.Bootstrap.AccountSets
import RsbanNode.Messages.Header
import RsbanNode.Messages.Realtime
import RsbanNode.Messages.Bootstrap
import RsbanNode.Messages.Message
import RsbanNode.Consensus.LocalVoteHistory
import RsbanNode.Consensus.CacheEntry
import RsbanNode.Consensus.VoteCache
import RsbanNode.Bootstrap.Ascending
import RsbanNode.Bootstrap.OrderedTags
import RsbanNode.Bootstrap.Throttle
import RsbanNode.Consensus.RecentlyConfirmedCache
import RsbanNode.Consensus.PriorityScheduler
import RsbanNode.Library.Walk
import RsbanNode.Ledger.AccountChain
import RsbanNode.Transport.PeerExclusion
import RsbanNode.BlockProcessing.UncheckedMap
import RsbanNode.Consensus.ElectionForks
import RsbanNode.Consensus.VoteApplier
import RsbanNode.Consensus.Tally
import RsbanNode.Consensus.VoteSpec
import RsbanNode.Consensus.ElectionRuns
