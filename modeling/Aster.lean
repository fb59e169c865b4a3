import Aster.Broker.Committee
import Aster.Broker.Confirmations
import Aster.Broker.Conservation
import Aster.Chain.CommitSafety
import Aster.Chain.Completeness
import Aster.Chain.Executors
import Aster.Chain.ForkChoice
import Aster.Chain.Ledger
import Aster.Chain.Relay
import Aster.Chain.Restart
import Aster.Chain.Rollback
import Aster.Chain.StoredChain
import Aster.Chain.TxOnChain
import Aster.Clpa.Algorithm
import Aster.Clpa.Barrier
import Aster.Clpa.DefaultShards
import Aster.Clpa.EdgeCounts
import Aster.Clpa.Populations
import Aster.Clpa.QueueSplit
import Aster.Clpa.Repartition
import Aster.Clpa.Rounds
import Aster.Clpa.ScoreDivisors
import Aster.Clpa.Supervisor
import Aster.Core.Block
import Aster.Core.Injection
import Aster.Core.Transaction
import Aster.Core.TxPool
import Aster.Lib.AccessLog
import Aster.Lib.CyclicOrder
import Aster.Lib.LinkedList
import Aster.Lib.ParentChain
import Aster.Lib.Quorum
import Aster.Lib.SortedMap
import Aster.Lib.Spine
import Aster.Lib.Transfers
import Aster.Lib.Transition
import Aster.Local.ConsistentHash
import Aster.Local.HashRing
import Aster.Local.JoinLeave
import Aster.Local.Moves
import Aster.Local.NodeIDs
import Aster.Local.Placement
import Aster.Local.RingOwner
import Aster.Local.RingRefinement
import Aster.Local.SkipList
import Aster.Local.SkipListUpdate
import Aster.Local.Transit
import Aster.Local.VirtualNodes
import Aster.Pbft.Agreement
import Aster.Pbft.CatchUp
import Aster.Pbft.Chains
import Aster.Pbft.Cluster
import Aster.Pbft.Locks
import Aster.Pbft.Node
import Aster.Pbft.Proposals
import Aster.Pbft.Sequence
import Aster.Pbft.Votes
import Aster.SubMPT.BlockProduction
import Aster.SubMPT.Commits
import Aster.SubMPT.ConcurrentJoin
import Aster.SubMPT.Follower
import Aster.SubMPT.Inclusion
import Aster.SubMPT.Join
import Aster.SubMPT.MigrationOrder
import Aster.SubMPT.Migrator
import Aster.SubMPT.MigratorInvariants
import Aster.SubMPT.Ownership
import Aster.SubMPT.PartitionedExecution
import Aster.SubMPT.Progress
import Aster.SubMPT.Proposer
import Aster.SubMPT.ProposerInvariants
import Aster.SubMPT.ProposerSteps
import Aster.SubMPT.Replies
import Aster.SubMPT.Routing
import Aster.Supervisor.MsgSending
import Aster.Network.Framing
import Aster.Local.ArcArithmetic
import Aster.Local.NextNode
import Aster.Local.RingLock
import Aster.Network.ConnReader
import Aster.Supervisor.RelayMeasures
import Aster.Lib.Matching
import Aster.Lib.Rlp
import Aster.Trie.Encoding
import Aster.Lib.Patricia.Tree
import Aster.Lib.Patricia.Update
import Aster.Trie.Hasher
import Aster.Lib.Total
import Aster.Trie.Represents
import Aster.Trie.Operations
import Aster.Trie.Update
import Aster.Trie.Session
import Aster.Trie.Proof
import Aster.Trie.Codec
