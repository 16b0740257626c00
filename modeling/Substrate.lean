import Substrate.Lib.Unsigned
import Substrate.Lib.Slots
import Substrate.Lib.Collections
import Substrate.Lib.Ranges
import Substrate.Lib.Fold
import Substrate.Lib.BinarySearch
import Substrate.Merkle.Tree
import Substrate.Merkle.Proof
import Substrate.Allocator.FreeingBump
import Substrate.Allocator.Safety
import Substrate.Weights.WeightMeter
import Substrate.Scheduler.Pallet
import Substrate.Scheduler.Task
import Substrate.Scheduler.Agenda
import Substrate.Scheduler.Outcomes
import Substrate.Scheduler.Calls
import Substrate.Scheduler.Lookup
import Substrate.TransactionPool.Ready
import Substrate.TransactionPool.RemoveSubtree
import Substrate.TransactionPool.Future
import Substrate.TransactionPool.ReadySpec
import Substrate.TransactionPool.BasePool
import Substrate.TransactionPool.PoolInvariants
import Substrate.System.Account
import Substrate.Balances.Account
import Substrate.Balances.Fungible
import Substrate.Balances.Transfer
import Substrate.Balances.References
import Substrate.Balances.Hold
import Substrate.Arithmetic.PerThing
import Substrate.Arithmetic.Normalize
import Substrate.Staking.Payout
import Substrate.Staking.PayoutSpec
import Substrate.Staking.Slashing
import Substrate.Staking.SlashingSpans
import Substrate.Election.Npos
import Substrate.Election.Feasibility
import Substrate.Election.Pjr
import Substrate.Grandpa.AuthoritySetChanges
import Substrate.Utils.ForkTree
import Substrate.Utils.ForkTreeFinalize
import Substrate.Grandpa.AuthoritySet
import Substrate.StateDb.NonCanonical
import Substrate.StateDb.Invariant
import Substrate.StateDb.Pruning
import Substrate.StateDb.PruningDbBacked
import Substrate.Lib.Snapshots
import Substrate.StateMachine.Changeset
import Substrate.StateMachine.ChangesetSpec
import Substrate.StateMachine.Transactions
import Substrate.StateMachine.OverlayedChanges
import Substrate.StateMachine.OverlayedChangesSpec
import Substrate.Runtime.Era
import Substrate.Lib.Cursor
import Substrate.Trie.Scale
import Substrate.Trie.NodeHeader
import Substrate.Trie.NodeCodec
import Substrate.Trie.NodeCodecLaws
import Substrate.Trie.TrieStream
import Substrate.MessageQueue.Page
import Substrate.MessageQueue.Pallet
import Substrate.MessageQueue.Service
import Substrate.MessageQueue.Termination
import Substrate.MessageQueue.Reentrancy
import Substrate.Lib.Binary64
import Substrate.NominationPools.Points
import Substrate.Core.Ss58
import Substrate.MessageQueue.Reap
import Substrate.Offchain.StorageLock
import Substrate.StateMachine.Extrinsics
import Substrate.StateMachine.Runtime
import Substrate.Election.Miner
import Substrate.Lib.Ancestry
import Substrate.Utils.ForkTreeDrain
import Substrate.Grandpa.Revert
import Substrate.Grandpa.Enacts
import Substrate.BagsList.List
import Substrate.BagsList.Migrate
import Substrate.Utils.ForkTreeImport
import Substrate.Arithmetic.FixedPoint
import Substrate.Utils.ForkTreeExact
import Substrate.Utils.ForkTreeSearch
import Substrate.Utils.ForkTreePrune
import Substrate.Utils.ForkTreeAncestors
import Substrate.Utils.ForkTreeLevels
import Substrate.Utils.ForkTreeFinalizesAny
import Substrate.Sync.Blocks
import Substrate.Lib.BitCounter
import Substrate.Mmr.Layout
import Substrate.Mmr.NodesUtils
import Substrate.Arithmetic.Helpers128bit
import Substrate.Arithmetic.MultiplyRational
import Substrate.Arithmetic.PerThingMul
import Substrate.Arithmetic.Rational128
import Substrate.Runtime.UncheckedExtrinsic
import Substrate.PagedList.Storage
import Substrate.PagedList.Queue
