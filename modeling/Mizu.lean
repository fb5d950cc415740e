import Mizu.Library.Assoc
import Mizu.Library.Reach
import Mizu.Library.Majority
import Mizu.Library.Chain
import Mizu.Raft.Types
import Mizu.Raft.Log
import Mizu.Raft.Node
import Mizu.Raft.Effects
import Mizu.Raft.Views
import Mizu.Raft.Shape
import Mizu.Raft.Total
import Mizu.Raft.ReadRounds
import Mizu.Raft.ReadIndex
import Mizu.Cluster.Model
import Mizu.Cluster.Steps
import Mizu.Cluster.Basic
import Mizu.Cluster.Election
import Mizu.Cluster.LogMatching
import Mizu.Cluster.Ranges
import Mizu.Cluster.Replication
import Mizu.Cluster.Arithmetic
import Mizu.Cluster.Progress
import Mizu.Cluster.Order
import Mizu.Cluster.FullLogs
import Mizu.Cluster.Completeness
import Mizu.Cluster.Safety
import Mizu.Cluster.Emission
import Mizu.Cluster.Bounds
import Mizu.Cluster.Commitment
import Mizu.Store.Keys
import Mizu.Store.Read
import Mizu.Store.Storage
import Mizu.Store.RaftRecords
import Mizu.Store.Peer
import Mizu.Store.Host
import Mizu.Store.Steps
import Mizu.Store.Votes
import Mizu.Store.WriteAhead
import Mizu.Store.Fleet
import Mizu.Store.Coverage
import Mizu.Store.Restart
import Mizu.Store.LocalSnapshot
import Mizu.Store.Proposals
import Mizu.Store.Reads
import Mizu.Store.ReadTracking
import Mizu.Library.Multiversion
import Mizu.Library.Search
import Mizu.Library.LittleEndian
import Mizu.Library.BigEndian
import Mizu.Library.OrderedMap
import Mizu.Library.PriorityQueue
import Mizu.Library.BitArray
import Mizu.Library.Linked
import Mizu.Library.Codec
import Mizu.Lsm.Run
import Mizu.Lsm.Merge
import Mizu.Lsm.Coding
import Mizu.Lsm.Version
import Mizu.Lsm.Compaction
import Mizu.Lsm.Levels
import Mizu.Lsm.Db
import Mizu.Lsm.History
import Mizu.Lsm.Memory
import Mizu.Lsm.Steps
import Mizu.Lsm.Files
import Mizu.Lsm.Logs
import Mizu.Lsm.Invariant
import Mizu.Lsm.Structure
import Mizu.Lsm.Iterator
import Mizu.Lsm.Refinement
import Mizu.Lsm.Limits
import Mizu.Lsm.Recovery
import Mizu.Lsm.PowerLoss
import Mizu.Lsm.Creation
import Mizu.Lsm.CompactionLoop
import Mizu.Lsm.Exhaustion
import Mizu.Store.RegionStorage
import Mizu.Store.Scan
import Mizu.Lsm.BatchCodec
import Mizu.Lsm.LogFile
import Mizu.Lsm.BlockIterator
import Mizu.Lsm.Block
import Mizu.Lsm.BlockRead
import Mizu.Lsm.MergingIterator
import Mizu.Lsm.SkipList
import Mizu.Lsm.SkipMemTable
import Mizu.Lsm.ManifestCodec
import Mizu.Lsm.BloomFilter
import Mizu.Lsm.TableBuilder
import Mizu.Lsm.TableReader
import Mizu.Library.ShiftRegister
import Mizu.Lsm.Checksum
import Mizu.Lsm.FileNames
import Mizu.Raft.WrappedLog
import Mizu.Raft.CommitRule
