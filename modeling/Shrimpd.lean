import Shrimpd.Lsm.Transfer
import Shrimpd.Lsm.PartManager
import Shrimpd.Lsm.ClusterAgree
import Shrimpd.Api.Shrimply
import Shrimpd.Api.RecordLabels
import Shrimpd.Lsm.ConsumerError
import Shrimpd.Api.IngestStatus
import Shrimpd.Lsm.ReplicationGap
import Shrimpd.Lsm.PartMetadata
import Shrimpd.Block.MergeIter
import Shrimpd.Block.ScanBound
import Shrimpd.Lsm.ReplicationLoop
import Shrimpd.Registry.Snapshot
import Shrimpd.Lsm.BootRace
import Shrimpd.Lsm.Bootstrap
import Shrimpd.Lsm.Publish
import Shrimpd.Lsm.FileOrder
import Shrimpd.Lsm.IndexVisible
import Shrimpd.Lsm.QueuePointer
import Shrimpd.Lsm.Converge
import Shrimpd.Block.Canonical
import Shrimpd.Block.Sparse
import Shrimpd.Block.BloomLabel
import Shrimpd.Lsm.IndexIterator
import Shrimpd.Lsm.QueryMatcher
import Shrimpd.Lsm.CompactExact
import Shrimpd.Lsm.IndexRun
import Shrimpd.Lsm.IndexEngine
import Shrimpd.Lsm.LabelPrune
import Shrimpd.Filter.LabelPrecedence
import Shrimpd.Filter.Matcher
import Shrimpd.Lsm.QueryExact
import Shrimpd.Lsm.Query
import Shrimpd.Lsm.Store
import Shrimpd.Lsm.Replication
import Shrimpd.Lsm.CompactPass
import Shrimpd.Lsm.CompactRace
import Shrimpd.Lsm.CompactCommit
import Shrimpd.Lsm.Compact
import Shrimpd.Lsm.Node
import Shrimpd.Block.Part
import Shrimpd.Block.Token
import Shrimpd.Lib.Sorted
import Shrimpd.Lsm.Flush
import Shrimpd.Wal.Stored
import Shrimpd.Wal.Durability
import Shrimpd.Wal.FailedSeal
import Shrimpd.Wal.AbstractLog
import Shrimpd.Wal.Recover
import Shrimpd.Wal.JsonLine
import Shrimpd.Wal.Record
import Shrimpd.Types.Entry
import Shrimpd.Lib.Lines
import Shrimpd.Wal.GroupCommitCorrect
