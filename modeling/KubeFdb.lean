import KubeFdb.Lib.SortedBy
import KubeFdb.Lib.OrdMap
import KubeFdb.Lib.Run
import KubeFdb.Lib.Tuple
import KubeFdb.Lib.Lists
import KubeFdb.Driver.Record
import KubeFdb.Driver.Subspace
import KubeFdb.Driver.Batch
import KubeFdb.Driver.Write
import KubeFdb.Driver.Compact
import KubeFdb.Driver.Read
import KubeFdb.Driver.Watch
import KubeFdb.Driver.Poll
import KubeFdb.Driver.Count
import KubeFdb.Properties.Log
import KubeFdb.Properties.Represents
import KubeFdb.Properties.Write
import KubeFdb.Properties.CompactBatch
import KubeFdb.Properties.Compaction
import KubeFdb.Lib.GroupScan
import KubeFdb.Properties.Current
import KubeFdb.Properties.Scan
import KubeFdb.Properties.Collectors
import KubeFdb.Properties.ListRange
import KubeFdb.Properties.Listing
import KubeFdb.Properties.Views
import KubeFdb.System.Store
import KubeFdb.System.Agreement
import KubeFdb.System.Watermark
import KubeFdb.System.CurrentState
import KubeFdb.System.PinnedReads
import KubeFdb.System.CompactFootprint
import KubeFdb.System.WriteCalls
import KubeFdb.System.WriteAnswers
import KubeFdb.Properties.Ongoing
import KubeFdb.System.SnapshotScan
import KubeFdb.System.ListedValues
import KubeFdb.System.PinnedScan
import KubeFdb.Properties.After
import KubeFdb.System.ResumedWatch
import KubeFdb.System.BoundedRead
import KubeFdb.System.PollLoop
import KubeFdb.System.Wakeup
import KubeFdb.Properties.LiveKeys
import KubeFdb.System.TrackedCounts
import KubeFdb.System.CurrentChunks
import KubeFdb.Properties.Chain
import KubeFdb.System.VersionChains
import KubeFdb.System.ReadHistory
import KubeFdb.System.RangeReads
import KubeFdb.System.PrevValues
import KubeFdb.Lib.EachAfter
import KubeFdb.Driver.Wal
import KubeFdb.Properties.Wal
import KubeFdb.Robustness.Model
import KubeFdb.Robustness.Replay
import KubeFdb.Robustness.Refinement
import KubeFdb.Driver.Ttl
import KubeFdb.System.Ttl
import KubeFdb.System.TtlStart
import KubeFdb.System.WatchStream
import KubeFdb.System.Forwarder
import KubeFdb.System.Bookmark
import KubeFdb.System.ListWatch
import KubeFdb.Lib.Heap
import KubeFdb.Driver.Transact
import KubeFdb.Properties.Transact
import KubeFdb.Properties.KeyRanges
import KubeFdb.Properties.Selectors
import KubeFdb.Properties.LogCodec
import KubeFdb.System.CountPair
import KubeFdb.Driver.Retry
import KubeFdb.Driver.Shared
import KubeFdb.Properties.Shared
import KubeFdb.Properties.Attempts
import KubeFdb.System.Retry
import KubeFdb.Lib.Possible
import KubeFdb.Lib.Linearizable
import KubeFdb.Robustness.NonDeterministic
import KubeFdb.Robustness.History
import KubeFdb.Robustness.PatchHistory
import KubeFdb.Robustness.PatchSound
import KubeFdb.Robustness.Answers
import KubeFdb.Robustness.Recorder
import KubeFdb.Robustness.RecordedOrder
import KubeFdb.Robustness.Pipeline
import KubeFdb.Lib.Updates
import KubeFdb.Robustness.EtcdRun
import KubeFdb.Robustness.ReplayEvents
import KubeFdb.Robustness.WatchCheck
import KubeFdb.Robustness.WatchCheckSound
import KubeFdb.Robustness.DriverWatch
import KubeFdb.Robustness.Serializable
import KubeFdb.Robustness.Validation
