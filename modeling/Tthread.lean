import Tthread.OneMemory
import Tthread.DirtyEntries
import Tthread.LogSlots
import Tthread.SyncObjects
import Tthread.Cancel
import Tthread.LockBooks
import Tthread.FenceCounters
import Tthread.FenceWakeups
import Tthread.OwnedPages
import Tthread.Xmmap
import Tthread.AccessedPages
import Tthread.MachineFile
import Tthread.ReadBuffer
import Tthread.LogReader
import Tthread.LogWindow
import Tthread.Xsched
import Tthread.NumaPages
import Tthread.Numasim
import Tthread.TraceExport
import Tthread.PageRanges
import Tthread.Comparison
import Tthread.Regions
import Tthread.Placement
import Tthread.Makespan
import Tthread.Migration
import Tthread.TaskDag
import Tthread.FetchTimes
import Tthread.PopOrder
import Tthread.SubHeaps
import Tthread.CommitOrder
import Tthread.Thunks
import Tthread.Waking
import Tthread.EntrySequences
import Tthread.PageArithmetic
import Tthread.SpawnCounts
import Tthread.CondOwner
import Tthread.MutualExclusion
import Tthread.Joining
import Tthread.OneOrder
import Tthread.SyncWords
import Tthread.OwnerEntries
import Tthread.SlowCommits
import Tthread.FaultHandlers
import Tthread.OwnedBlocks
import Tthread.FreedBlocks
import Tthread.Memalign
import Tthread.PreInit
import Tthread.DestroyedObjects
import Tthread.FailedSigwait
