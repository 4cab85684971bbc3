import CharmRuntime.Reduction.NodeSet
import CharmRuntime.Reduction.NodeMgrSound
import CharmRuntime.Quiescence.QdSound
import CharmRuntime.Queueing.EqualPrio
import CharmRuntime.Isomalloc.SlotOp
import CharmRuntime.Isomalloc.BlockListPup
import CharmRuntime.Util.BitVectorRun
import CharmRuntime.Util.BitCompare
import CharmRuntime.Util.HashtableString
import CharmRuntime.Converse.ReduceBound
import CharmRuntime.Converse.ListReduce
import CharmRuntime.Converse.MulticastSound
import CharmRuntime.Converse.MultipleSendSound
import CharmRuntime.Queueing.MsgQ
import CharmRuntime.Legion.ReservationSound
import CharmRuntime.Streamer.ChunksSound
import CharmRuntime.Matrix.Recording
import CharmRuntime.Matrix.SchedulerSound
import CharmRuntime.Legion.BarrierAdjustment
import CharmRuntime.Legion.BarrierSound
import CharmRuntime.Legion.MetadataSound
import CharmRuntime.Legion.GenEventSound
import CharmRuntime.Sparrow.LateBinding
import CharmRuntime.Sdag.Matching
import CharmRuntime.Zht.EmptyValues
import CharmRuntime.Zht.Append
import CharmRuntime.Zht.Restart
import CharmRuntime.Zht.Segments
import CharmRuntime.Converse.Hypercube
import CharmRuntime.Converse.ReductionIDs
import CharmRuntime.Queueing.RemoveSpecific
import CharmRuntime.Converse.MsgMgr
import CharmRuntime.Reduction.UserFlag
import CharmRuntime.Isomalloc.SlotBins
import CharmRuntime.Util.Xlater
import CharmRuntime.Arrays.BroadcasterSound
import CharmRuntime.Location.LocMgrMessages
import CharmRuntime.Location.LocMgrRouting
import CharmRuntime.Sparrow.Cancellation
import CharmRuntime.Sparrow.Fairness
import CharmRuntime.Mempool.Lock
import CharmRuntime.Zht.TableSound
import CharmRuntime.Zht.Iterator
import CharmRuntime.Matrix.TaskId
import CharmRuntime.Matrix.DagGen
import CharmRuntime.Matrix.BigData
import CharmRuntime.Streamer.ArrayMeshSound
import CharmRuntime.Streamer.GroupMesh
import CharmRuntime.Threads.Futures
import CharmRuntime.Location.ManagerList
import CharmRuntime.Legion.MaskEnumerator
import CharmRuntime.Legion.IndexSpaceAllocator
import CharmRuntime.Legion.MemoryImplSound
import CharmRuntime.Util.RecursiveBisect
import CharmRuntime.Util.CkSequencePup
import CharmRuntime.Location.HilbertArrayMap
import CharmRuntime.Legion.EventMerger
import CharmRuntime.Legion.SubspaceAllocator
import CharmRuntime.Legion.RegionInstance
import CharmRuntime.Legion.IntervalTree
import CharmRuntime.Location.LocalIndices
import CharmRuntime.Isomalloc.TreeSearch
import CharmRuntime.Util.QuickSort
import CharmRuntime.Util.CkQ
