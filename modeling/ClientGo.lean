import ClientGo.Workqueue.PriorityQueue
import ClientGo.Workqueue.Invariant
import ClientGo.Workqueue.Refinement
import ClientGo.Workqueue.Lifecycle
import ClientGo.Workqueue.Goroutines
import ClientGo.Workqueue.WakeUp
import ClientGo.Workqueue.Drain
import ClientGo.Workqueue.Exclusive
import ClientGo.Workqueue.Shutdown
import ClientGo.Strategicpatch.Json
import ClientGo.Strategicpatch.Lists
import ClientGo.Strategicpatch.Uniqify
import ClientGo.Strategicpatch.Diff
import ClientGo.Strategicpatch.ScalarDiff
import ClientGo.Strategicpatch.DiffFuel
import ClientGo.Strategicpatch.MapsDiff
import ClientGo.Strategicpatch.Merge
import ClientGo.Strategicpatch.Conflicts
import ClientGo.Strategicpatch.Flat
import ClientGo.Strategicpatch.FlatLaws
import ClientGo.Strategicpatch.Tree
import ClientGo.Strategicpatch.TreeLaws
import ClientGo.Strategicpatch.ScalarMerge
import ClientGo.Strategicpatch.MergeFuel
import ClientGo.Strategicpatch.MergeOrder
import ClientGo.Strategicpatch.MergeByKey
import ClientGo.Strategicpatch.ListLaws
import ClientGo.Strategicpatch.MapListLaws
import ClientGo.Strategicpatch.NormalForm
import ClientGo.Strategicpatch.DocRoundTrip
import ClientGo.Strategicpatch.Reorder
