import Rma.RewiredSpread
import Rma.PredictorQueue
import Rma.IdlsReplay
import Rma.RewiringFaults
import Rma.BufferedRewiredMemory
import Rma.RangeScan
import Rma.ABTree.Multimap
import Rma.DynamicIndex.Multimap
import Rma.Art.Scan
import Rma.Base.Gaps
import Rma.Base.Pieces
import Rma.Detector
import Rma.Weights
import Rma.Mirror
import Rma.FindWindow
import Rma.RebalancePlan
import Rma.AdaptiveRebalancing.Recursion
import Rma.PmaImpl4.Multimap
import Rma.PmaImpl4.Sum
import Rma.Resize
import Rma.DynamicIndex.Floor
import Rma.ABTree.Scan
import Rma.ApmaBh07.Bounds
import Rma.MoveDetectorInfo
import Rma.ABTree.Load
import Rma.ABTree.Permute
import Rma.Btreepmacc7.Runs
import Rma.Rank
import Rma.CircularArray
import Rma.SpreadSave
import Rma.SpreadLocal
import Rma.CByteArray
import Rma.Distribution.SparseUniform
import Rma.Distribution.Dense
import Rma.Distribution.View
import Rma.MemoryPool
import Rma.Scatter
import Rma.DenseArray
import Rma.ApmaBaseline.Insert
import Rma.AdaptivePma.Multimap
