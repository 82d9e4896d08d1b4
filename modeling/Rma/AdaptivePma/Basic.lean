import Rma.RangeScan
import Rma.RebalancePlan
import Rma.ResizeRebalance

/-!
# The adaptive packed memory array

The operations of `PackedMemoryArray` on all its fields: the point operations `insert`, `remove` and
`find`, and the rebalances that they ask for. A rebalance is planned by `rebalance_plan` and then
performed by one of three ways to move the elements; `do_rebalance` chooses among a spread within an
extent, a spread with rewiring and the two resizes.

What comes from outside is a `Supply`: the partitions of `rebalance_run_apma`, and memory.
-/

namespace Rma

open Base

/-- The fields of the array: what its plans depend on, the index, and the calls of the detector. -/
structure AdaptivePma extends Pma where
  index : StaticIndex
  detector : List Detector.Call

/-- What an operation gets from outside when it rebalances. -/
structure Supply where
  partitions : List Partition
  buffers : Nat
  memory : Memory

namespace Supply

/-- The effect of a rebalance on the sizes of the segments and on the extents. -/
def outcome (supply : Supply) : Pma.Outcome where
  quota := fun i => (Partition.quotas supply.partitions).getD i 0
  buffers := supply.buffers

end Supply

namespace PackedMemoryArray

/-! ## One segment -/

/-- `insert_empty(key, value)` -/
def insertEmpty (p : PackedMemoryArray) (key value : Int) : PackedMemoryArray :=
  { p with
    index := p.index.setSeparatorKey 0 key
    storage := ((p.storage.setSegmentSize 0 1).write (p.storage.segmentCapacity - 1)
      [(key, value)]).withCardinality 1 }

/-- The branch of `insert_common` for a segment that is not full. -/
def insertInto (p : PackedMemoryArray) (segmentId : Nat) (key value : Int) : PackedMemoryArray :=
  let (storage, minimum, predecessor, successor) := p.storage.insert segmentId key value
  { storage := storage
    -- have we just updated the minimum ?
    index := if minimum then p.index.setSeparatorKey segmentId key else p.index
    detector := p.detector ++ [.insert segmentId predecessor successor] }

/-- What `remove` has found: the value of the key, and the neighbours of the element. -/
structure Removal where
  value : Int
  predecessor : Int
  successor : Int

/-- The search for a key in a segment: the offset of its first element there. -/
def offsetOf (s : Storage) (segmentId : Nat) (key : Int) : Nat :=
  scanUp (fun i => decide (((s.segment segmentId).getD i default).1 ≠ key)) 0
    (s.segmentSizes segmentId)

/-- The part of `remove` that takes the element out of its segment. In an even segment the smaller
elements are shifted to the right, in an odd one the greater elements to the left. -/
def takeOut (p : PackedMemoryArray) (segmentId : Nat) (key : Int) :
    Option (PackedMemoryArray × Removal) :=
  let s := p.storage
  let l := s.segment segmentId
  let sz := s.segmentSizes segmentId
  let i := offsetOf s segmentId key
  if i < sz then
    let removal : Removal :=
      { value := (l.getD i default).2
        predecessor := if i > 0 then (l.getD (i - 1) default).1 else -2 ^ 63
        successor := if i < sz - 1 then (l.getD (i + 1) default).1 else 2 ^ 63 - 1 }
    let start := s.start segmentId
    let cardinality := predUint32 s.cardinality
    if segmentId % 2 = 0 then
      let storage := ((s.setSegmentSize segmentId (sz - 1)).write (start + 1)
        (l.eraseIdx i)).withCardinality cardinality
      let index :=
        if i = 0 then -- update the pivot
          if cardinality = 0 then p.index.setSeparatorKey 0 (-2 ^ 63)
          else p.index.setSeparatorKey segmentId (storage.keys (start + 1))
        else p.index
      some (⟨storage, index, p.detector⟩, removal)
    else
      let storage := ((s.setSegmentSize segmentId (sz - 1)).write start
        (l.eraseIdx i)).withCardinality cardinality
      let index :=
        if i = 0 ∧ sz - 1 > 0 then p.index.setSeparatorKey segmentId (storage.keys start)
        else p.index
      some (⟨storage, index, p.detector⟩, removal)
  else none

/-- `find(key)` -/
def find (p : PackedMemoryArray) (key : Int) : Int :=
  if p.storage.cardinality = 0 then -1
  else
    let segmentId := p.index.find key
    let i := offsetOf p.storage segmentId key
    if i < p.storage.segmentSizes segmentId then
      ((p.storage.segment segmentId).getD i default).2
    else -1

end PackedMemoryArray

namespace AdaptivePma

/-! ## Rebalancing -/

/-- The array, its index and its detector. -/
def array (s : AdaptivePma) : PackedMemoryArray := ⟨s.storage, s.index, s.detector⟩

/-- The object with another array. The number of pages of an extent is a constant. -/
def withArray (s : AdaptivePma) (p : PackedMemoryArray) : AdaptivePma :=
  { s with
    storage := { p.storage with pagesPerExtent := s.storage.pagesPerExtent }
    index := p.index
    detector := p.detector }

/-- The metadata of a plan with the element to insert and the partitions. -/
def action (plan : RebalanceMetadata) (segmentId : Nat) (e : Int × Int)
    (partitions : List Partition) : RebalanceAction where
  isInsert := plan.isInsert
  insertKey := e.1
  insertValue := e.2
  insertSegment := segmentId
  windowStart := plan.windowStart
  windowLength := plan.windowLength
  cardinalityAfter := plan.cardinalityAfter.toNat
  partitions := partitions

/-- The array that a resize starts from: `m_detector.resize(action.m_window_length)`. -/
def resizing (s : AdaptivePma) (plan : RebalanceMetadata) : PackedMemoryArray :=
  { s.array with detector := s.detector ++ [.resize plan.windowLength] }

/-- The object after a resize: its memory and its thresholds are those of the new size. -/
def resized (s : AdaptivePma) (plan : RebalanceMetadata) (supply : Supply)
    (p : PackedMemoryArray) : AdaptivePma :=
  { s.withArray p with
    memoryKeys := (s.toPma.resize plan supply.outcome).memoryKeys
    primaryDensities := (s.toPma.resize plan supply.outcome).primaryDensities }

/-- `do_rebalance(action)`; undefined when a resource is missing. -/
def doRebalance (s : AdaptivePma) (plan : RebalanceMetadata) (segmentId : Nat) (e : Int × Int)
    (supply : Supply) : Option AdaptivePma :=
  let a := action plan segmentId e supply.partitions
  match plan.operation with
  | .rebalance =>
    if plan.windowLength < s.segmentsPerExtent then
      (s.array.spreadLocal a).map s.withArray -- local to the extent
    else -- use rewiring
      match SpreadWithRewiring.execute supply.memory.space
          (SpreadWithRewiring.initial s.array a.toInsert a.windowStart a.windowLength a.windowLength
            s.segmentsPerExtent a.partitions) with
      | .ok _ r => some (s.withArray r.array)
      | .error _ _ => none
  | .resizeRebalance =>
    ((s.resizing plan).resizeRebalance a s.segmentsPerExtent supply.memory).map
      (s.resized plan supply)
  | .resize =>
    ((s.resizing plan).resize supply.memory.logs a supply.memory.cells supply.memory.sizes
      supply.memory.block).map (s.resized plan supply)

/-! ## The point operations -/

/-- `insert_common(segment_id, key, value)` -/
def insertCommon (s : AdaptivePma) (segmentId : Nat) (key value : Int) (supply : Supply) :
    Option AdaptivePma :=
  if s.storage.segmentSizes segmentId = s.storage.segmentCapacity then
    (s.toPma.rebalance segmentId true).bind fun plan =>
      s.doRebalance plan segmentId (key, value) supply
  else some (s.withArray (s.array.insertInto segmentId key value))

/-- `insert(key, value)` -/
def insert (s : AdaptivePma) (key value : Int) (supply : Supply) : Option AdaptivePma :=
  if s.storage.cardinality = 0 then some (s.withArray (s.array.insertEmpty key value))
  else s.insertCommon (s.index.find key) key value supply

/-- The rest of `remove`, after the element was taken out: shall we rebalance ? A value of -1 is
taken for a missing key. -/
def afterRemoval (s : AdaptivePma) (segmentId : Nat) (removal : PackedMemoryArray.Removal)
    (supply : Supply) : Option AdaptivePma :=
  if removal.value = -1 then some s
  else
    let s := { s with detector :=
      s.detector ++ [Detector.Call.remove segmentId removal.predecessor removal.successor] }
    match s.toPma.removePlan segmentId removal.value with
    | some plan => s.doRebalance plan segmentId (-1, -1) supply
    | none => some s

/-- `remove(key)`, and the value that it returns. -/
def remove (s : AdaptivePma) (key : Int) (supply : Supply) : Option (AdaptivePma × Int) :=
  if s.storage.cardinality = 0 then some (s, -1)
  else
    let segmentId := s.index.find key
    match s.array.takeOut segmentId key with
    | some (p, removal) =>
      ((s.withArray p).afterRemoval segmentId removal supply).map fun t => (t, removal.value)
    | none => some (s, -1)

/-- The array of the constructor, over one segment. -/
def create (storage : Storage) (pageSize : Nat) (densityBounds0 : DensityBounds)
    (outcome : Pma.Outcome) (index : StaticIndex) : AdaptivePma :=
  { Pma.create storage pageSize densityBounds0 outcome with
    index := index
    detector := [] }

end AdaptivePma

end Rma
