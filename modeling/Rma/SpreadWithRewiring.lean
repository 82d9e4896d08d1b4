import Rma.Detector
import Rma.Partition
import Rma.Storage
import Rma.StaticIndex
import Rma.Base.Cells
import Rma.Base.Words

/-!
# Spreading with rewiring

`SpreadWithRewiring` moves the elements of a window of whole extents to the
segments that a vector of partitions gives them, from the right end to the left
one. An extent that still has elements to be read is written to a buffer, which
takes its place once the reading position has left it; any other extent is
written in place. An element to be inserted is merged on the way.

The two arrays and the buffers are kept as arrays of pairs, since the source moves
keys and values in the same way. A buffer acquired from the rewiring facility has
arbitrary contents; that `swap_and_release` makes them visible in the place of an
extent of the user space, and nothing else, is `Client.Effect`.
-/

namespace Rma

open Base Rma.Partition

/-- An extent to be rewired, with the contents of its buffers. -/
structure Extent2Rewire where
  extentId : Nat
  cells : Nat → Int × Int

/-- The buffers that the rewiring facility gives for an extent: `none` where it
cannot extend the memory. -/
structure FreeSpace where
  keys : Nat → Option (Nat → Int)
  values : Nat → Option (Nat → Int)

/-- The rewiring facility has a buffer for every extent. -/
def FreeSpace.Available (space : FreeSpace) : Prop :=
  ∀ x, (∃ keys, space.keys x = some keys) ∧ ∃ values, space.values x = some values

inductive SpreadException where
  | noSpaceForKeys
  | noSpaceForValues
  | endless
  deriving DecidableEq, Repr

/-- The fields of `SpreadWithRewiring`, with those of the array that it changes. -/
structure SpreadWithRewiring where
  storage : Storage
  index : StaticIndex
  detector : List Detector.Call
  usedKeys : Nat
  usedValues : Nat
  windowStart : Nat
  windowLength : Nat
  segmentsPerExtent : Nat
  partitions : List Partition
  position : Nat
  /-- The extents to be rewired, the front of the deque first. -/
  extentsToRewire : List Extent2Rewire
  partitionId : Nat
  partitionOffset : Nat
  insert : Option (Int × Int)
  insertToSegment : Option Nat
  insertPredecessor : Int
  insertSuccessor : Int

namespace SpreadWithRewiring

/-! ## Positions -/

def getSegmentCapacity (s : SpreadWithRewiring) : Nat := s.storage.segmentCapacity

/-- The extent of a position, relative to the window; negative before it. -/
def position2extent (s : SpreadWithRewiring) (position : Int) : Int :=
  (position - (s.windowStart * s.getSegmentCapacity : Nat)) / s.getSegmentCapacity /
    s.segmentsPerExtent

def getCurrentExtent (s : SpreadWithRewiring) : Int := s.position2extent (s.position - 1)

def extent2segment (s : SpreadWithRewiring) (extent : Nat) : Nat :=
  s.windowStart + extent * s.segmentsPerExtent

/-- The number of cells of an extent. -/
def extentCells (s : SpreadWithRewiring) : Nat := s.segmentsPerExtent * s.getSegmentCapacity

def getOffset (s : SpreadWithRewiring) (extent : Nat) : Nat :=
  s.windowStart * s.getSegmentCapacity + extent * s.extentCells

/-- The constructor, after `set_element_to_insert` and with the position that
`reset_current_position` or `set_absolute_position` leaves. -/
def create (storage : Storage) (index : StaticIndex) (detector : List Detector.Call)
    (windowStart windowLength : Nat) (segmentsPerExtent : Nat) (partitions : List Partition)
    (insert : Option (Int × Int)) (position : Nat) : SpreadWithRewiring :=
  let last := partitions.length - 1
  let cursor := moveBackwards partitions 1 1 last ((partitions.getD last ⟨0, 0⟩).segments - 1)
  { storage := storage
    index := index
    detector := detector
    usedKeys := 0
    usedValues := 0
    windowStart := windowStart
    windowLength := windowLength
    segmentsPerExtent := segmentsPerExtent
    partitions := partitions
    position := position
    extentsToRewire := []
    partitionId := cursor.1
    partitionOffset := cursor.2
    insert := insert
    insertToSegment := none
    insertPredecessor := -1
    insertSuccessor := -1 }

/-- The position after the last element of the segments before `segmentEnd`. -/
def endPosition (storage : Storage) (segmentEnd : Nat) : Nat :=
  (segmentEnd - 1) * storage.segmentCapacity + storage.segmentSizes (segmentEnd - 1)

/-! ## Rewiring -/

/-- Rewire an extent to its buffers, which are released. -/
def rewire (s : SpreadWithRewiring) (e : Extent2Rewire) : SpreadWithRewiring :=
  { s with
    storage := s.storage.withCells
      (writeCells s.storage.cell (s.getOffset e.extentId) (readCells e.cells 0 s.extentCells))
    usedKeys := s.usedKeys - 1
    usedValues := s.usedValues - 1 }

/-- The loop of `reclaim_past_extents`, over the deque. -/
def reclaim (current : Int) : List Extent2Rewire → SpreadWithRewiring → SpreadWithRewiring
  | [], s => { s with extentsToRewire := [] }
  | e :: extents, s =>
    if e.extentId > current then reclaim current extents (s.rewire e)
    else { s with extentsToRewire := e :: extents }

def reclaimPastExtents (s : SpreadWithRewiring) : SpreadWithRewiring :=
  reclaim s.getCurrentExtent s.extentsToRewire s

/-! ## Copying -/

/-- The variables of the input: an even segment, the number of elements left in the
run of it and of the next one, and where the run starts. -/
structure Input where
  segmentId : Int
  runSz : Nat
  displacement : Nat

/-- The state of the copying loops. -/
structure Run where
  cells : Nat → Int × Int
  buffer : Nat → Int × Int
  input : Input
  insert : Option (Int × Int)
  insertToSegment : Option Nat
  insertPredecessor : Int
  insertSuccessor : Int

namespace Run

/-- The cells of the destination: those from a position of the arrays on, or those
of the buffer. -/
def view (r : Run) : (destination : Option Nat) → Nat → Int × Int
  | some offset => fun p => r.cells (offset + p)
  | none => r.buffer

/-- Store elements in the destination. -/
def put (r : Run) (p : Nat) (l : List (Int × Int)) : (destination : Option Nat) → Run
  | some offset => { r with cells := writeCells r.cells (offset + p) l }
  | none => { r with buffer := writeCells r.buffer p l }

end Run

/-- The input at the previous even segment, or at the start of the window. -/
def previousPair (s : SpreadWithRewiring) (segmentId : Int) : Input :=
  let segmentId := segmentId - 2
  if segmentId ≥ s.windowStart then
    let i := segmentId.toNat
    { segmentId := segmentId
      runSz := s.storage.segmentSizes i + s.storage.segmentSizes (i + 1)
      displacement := i * s.getSegmentCapacity + s.getSegmentCapacity - s.storage.segmentSizes i }
  else
    { segmentId := segmentId
      runSz := 0
      displacement := s.windowStart * s.getSegmentCapacity }

/-- Take elements from the end of the input run. The predecessor of the new element is read when
the input moves to another pair, if it is not known yet. -/
def advance (s : SpreadWithRewiring) (r : Run) (copied : Nat) : Run :=
  let input := { r.input with runSz := r.input.runSz - copied }
  let next := if input.runSz = 0 then s.previousPair input.segmentId else input
  { r with
    input := next
    insertPredecessor :=
      if input.runSz = 0 ∧ r.insertPredecessor = -1 ∧ r.insertSuccessor ≠ -1 then
        if next.runSz > 0 then (r.cells (next.displacement + (next.runSz - 1))).1 else -2 ^ 63
      else r.insertPredecessor }

/-- `merge_to_insert`: the elements with the new one among them, and its position. -/
def mergeToInsert (e : Int × Int) (l : List (Int × Int)) : List (Int × Int) × Nat :=
  let j := scanDown (fun i => (l.getD i default).1 > e.1) l.length
  (l.insertIdx j e, j)

/-- The element to insert, when it goes among the next `n` elements of the input or
there is no input left. -/
def insertsHere (r : Run) (n : Nat) : Option (Int × Int) :=
  r.insert.filter fun e =>
    r.input.runSz = 0 ∨ (r.cells (r.input.displacement + (r.input.runSz - n))).1 ≤ e.1

/-- One turn of the loop that fills the run of two output segments, of which
`outputRun` cells are left: the run and the cells left. -/
def turn (s : SpreadWithRewiring) (destination : Option Nat)
    (outputDisplacement outputSegmentId lhs rhs : Nat) (r : Run) (outputRun : Nat) : Run × Nat :=
  let n := min outputRun r.input.runSz
  match insertsHere r n with
  | some e =>
    let copied := n - 1
    let outputOffset := outputRun - (copied + 1)
    let input := r.input.displacement + (r.input.runSz - copied)
    let (chunk, position) := mergeToInsert e (readCells r.cells input copied)
    let r := r.put (outputDisplacement + outputOffset) chunk destination
    let output := r.view destination
    let place := outputOffset + position
    let segment := outputSegmentId + if place ≥ lhs then 1 else 0
    let predecessor := if place = 0 ∨ place = lhs then -2 ^ 63
      else if position > 0 then (output (outputDisplacement + (place - 1))).1
      else r.insertPredecessor
    let successor := if place + 1 = lhs ∨ place + 1 = lhs + rhs then 2 ^ 63 - 1
      else (output (outputDisplacement + (place + 1))).1
    let r :=
      { r with
        insert := none
        insertToSegment := some segment
        insertPredecessor := predecessor
        insertSuccessor := successor }
    (s.advance r copied, outputOffset)
  | none =>
    let outputOffset := outputRun - n
    let chunk := readCells r.cells (r.input.displacement + (r.input.runSz - n)) n
    (s.advance (r.put (outputDisplacement + outputOffset) chunk destination) n, outputOffset)

/-- The loop itself. A turn fills a cell of the output, or moves to another pair of
segments of the input; `fuel` bounds their number. -/
def copyRun (s : SpreadWithRewiring) (destination : Option Nat)
    (outputDisplacement outputSegmentId lhs rhs : Nat) : (fuel : Nat) → Run → (outputRun : Nat) →
    Option Run
  | _, r, 0 => some r
  | 0, _, _ + 1 => none
  | fuel + 1, r, outputRun + 1 =>
    let (r, outputRun) :=
      s.turn destination outputDisplacement outputSegmentId lhs rhs r (outputRun + 1)
    s.copyRun destination outputDisplacement outputSegmentId lhs rhs fuel r outputRun

/-- What the loop over the pairs of output segments changes. -/
structure Progress where
  run : Run
  index : StaticIndex
  partitionId : Nat
  partitionOffset : Nat

/-- The loop over the pairs of output segments of an extent, the last one first. -/
def spreadPairs (s : SpreadWithRewiring) (destination : Option Nat) (extentId : Nat) :
    (pairs : Nat) → Progress → Option Progress
  | 0, t => some t
  | k + 1, t =>
    let capacity := s.getSegmentCapacity
    let outputSegmentIdRel := 2 * k
    let lhs := getCurrent s.partitions t.partitionId t.partitionOffset
    let rhs := getNext s.partitions t.partitionId t.partitionOffset
    let outputDisplacement := outputSegmentIdRel * capacity + (capacity - lhs)
    let segment := s.extent2segment extentId + outputSegmentIdRel
    (s.copyRun destination outputDisplacement segment lhs rhs
        (lhs + rhs + s.storage.numberSegments) t.run (lhs + rhs)).bind fun run =>
      let output := run.view destination
      let cursor := moveBackwards s.partitions 2 2 t.partitionId t.partitionOffset
      s.spreadPairs destination extentId k
        { run := run
          index := (t.index.setSeparatorKey segment (output outputDisplacement).1).setSeparatorKey
            (segment + 1) (output (outputDisplacement + lhs)).1
          partitionId := cursor.1
          partitionOffset := cursor.2 }

/-- `spread_elements`: the object and the contents of the buffer afterwards. -/
def spreadElements (s : SpreadWithRewiring) (destination : Option Nat)
    (buffer : Nat → Int × Int) (extentId : Nat) :
    Option (SpreadWithRewiring × (Nat → Int × Int)) :=
  let capacity := s.getSegmentCapacity
  let inputSegmentId := (s.position - 1) / (2 * capacity) * 2
  let displacement := inputSegmentId * capacity + capacity -
    s.storage.segmentSizes inputSegmentId
  let run := {
    cells := s.storage.cell
    buffer := buffer
    input := ⟨inputSegmentId, s.position - displacement, displacement⟩
    insert := s.insert
    insertToSegment := s.insertToSegment
    insertPredecessor := s.insertPredecessor
    insertSuccessor := s.insertSuccessor }
  (s.spreadPairs destination extentId (s.segmentsPerExtent / 2)
      ⟨run, s.index, s.partitionId, s.partitionOffset⟩).map fun t =>
    ({ s with
      storage := s.storage.withCells t.run.cells
      index := t.index
      partitionId := t.partitionId
      partitionOffset := t.partitionOffset
      insert := t.run.insert
      insertToSegment := t.run.insertToSegment
      insertPredecessor := t.run.insertPredecessor
      insertSuccessor := t.run.insertSuccessor
      position := t.run.input.displacement + t.run.input.runSz },
      t.run.buffer)

/-! ## The window -/

/-- A method of `SpreadWithRewiring`; an exception keeps the state reached. -/
abbrev SpreadM := EStateM SpreadException SpreadWithRewiring

/-- A value that is there. -/
def orThrow {α : Type} (e : SpreadException) : Option α → SpreadM α
  | some x => pure x
  | none => throw e

def acquireFreeSpace (space : FreeSpace) (extentId : Nat) : SpreadM (Nat → Int × Int) := do
  let keys ← orThrow .noSpaceForKeys (space.keys extentId)
  modify fun s => { s with usedKeys := s.usedKeys + 1 }
  let values ← orThrow .noSpaceForValues (space.values extentId)
  modify fun s => { s with usedValues := s.usedValues + 1 }
  return fun p => (keys p, values p)

def spreadExtent (space : FreeSpace) (extentId : Nat) : SpreadM Unit := do
  let s ← get
  if s.getCurrentExtent ≥ extentId then
    let buffer ← acquireFreeSpace space extentId
    let s ← get
    let (s, buffer) ← orThrow .endless (s.spreadElements none buffer extentId)
    set { s with extentsToRewire := s.extentsToRewire ++ [Extent2Rewire.mk extentId buffer] }
  else
    let (s, _) ← orThrow .endless
      (s.spreadElements (some (s.getOffset extentId)) (fun _ => (0, 0)) extentId)
    set s
  modify reclaimPastExtents

/-- The loop of `spread_window`, over the first `extents` extents from the last one. -/
def spreadExtents (space : FreeSpace) : (extents : Nat) → SpreadM Unit
  | 0 => pure ()
  | i + 1 => do
    spreadExtent space i
    spreadExtents space i

def spreadWindow (space : FreeSpace) : SpreadM Unit := do
  let s ← get
  spreadExtents space (s.windowLength / s.segmentsPerExtent)

/-- The loop of `update_segment_sizes`. -/
def updateSegmentSizes (segmentEnd : Nat) : List Partition → (segmentId : Nat) → (Nat → Nat) →
    Nat → Nat
  | [], _, sizes => sizes
  | p :: partitions, segmentId, sizes =>
    if segmentId < segmentEnd then
      updateSegmentSizes segmentEnd partitions (segmentId + p.segments)
        (writeCells sizes segmentId p.sizes)
    else sizes

/-- `finalize_insert` -/
def finalizeInsert (s : SpreadWithRewiring) : SpreadWithRewiring :=
  match s.insertToSegment with
  | none => s
  | some segment =>
    { s with
      storage := { s.storage with cardinality := uint32 (s.storage.cardinality + 1 : Nat) }
      detector := s.detector ++ [.insert segment s.insertPredecessor s.insertSuccessor] }

/-- `update_segment_sizes` -/
def withSegmentSizes (s : SpreadWithRewiring) : SpreadWithRewiring :=
  let sizes := updateSegmentSizes (s.windowStart + s.windowLength) s.partitions s.windowStart
    s.storage.segmentSizes
  { s with storage := { s.storage with segmentSizes := sizes } }

def execute (space : FreeSpace) : SpreadM Unit := do
  spreadWindow space
  modify withSegmentSizes
  modify finalizeInsert

end SpreadWithRewiring

end Rma
