import Rma.Base.Cells
import Rma.Base.Pieces
import Rma.Base.Scan
import Rma.Base.Words

/-!
# The plain packed memory array

`PMA_Impl4` is an array of segments of equal capacity, a power of two that depends on the
capacity of the array. The elements of a segment lie at its left end. A segment that becomes
full is spread, with its neighbours, over the smallest window of the calibrator tree that is
not too dense; where there is none, the array is doubled.

The elements are copied to the doubled array through the iterator. `find_segment` is undefined
where it looks outside of the segments or at an empty one, or where a bound wraps around, and
an insertion where its segment is full. The arithmetic of the thresholds is exact.
-/

namespace Rma

open Base

/-- The fields of `PMA_Impl4`. -/
structure PmaImpl4 where
  elements : Nat → Int × Int
  capacity : Nat
  segments : Nat → Nat
  segmentCapacity : Nat
  height : Nat
  cardinality : Nat

namespace PmaImpl4

/-- `min_capacity` -/
def minCapacity : Nat := 8

/-- The constructor, which calls `initialize(min_capacity)`. -/
def create : PmaImpl4 where
  elements := fun _ => (0, 0)
  capacity := hyperceil minCapacity
  segments := fun _ => 0
  segmentCapacity := hyperceil minCapacity
  height := 1
  cardinality := 0

/-- `get_num_segments()` -/
def getNumSegments (t : PmaImpl4) : Nat := t.capacity / t.segmentCapacity

/-- `empty()` -/
def isEmpty (t : PmaImpl4) : Bool := t.cardinality = 0

/-- The elements of a segment. -/
def part (t : PmaImpl4) (i : Nat) : List (Int × Int) :=
  readCells t.elements (i * t.segmentCapacity) (t.segments i)

/-- The segments, as lists of elements. -/
def parts (t : PmaImpl4) : List (List (Int × Int)) := (List.range t.getNumSegments).map t.part

/-- The elements, segment by segment. -/
def contents (t : PmaImpl4) : List (Int × Int) := t.parts.flatten

/-! ## Find -/

/-- The loop of `find_segment`. The bounds are unsigned: it is undefined where one would wrap
around. -/
def searchSegment (t : PmaImpl4) (key : Int) : (fuel lb ub : Nat) → Option Nat
  | 0, _, _ => none
  | fuel + 1, lb, ub =>
    if lb < ub then
      let pivot := (lb + ub) / 2
      if pivot < t.getNumSegments ∧ 0 < t.segments pivot then
        if key < (t.elements (pivot * t.segmentCapacity)).1 then -- move left
          if pivot = 0 then none else searchSegment t key fuel lb (pivot - 1)
        else if key ≤ (t.elements (pivot * t.segmentCapacity + t.segments pivot - 1)).1 then
          some pivot -- found
        else searchSegment t key fuel (pivot + 1) ub -- move right
      else none
    else some lb

/-- `find_segment(key)` -/
def findSegment (t : PmaImpl4) (key : Int) : Option Nat :=
  if t.isEmpty then some 0
  else t.searchSegment key (t.getNumSegments + 1) 0 (t.getNumSegments - 1)

/-- `find(key)` -/
def find (t : PmaImpl4) (key : Int) : Option Int := do
  let segmentId ← t.findSegment key
  let base := t.segmentCapacity * segmentId
  let size := t.segments segmentId
  let i := scanUp (fun i => (t.elements (base + i)).1 ≠ key) 0 size
  some (if i < size then (t.elements (base + i)).2 else -1)

/-! ## Iterator -/

/-- `PMA_Impl4::Iterator`; `m_end` is the capacity of the array. -/
structure Iterator where
  segment : Nat
  current : Nat
  stop : Nat

/-- `iterator()` -/
def iterator (t : PmaImpl4) : Iterator := ⟨0, 0, t.segments 0⟩

/-- `hasNext()` -/
def Iterator.hasNext (it : Iterator) : Bool := it.current < it.stop

/-- `move()` -/
def move (t : PmaImpl4) (it : Iterator) : Iterator :=
  let it := { it with current := it.current + 1 }
  if it.current ≥ it.stop then
    let segment := it.segment + 1
    let current := t.segmentCapacity * segment
    if current < t.capacity then
      let stop := if segment < t.getNumSegments then current + t.segments segment else it.stop
      ⟨segment, current, if stop > t.capacity then t.capacity else stop⟩
    else ⟨segment, current, it.stop⟩
  else it

/-- `next()` -/
def next (t : PmaImpl4) (it : Iterator) : Option ((Int × Int) × Iterator) :=
  if it.hasNext then some (t.elements it.current, t.move it) else none

/-- Read as many elements. -/
def readNext (t : PmaImpl4) : (n : Nat) → Iterator → Option (List (Int × Int) × Iterator)
  | 0, it => some ([], it)
  | n + 1, it => do
    let (e, it) ← t.next it
    let (l, it) ← readNext t n it
    some (e :: l, it)

/-- What an iterator yields until it has no next element, at most `fuel` elements. -/
def yields (t : PmaImpl4) : (fuel : Nat) → Iterator → Option (List (Int × Int))
  | 0, it => if it.hasNext then none else some []
  | fuel + 1, it =>
    if it.hasNext then do
      let (e, it) ← t.next it
      let l ← yields t fuel it
      some (e :: l)
    else some []

/-! ## Rebalance -/

/-- `window_thresholds(height)`: the lower and the upper threshold. -/
def windowThresholds (t : PmaImpl4) (height : Nat) : ℚ × ℚ :=
  let diff : ℚ := ((t.height : ℚ) - height) / t.height
  (1 / 2 - 1 / 4 * diff, 3 / 4 + 1 / 4 * diff)

/-- The window of `rebalance`: the segments from `left` to `right` are counted. -/
structure Window where
  height : Nat
  windowLength : Nat
  windowId : Nat
  windowStart : Nat
  left : Nat
  right : Nat
  numElements : Nat
  density : ℚ
  theta : ℚ

/-- `while(index_left >= window_start)`: count the segments before `left`. -/
def countLeft (t : PmaImpl4) (windowStart : Nat) : (left numElements : Nat) → Nat × Nat
  | 0, numElements => (0, numElements)
  | left + 1, numElements =>
    if left ≥ windowStart then countLeft t windowStart left (numElements + t.segments left)
    else (left + 1, numElements)

/-- `while(index_right < window_end)`: count the `room` segments from `right` on. -/
def countRight (t : PmaImpl4) : (room right numElements : Nat) → Nat × Nat
  | 0, right, numElements => (right, numElements)
  | room + 1, right, numElements =>
    countRight t room (right + 1) (numElements + t.segments right)

/-- The segment that became full. -/
def firstWindow (t : PmaImpl4) (segmentId : Nat) : Window where
  height := 1
  windowLength := 1
  windowId := segmentId
  windowStart := segmentId
  left := segmentId
  right := segmentId + 1
  numElements := t.segments segmentId
  density := 1
  theta := 3 / 4

/-- One turn of the loop. -/
def turn (t : PmaImpl4) (w : Window) : Window :=
  let height := w.height + 1
  let windowLength := w.windowLength * 2
  let windowId := w.windowId / 2
  let windowStart := windowId * windowLength
  let windowEnd := windowStart + windowLength
  let (left, numElements) := t.countLeft windowStart w.left w.numElements
  let (right, numElements) := t.countRight (windowEnd - w.right) w.right numElements
  { height := height
    windowLength := windowLength
    windowId := windowId
    windowStart := windowStart
    left := left
    right := right
    numElements := numElements
    density := (numElements : ℚ) / (windowLength * t.segmentCapacity : Nat)
    theta := (t.windowThresholds height).2 }

/-- The loop over the windows, with a bound on the number of its turns. -/
def searchWindow (t : PmaImpl4) : (turns : Nat) → Window → Window
  | 0, w => w
  | turns + 1, w =>
    let w := t.turn w
    if w.density ≥ w.theta ∧ w.height < t.height then searchWindow t turns w else w

/-- The window that `rebalance` decides on. -/
def findWindow (t : PmaImpl4) (segmentId : Nat) : Window :=
  if t.height > 1 then t.searchWindow t.height (t.firstWindow segmentId)
  else t.firstWindow segmentId

/-- Copy the `n` segments from `i` on out of a list, from the position `pos` on. -/
def storeSegments (segmentCapacity : Nat) (sizes : Nat → Nat) (tmp : List (Int × Int)) :
    (n i pos : Nat) → (Nat → Int × Int) → Nat → Int × Int
  | 0, _, _, elements => elements
  | n + 1, i, pos, elements =>
    storeSegments segmentCapacity sizes tmp n (i + 1) (pos + sizes i)
      (writeCells elements (i * segmentCapacity) ((tmp.drop pos).take (sizes i)))

/-- `spread(num_elements, window_start, window_length)` -/
def spread (t : PmaImpl4) (numElements windowStart windowLength : Nat) : PmaImpl4 :=
  -- copy the elements in the workspace
  let tmp := (List.range' windowStart windowLength).flatMap t.part
  -- adjust the size of the involved segments
  let segments := fun i =>
    if windowStart ≤ i ∧ i < windowStart + windowLength then
      evenSize numElements windowLength (i - windowStart)
    else t.segments i
  { t with
    segments := segments
    elements := storeSegments t.segmentCapacity segments tmp windowLength windowStart 0 t.elements }

/-- Copy the elements of `t` to the `n` segments from `i` on. -/
def fillSegments (t : PmaImpl4) (segmentSize : Nat) (segments : Nat → Nat) :
    (n i : Nat) → Iterator → (Nat → Int × Int) → Option (Nat → Int × Int)
  | 0, _, _, elements => some elements
  | n + 1, i, it, elements => do
    let (l, it) ← t.readNext (segments i) it
    fillSegments t segmentSize segments n (i + 1) it (writeCells elements (segmentSize * i) l)

/-- `resize()` -/
def resize (t : PmaImpl4) : Option PmaImpl4 := do
  let capacity := t.capacity * 2
  let segmentSize := hyperceil (Nat.log 2 capacity)
  let numSegments := capacity / segmentSize
  let segments := evenSize t.cardinality numSegments
  let elements ← t.fillSegments segmentSize segments numSegments 0 t.iterator fun _ => (0, 0)
  some
    { elements := elements
      capacity := capacity
      segments := segments
      segmentCapacity := segmentSize
      height := Nat.log 2 (capacity / segmentSize) + 1
      cardinality := t.cardinality }

/-- `rebalance(segment_id)` -/
def rebalance (t : PmaImpl4) (segmentId : Nat) : Option PmaImpl4 :=
  let w := t.findWindow segmentId
  if w.density ≥ w.theta then t.resize
  else some (t.spread w.numElements w.windowStart w.windowLength)

/-! ## Insertion -/

/-- `while(i > 0 && key < elements[i - 1].first)`: make room in the segment at `base`. -/
def makeRoom (base : Nat) (key : Int) : (i : Nat) → (Nat → Int × Int) → (Nat → Int × Int) × Nat
  | 0, elements => (elements, 0)
  | i + 1, elements =>
    if key < (elements (base + i)).1 then
      makeRoom base key i (writeCells elements (base + i + 1) [elements (base + i)])
    else (elements, i + 1)

/-- The insertion in a segment. -/
def insertIn (t : PmaImpl4) (segmentId : Nat) (e : Int × Int) : PmaImpl4 :=
  let size := t.segments segmentId
  let base := segmentId * t.segmentCapacity
  let (elements, i) := makeRoom base e.1 size t.elements
  { t with
    elements := writeCells elements (base + i) [e]
    segments := Function.update t.segments segmentId (size + 1)
    cardinality := t.cardinality + 1 }

/-- `insert(key, value)` -/
def insert (t : PmaImpl4) (e : Int × Int) : Option PmaImpl4 := do
  let segmentId ← t.findSegment e.1
  if t.segments segmentId < t.segmentCapacity then
    let t := t.insertIn segmentId e
    if t.segments segmentId = t.segmentCapacity then t.rebalance segmentId else some t
  else none -- the segment should not be full

end PmaImpl4

end Rma
