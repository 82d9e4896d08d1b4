import Rma.ApmaBh07.Insert
import Rma.Base.Pieces
import Rma.Base.Scan
import Rma.Base.Words

/-!
# The adaptive packed memory array, first version

`APMA_Baseline` keeps its elements at the left end of segments of equal capacity. An insertion
that fills a segment looks for a window around it that is not too dense: its elements are spread
over its segments, as many to each as `apma_partitions` says, and when there is no such window
the array is doubled.

The position where the search for a key starts is what the index answers, and the weights are
what the predictor answers: both are left open. The vector of the weights can be read past its
end, where it gives whatever is in memory. The thresholds are exact, the measure that compares
two splits is a parameter, so that it can be rounded; the counters of a window do not overflow.
A read outside of the array, an assertion that fails and an exception are undefined.
-/

namespace Rma

open Base

/-- The fields of `PMA`; a cell with a negative key is empty. -/
structure ApmaBaseline where
  elements : List (Int × Int)
  capacity : Nat
  segmentCapacity : Nat
  height : Nat
  cardinality : Nat
  deriving DecidableEq

namespace ApmaBaseline

open ApmaBh07 (Call subSize segmentsChildren)

/-- `storage_min_capacity` -/
def storageMinCapacity : Nat := 8

/-- `r_0`: the highest threshold for the lower bound. -/
def r0 : ℚ := 1 / 2

/-- `t_0`: the lowest threshold for the upper bound. -/
def t0 : ℚ := 3 / 4

/-- The most elements that `new element_t[]` can be asked for: 16 bytes each, in the range of
`ptrdiff_t`. -/
def maxElements : Nat := 2 ^ 59 - 1

/-- A cell after `memset(.., 0xFF, ..)`. -/
def erasedCell : Int × Int := (-1, -1)

/-- `storage_initialize(capacity)` -/
def storageInitialize (capacity : Nat) : ApmaBaseline where
  elements := List.replicate (hyperceil capacity) erasedCell
  capacity := hyperceil capacity
  segmentCapacity := hyperceil capacity
  height := 1
  cardinality := 0

/-- The constructor. -/
def create : ApmaBaseline := storageInitialize storageMinCapacity

/-- The sum of two `size_t`. -/
def addSize (a b : Nat) : Nat := (a + b) % 2 ^ 64

/-- A conversion to `uint16_t`. -/
def uint16 (value : Nat) : Nat := value % 2 ^ 16

/-- The vector of the items of the predictor: what is read at a position, and the length. -/
structure Weights where
  item : Nat → Item
  length : Nat

/-- No items. -/
def noWeights : Weights := ⟨fun _ => ⟨0, 0⟩, 0⟩

/-- The measure of a split: the sums of the weights on the left and on the right, and the free
space on the left and on the right. -/
abbrev Balance : Type := Nat → Nat → Int → Int → ℚ

/-- `abs(sum_num_left / denom_left - sum_num_right / denom_right)`, without rounding. -/
def exactBalance : Balance := fun sumLeft sumRight denomLeft denomRight =>
  |(sumLeft : ℚ) / denomLeft - sumRight / denomRight|

variable (t : ApmaBaseline) (balance : Balance) (weights : Weights)

/-- `storage_thresholds(height)`: the lower and the upper threshold. -/
def storageThresholds (height : Nat) : ℚ × ℚ :=
  let diff : ℚ := ((t.height : ℚ) - height) / t.height
  (r0 - 1 / 4 * diff, t0 + 1 / 4 * diff)

/-! ## The partitions -/

/-- `capacity_children` -/
def capacityChildren (height : Nat) : Nat := t.segmentCapacity * segmentsChildren height

/-- `size_min` -/
def sizeMin (height : Nat) : Nat := ⌈(t.storageThresholds (height - 1)).1 * t.capacityChildren height⌉₊

/-- `size_max`; at least one slot per segment remains free. -/
def sizeMax (height : Nat) : Nat :=
  min ⌊(t.storageThresholds (height - 1)).2 * t.capacityChildren height⌋₊
    (subSize (t.capacityChildren height) (segmentsChildren height))

/-- `fill_min`: the difference is unsigned, and converted to `int64_t`. -/
def fillMin (c : Call) : Nat := (max 0 (int64 ((c.cardinality : Int) - t.sizeMax c.height))).toNat

/-- `fill_max` -/
def fillMax (c : Call) : Nat := subSize c.cardinality (t.sizeMin c.height)

/-- `start` -/
def splitStart (c : Call) : Nat := max (t.sizeMin c.height) (t.fillMin c)

/-- `end` -/
def splitEnd (c : Call) : Nat := min (t.sizeMax c.height) (t.fillMax c)

/-- `index_start` -/
def indexStart (c : Call) : Nat := t.segmentCapacity * c.segmentStart

/-- Where the segment of an item starts. -/
def location (w : Item) : Nat := w.pointer * t.segmentCapacity

/-- `while(weights_pos < weights_end && test(weights[weights_pos]))`, adding up the counts, where
`room` weights are left: the position and the sum. -/
def sumWhile (test : Item → Bool) : (room pos sum : Nat) → Nat × Nat
  | 0, pos, sum => (pos, sum)
  | room + 1, pos, sum =>
    if test (weights.item pos) then
      sumWhile test room (pos + 1) (addSize sum (weights.item pos).count)
    else (pos, sum)

/-- The variables of the loop over the splits; `nextPtr` is none for the largest `size_t`. -/
structure Split where
  sumLeft : Nat
  sumRight : Nat
  denomLeft : Int
  denomRight : Int
  nextIndex : Nat
  nextPtr : Option Nat
  optvalue : ℚ
  splitnum : Nat
  weightsSplit : Nat

/-- `weights_end` -/
def weightsEnd (c : Call) : Nat := addSize c.weightsStart c.weightsLength

/-- `weights_next_ptr` for a position. -/
def pointerAt (c : Call) (pos : Nat) : Option Nat :=
  if pos < weightsEnd c then some (t.location (weights.item pos) + 1) else none

/-- The variables at the first split, and `weights_pos`. -/
def splitInit (c : Call) : Split × Nat :=
  let start := t.splitStart c
  let denomLeft : Int := subSize (t.capacityChildren c.height) start
  let denomRight : Int := subSize (t.capacityChildren c.height) (subSize c.cardinality start)
  let (pos, sumLeft) := sumWhile weights (fun w => t.location w < t.indexStart c + start)
    (weightsEnd c - c.weightsStart) c.weightsStart 0
  let (weightsPos, sumRight) := sumWhile weights (fun _ => true) (weightsEnd c - pos) pos 0
  ({ sumLeft := sumLeft
     sumRight := sumRight
     denomLeft := denomLeft
     denomRight := denomRight
     nextIndex := if pos < weightsEnd c then pos else 0
     nextPtr := t.pointerAt weights c pos
     optvalue := balance sumLeft sumRight denomLeft (max 1 denomRight)
     splitnum := start
     weightsSplit := subSize pos c.weightsStart }, weightsPos)

/-- Move a weight to the left; its count is read at `weights_pos`, the end of the weights. -/
def moveWeight (c : Call) (weightsPos : Nat) (s : Split) : Split :=
  let count := (weights.item weightsPos).count
  let nextIndex := addSize s.nextIndex 1
  { s with
    sumLeft := addSize s.sumLeft count
    sumRight := subSize s.sumRight count
    nextIndex := nextIndex
    nextPtr := t.pointerAt weights c nextIndex }

/-- One turn of the loop. -/
def splitTurn (c : Call) (weightsPos i : Nat) (s : Split) : Split :=
  let s := { s with denomLeft := s.denomLeft - 1, denomRight := s.denomRight + 1 }
  let s := if s.nextPtr = some (t.indexStart c + i) then t.moveWeight weights c weightsPos s else s
  let curvalue := balance s.sumLeft s.sumRight (max 1 s.denomLeft) (max 1 s.denomRight)
  if curvalue < s.optvalue then
    { s with
      optvalue := curvalue
      splitnum := i
      weightsSplit := subSize s.nextIndex c.weightsStart }
  else s

/-- The variables after some turns. -/
def splitAfter (c : Call) : (turns : Nat) → Split
  | 0 => (t.splitInit balance weights c).1
  | turns + 1 =>
    t.splitTurn balance weights c (t.splitInit balance weights c).2 (t.splitStart c + turns + 1)
      (splitAfter c turns)

/-- The variables after the loop. -/
def findSplit (c : Call) : Split :=
  t.splitAfter balance weights c (t.splitEnd c - t.splitStart c)

/-- The call on the left half. -/
def callLeft (c : Call) (s : Split) : Call where
  height := c.height - 1
  cardinality := s.splitnum
  segmentStart := c.segmentStart
  numSegments := c.numSegments / 2
  weightsStart := c.weightsStart
  weightsLength := s.weightsSplit

/-- The call on the right half. -/
def callRight (c : Call) (s : Split) : Call where
  height := c.height - 1
  cardinality := subSize c.cardinality s.splitnum
  segmentStart := c.segmentStart + c.numSegments / 2
  numSegments := c.numSegments - c.numSegments / 2
  weightsStart := s.weightsSplit
  weightsLength := subSize c.weightsLength s.weightsSplit

/-- `partitions[index] = value` -/
def writePartition (partitions : List Nat) (index : Int) (value : Nat) : Option (List Nat) :=
  if 0 ≤ index ∧ index < partitions.length then
    some (partitions.set index.toNat (uint16 value))
  else none

/-- The even rebalancing, for the `n` segments from `i` on. -/
def writeEven (adjustment : Int) (c : Call) : (n i : Nat) → List Nat → Option (List Nat)
  | 0, _, partitions => some partitions
  | n + 1, i, partitions => do
    let odd := if i < c.segmentStart + c.cardinality % c.numSegments then 1 else 0
    let partitions ← writePartition partitions (adjustment + i) (c.cardinality / c.numSegments + odd)
    writeEven adjustment c n (i + 1) partitions

/-- Whether a call divides its window unevenly. -/
def Uneven (c : Call) : Prop := c.numSegments ≠ 1 ∧ c.weightsLength ≠ 0

instance (c : Call) : Decidable (Uneven c) := inferInstanceAs (Decidable (_ ∧ _))

/-- `apma_compute_rec`; `fuel` bounds the depth. -/
def apmaComputeRec (adjustment : Int) : (fuel : Nat) → Call → List Nat → Option (List Nat)
  | 0, _, _ => none
  | fuel + 1, c, partitions =>
    if c.numSegments = 1 then
      writePartition partitions (adjustment + c.segmentStart) c.cardinality
    else if c.weightsLength = 0 then
      writeEven adjustment c c.numSegments c.segmentStart partitions
    else do
      let s := t.findSplit balance weights c
      let partitions ← apmaComputeRec adjustment fuel (callLeft c s) partitions
      apmaComputeRec adjustment fuel (callRight c s) partitions

/-- The first call of `apma_compute_rec`. -/
def firstCall (height cardinality segmentStart numSegments : Nat) : Call where
  height := height
  cardinality := cardinality
  segmentStart := segmentStart
  numSegments := numSegments
  weightsStart := 0
  weightsLength := weights.length

/-- `apma_partitions(height, cardinality, segment_start, num_segments)` -/
def apmaPartitions (height cardinality segmentStart numSegments : Nat) : Option (List Nat) :=
  t.apmaComputeRec balance weights (-(segmentStart : Int)) height
    (firstCall weights height cardinality segmentStart numSegments) (List.replicate numSegments 0)

/-- The recursive calls. -/
inductive Calls : Call → Call → Prop
  | left {c : Call} : Uneven c → Calls c (callLeft c (t.findSplit balance weights c))
  | right {c : Call} : Uneven c → Calls c (callRight c (t.findSplit balance weights c))

/-- The calls that a call makes, directly or not, and itself. -/
abbrev Reaches : Call → Call → Prop := Relation.ReflTransGen (t.Calls balance weights)

/-! ## The cells -/

/-- `storage_is_cell_empty(pos)` -/
def storageIsCellEmpty (pos : Nat) : Option Bool := (t.elements[pos]?).map fun e => decide (e.1 < 0)

/-- `storage_get_num_segments()` -/
def storageGetNumSegments : Nat := t.capacity / t.segmentCapacity

/-- `storage_is_segment_full(segment_id)` -/
def storageIsSegmentFull (segmentId : Nat) : Option Bool :=
  (t.storageIsCellEmpty ((1 + segmentId) * t.segmentCapacity - 1)).map not

/-- `storage_get_segment_cardinality(segment_id)`: it is 1 for a segment without elements. -/
def storageGetSegmentCardinality (segmentId : Nat) : Option Nat := do
  let start := segmentId * t.segmentCapacity
  let pos ← scanDownO (fun i => t.storageIsCellEmpty (start + (i + 1))) (t.segmentCapacity - 1)
  some (pos + 1)

/-- `do { pos++; } while(pos < capacity && elements[pos].key < 0)` -/
def nextElement (pos : Nat) : Option Nat :=
  scanUpM t.storageIsCellEmpty (pos + 1) (t.capacity - (pos + 1))

/-- Copy `n` elements of the array, from the position `pos` on; `move` gives the position after
the one of an element, for the number of the elements copied so far. -/
def copyElements (move : Nat → Nat → Option Nat) :
    (n copied pos : Nat) → Option (List (Int × Int) × Nat)
  | 0, _, pos => some ([], pos)
  | n + 1, copied, pos => do
    let e ← t.elements[pos]?
    let pos ← move (copied + 1) pos
    let (l, pos) ← copyElements move n (copied + 1) pos
    some (e :: l, pos)

/-- Copy as many elements to each segment as it is given, no more than its capacity; `free` fills
the other cells. -/
def copySegments (move : Nat → Nat → Option Nat) (segmentCapacity : Nat) (free : Int × Int) :
    (sizes : List Nat) → (copied pos : Nat) → Option (List (Int × Int))
  | [], _, _ => some []
  | size :: sizes, copied, pos => do
    if size ≤ segmentCapacity then
      let (l, pos) ← t.copyElements move size copied pos
      let rest ← copySegments move segmentCapacity free sizes (copied + size) pos
      some ((l ++ List.replicate (segmentCapacity - size) free) ++ rest)
    else none

/-! ## Rebalance -/

/-- The local variables of `storage_rebalance`; `leftEnd` is the index after `index_left`. -/
structure Window where
  height : Nat
  windowLength : Nat
  windowId : Nat
  windowStart : Nat
  leftEnd : Nat
  indexRight : Nat
  numElements : Nat
  theta : ℚ
  density : ℚ
  deriving DecidableEq

/-- `while(index_left >= window_start)`: the index after `index_left`, and the elements. -/
def countLeft (windowStart : Nat) : (index num : Nat) → Option (Nat × Nat)
  | 0, num => some (0, num)
  | i + 1, num =>
    if i ≥ windowStart then do
      let size ← t.storageGetSegmentCardinality i
      countLeft windowStart i (num + size)
    else some (i + 1, num)

/-- `while(index_right < window_end)`, where `room` segments are left. -/
def countRight : (room index num : Nat) → Option (Nat × Nat)
  | 0, i, num => some (i, num)
  | room + 1, i, num => do
    let size ← t.storageGetSegmentCardinality i
    countRight room (i + 1) (num + size)

/-- The window of the segment alone. -/
def firstWindow (segmentId : Nat) : Window where
  height := 1
  windowLength := 1
  windowId := segmentId
  windowStart := segmentId
  leftEnd := segmentId
  indexRight := segmentId + 1
  numElements := t.segmentCapacity
  theta := t0
  density := 1

/-- One turn of the loop. -/
def turn (w : Window) : Option Window := do
  let height := w.height + 1
  let windowLength := w.windowLength * 2
  let windowId := w.windowId / 2
  let windowStart := windowId * windowLength
  let windowEnd := windowStart + windowLength
  let (leftEnd, numElements) ← t.countLeft windowStart w.leftEnd w.numElements
  let (indexRight, numElements) ←
    t.countRight (windowEnd - w.indexRight) w.indexRight numElements
  some {
    height := height
    windowLength := windowLength
    windowId := windowId
    windowStart := windowStart
    leftEnd := leftEnd
    indexRight := indexRight
    numElements := numElements
    theta := (t.storageThresholds height).2
    density := (numElements : ℚ) / (windowLength * t.segmentCapacity : Nat) }

/-- The loop, with a bound on the number of its turns. -/
def search : (turns : Nat) → Window → Option Window
  | 0, _ => none
  | turns + 1, w => do
    let w ← t.turn w
    if w.density ≥ w.theta ∧ w.height < t.height then search turns w else some w

/-- The window that `storage_rebalance` decides on. -/
def findWindow (segmentId : Nat) : Option Window :=
  if t.height > 1 then t.search t.height (t.firstWindow segmentId)
  else some (t.firstWindow segmentId)

/-- `storage_spread(partitions, window_start, window_length)` -/
def storageSpread (partitions : List Nat) (windowStart windowLength : Nat) :
    Option ApmaBaseline := do
  let indexNext := windowStart * t.segmentCapacity
  if partitions.length = windowLength then
    let workspace ← t.copySegments (fun _ => t.nextElement) t.segmentCapacity (-1, 0) partitions 0
      indexNext
    some { t with
      elements := t.elements.take indexNext ++ workspace ++
        t.elements.drop (indexNext + windowLength * t.segmentCapacity) }
  else none

/-- `if(inserted_elements < cardinality) do { index_next++; } while(elements[index_next].key < 0)` -/
def nextInserted (inserted indexNext : Nat) : Option Nat :=
  if inserted < t.cardinality then do
    let next ← t.nextElement indexNext
    if next < t.capacity then some next else none
  else some indexNext

/-- `storage_resize()` -/
def storageResize : Option ApmaBaseline := do
  let capacity := t.capacity * 2
  let segmentCapacity := hyperceil (Nat.log 2 capacity)
  let numSegments := capacity / segmentCapacity
  -- std::bad_array_new_length
  if maxElements < capacity then none
  else do
    let sizes := (List.range numSegments).map (evenSize t.cardinality numSegments)
    let elements ← t.copySegments t.nextInserted segmentCapacity erasedCell sizes 0 0
    some
      { elements := elements
        capacity := capacity
        segmentCapacity := segmentCapacity
        height := Nat.log 2 (capacity / segmentCapacity) + 1
        cardinality := t.cardinality }

/-- `storage_rebalance(index_insert)` -/
def storageRebalance (indexInsert : Nat) : Option ApmaBaseline := do
  let segmentId := indexInsert / t.segmentCapacity
  if ← t.storageIsSegmentFull segmentId then do
    let w ← t.findWindow segmentId
    if w.density ≥ w.theta then t.storageResize
    else do
      let partitions ← t.apmaPartitions balance weights w.height w.numElements w.windowStart
        w.windowLength
      t.storageSpread partitions w.windowStart w.windowLength
  else some t

/-! ## Insertion -/

/-- The first element from `pos` on whose key is not less, or the capacity. -/
def findPosition (key : Int) : (fuel pos : Nat) → Option Nat
  | 0, _ => none
  | fuel + 1, pos =>
    if pos < t.capacity then do
      let e ← t.elements[pos]?
      if key > e.1 then do
        let pos ← t.nextElement pos
        findPosition key fuel pos
      else some pos
    else some pos

/-- The position of a new element, and the free slot that its insertion takes. The search starts
where the index points to. -/
def findSlot (key : Int) (pointer : Nat) : Option (Nat × Nat) := do
  let pos ← t.findPosition key (t.capacity + 1) pointer
  if pos = t.capacity then do -- a new maximum
    let lastSegment := t.storageGetNumSegments - 1
    let size ← t.storageGetSegmentCardinality lastSegment
    let slot := lastSegment * t.segmentCapacity + size
    if ← t.storageIsCellEmpty slot then some (slot, slot) else none
  else do -- find an empty slot on the right
    let slot ← scanUpM (fun j => (t.storageIsCellEmpty j).map not) pos (t.capacity - pos)
    if slot < t.capacity ∧ pos / t.segmentCapacity = slot / t.segmentCapacity then some (pos, slot)
    else none

/-- The loop of `storage_shift_right(start, length)`. -/
def shiftRight (start : Nat) : (length : Nat) → List (Int × Int) → Option (List (Int × Int))
  | 0, elements => some elements
  | length + 1, elements => do
    let e ← elements[start + length]?
    shiftRight start length (elements.set (start + length + 1) e)

/-- `insert_storage` before the rebalance: the array, and where the element is. -/
def storeElement (key value : Int) (pointer : Nat) : Option (ApmaBaseline × Nat) := do
  let (indexInsert, slot) ← t.findSlot key pointer
  let elements ← shiftRight indexInsert (slot - indexInsert) t.elements
  some
    ({ t with
        elements := elements.set indexInsert (key, value)
        cardinality := t.cardinality + 1 }, indexInsert)

/-- `insert_storage` -/
def insertStorage (key value : Int) (pointer : Nat) : Option ApmaBaseline := do
  let (t, indexInsert) ← t.storeElement key value pointer
  t.storageRebalance balance weights indexInsert

/-- `insert_empty` -/
def insertEmpty (key value : Int) : ApmaBaseline :=
  { t with
    elements := t.elements.set 0 (key, value)
    cardinality := 1 }

/-- `insert(key, value)`, where the index points to `pointer`. -/
def insert (key value : Int) (pointer : Nat) : Option ApmaBaseline :=
  if t.cardinality = 0 then some (t.insertEmpty key value)
  else t.insertStorage balance weights key value pointer

/-- The arrays after the insertions of some pairs, the last one first: the keys are not negative,
and the index points into the array. -/
inductive Run (balance : Balance) : List (Int × Int) → ApmaBaseline → Prop
  | create : Run balance [] create
  | insert {pairs : List (Int × Int)} {t t' : ApmaBaseline} {weights : Weights} {key value : Int}
    {pointer : Nat} : Run balance pairs t → 0 ≤ key → pointer < t.capacity →
      t.insert balance weights key value pointer = some t' → Run balance ((key, value) :: pairs) t'

end ApmaBaseline

end Rma
