import Rma.DensityBounds
import Rma.Partition
import Rma.Predictor
import Mathlib.Logic.Relation

/-!
# The adaptive rebalancing of BH07

`partitions` divides the elements of a window among its segments. It descends the
calibrator tree of the window: `computeRec` splits a window in two halves, and moves
the split over all the numbers of elements that the thresholds of the halves admit, to
where the weights of the predictor on its two sides are most even, for the room that
there is. The weights of a window are a slice of one vector, sorted by segment.

Reads of the vector are partial, and the unsigned differences that can wrap do so. The
thresholds are rounded as those of the density bounds are; the measure of the balance is
a parameter, so that it can be rounded too.
-/

namespace Rma

open Base

/-- An item of the predictor with its position in the buffer. -/
structure PermutedItem where
  pointer : Nat
  count : Nat
  permutedPosition : Nat
  deriving DecidableEq, Repr

namespace Predictor

/-- `weighted_elements(min, max)`: the items with a pointer in the interval, by pointer. -/
def weightedElements (s : Predictor) (min max : Nat) : List PermutedItem :=
  if s.empty then []
  else
    let items := s.positions.filterMap fun index =>
      match s.buffer[index]? with
      | some item =>
        if min ≤ item.pointer ∧ item.pointer ≤ max then some ⟨item.pointer, item.count, index⟩
        else none
      | none => none
    items.mergeSort fun i1 i2 => i1.pointer ≤ i2.pointer

/-- `items(min, max)` -/
def items (s : Predictor) (min max : Nat) : List PermutedItem := s.weightedElements min max

end Predictor

/-- How uneven the sums of the weights on the two sides of a split are, for these
denominators: `|left / denom_left - right / denom_right|`, rounded in some way. With
nothing on the right, less room on the left does not make it more even. -/
structure Imbalance where
  value : (sumLeft sumRight : Nat) → (denomLeft denomRight : Int) → ℚ
  value_le : ∀ sumLeft denomLeft denomLeft' denomRight denomRight',
    1 ≤ denomLeft' → denomLeft' ≤ denomLeft → 1 ≤ denomRight → 1 ≤ denomRight' →
      value sumLeft 0 denomLeft denomRight ≤ value sumLeft 0 denomLeft' denomRight'

namespace Imbalance

/-- The measure without rounding. -/
def exact : Imbalance where
  value sumLeft sumRight denomLeft denomRight :=
    |(sumLeft : ℚ) / denomLeft - sumRight / denomRight|
  value_le := by
    intro sumLeft denomLeft denomLeft' denomRight denomRight' positive order _ _
    have positive' : (0 : ℚ) < denomLeft' := by exact_mod_cast positive
    have order' : (denomLeft' : ℚ) ≤ denomLeft := by exact_mod_cast order
    have nonneg : (0 : ℚ) ≤ sumLeft := Nat.cast_nonneg _
    have larger : (0 : ℚ) < denomLeft := positive'.trans_le order'
    simp only [Nat.cast_zero, zero_div, sub_zero]
    rw [abs_of_nonneg (div_nonneg nonneg larger.le), abs_of_nonneg (div_nonneg nonneg positive'.le)]
    exact div_le_div_of_nonneg_left nonneg positive' order'

end Imbalance

/-- What the rebalancing reads of the array. -/
structure ApmaBh07 where
  segmentCapacity : Nat
  /-- It is `hyperceil(segment_size)`, and has 16 bits. -/
  capacity_power : ∃ q < 16, segmentCapacity = 2 ^ q
  densityBounds : DensityBounds
  /-- `m_storage.m_height` -/
  height : Nat
  imbalance : Imbalance

namespace ApmaBh07

/-- The difference of two `size_t`. -/
def subSize (a b : Nat) : Nat := if b ≤ a then a - b else a + 2 ^ 64 - b

/-- `thresholds(height)` -/
def thresholds (p : ApmaBh07) (height : Nat) : ℚ × ℚ := p.densityBounds.thresholds p.height height

/-- The arguments of `compute_rec` that a recursive call changes. -/
structure Call where
  height : Nat
  cardinality : Nat
  segmentStart : Nat
  numSegments : Nat
  weightsStart : Nat
  weightsLength : Nat
  deriving DecidableEq, Repr

variable (p : ApmaBh07) (weights : List PermutedItem) (resize canFill : Bool)

/-! ## The range of the split -/

/-- `num_segments_children` -/
def segmentsChildren (height : Nat) : Nat := 2 ^ (height - 1 - 1)

/-- `capacity_children` -/
def capacityChildren (height : Nat) : Nat := p.segmentCapacity * segmentsChildren height

/-- A density of the capacity of a half, rounded. -/
def share (density : ℚ) (height : Nat) : ℚ :=
  p.densityBounds.rounding.round (density * p.capacityChildren height)

def sizeMin (height : Nat) : Nat := ⌈p.share (p.thresholds (height - 1)).1 height⌉₊

def sizeMax (height : Nat) : Nat :=
  let sizeMax := ⌊p.share (p.thresholds (height - 1)).2 height⌋₊
  -- ensure that at least one slot per segment will remain free
  if canFill then sizeMax else min sizeMax (p.capacityChildren height - segmentsChildren height)

/-- `start` -/
def splitMin (c : Call) : Nat := max (p.sizeMin c.height) (c.cardinality - p.sizeMax canFill c.height)

/-- `end` -/
def splitMax (c : Call) : Nat :=
  min (p.sizeMax canFill c.height) (subSize c.cardinality (p.sizeMin c.height))

/-! ## The search for the split -/

/-- `index_start` -/
def indexStart (c : Call) : Nat := p.segmentCapacity * c.segmentStart

/-- Where the elements of the segment of a weight start. -/
def location (w : PermutedItem) : Nat := w.pointer * p.segmentCapacity

/-- `while(weights_pos < weights_end && test(weights[weights_pos]))`, adding up the counts: the
position and the sum; `room` weights are left. -/
def sumWhile (test : PermutedItem → Bool) : (room pos sum : Nat) → Option (Nat × Nat)
  | 0, pos, sum => some (pos, sum)
  | room + 1, pos, sum => do
    let w ← weights[pos]?
    if test w then sumWhile test room (pos + 1) (sum + w.count) else some (pos, sum)

/-- The variables of the loop over the splits; `nextPtr` is none for the largest `size_t`. -/
structure Split where
  sumLeft : Nat
  sumRight : Nat
  nextIndex : Nat
  nextPtr : Option Nat
  optvalue : ℚ
  splitnum : Nat
  weightsSplit : Nat
  deriving DecidableEq, Repr

/-- The pointer of the weight at a position before the end of the slice. -/
def pointerAt (pos stop : Nat) : Option (Option Nat) :=
  if pos < stop then (weights[pos]?).map fun w => some (p.location w + 1) else some none

/-- The variables at the first split, and `weights_pos`. -/
def splitInit (c : Call) : Option (Split × Nat) := do
  let start := p.splitMin canFill c
  let stop := c.weightsStart + c.weightsLength
  let (pos, sumLeft) ← sumWhile weights (fun w => p.location w < p.indexStart c + start)
    c.weightsLength c.weightsStart 0
  let nextPtr ← p.pointerAt weights pos stop
  let (weightsPos, sumRight) ← sumWhile weights (fun _ => true) (stop - pos) pos 0
  let denomLeft : Int := p.capacityChildren c.height - start
  let denomRight : Int := p.capacityChildren c.height - (c.cardinality - start)
  some ({
    sumLeft := sumLeft
    sumRight := sumRight
    nextIndex := if pos < stop then pos else 0
    nextPtr := nextPtr
    optvalue := p.imbalance.value sumLeft sumRight denomLeft (max 1 denomRight)
    splitnum := start
    weightsSplit := pos - c.weightsStart }, weightsPos)

/-- Move the weight at the split to the left; `weightsPos` is left at the end of the slice. -/
def moveWeight (c : Call) (weightsPos : Nat) (s : Split) : Option Split := do
  let w ← weights[weightsPos]?
  let nextPtr ← p.pointerAt weights (s.nextIndex + 1) (c.weightsStart + c.weightsLength)
  some { s with
    sumLeft := s.sumLeft + w.count
    sumRight := subSize s.sumRight w.count
    nextIndex := s.nextIndex + 1
    nextPtr := nextPtr }

/-- The measure of the split `i`. -/
def curvalue (c : Call) (i sumLeft sumRight : Nat) : ℚ :=
  p.imbalance.value sumLeft sumRight (max 1 ((p.capacityChildren c.height : Int) - i))
    (max 1 ((p.capacityChildren c.height : Int) - (c.cardinality - i)))

/-- One turn of the loop. -/
def splitTurn (c : Call) (weightsPos i : Nat) (s : Split) : Option Split := do
  let s ← if s.nextPtr = some (p.indexStart c + i) then p.moveWeight weights c weightsPos s
    else some s
  let curvalue := p.curvalue c i s.sumLeft s.sumRight
  if curvalue < s.optvalue then
    some { s with
      optvalue := curvalue
      splitnum := i
      weightsSplit := subSize s.nextIndex c.weightsStart }
  else some s

/-- The variables after some turns, and `weights_pos`. -/
def splitAfter (c : Call) : (turns : Nat) → Option (Split × Nat)
  | 0 => p.splitInit weights canFill c
  | turns + 1 => do
    let (s, weightsPos) ← splitAfter c turns
    let s ← p.splitTurn weights c weightsPos (p.splitMin canFill c + turns + 1) s
    some (s, weightsPos)

/-- The variables after the loop. -/
def findSplit (c : Call) : Option Split :=
  (p.splitAfter weights canFill c (p.splitMax canFill c - p.splitMin canFill c)).map Prod.fst

/-! ## The recursion -/

/-- The call on the left half. -/
def Call.left (c : Call) (s : Split) : Call where
  height := c.height - 1
  cardinality := s.splitnum
  segmentStart := c.segmentStart
  numSegments := c.numSegments / 2
  weightsStart := c.weightsStart
  weightsLength := s.weightsSplit

/-- The call on the right half. -/
def Call.right (c : Call) (s : Split) : Call where
  height := c.height - 1
  cardinality := subSize c.cardinality s.splitnum
  segmentStart := c.segmentStart + c.numSegments / 2
  numSegments := c.numSegments - c.numSegments / 2
  weightsStart := s.weightsSplit
  weightsLength := subSize c.weightsLength s.weightsSplit

/-- Whether a call divides its window unevenly. -/
def Uneven (c : Call) : Prop :=
  c.numSegments ≠ 1 ∧ c.weightsLength ≠ 0 ∧ ¬(resize = true ∧ c.numSegments = 2)

instance (c : Call) : Decidable (Uneven resize c) := inferInstanceAs (Decidable (_ ∧ _))

/-- `compute_rec`; `fuel` bounds the height. -/
def computeRec : (fuel : Nat) → Call → Option (List Partition)
  | 0, _ => none
  | fuel + 1, c =>
    if Uneven resize c then do
      let s ← p.findSplit weights canFill c
      let left ← computeRec fuel (c.left s)
      let right ← computeRec fuel (c.right s)
      some (left ++ right)
    else some [⟨c.cardinality, c.numSegments⟩]

/-- The first call of `compute_rec`. -/
def firstCall (height cardinality windowStart windowLength : Nat) : Call where
  height := height
  cardinality := cardinality
  segmentStart := windowStart
  numSegments := windowLength
  weightsStart := 0
  weightsLength := weights.length

/-- Double the pointers of the weights, for an array of twice the size. -/
def doublePointers (predictor : Predictor) : List PermutedItem → Option Predictor
  | [] => some predictor
  | w :: weights => do
    let predictor ← predictor.resetPtr w.permutedPosition (w.pointer * 2)
    doublePointers predictor weights

/-- `partitions(height, cardinality, window_start, window_length, resize, can_fill_segments)`:
the partitions and the predictor. -/
def partitions (predictor : Predictor) (height cardinality windowStart windowLength : Nat) :
    Option (List Partition × Predictor) := do
  let weights := predictor.items windowStart (windowStart + windowLength - 1)
  let predictor ← if resize then doublePointers predictor weights else some predictor
  let partitions ← p.computeRec weights resize canFill height
    (firstCall weights height cardinality windowStart windowLength)
  return (partitions, predictor)

/-- The recursive calls. -/
inductive Calls : Call → Call → Prop
  | left {c : Call} {s : Split} : Uneven resize c → p.findSplit weights canFill c = some s →
    Calls c (c.left s)
  | right {c : Call} {s : Split} : Uneven resize c → p.findSplit weights canFill c = some s →
    Calls c (c.right s)

/-- The calls that a call makes, directly or not, and itself. -/
abbrev Reaches : Call → Call → Prop :=
  Relation.ReflTransGen (p.Calls weights resize canFill)

end ApmaBh07

end Rma
