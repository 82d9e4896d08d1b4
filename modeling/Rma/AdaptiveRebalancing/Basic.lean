import Rma.Base.Words
import Rma.Weights
import Rma.Partition

/-!
# Adaptive rebalancing

`AdaptiveRebalancing` divides the segments of a window in two halves again and again, and
decides at each division how many elements the left half takes. The hammered intervals of the
window are divided with them: the split is looked for from both ends, so that the weights
balance, and is then moved within the thresholds of the two halves, or through an interval.

A call works on a slice of the array of intervals. The slice is a list here, and to read
outside of it is `none`; the two calls that a call makes get the two parts of its list.

`find_split_point` returns one interval too many when the last one it takes comes from the
right, and `find_optimum` keeps on the left an interval that `rebalancing_sparu` puts on the
right. `recursion_sound` says that the accounting of a run is right exactly when none of its
calls does either: `EndsLeft` and `Straddles` are the two conditions.
-/

namespace Rma

open Base

/-! ## Intervals -/

namespace Interval

/-- `m_start = x` -/
def setStart (a : Interval) (x : Int) : Interval :=
  { a with start := uint32 x, computedStart := x.toNat }

/-- `m_length = x` -/
def setLength (a : Interval) (x : Nat) : Interval :=
  { a with length := x % 2 ^ 16, computedLength := x }

/-- `m_start + m_length`, in 32 bits. -/
def wend (a : Interval) : Nat := (a.start + a.length) % 2 ^ 32

end Interval

/-- `weights[i]`, within the slice. -/
def slot (W : List Interval) (i : Int) : Option Interval :=
  if 0 ≤ i then W[i.toNat]? else none

/-- `Optimum` -/
structure Optimum where
  cardinality : Int
  weightsIndex : Int
  weightsBalance : Int
deriving DecidableEq

/-- What the partitioning reads of the array. `densities n` are the thresholds of a window of
`n` segments, which is at the height `log2(n) + 1`. -/
structure AdaptiveRebalancing where
  segmentCapacity : Nat
  densities : Nat → ℚ × ℚ

namespace AdaptiveRebalancing

/-! ## The optimum -/

/-- How the search of `find_split_point` ends. -/
structure Search where
  i : Nat
  balanceLeft : Int
  moveLeft : Bool
deriving DecidableEq

/-- The loops of `find_split_point`, with `room` intervals left between `i` and `j`. A pass
takes one of them, and the next one takes from the same end unless its loop is left. -/
def search (W : List Interval) (target : Int) (i : Nat) (balanceLeft balanceRight : Int)
    (moveLeft : Bool) : (room : Nat) → Option Search
  | 0 => some ⟨i, balanceLeft, moveLeft⟩
  | room + 1 =>
    if moveLeft then do
      let a ← W[i]?
      let balanceLeft := balanceLeft + a.weight
      search W target (i + 1) balanceLeft balanceRight (balanceLeft ≠ target ∧ 0 < room) room
    else do
      let a ← W[i + room]? -- this is j
      let balanceRight := balanceRight + a.weight
      search W target i balanceLeft balanceRight (¬(balanceRight ≠ target ∧ 0 < room)) room

/-- The search over the whole slice. -/
def searchAll (W : List Interval) (balanceTotal : Int) : Option Search :=
  search W (balanceTotal.tdiv 2) 0 0 0 true W.length

/-- `find_split_point`: the index and the balance of the left part. -/
def findSplitPoint (W : List Interval) (balanceTotal : Int) : Option (Int × Int) := do
  let s ← searchAll W balanceTotal
  -- retract the last move: a move from the right only changes `j`
  some (if s.moveLeft then s.i else s.i - 1, s.balanceLeft)

/-- `rebalancing_paro`: the middle between two intervals. -/
def rebalancingParo (W : List Interval) (indexSplit : Int) (cardinality : Nat) : Option Int :=
  if indexSplit < 0 then do
    let a ← slot W 0
    some (toInt (a.start / 2 : Nat))
  else do
    let a ← slot W indexSplit
    let baseLeft := toInt a.wend
    if indexSplit + 1 = W.length then some (toInt (baseLeft + (cardinality / 2 : Nat)))
    else do
      let b ← slot W (indexSplit + 1)
      let baseRight := toInt b.start
      some (toInt (baseLeft + (baseRight - baseLeft).tdiv 2))

/-- Whether `rebalancing_sparu` puts an interval on the right. -/
def onRight (a : Interval) (cardinality : Nat) : Bool :=
  let cardLeft := a.wend
  let cardRight := uint64 (cardinality - a.start)
  if a.weight < 0 then cardLeft < cardRight else ¬cardLeft < cardRight

/-- `rebalancing_sparu`: one of the two ends of an interval. -/
def rebalancingSparu (W : List Interval) (indexSplit : Int) (cardinality : Nat) :
    Option Int := do
  let a ← slot W indexSplit
  some (toInt (if onRight a cardinality then a.start else a.wend))

/-- `find_optimum` -/
def findOptimum (W : List Interval) (balance : Int) (cardinality : Nat) : Option Optimum := do
  let (index, balanceLeft) ← findSplitPoint W balance
  if W.length % 2 = 0 then
    let cardLeft ← rebalancingParo W index cardinality
    some ⟨cardLeft, index, balanceLeft⟩
  else
    let cardLeft ← rebalancingSparu W index cardinality
    let a ← slot W index
    -- did it put the split point on the right?
    if uint32 cardLeft < a.start then some ⟨cardLeft, index - 1, balanceLeft - a.weight⟩
    else some ⟨cardLeft, index, balanceLeft⟩

/-! ## The thresholds -/

/-- The left part ends at the bound, or where the next interval starts. -/
def upToNext (W : List Interval) (index : Int) (limit leftCardinalityMax : Nat) : Option Int :=
  if index + 1 < W.length then do
    let b ← slot W (index + 1)
    some (toInt (if b.start < limit then b.start else leftCardinalityMax))
  else some (toInt leftCardinalityMax)

/-- Cut an interval at a point: its longer part stays. -/
def cut (a : Interval) (point : Int) (sectLeft sectRight : Nat) : Interval :=
  if sectLeft < sectRight then (a.setStart point).setLength sectRight
  else a.setLength sectLeft

/-- The loop of `ensure_lower_threshold`, with `room` intervals from the index on. -/
def lowerScan (W : List Interval) (objective : Int) : (room : Nat) → (index balance : Int) →
    Option (Int × Int)
  | 0, index, balance => some (index, balance)
  | room + 1, index, balance => do
    let a ← slot W index
    if a.start < uint32 objective then
      let balance := balance + a.weight
      if a.wend < uint32 objective then lowerScan W objective room (index + 1) balance
      else some (index, balance)
    else some (index - 1, balance)

/-- `ensure_lower_threshold` after its corner case. -/
def lowerFrom (leftCardinalityMin leftCardinalityMax : Nat) (W : List Interval)
    (index balance : Int) : Option (List Interval × Optimum) := do
  let objective := toInt leftCardinalityMin
  let (index, balance) ←
    lowerScan W objective (W.length - (index + 1)).toNat (index + 1) balance
  if 0 ≤ index ∧ index < W.length then
    let a ← slot W index
    let wStart : Int := a.start
    let wEnd := wStart + a.length
    if wStart < objective ∧ wEnd > objective then
      if wEnd ≤ leftCardinalityMax then
        if balance ≥ 0 then some (W, ⟨toInt wEnd, index, balance⟩)
        else
          let objective ← upToNext W index leftCardinalityMax leftCardinalityMax
          some (W, ⟨objective, index, balance⟩)
      else
        let sectLeft := uint64 (leftCardinalityMin - wStart)
        let sectRight := uint64 (wEnd - leftCardinalityMin)
        let cutted := W.set index.toNat (cut a objective sectLeft sectRight)
        if sectLeft < sectRight then
          some (cutted, ⟨objective, index - 1, balance - a.weight⟩)
        else some (cutted, ⟨objective, index, balance⟩)
    else some (W, ⟨objective, index, balance⟩)
  else -- all the weights are on the left
    some (W, ⟨if balance < 0 then toInt leftCardinalityMax else objective, index - 1, balance⟩)

/-- `ensure_lower_threshold` -/
def ensureLowerThreshold (leftCardinalityMin leftCardinalityMax : Nat) (W : List Interval)
    (current : Optimum) : Option (List Interval × Optimum) :=
  let objective := toInt leftCardinalityMin
  let balance := current.weightsBalance
  if current.weightsIndex = -1 then do
    let a ← slot W 0
    let wStart : Int := a.start
    let wEnd := wStart + a.length
    if wEnd < objective then
      lowerFrom leftCardinalityMin leftCardinalityMax W 0 (balance + a.weight)
    else if wStart < objective then
      if wEnd ≤ leftCardinalityMax then
        let balance := balance + a.weight
        if balance < 0 then
          let objective ← upToNext W 0 (uint32 (toInt leftCardinalityMax)) leftCardinalityMax
          some (W, ⟨objective, 0, balance⟩)
        else some (W, ⟨toInt wEnd, 0, balance⟩)
      else
        let sectLeft := uint64 (leftCardinalityMin - wStart)
        let sectRight := uint64 (wEnd - leftCardinalityMin)
        let cutted := W.set 0 (cut a objective sectLeft sectRight)
        if sectLeft < sectRight then some (cutted, ⟨objective, -1, balance⟩)
        else some (cutted, ⟨objective, 0, balance + a.weight⟩)
    else lowerFrom leftCardinalityMin leftCardinalityMax W (-1) balance
  else lowerFrom leftCardinalityMin leftCardinalityMax W current.weightsIndex balance

/-- The loop of `ensure_upper_threshold`, with `room` intervals up to the index. -/
def upperScan (W : List Interval) (objective : Int) : (room : Nat) → (index delta : Int) →
    Option (Int × Int)
  | 0, index, delta => some (index, delta)
  | room + 1, index, delta => do
    let a ← slot W index
    if a.start ≥ uint32 objective then upperScan W objective room (index - 1) (delta + a.weight)
    else some (index, delta)

/-- `ensure_upper_threshold` -/
def ensureUpperThreshold (leftCardinalityMin leftCardinalityMax : Nat) (W : List Interval)
    (current : Optimum) : Option (List Interval × Optimum) := do
  let objective := toInt leftCardinalityMax
  let (index, delta) ←
    upperScan W objective (current.weightsIndex + 1).toNat current.weightsIndex 0
  let balance := current.weightsBalance - delta
  if index ≥ 0 then
    let a ← slot W index
    let wStart : Int := a.start
    let wEnd := wStart + a.length
    if wEnd > objective then
      if uint64 wStart ≥ leftCardinalityMin then -- include the interval to the right
        let index := index - 1
        let delta := delta + a.weight
        let balance := current.weightsBalance - delta
        if delta ≥ 0 then some (W, ⟨toInt wStart, index, balance⟩)
        else if index ≥ 0 then
          let b ← slot W index
          some (W, ⟨max (toInt b.wend) (toInt leftCardinalityMin), index, balance⟩)
        else some (W, ⟨toInt leftCardinalityMin, index, balance⟩)
      else -- we need to split the hammered section
        let sectLeft := uint64 (objective - wStart)
        let sectRight := uint64 (wEnd - objective)
        let cutted := W.set index.toNat (cut a objective sectLeft sectRight)
        if sectLeft < sectRight then
          some (cutted, ⟨objective, index - 1, balance - a.weight⟩)
        else some (cutted, ⟨objective, index, balance⟩)
    else if delta < 0 then
      some (W, ⟨max (toInt leftCardinalityMin) (toInt wEnd), index, balance⟩)
    else some (W, ⟨objective, index, balance⟩)
  else
    some (W, ⟨if delta < 0 then toInt leftCardinalityMin else objective, index, balance⟩)

variable (r : AdaptiveRebalancing)

/-- `window_left_num_segments` -/
def leftSegments (partLength : Nat) : Nat := partLength / 2 + partLength % 2

/-- `window_right_num_segments` -/
def rightSegments (partLength : Nat) : Nat := partLength / 2

/-- The least number of elements of a window, at least one for each segment. -/
def sizeMin (segments : Nat) : Int :=
  max ⌈(r.densities segments).1 * (segments * r.segmentCapacity : Nat)⌉ segments

/-- The greatest number of elements of a window. -/
def sizeMax (segments : Nat) : Int :=
  ⌊(r.densities segments).2 * (segments * r.segmentCapacity : Nat)⌋

/-- `cardinality_min` -/
def cardinalityMin (partLength cardinality : Nat) : Int :=
  max (r.sizeMin (leftSegments partLength))
    (cardinality - r.sizeMax (rightSegments partLength))

/-- `cardinality_max` -/
def cardinalityMax (partLength cardinality : Nat) : Int :=
  min (r.sizeMax (leftSegments partLength))
    (cardinality - r.sizeMin (rightSegments partLength))

/-- `validate_thresholds` -/
def validateThresholds (partLength : Nat) (W : List Interval) (cardinality : Nat)
    (opt : Optimum) : Option (List Interval × Optimum) :=
  let cardinalityMin := r.cardinalityMin partLength cardinality
  let cardinalityMax := r.cardinalityMax partLength cardinality
  if opt.cardinality < cardinalityMin then -- the left partition is too small
    ensureLowerThreshold (uint64 cardinalityMin) (uint64 cardinalityMax) W opt
  else if opt.cardinality > cardinalityMax then -- the left partition is too big
    ensureUpperThreshold (uint64 cardinalityMin) (uint64 cardinalityMax) W opt
  else some (W, opt)

/-! ## The recursion -/

/-- The arguments of `recursion`. -/
structure Call where
  partStart : Nat
  partLength : Nat
  weights : List Interval
  balance : Int
  cardinality : Nat

/-- Steps 1 and 2: the split, with the intervals as the thresholds leave them. -/
def split (c : Call) : Option (List Interval × Optimum) := do
  let opt ← findOptimum c.weights c.balance c.cardinality
  r.validateThresholds c.partLength c.weights c.cardinality opt

/-- `w_left_sz` -/
def leftSize (opt : Optimum) : Nat := uint64 (opt.weightsIndex + 1)

/-- Step 3: the call on the left interval. -/
def Call.left (c : Call) (W : List Interval) (opt : Optimum) : Call where
  partStart := c.partStart
  partLength := leftSegments c.partLength
  weights := W.take (leftSize opt)
  balance := opt.weightsBalance
  cardinality := uint64 opt.cardinality

/-- Step 4: the call on the right interval, with its intervals adjusted. -/
def Call.right (c : Call) (W : List Interval) (opt : Optimum) : Call where
  partStart := c.partStart + leftSegments c.partLength
  partLength := rightSegments c.partLength
  weights := (W.drop (leftSize opt)).map fun a => a.setStart (a.start - opt.cardinality)
  balance := c.balance - opt.weightsBalance
  cardinality := uint64 (c.cardinality - opt.cardinality)

/-- The special rule: a full segment is split over two. -/
def special (c : Call) (a : Interval) : Prop :=
  c.partLength = 2 ∧ c.weights.length = 1 ∧ a.length = r.segmentCapacity

instance (c : Call) (a : Interval) : Decidable (r.special c a) :=
  inferInstanceAs (Decidable (_ ∧ _))

/-- Whether a call follows the adaptive strategy. -/
def Adaptive (c : Call) : Prop :=
  c.partLength ≠ 1 ∧ ∃ a, c.weights.head? = some a ∧ ¬r.special c a

/-- `move_detector_info(segment_id, destination)` -/
def moveDetectorInfo (segmentId : Int) (destination : Nat) : List (Int × Nat) :=
  if segmentId ≥ 0 then [(segmentId, destination)] else []

/-- What `recursion` adds to the output: the partitions, and the sections of the detector that
are moved. -/
structure Emitted where
  partitions : List Partition
  moved : List (Int × Nat)
deriving DecidableEq

/-- `recursion(part_start, part_length, W, W_sz, balance, cardinality)`, which is undefined
where the slice of a call is left. -/
def recursion : (fuel : Nat) → Call → Option Emitted
  | 0, _ => none
  | fuel + 1, c =>
    if c.partLength = 1 then -- base case
      some
        { partitions := [⟨c.cardinality, 1⟩]
          moved := match c.weights.head? with
            | none => []
            | some a => moveDetectorInfo a.associatedSegment c.partStart }
    else match c.weights.head? with
      | none => some ⟨[⟨c.cardinality, c.partLength⟩], []⟩ -- redistribute evenly
      | some a =>
        if r.special c a then
          some
            { partitions := [⟨c.cardinality, c.partLength⟩]
              moved := moveDetectorInfo a.associatedSegment c.partStart ++
                moveDetectorInfo a.associatedSegment (c.partStart + 1) }
        else do
          let (W, opt) ← r.split c
          if leftSize opt ≤ W.length then
            let left ← recursion fuel (c.left W opt)
            let right ← recursion fuel (c.right W opt)
            some ⟨left.partitions ++ right.partitions, left.moved ++ right.moved⟩
          else none

end AdaptiveRebalancing

end Rma
