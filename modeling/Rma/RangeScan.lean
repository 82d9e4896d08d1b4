import Rma.Base.Window
import Rma.StaticIndex
import Rma.Storage
import Rma.SumResult

/-!
# Range scans

The iterator over the elements with a key in `[min, max]` and the aggregate
`do_sum` over the same elements. Both look for the first qualifying position,
segment by segment upwards, and for the last one, downwards, and then walk from
one to the other two segments at a time. `Rma.rangeScan_exact` is the result
about both.

Every read of a key or a value goes through `readKey` and `readValue`, so a scan
that touched a cell without an element would be undefined.
-/

namespace Rma

open Base

namespace Storage

/-! ## The two ends of the interval -/

/-- The variables of the loop that looks for the start of the interval. -/
structure StartSearch where
  notfound : Bool
  segmentId : Nat
  segmentEven : Bool
  stop : Nat
  offset : Nat

/-- The loop that looks for the start of the interval. Every turn but the last
moves to the next segment, so `fuel` is the number of segments left. -/
def findStartLoop (s : Storage) (min : Int) : Nat → StartSearch → Option StartSearch
  | 0, v => some v
  | fuel + 1, v =>
    if v.notfound && decide (v.segmentId < s.numberSegments) then do
      let size := s.segmentSizes v.segmentId
      let stop := if v.segmentEven then (v.segmentId + 1) * s.segmentCapacity
        else v.segmentId * s.segmentCapacity + size
      let start := if v.segmentEven then stop - size else v.segmentId * s.segmentCapacity
      let offset ← scanUpM (fun p => (s.readKey p).map (· < min)) start (stop - start)
      if offset = stop then
        findStartLoop s min fuel ⟨true, v.segmentId + 1, !v.segmentEven, stop, offset⟩
      else
        findStartLoop s min fuel ⟨false, v.segmentId, v.segmentEven, stop, offset⟩
    else some v

/-- The source starts with `stop = offset = -1`, which is overwritten in the
first turn. -/
def findStart (s : Storage) (segmentStart : Nat) (min : Int) : Option StartSearch :=
  s.findStartLoop min (s.numberSegments - segmentStart + 1)
    ⟨true, segmentStart, segmentStart % 2 == 0, 0, 0⟩

/-- `m_keys[p]` for a signed position. -/
def readKeyAt (s : Storage) (p : Int) : Option Int :=
  if 0 ≤ p then s.readKey p.toNat else none

/-- The variables of the loop that looks for the last qualifying position. -/
structure EndSearch where
  notfound : Bool
  segmentId : Int
  segmentEven : Bool
  offset : Int

/-- The loop that looks for the last qualifying position, down to the segment
where the interval starts. -/
def findEndLoop (s : Storage) (max : Int) (intervalStartSegment : Nat) :
    Nat → EndSearch → Option EndSearch
  | 0, v => some v
  | fuel + 1, v =>
    if v.notfound && decide ((intervalStartSegment : Int) ≤ v.segmentId) then do
      let capacity : Int := s.segmentCapacity
      let size : Int := s.segmentSizes v.segmentId.toNat
      let start := if v.segmentEven then (v.segmentId + 1) * capacity - 1
        else v.segmentId * capacity + size - 1
      let stop := if v.segmentEven then start - size else v.segmentId * capacity
      let offset ← scanDownM (fun p => (s.readKeyAt p).map (max < ·)) start
        (start - stop + 1).toNat
      if offset < stop then
        findEndLoop s max intervalStartSegment fuel ⟨true, v.segmentId - 1, !v.segmentEven, offset⟩
      else
        findEndLoop s max intervalStartSegment fuel ⟨false, v.segmentId, v.segmentEven, offset⟩
    else some v

def findEnd (s : Storage) (intervalStartSegment segmentEnd : Nat) (max : Int) :
    Option EndSearch :=
  s.findEndLoop max intervalStartSegment (segmentEnd - intervalStartSegment + 2)
    ⟨true, segmentEnd, segmentEnd % 2 == 0, -1⟩

end Storage

/-! ## Iterator -/

inductive IteratorException where
  /-- `segment_start > segment_end` -/
  | invalidArgument
  deriving DecidableEq, Repr

/-- The fields of `Iterator`, apart from the storage it reads. -/
structure Iterator where
  nextSegment : Nat
  offset : Nat
  stop : Nat
  indexMax : Nat
  deriving DecidableEq, Repr

namespace Iterator

/-- The iterator over nothing. -/
def empty : Iterator := ⟨0, 0, 0, 0⟩

/-- The constructor. -/
def create (s : Storage) (segmentStart segmentEnd : Nat) (keyMin keyMax : Int) :
    Option (Except IteratorException Iterator) :=
  if segmentEnd < segmentStart then some (.error .invalidArgument)
  else if s.numberSegments ≤ segmentEnd then some (.ok empty)
  else do
    let first ← s.findStart segmentStart keyMin
    let nextSegment := first.segmentId + 1
    let joined := first.segmentEven && decide (nextSegment < s.numberSegments)
    let it : Iterator := {
      nextSegment := if joined then nextSegment + 1 else nextSegment
      offset := first.offset
      stop := if joined then nextSegment * s.segmentCapacity + s.segmentSizes nextSegment
        else first.stop
      indexMax := 0 }
    let nothing ← if first.notfound then some true
      else (s.readKey first.offset).map (keyMax < ·)
    if nothing then
      return .ok { it with indexMax := 0, stop := 0 }
    else
      -- find the last qualifying index
      let last ← s.findEnd first.segmentId segmentEnd keyMax
      if last.offset < it.offset then
        return .ok { it with indexMax := 0, stop := 0 }
      else
        let indexMax := (last.offset + 1).toNat
        return .ok { it with indexMax := indexMax, stop := Nat.min indexMax it.stop }

/-- Move to the next qualifying sequence, if any. -/
def nextSequence (s : Storage) (it : Iterator) : Iterator :=
  let segment1 := it.nextSegment
  if segment1 < s.numberSegments then
    if segment1 % 2 = 0 then
      let segment2 := segment1 + 1
      let stop := segment2 * s.segmentCapacity
      { it with
        offset := segment1 * s.segmentCapacity + s.segmentCapacity - s.segmentSizes segment1
        stop := if segment2 < s.numberSegments then
            Nat.min (stop + s.segmentSizes segment2) it.indexMax
          else Nat.min stop it.indexMax
        nextSegment := it.nextSegment + 2 }
    else
      let offset := segment1 * s.segmentCapacity
      { it with
        offset := offset
        stop := Nat.min it.indexMax (offset + s.segmentSizes segment1)
        nextSegment := it.nextSegment + 1 }
  else it

def hasNext (it : Iterator) : Bool := it.offset < it.stop

/-- The element under the iterator, and the iterator moved to the next one. -/
def next (s : Storage) (it : Iterator) : Option ((Int × Int) × Iterator) := do
  let key ← s.readKey it.offset
  let value ← s.readValue it.offset
  let it := { it with offset := it.offset + 1 }
  return ((key, value), if it.stop ≤ it.offset then it.nextSequence s else it)

/-- Call `next`, as long as there is one, at most `count` times. -/
def drain (s : Storage) : Nat → Iterator → Option (List (Int × Int))
  | 0, _ => some []
  | count + 1, it =>
    if it.hasNext then do
      let (element, it) ← it.next s
      let elements ← drain s count it
      return element :: elements
    else some []

end Iterator

/-! ## Sum -/

namespace Storage

open SumResult

/-- Add up the elements of `count` consecutive positions. -/
def sumRun (s : Storage) : Nat → Nat → SumResult → Option SumResult
  | 0, _, sum => some sum
  | count + 1, offset, sum => do
    let key ← s.readKey offset
    let value ← s.readValue offset
    sumRun s count (offset + 1) { sum with
      sumKeys := addInt64 sum.sumKeys key
      sumValues := addInt64 sum.sumValues value }

/-- The loop over the runs of two segments; undefined when `fuel` runs out. -/
def sumLoop (s : Storage) (stopAt : Nat) : Nat → Nat → Nat → Nat → SumResult → Option SumResult
  | 0, _, _, _, _ => none
  | fuel + 1, segmentId, offset, stop, sum =>
    if offset < stopAt then do
      let sum ← s.sumRun (stop - offset) offset
        { sum with numElements := sum.numElements + (stop - offset) }
      let offset := offset + (stop - offset)
      -- next even segment
      let segmentId := segmentId + 1 + (if segmentId % 2 = 0 then 1 else 0)
      if segmentId < s.numberSegments then
        let sizeLhs := s.segmentSizes segmentId
        let sizeRhs := s.segmentSizes (segmentId + 1)
        let offset := (segmentId + 1) * s.segmentCapacity - sizeLhs
        sumLoop s stopAt fuel segmentId offset (Nat.min stopAt (offset + sizeLhs + sizeRhs)) sum
      else sumLoop s stopAt fuel segmentId offset stop sum
    else some sum

/-- `do_sum`: aggregate the elements with a key in `[min, max]`. -/
def doSum (s : Storage) (segmentStart segmentEnd : Nat) (min max : Int) : Option SumResult :=
  if s.cardinality = 0 ∨ max < min ∨ segmentEnd < segmentStart then some SumResult.empty
  else do
    -- start of the interval
    let first ← s.findStart segmentStart min
    let stop :=
      if first.segmentEven && decide (first.segmentId < s.numberSegments - 1) then
        (first.segmentId + 1) * s.segmentCapacity + s.segmentSizes (first.segmentId + 1)
      else first.stop
    let nothing ← if first.notfound then some true
      else (s.readKey first.offset).map (max < ·)
    if nothing then return SumResult.empty
    else
      -- find the last qualifying index
      let last ← s.findEnd first.segmentId segmentEnd max
      let stopAt := last.offset + 1
      if stopAt ≤ first.offset then return SumResult.empty
      else
        let stopAt := stopAt.toNat
        let firstKey ← s.readKey first.offset
        let sum ← s.sumLoop stopAt (s.numberSegments + 1) first.segmentId first.offset
          (Nat.min stop stopAt) { SumResult.empty with firstKey := firstKey }
        let lastKey ← s.readKey (stopAt - 1)
        return { sum with lastKey := lastKey }

end Storage

/-! ## Range queries of the packed memory array -/

namespace PackedMemoryArray

/-- `find(min, max)`: an iterator over the elements with a key in `[min, max]`. -/
def findRange (index : StaticIndex) (s : Storage) (min max : Int) :
    Option (Except IteratorException Iterator) :=
  if s.cardinality = 0 then some (.ok Iterator.empty)
  else Iterator.create s (index.findFirst min) (index.findLast max) min max

/-- `sum(min, max)`: the aggregate of the elements with a key in `[min, max]`. -/
def sum (index : StaticIndex) (s : Storage) (min max : Int) : Option SumResult :=
  s.doSum (index.findFirst min) (index.findLast max) min max

end PackedMemoryArray

/-! ## Correctness of the two searches -/

namespace Storage

section Searches

variable {s : Storage}

/-- The invariant of the loop: the flag tells the parity of the segment. -/
def StartSearch.Even (v : StartSearch) : Prop := v.segmentEven = decide (v.segmentId % 2 = 0)

/-- The start search stops at the first position, from its segment on, whose key
is not below `min`, or after the last segment when there is none. -/
theorem findStartLoop_spec (shape : s.Shape) (min : Int) (fuel : Nat) (v : StartSearch)
    (even : v.Even) (searching : v.notfound = true) (within : v.segmentId ≤ s.numberSegments)
    (enough : s.numberSegments - v.segmentId < fuel) :
    ∃ w, s.findStartLoop min fuel v = some w ∧ w.Even ∧ v.segmentId ≤ w.segmentId ∧
      (w.notfound = true ∧ w.segmentId = s.numberSegments ∨
        w.notfound = false ∧ w.segmentId < s.numberSegments ∧ w.stop = s.stop w.segmentId ∧
          s.start w.segmentId ≤ w.offset ∧ w.offset < w.stop ∧ min ≤ s.keys w.offset) ∧
      ∀ i, v.segmentId ≤ i → i < s.numberSegments → ∀ p, s.start i ≤ p → p < s.stop i →
        (w.notfound = true ∨ p < w.offset) → s.keys p < min := by
  induction fuel generalizing v with
  | zero => omega
  | succ fuel ih =>
      unfold findStartLoop
      by_cases inside : v.segmentId < s.numberSegments
      · have size := shape.sizes_le v.segmentId inside
        have bounds := layout size
        have stopEq : (if v.segmentEven = true then (v.segmentId + 1) * s.segmentCapacity
            else v.segmentId * s.segmentCapacity + s.segmentSizes v.segmentId) =
              s.stop v.segmentId := by
          rw [even, stop]
          simp only [decide_eq_true_eq]
        have startEq : (if v.segmentEven = true then s.stop v.segmentId -
            s.segmentSizes v.segmentId else v.segmentId * s.segmentCapacity) =
              s.start v.segmentId := by
          rw [even, start, stop]
          simp only [decide_eq_true_eq]
          split <;> rfl
        have scan := scanUpM_eq (fun p => (s.readKey p).map (· < min))
          (fun p => decide (s.keys p < min)) (s.start v.segmentId)
          (s.stop v.segmentId - s.start v.segmentId) fun p lower upper => by
            rw [shape.readKey_eq inside lower (by omega)]
            rfl
        rcases scanUp_spec (fun p => decide (s.keys p < min)) (s.start v.segmentId)
          (s.stop v.segmentId - s.start v.segmentId) with ⟨lower, upper, passed, stopped⟩
        simp only [searching, inside, decide_true, Bool.and_self, if_true, stopEq, startEq, scan,
          Option.bind_eq_bind, Option.bind_some]
        generalize scanUp (fun p => decide (s.keys p < min)) (s.start v.segmentId)
          (s.stop v.segmentId - s.start v.segmentId) = offset at lower upper passed stopped
        by_cases exhausted : offset = s.stop v.segmentId
        · rw [if_pos exhausted]
          have flipped : StartSearch.Even ⟨true, v.segmentId + 1, !v.segmentEven,
              s.stop v.segmentId, offset⟩ := by
            change (!v.segmentEven) = decide ((v.segmentId + 1) % 2 = 0)
            rw [even]
            by_cases parity : v.segmentId % 2 = 0
            · simp [parity, show (v.segmentId + 1) % 2 = 1 by omega]
            · simp [parity, show (v.segmentId + 1) % 2 = 0 by omega]
          rcases ih _ flipped rfl inside (show s.numberSegments - (v.segmentId + 1) < fuel by omega)
            with ⟨w, result, evenW, after, found, below⟩
          refine ⟨w, result, evenW, Nat.le_of_succ_le after, found, ?_⟩
          intro i from_ insideI p lowerP upperP early
          rcases Nat.eq_or_lt_of_le from_ with rfl | later
          · exact of_decide_eq_true (passed p lowerP (by omega))
          · exact below i later insideI p lowerP upperP early
        · rw [if_neg exhausted]
          have met : min ≤ s.keys offset := by
            simpa using stopped (by omega)
          refine ⟨⟨false, v.segmentId, v.segmentEven, s.stop v.segmentId, offset⟩, ?_, even,
            le_rfl, Or.inr ⟨rfl, inside, rfl, lower, by simp only; omega, met⟩, ?_⟩
          · cases fuel <;> simp [findStartLoop]
          · intro i from_ insideI p lowerP upperP early
            have before : p < offset := by simpa using early
            rcases Nat.eq_or_lt_of_le from_ with rfl | later
            · exact of_decide_eq_true (passed p lowerP before)
            · have apart := stop_le_start size (shape.sizes_le i insideI) later
              omega
      · refine ⟨v, by simp [inside], even, le_rfl, Or.inl ⟨searching, by omega⟩, ?_⟩
        intro i from_ insideI
        omega

/-- The end search stops in its first segment when the minimum of the segment
qualifies: at the last position whose key is at most `max`. -/
theorem findEnd_spec (shape : s.Shape) {max : Int} {first segmentEnd : Nat}
    (order : first ≤ segmentEnd) (inside : segmentEnd < s.numberSegments)
    (nonempty : 0 < s.segmentSizes segmentEnd) (qualifies : s.keys (s.start segmentEnd) ≤ max) :
    ∃ w e, s.findEnd first segmentEnd max = some w ∧ w.offset = ((e : Nat) : Int) ∧
      s.start segmentEnd ≤ e ∧ e < s.stop segmentEnd ∧ s.keys e ≤ max ∧
      ∀ p, e < p → p < s.stop segmentEnd → max < s.keys p := by
  have size := shape.sizes_le segmentEnd inside
  have bounds := layout size
  rcases scanDown_spec (fun p => decide (max < s.keys p)) (s.stop segmentEnd) with
    ⟨upper, passed, stopped⟩
  generalize scanDown (fun p => decide (max < s.keys p)) (s.stop segmentEnd) = last at *
  have after : s.start segmentEnd < last := by
    by_contra early
    have fails := of_decide_eq_true (passed (s.start segmentEnd) (by omega) (by omega))
    omega
  have met : s.keys (last - 1) ≤ max := by
    simpa using stopped (by omega)
  have read : ∀ p, s.start segmentEnd ≤ p → p < s.stop segmentEnd →
      (s.readKeyAt (p : Int)).map (fun k => decide (max < k)) = some (decide (max < s.keys p)) := by
    intro p lower below
    rw [readKeyAt, if_pos (by omega), Int.toNat_natCast, shape.readKey_eq inside lower below]
    rfl
  have startEq : (if (segmentEnd % 2 == 0) = true then
      ((segmentEnd : Int) + 1) * s.segmentCapacity - 1
      else (segmentEnd : Int) * s.segmentCapacity + (s.segmentSizes segmentEnd : Int) - 1) =
        (s.stop segmentEnd : Int) - 1 := by
    unfold stop
    by_cases parity : segmentEnd % 2 = 0 <;> simp [parity]
  have stopLe : (if (segmentEnd % 2 == 0) = true then
      (s.stop segmentEnd : Int) - 1 - (s.segmentSizes segmentEnd : Int)
      else (segmentEnd : Int) * s.segmentCapacity) ≤ (s.start segmentEnd : Int) := by
    by_cases parity : segmentEnd % 2 = 0
    · simp [parity]
      omega
    · have cells : (segmentEnd : Int) * s.segmentCapacity =
          ((segmentEnd * s.segmentCapacity : Nat) : Int) := by push_cast; rfl
      simp [parity]
      omega
  refine ⟨⟨false, segmentEnd, segmentEnd % 2 == 0, ((last - 1 : Nat) : Int)⟩, last - 1, ?_, rfl,
    by omega, by omega, met, fun p above below => of_decide_eq_true (passed p (by omega) below)⟩
  unfold findEnd
  rw [findEndLoop]
  have reached : (first : Int) ≤ (segmentEnd : Int) := by omega
  simp only [Bool.true_and, reached, decide_true, if_true, Int.toNat_natCast, startEq]
  generalize (if (segmentEnd % 2 == 0) = true then
    (s.stop segmentEnd : Int) - 1 - (s.segmentSizes segmentEnd : Int)
    else (segmentEnd : Int) * s.segmentCapacity) = stopAt at stopLe
  have scan := scanDownM_eq (fun p => (s.readKeyAt p).map (max < ·))
    ((s.stop segmentEnd : Int) - 1) ((s.stop segmentEnd : Int) - 1 - stopAt + 1).toNat
    (s.stop segmentEnd - last) (by omega)
    (fun j below => by
      rw [show (s.stop segmentEnd : Int) - 1 - (j : Int) = ((s.stop segmentEnd - 1 - j : Nat) : Int)
        by omega, read _ (by omega) (by omega), passed _ (by omega) (by omega)])
    (by
      rw [show (s.stop segmentEnd : Int) - 1 - ((s.stop segmentEnd - last : Nat) : Int) =
        ((last - 1 : Nat) : Int) by omega, read _ (by omega) (by omega), stopped (by omega)])
  rw [show (s.stop segmentEnd : Int) - 1 - ((s.stop segmentEnd - last : Nat) : Int) =
    ((last - 1 : Nat) : Int) by omega] at scan
  simp only [scan, Option.bind_eq_bind, Option.bind_some]
  rw [if_neg (by omega)]
  simp [findEndLoop]

end Searches

end Storage

/-! ## Correctness of the range queries -/

/-- The representation invariant: a sorted array whose segments have their
minimum for separator. -/
structure RepInv (index : StaticIndex) (s : Storage) : Prop where
  shape : s.Shape
  segments_pos : 0 < s.numberSegments
  sorted : s.Sorted
  separators : ∃ separators, index.Separators s.numberSegments separators ∧
    ∀ i, i < s.numberSegments → 0 < s.segmentSizes i → separators i = s.getMinimum i

/-- What is expected of a range query: the elements with a key in `[min, max]`. -/
def inRange (s : Storage) (min max : Int) : List (Int × Int) :=
  s.elements.filter fun e => min ≤ e.1 ∧ e.1 ≤ max

section Queries

variable {s : Storage} {index : StaticIndex} {min max : Int}

/-- The segments of an array that is not empty are not empty. -/
theorem Storage.Shape.nonempty (shape : s.Shape) (stored : s.cardinality ≠ 0) {i : Nat}
    (inside : i < s.numberSegments) : 0 < s.segmentSizes i := by
  by_cases several : 1 < s.numberSegments
  · exact shape.sizes_pos several i inside
  · have total := shape.cardinality_eq
    rw [show s.numberSegments = 1 by omega] at total
    rw [show i = 0 by omega]
    simp at total
    omega

/-- The positions that bound the range: `lo` is the first one whose key is not
below `min` and `hi` follows the last one whose key is at most `max`. -/
structure RangeBounds (s : Storage) (min max : Int) (lo hi : Nat) : Prop where
  below : ∀ p, p ∈ s.positions → (p < lo ↔ s.keys p < min)
  above : ∀ p, p ∈ s.positions → (p < hi ↔ s.keys p ≤ max)

/-- The elements in range are those between the two bounds. -/
theorem RangeBounds.inRange_eq {lo hi : Nat} (bounds : RangeBounds s min max lo hi) :
    inRange s min max = (window s.positions lo hi).map s.cell := by
  unfold inRange Storage.elements window
  rw [List.filter_map]
  congr 1
  apply List.filter_congr
  intro p member
  have below := bounds.below p member
  have above := bounds.above p member
  apply decide_eq_decide.mpr
  change (min ≤ s.keys p ∧ s.keys p ≤ max) ↔ (lo ≤ p ∧ p < hi)
  omega

/-- Nothing is in range. -/
theorem inRange_eq_nil (none : ∀ p, p ∈ s.positions → min ≤ s.keys p → max < s.keys p) :
    inRange s min max = [] := by
  unfold inRange Storage.elements
  rw [List.filter_eq_nil_iff]
  intro e member inside
  rcases List.mem_map.mp member with ⟨p, memP, rfl⟩
  have inside := of_decide_eq_true inside
  have outside := none p memP inside.1
  simp only [Storage.cell] at inside
  omega

/-- Nothing is in range in an empty array. -/
theorem inRange_of_cardinality (shape : s.Shape) (empty : s.cardinality = 0) :
    inRange s min max = [] := by
  apply inRange_eq_nil
  intro p member
  rcases shape.mem_positions.mp member with ⟨i, inside, lower, upper⟩
  have bounds := Storage.layout (shape.sizes_le i inside)
  have part := List.single_le_sum (l := (List.range s.numberSegments).map s.segmentSizes)
    (fun _ _ => Nat.zero_le _) (s.segmentSizes i)
    (List.mem_map.mpr ⟨i, List.mem_range.mpr inside, rfl⟩)
  rw [← shape.cardinality_eq] at part
  omega

/-- What the two searches of a range query answer: either nothing is in range, or
the first position of the range and the position of its last element. -/
theorem searches (inv : RepInv index s) (stored : s.cardinality ≠ 0) (order : min ≤ max) :
    index.findFirst min ≤ index.findLast max ∧ index.findLast max < s.numberSegments ∧
    ∃ v, s.findStart (index.findFirst min) min = some v ∧ v.Even ∧
      (v.notfound = true ∧ inRange s min max = [] ∨
        v.notfound = false ∧ v.segmentId < s.numberSegments ∧ v.stop = s.stop v.segmentId ∧
          s.start v.segmentId ≤ v.offset ∧ v.offset < v.stop ∧
          (max < s.keys v.offset ∧ inRange s min max = [] ∨
            s.keys v.offset ≤ max ∧ ∃ w e,
              s.findEnd v.segmentId (index.findLast max) max = some w ∧
              w.offset = ((e : Nat) : Int) ∧ v.offset ≤ e ∧ e ∈ s.positions ∧
              RangeBounds s min max v.offset (e + 1))) := by
  have shape := inv.shape
  have positive := inv.segments_pos
  rcases inv.separators with ⟨seps, separators, minima⟩
  have sepEq : ∀ i, i < s.numberSegments → seps i = s.keys (s.start i) := fun i inside =>
    minima i inside (shape.nonempty stored inside)
  have startMem : ∀ i, i < s.numberSegments → s.start i ∈ s.positions := by
    intro i inside
    have size := shape.nonempty stored inside
    have bounds := Storage.layout (shape.sizes_le i inside)
    exact shape.mem_positions.mpr ⟨i, inside, le_rfl, by omega⟩
  have sorted : ∀ i j, i ≤ j → j < s.numberSegments → seps i ≤ seps j := by
    intro i j before inside
    rw [sepEq i (by omega), sepEq j inside]
    apply shape.keys_le inv.sorted (startMem i (by omega)) (startMem j inside)
    rcases Nat.eq_or_lt_of_le before with rfl | lower
    · exact le_rfl
    · have apart := Storage.stop_le_start (shape.sizes_le i (by omega)) (shape.sizes_le j inside)
        lower
      have bounds := Storage.layout (shape.sizes_le i (by omega))
      omega
  rcases separators.find_spec sorted min with ⟨_, firstEq, _⟩
  rcases separators.find_spec sorted max with ⟨_, _, lastEq⟩
  have firstLe : index.findFirst min ≤ s.numberSegments - 1 := firstEq ▸ Nat.findGreatest_le _
  have lastLe : index.findLast max ≤ s.numberSegments - 1 := lastEq ▸ Nat.findGreatest_le _
  have firstSat : 0 < index.findFirst min → seps (index.findFirst min) < min := by
    intro pos
    rw [firstEq] at pos ⊢
    exact Nat.findGreatest_of_ne_zero (P := fun i => seps i < min) rfl (by omega)
  have lastGreatest : ∀ i, i ≤ s.numberSegments - 1 → seps i ≤ max → i ≤ index.findLast max := by
    intro i inside sat
    rw [lastEq]
    exact Nat.le_findGreatest inside sat
  have firstLast : index.findFirst min ≤ index.findLast max := by
    rcases Nat.eq_zero_or_pos (index.findFirst min) with zero | pos
    · omega
    · exact lastGreatest _ firstLe ((firstSat pos).le.trans order)
  refine ⟨firstLast, by omega, ?_⟩
  rcases Storage.findStartLoop_spec shape min
    (s.numberSegments - index.findFirst min + 1)
    ⟨true, index.findFirst min, index.findFirst min % 2 == 0, 0, 0⟩ rfl rfl
    (by simp only; omega) (by simp only; omega) with ⟨v, result, even, from_, found, passed⟩
  -- every key before the offset is below `min`, also in the segments that were skipped
  have before : ∀ p, p ∈ s.positions → v.notfound = true ∨ p < v.offset → s.keys p < min := by
    intro p member early
    rcases shape.mem_positions.mp member with ⟨i, inside, lower, upper⟩
    by_cases skipped : i < index.findFirst min
    · have apart := Storage.stop_le_start (shape.sizes_le i inside)
        (shape.sizes_le (index.findFirst min) (by omega)) skipped
      have le := shape.keys_le inv.sorted member (startMem (index.findFirst min) (by omega))
        (by omega)
      rw [← sepEq _ (by omega)] at le
      exact lt_of_le_of_lt le (firstSat (by omega))
    · exact passed i (by simp only; omega) inside p lower upper early
  refine ⟨v, result, even, ?_⟩
  rcases found with ⟨notfound, _⟩ | ⟨isFound, inside, stop, lower, upper, met⟩
  · exact Or.inl ⟨notfound, inRange_eq_nil fun p member above =>
      absurd (before p member (Or.inl notfound)) (by omega)⟩
  · refine Or.inr ⟨isFound, inside, stop, lower, upper, ?_⟩
    have offsetMem : v.offset ∈ s.positions :=
      shape.mem_positions.mpr ⟨v.segmentId, inside, lower, by omega⟩
    have below : ∀ p, p ∈ s.positions → (p < v.offset ↔ s.keys p < min) := by
      intro p member
      constructor
      · exact fun early => before p member (Or.inr early)
      · intro small
        by_contra late
        have le := shape.keys_le inv.sorted offsetMem member (by omega)
        omega
    by_cases beyond : max < s.keys v.offset
    · refine Or.inl ⟨beyond, inRange_eq_nil fun p member above => ?_⟩
      have notBefore := (below p member).not.mpr (by omega)
      have le := shape.keys_le inv.sorted offsetMem member (by omega)
      omega
    · have sepLe : seps v.segmentId ≤ max := by
        rw [sepEq v.segmentId inside]
        have le := shape.keys_le inv.sorted (startMem v.segmentId inside) offsetMem lower
        omega
      have reached : v.segmentId ≤ index.findLast max := lastGreatest _ (by omega) sepLe
      have qualifies : s.keys (s.start (index.findLast max)) ≤ max := by
        rw [← sepEq _ (by omega)]
        rcases Nat.eq_zero_or_pos (index.findLast max) with zero | pos
        · rw [zero]
          rw [show v.segmentId = 0 by omega] at sepLe
          exact sepLe
        · rw [lastEq] at pos ⊢
          exact Nat.findGreatest_of_ne_zero (P := fun i => seps i ≤ max) rfl (by omega)
      rcases Storage.findEnd_spec shape reached (by omega)
        (shape.nonempty stored (by omega)) qualifies with
        ⟨w, e, resultEnd, offsetEnd, lowerEnd, upperEnd, metEnd, afterEnd⟩
      have endMem : e ∈ s.positions :=
        shape.mem_positions.mpr ⟨index.findLast max, by omega, lowerEnd, upperEnd⟩
      have above : ∀ p, p ∈ s.positions → (p < e + 1 ↔ s.keys p ≤ max) := by
        intro p member
        constructor
        · intro early
          have le := shape.keys_le inv.sorted member endMem (by omega)
          omega
        · intro small
          by_contra late
          rcases shape.mem_positions.mp member with ⟨i, insideI, lowerI, upperI⟩
          rcases Nat.lt_trichotomy i (index.findLast max) with earlier | rfl | later
          · have apart := Storage.stop_le_start (shape.sizes_le i insideI)
              (shape.sizes_le (index.findLast max) (by omega)) earlier
            omega
          · have fails := afterEnd p (by omega) upperI
            omega
          · have le := shape.keys_le inv.sorted (startMem i insideI) member lowerI
            have greatest := lastGreatest i (by omega) (by rw [sepEq i insideI]; omega)
            omega
      refine Or.inr ⟨by omega, w, e, resultEnd, offsetEnd, ?_, endMem, ⟨below, above⟩⟩
      have startBefore := (above v.offset offsetMem).mpr (by omega)
      omega

end Queries

/-! ## Walking over the runs -/

namespace Storage

/-- Where the contiguous run that starts in a segment stops. -/
def runStop (s : Storage) (i : Nat) : Nat :=
  if i % 2 = 0 ∧ i + 1 < s.numberSegments then s.stop (i + 1) else s.stop i

/-- The segment where the next run starts. -/
def runNext (i : Nat) : Nat := i + 1 + (if i % 2 = 0 then 1 else 0)

section Runs

variable {s : Storage} {i p : Nat}

theorem Shape.readKey_of_mem (shape : s.Shape) (member : p ∈ s.positions) :
    s.readKey p = some (s.keys p) := by
  rcases shape.mem_positions.mp member with ⟨i, inside, lower, upper⟩
  exact shape.readKey_eq inside lower upper

theorem Shape.readValue_of_mem (shape : s.Shape) (member : p ∈ s.positions) :
    s.readValue p = some (s.values p) := by
  rcases shape.mem_positions.mp member with ⟨i, inside, lower, upper⟩
  exact shape.readValue_eq inside lower upper

/-- The positions of a run, from its segment on, are occupied. -/
theorem Shape.run_mem (shape : s.Shape) (inside : i < s.numberSegments) (lower : s.start i ≤ p)
    (upper : p < s.runStop i) : p ∈ s.positions := by
  unfold runStop at upper
  split at upper
  next joined =>
    have adjacent := stop_eq_start_succ (s := s) joined.1
    by_cases first : p < s.stop i
    · exact shape.mem_positions.mpr ⟨i, inside, lower, first⟩
    · exact shape.mem_positions.mpr ⟨i + 1, joined.2, by omega, upper⟩
  next => exact shape.mem_positions.mpr ⟨i, inside, lower, upper⟩

/-- The positions after a run start with those of the next run. -/
theorem Shape.run_later (shape : s.Shape) (inside : i < s.numberSegments)
    (member : p ∈ s.positions) (after : s.runStop i ≤ p) :
    runNext i < s.numberSegments ∧ s.start (runNext i) ≤ p := by
  rcases shape.mem_positions.mp member with ⟨j, insideJ, lower, upper⟩
  have sizeI := shape.sizes_le i inside
  have sizeJ := shape.sizes_le j insideJ
  have later : runNext i ≤ j := by
    by_contra early
    have stops : s.stop j ≤ s.runStop i := by
      unfold runNext at early
      unfold runStop
      rcases Nat.lt_or_ge j i with before | notBefore
      · have apart := stop_le_start sizeJ sizeI before
        have boundsI := layout sizeI
        split
        next joined =>
          have boundsNext := layout (shape.sizes_le (i + 1) joined.2)
          have adjacent := stop_eq_start_succ (s := s) joined.1
          omega
        next => omega
      · split at early
        next even =>
          rcases Nat.eq_or_lt_of_le notBefore with rfl | afterI
          · split
            next joined =>
              have boundsNext := layout (shape.sizes_le (i + 1) joined.2)
              have adjacent := stop_eq_start_succ (s := s) joined.1
              omega
            next => exact le_rfl
          · obtain rfl : j = i + 1 := by omega
            rw [if_pos ⟨even, insideJ⟩]
        next odd =>
          obtain rfl : j = i := by omega
          rw [if_neg fun joined => odd joined.1]
    omega
  refine ⟨by omega, ?_⟩
  rcases Nat.eq_or_lt_of_le later with rfl | before
  · exact lower
  · have sizeNext := shape.sizes_le (runNext i) (by omega)
    have apart := stop_le_start sizeNext sizeJ before
    have bounds := layout sizeNext
    omega

/-- A run stops before the next one starts. -/
theorem Shape.runStop_le (shape : s.Shape) (inside : i < s.numberSegments)
    (next : runNext i < s.numberSegments) : s.runStop i ≤ s.start (runNext i) := by
  unfold runStop runNext at *
  split
  next joined =>
    rw [if_pos joined.1] at next ⊢
    exact stop_le_start (shape.sizes_le _ joined.2) (shape.sizes_le _ next) (by omega)
  next => exact stop_le_start (shape.sizes_le i inside) (shape.sizes_le _ next) (by omega)

theorem Shape.start_lt_runStop (shape : s.Shape) (inside : i < s.numberSegments)
    (size : 0 < s.segmentSizes i) : s.start i < s.runStop i ∧ s.stop i ≤ s.runStop i := by
  have bounds := layout (shape.sizes_le i inside)
  unfold runStop
  split
  next joined =>
    have adjacent := stop_eq_start_succ (s := s) joined.1
    have boundsNext := layout (shape.sizes_le (i + 1) joined.2)
    omega
  next => omega

end Runs

end Storage

namespace Iterator

/-- What the iterator maintains: it is within a run of occupied positions, and
every later position in range belongs to the runs still to come. -/
structure Valid (s : Storage) (it : Iterator) : Prop where
  even : it.nextSegment % 2 = 0 ∨ s.numberSegments ≤ it.nextSegment
  stop_le : it.stop ≤ it.indexMax
  run : ∀ p, it.offset ≤ p → p < it.stop → p ∈ s.positions
  later : ∀ p, p ∈ s.positions → it.stop ≤ p → p < it.indexMax →
    it.nextSegment < s.numberSegments ∧ s.start it.nextSegment ≤ p
  ahead : it.nextSegment < s.numberSegments → it.stop ≤ s.start it.nextSegment

/-- The positions still to be visited. -/
def remaining (s : Storage) (it : Iterator) : List Nat :=
  if it.offset < it.stop then window s.positions it.offset it.indexMax else []

section Walk

variable {s : Storage} {it : Iterator}

/-- Moving to the next sequence loses no position in range. -/
theorem Valid.nextSequence (shape : s.Shape) (stored : s.cardinality ≠ 0) (valid : it.Valid s)
    (exhausted : it.offset = it.stop) :
    (it.nextSequence s).Valid s ∧
      (it.nextSequence s).remaining s = window s.positions it.offset it.indexMax := by
  by_cases more : it.nextSegment < s.numberSegments
  · have even : it.nextSegment % 2 = 0 := valid.even.resolve_right (by omega)
    have nonempty := shape.nonempty stored more
    have next : Storage.runNext it.nextSegment = it.nextSegment + 2 := by
      simp [Storage.runNext, even]
    have startEq : it.nextSegment * s.segmentCapacity + s.segmentCapacity -
        s.segmentSizes it.nextSegment = s.start it.nextSegment := by
      rw [Storage.start, if_pos even, Nat.succ_mul]
    have stopEq : (if it.nextSegment + 1 < s.numberSegments then
        Nat.min ((it.nextSegment + 1) * s.segmentCapacity + s.segmentSizes (it.nextSegment + 1))
          it.indexMax
        else Nat.min ((it.nextSegment + 1) * s.segmentCapacity) it.indexMax) =
        min (s.runStop it.nextSegment) it.indexMax := by
      unfold Storage.runStop Storage.stop
      by_cases second : it.nextSegment + 1 < s.numberSegments
      · simp [even, second, show (it.nextSegment + 1) % 2 = 1 by omega, min_def]
      · simp [even, second, min_def]
    have moved : it.nextSequence s = ⟨it.nextSegment + 2, s.start it.nextSegment,
        min (s.runStop it.nextSegment) it.indexMax, it.indexMax⟩ := by
      simp only [Iterator.nextSequence, more, even, if_true, startEq, stopEq]
    rw [moved]
    have starts := shape.start_lt_runStop more nonempty
    have ahead := valid.ahead more
    constructor
    · refine ⟨Or.inl (by simp only; omega), min_le_right _ _, ?_, ?_, ?_⟩
      · intro p lower upper
        exact shape.run_mem more lower (lt_of_lt_of_le upper (min_le_left _ _))
      · intro p member after inside
        have past : s.runStop it.nextSegment ≤ p := by
          rcases min_le_iff.mp after with h | h
          · exact h
          · simp only at inside
            omega
        have found := shape.run_later more member past
        rwa [next] at found
      · intro further
        have found := shape.runStop_le more (by rw [next]; exact further)
        rw [next] at found
        exact (min_le_left _ _).trans found
    · unfold remaining
      simp only
      by_cases reached : s.start it.nextSegment < min (s.runStop it.nextSegment) it.indexMax
      · rw [if_pos reached]
        apply window_congr
        intro p member
        constructor
        · intro inside
          exact ⟨by omega, inside.2⟩
        · intro inside
          exact ⟨(valid.later p member (by omega) inside.2).2, inside.2⟩
      · rw [if_neg reached]
        symm
        apply window_eq_nil
        intro p member after
        by_contra inside
        have found := valid.later p member (by omega) (by omega)
        rw [lt_min_iff] at reached
        omega
  · have moved : it.nextSequence s = it := by
      simp only [Iterator.nextSequence, more, if_false]
    rw [moved]
    refine ⟨valid, ?_⟩
    unfold remaining
    rw [if_neg (by omega)]
    symm
    apply window_eq_nil
    intro p member after
    by_contra inside
    exact more (valid.later p member (by omega) (by omega)).1

/-- `next` yields the first remaining position and keeps the others. -/
theorem Valid.next (shape : s.Shape) (stored : s.cardinality ≠ 0) (valid : it.Valid s)
    (more : it.offset < it.stop) :
    ∃ it', it.next s = some (s.cell it.offset, it') ∧ it'.Valid s ∧
      it.remaining s = it.offset :: it'.remaining s := by
  have member := valid.run it.offset le_rfl more
  have cons := window_cons shape.positions_increasing member (lt_of_lt_of_le more valid.stop_le)
  unfold Iterator.next
  rw [shape.readKey_of_mem member, shape.readValue_of_mem member]
  simp only [Option.bind_eq_bind, Option.bind_some, Option.pure_def]
  have step : ({ it with offset := it.offset + 1 } : Iterator).Valid s :=
    ⟨valid.even, valid.stop_le, fun p lower upper => valid.run p (Nat.le_of_succ_le lower) upper,
      valid.later, valid.ahead⟩
  have remainingEq : it.remaining s = window s.positions it.offset it.indexMax := if_pos more
  by_cases exhausted : it.stop ≤ it.offset + 1
  · rw [if_pos exhausted]
    rcases Valid.nextSequence shape stored step (by simp only; omega) with ⟨valid', remaining'⟩
    exact ⟨_, rfl, valid', by rw [remainingEq, cons, remaining']⟩
  · rw [if_neg exhausted]
    refine ⟨_, rfl, step, ?_⟩
    rw [remainingEq, cons]
    congr 1
    exact (if_pos (by simp only; omega)).symm

/-- The iterator yields the remaining elements in order and then stops. -/
theorem Valid.drain (shape : s.Shape) (stored : s.cardinality ≠ 0) (valid : it.Valid s)
    (count : Nat) :
    it.drain s count = some (((it.remaining s).map s.cell).take count) := by
  induction count generalizing it with
  | zero => simp [Iterator.drain]
  | succ count ih =>
      by_cases more : it.offset < it.stop
      · rcases valid.next shape stored more with ⟨it', result, valid', cons⟩
        simp [Iterator.drain, hasNext, more, result, ih valid', cons]
      · simp [Iterator.drain, hasNext, more, remaining]

end Walk

end Iterator

namespace Storage

open SumResult

/-- Add up the elements at the given positions. -/
def accumulate (s : Storage) (sum : SumResult) (l : List Nat) : SumResult :=
  { sum with
    numElements := sum.numElements + l.length
    sumKeys := (l.map s.keys).foldl addInt64 sum.sumKeys
    sumValues := (l.map s.values).foldl addInt64 sum.sumValues }

section Sums

variable {s : Storage}

theorem accumulate_append (sum : SumResult) (l₁ l₂ : List Nat) :
    s.accumulate sum (l₁ ++ l₂) = s.accumulate (s.accumulate sum l₁) l₂ := by
  simp [accumulate, Nat.add_assoc]

theorem sumRun_eq (shape : s.Shape) {count offset : Nat} {sum : SumResult}
    (run : ∀ p, offset ≤ p → p < offset + count → p ∈ s.positions) :
    s.sumRun count offset sum = some { sum with
      sumKeys := ((List.range' offset count).map s.keys).foldl addInt64 sum.sumKeys
      sumValues := ((List.range' offset count).map s.values).foldl addInt64 sum.sumValues } := by
  induction count generalizing offset sum with
  | zero => rfl
  | succ count ih =>
      have member := run offset le_rfl (by omega)
      rw [sumRun, shape.readKey_of_mem member, shape.readValue_of_mem member]
      simp only [Option.bind_eq_bind, Option.bind_some]
      rw [ih fun p lower upper => run p (by omega) (by omega)]
      simp [List.range'_succ]

/-- The loop over the runs adds up every occupied position before the bound. -/
theorem sumLoop_eq (shape : s.Shape) (stored : s.cardinality ≠ 0) {stopAt : Nat}
    (lastMem : stopAt - 1 ∈ s.positions) {fuel segmentId offset stop : Nat} {sum : SumResult}
    (enough : s.numberSegments - segmentId < fuel)
    (ongoing : offset < stopAt → segmentId < s.numberSegments ∧ offset < stop ∧ stop ≤ stopAt ∧
      (∀ p, offset ≤ p → p < stop → p ∈ s.positions) ∧
      (∀ p, p ∈ s.positions → stop ≤ p → p < stopAt →
        runNext segmentId < s.numberSegments ∧ s.start (runNext segmentId) ≤ p) ∧
      (runNext segmentId < s.numberSegments → stop ≤ s.start (runNext segmentId))) :
    s.sumLoop stopAt fuel segmentId offset stop sum =
      some (s.accumulate sum (window s.positions offset stopAt)) := by
  induction fuel generalizing segmentId offset stop sum with
  | zero => omega
  | succ fuel ih =>
      unfold sumLoop
      by_cases finished : offset < stopAt
      · rcases ongoing finished with ⟨within, progress, bounded, run, later, ahead⟩
        have whole : offset + (stop - offset) = stop := by omega
        rw [if_pos finished, window_append shape.positions_increasing progress.le bounded run,
          accumulate_append]
        rw [sumRun_eq shape fun p lower upper => run p lower (by omega)]
        simp only [Option.bind_eq_bind, Option.bind_some, whole]
        have added : ({ sum with
            numElements := sum.numElements + (stop - offset)
            sumKeys := ((List.range' offset (stop - offset)).map s.keys).foldl addInt64 sum.sumKeys
            sumValues :=
              ((List.range' offset (stop - offset)).map s.values).foldl addInt64 sum.sumValues } :
            SumResult) = s.accumulate sum (List.range' offset (stop - offset)) := by
          simp [accumulate]
        rw [added]
        change (if runNext segmentId < s.numberSegments then
          s.sumLoop stopAt fuel (runNext segmentId)
            ((runNext segmentId + 1) * s.segmentCapacity - s.segmentSizes (runNext segmentId))
            (Nat.min stopAt ((runNext segmentId + 1) * s.segmentCapacity -
              s.segmentSizes (runNext segmentId) + s.segmentSizes (runNext segmentId) +
              s.segmentSizes (runNext segmentId + 1))) _
          else s.sumLoop stopAt fuel (runNext segmentId) stop stop _) = _
        have advance : segmentId < runNext segmentId := by unfold runNext; omega
        by_cases more : runNext segmentId < s.numberSegments
        · rw [if_pos more]
          generalize nextEq : runNext segmentId = next at *
          have even : next % 2 = 0 := by
            rw [← nextEq, runNext]
            split <;> omega
          have size := shape.sizes_le next more
          have nonempty := shape.nonempty stored more
          have startEq : (next + 1) * s.segmentCapacity - s.segmentSizes next = s.start next := by
            rw [start, if_pos even]
          have starts := shape.start_lt_runStop more nonempty
          have bounds := layout size
          -- without a second segment the bound comes first, whatever its size reads as
          have stopEq : Nat.min stopAt (s.start next + s.segmentSizes next +
              s.segmentSizes (next + 1)) = min stopAt (s.runStop next) := by
            unfold runStop
            by_cases second : next + 1 < s.numberSegments
            · have adjacent := stop_eq_start_succ (s := s) even
              have boundsNext := layout (shape.sizes_le (next + 1) second)
              rw [if_pos ⟨even, second⟩]
              apply congrArg (min stopAt)
              omega
            · rcases shape.mem_positions.mp lastMem with ⟨j, insideJ, _, upperJ⟩
              have beyond : s.stop j ≤ s.stop next := by
                rcases Nat.eq_or_lt_of_le (show j ≤ next by omega) with rfl | before
                · exact le_rfl
                · have apart := stop_le_start (shape.sizes_le j insideJ) size before
                  omega
              rw [if_neg fun joined => second joined.2]
              change min stopAt _ = min stopAt _
              omega
          rw [startEq, stopEq]
          rw [ih (by omega) fun unfinished => ?_]
          · congr 2
            apply window_congr
            intro p member
            constructor
            · intro inside
              have reached := ahead more
              exact ⟨by omega, inside.2⟩
            · intro inside
              exact ⟨(later p member inside.1 inside.2).2, inside.2⟩
          · refine ⟨more, lt_min unfinished starts.1, min_le_left _ _, ?_, ?_, ?_⟩
            · intro p lower upper
              exact shape.run_mem more lower (lt_of_lt_of_le upper (min_le_right _ _))
            · intro p member after inside
              rcases min_le_iff.mp after with h | h
              · omega
              · exact shape.run_later more member h
            · intro further
              exact (min_le_right _ _).trans (shape.runStop_le more further)
        · rw [if_neg more]
          have reached : stop = stopAt := by
            by_contra early
            exact more (later (stopAt - 1) lastMem (by omega) (by omega)).1
          rw [reached, ih (by omega) fun unfinished => absurd unfinished (lt_irrefl _)]
      · rw [if_neg finished, window_eq_nil fun p _ after => (not_lt.mp finished).trans after]
        simp [accumulate]

end Sums

end Storage

/-! ## Range queries -/

section Queries

variable {s : Storage} {index : StaticIndex} {min max : Int}

/-- The start search leaves the scan at the first run of the range. -/
theorem firstRun {v : Storage.StartSearch} (even : v.Even) (stop : v.stop = s.stop v.segmentId) :
    (if (v.segmentEven && decide (v.segmentId + 1 < s.numberSegments)) = true then
        (v.segmentId + 1) * s.segmentCapacity + s.segmentSizes (v.segmentId + 1)
      else v.stop) = s.runStop v.segmentId := by
  rw [even, Storage.runStop, stop]
  by_cases parity : v.segmentId % 2 = 0
  · by_cases second : v.segmentId + 1 < s.numberSegments
    · simp [parity, second, Storage.stop, show (v.segmentId + 1) % 2 = 1 by omega]
    · simp [second]
  · simp [parity]

/-- The iterator of `find(min, max)` yields the elements in range, and stops. -/
theorem findRange_eq (inv : RepInv index s) (order : min ≤ max) :
    ∃ it, PackedMemoryArray.findRange index s min max = some (.ok it) ∧
      ∀ count, it.drain s count = some ((inRange s min max).take count) := by
  have nothing : ∀ it : Iterator, it.stop = 0 → inRange s min max = [] →
      ∀ count, it.drain s count = some ((inRange s min max).take count) := by
    intro it stop none count
    cases count with
    | zero => rfl
    | succ count => simp [Iterator.drain, Iterator.hasNext, stop, none]
  have shape := inv.shape
  unfold PackedMemoryArray.findRange
  by_cases stored : s.cardinality = 0
  · rw [if_pos stored]
    exact ⟨_, rfl, nothing _ rfl (inRange_of_cardinality shape stored)⟩
  · rw [if_neg stored]
    rcases searches inv stored order with ⟨firstLast, lastLt, v, found, even, cases_⟩
    unfold Iterator.create
    rw [if_neg (by omega), if_neg (by omega), found]
    simp only [Option.bind_eq_bind, Option.bind_some]
    rcases cases_ with ⟨notfound, none⟩ | ⟨isFound, inside, stop, lower, upper, cases_⟩
    · simp only [notfound, if_true, Option.pure_def]
      exact ⟨_, rfl, nothing _ rfl none⟩
    · have member : v.offset ∈ s.positions :=
        shape.mem_positions.mpr ⟨v.segmentId, inside, lower, by omega⟩
      rw [isFound, shape.readKey_of_mem member]
      rcases cases_ with ⟨beyond, none⟩ | ⟨within, w, e, foundEnd, offsetEnd, notBefore, _, bounds⟩
      · simp only [Bool.false_eq_true, if_false, Option.map_some, Option.bind_some, beyond,
          decide_true, if_true, Option.pure_def]
        exact ⟨_, rfl, nothing _ rfl none⟩
      · have notBeyond : ¬max < s.keys v.offset := by omega
        have after : ¬w.offset < (v.offset : Int) := by omega
        have stopAt : (w.offset + 1).toNat = e + 1 := by omega
        simp only [Bool.false_eq_true, if_false, Option.map_some, Option.bind_some, notBeyond,
          decide_false, foundEnd, after, stopAt, Option.pure_def, firstRun even stop]
        have starts := shape.start_lt_runStop inside (shape.nonempty stored inside)
        have next : (if (v.segmentEven && decide (v.segmentId + 1 < s.numberSegments)) = true then
            v.segmentId + 1 + 1 else v.segmentId + 1) = Storage.runNext v.segmentId ∨
            s.numberSegments ≤ (if (v.segmentEven &&
              decide (v.segmentId + 1 < s.numberSegments)) = true then
                v.segmentId + 1 + 1 else v.segmentId + 1) ∧
              s.numberSegments ≤ Storage.runNext v.segmentId := by
          rw [even, Storage.runNext]
          by_cases parity : v.segmentId % 2 = 0
          · by_cases second : v.segmentId + 1 < s.numberSegments
            · simp [parity, second]
            · right
              simp [parity, second]
              omega
          · simp [parity]
        generalize (if (v.segmentEven && decide (v.segmentId + 1 < s.numberSegments)) = true then
          v.segmentId + 1 + 1 else v.segmentId + 1) = nextSegment at next
        refine ⟨_, rfl, fun count => ?_⟩
        have valid : Iterator.Valid s ⟨nextSegment, v.offset,
            Nat.min (e + 1) (s.runStop v.segmentId), e + 1⟩ := by
          refine ⟨?_, Nat.min_le_left _ _, ?_, ?_, ?_⟩
          · rcases next with rfl | ⟨last, _⟩
            · left
              change Storage.runNext v.segmentId % 2 = 0
              unfold Storage.runNext
              split <;> omega
            · exact Or.inr last
          · intro p lowerP upperP
            exact shape.run_mem inside (lower.trans lowerP)
              (lt_of_lt_of_le upperP (Nat.min_le_right _ _))
          · intro p memP afterP beforeP
            have past : s.runStop v.segmentId ≤ p := by
              rcases min_le_iff.mp (show Min.min (e + 1) (s.runStop v.segmentId) ≤ p from afterP)
                with h | h
              · simp only at beforeP
                omega
              · exact h
            have later := shape.run_later inside memP past
            rcases next with rfl | ⟨_, last⟩
            · exact later
            · omega
          · intro further
            rcases next with rfl | ⟨last, _⟩
            · exact (Nat.min_le_right _ _).trans (shape.runStop_le inside further)
            · simp only at further
              omega
        rw [valid.drain shape stored count, bounds.inRange_eq, Iterator.remaining, if_pos]
        change v.offset < Nat.min (e + 1) (s.runStop v.segmentId)
        exact lt_min (by omega) (by omega)

/-- `sum(min, max)` aggregates the elements in range. -/
theorem sum_eq (inv : RepInv index s) (order : min ≤ max) :
    ∃ r, PackedMemoryArray.sum index s min max = some r ∧
      r.numElements = (inRange s min max).length ∧
      r.sumKeys = ((inRange s min max).map Prod.fst).sum.bmod (2 ^ 64) ∧
      r.sumValues = ((inRange s min max).map Prod.snd).sum.bmod (2 ^ 64) ∧
      (∀ e, (inRange s min max).head? = some e → r.firstKey = e.1) ∧
      ∀ e, (inRange s min max).getLast? = some e → r.lastKey = e.1 := by
  have shape := inv.shape
  unfold PackedMemoryArray.sum Storage.doSum
  by_cases stored : s.cardinality = 0
  · have none : inRange s min max = [] := inRange_of_cardinality shape stored
    rw [if_pos (Or.inl stored)]
    exact ⟨_, rfl, by simp [none, SumResult.empty]⟩
  · rcases searches inv stored order with ⟨firstLast, lastLt, v, found, even, cases_⟩
    rw [if_neg (by omega), found]
    simp only [Option.bind_eq_bind, Option.bind_some]
    rcases cases_ with ⟨notfound, none⟩ | ⟨isFound, inside, stop, lower, upper, cases_⟩
    · simp only [notfound, if_true, Option.pure_def]
      exact ⟨_, rfl, by simp [none, SumResult.empty]⟩
    · have member : v.offset ∈ s.positions :=
        shape.mem_positions.mpr ⟨v.segmentId, inside, lower, by omega⟩
      rw [isFound, shape.readKey_of_mem member]
      rcases cases_ with ⟨beyond, none⟩ | ⟨within, w, e, foundEnd, offsetEnd, notBefore, lastMem,
        bounds⟩
      · simp only [Bool.false_eq_true, if_false, Option.map_some, Option.bind_some, beyond,
          decide_true, if_true, Option.pure_def]
        exact ⟨_, rfl, by simp [none, SumResult.empty]⟩
      · have notBeyond : ¬max < s.keys v.offset := by omega
        have after : ¬w.offset + 1 ≤ (v.offset : Int) := by omega
        have stopAt : (w.offset + 1).toNat = e + 1 := by omega
        have run : (if (v.segmentEven && decide (v.segmentId < s.numberSegments - 1)) = true then
            (v.segmentId + 1) * s.segmentCapacity + s.segmentSizes (v.segmentId + 1)
            else v.stop) = s.runStop v.segmentId := by
          rw [← firstRun even stop]
          simp only [Nat.lt_sub_iff_add_lt]
        have starts := shape.start_lt_runStop inside (shape.nonempty stored inside)
        simp only [Bool.false_eq_true, if_false, Option.map_some, Option.bind_some, notBeyond,
          decide_false, foundEnd, after, stopAt, Option.pure_def, run, Nat.add_sub_cancel]
        rw [Storage.sumLoop_eq shape stored (by simpa using lastMem) (by omega) fun _ => ?_,
          shape.readKey_of_mem lastMem]
        · refine ⟨_, rfl, ?_, ?_, ?_, ?_, ?_⟩
          · simp [Storage.accumulate, SumResult.empty, bounds.inRange_eq]
          · simp only [Storage.accumulate, SumResult.empty, bounds.inRange_eq,
              SumResult.foldl_addInt64_zero, List.map_map]
            rfl
          · simp only [Storage.accumulate, SumResult.empty, bounds.inRange_eq,
              SumResult.foldl_addInt64_zero, List.map_map]
            rfl
          · intro first isFirst
            rw [bounds.inRange_eq, window_cons shape.positions_increasing member (by omega)]
              at isFirst
            cases isFirst
            rfl
          · intro last isLast
            rw [bounds.inRange_eq, window_concat shape.positions_increasing lastMem notBefore,
              List.map_append, List.map_singleton, List.getLast?_concat] at isLast
            cases isLast
            rfl
        · refine ⟨inside, lt_min (by omega) (by omega), Nat.min_le_right _ _, ?_, ?_, ?_⟩
          · intro p lowerP upperP
            exact shape.run_mem inside (lower.trans lowerP)
              (lt_of_lt_of_le upperP (Nat.min_le_left _ _))
          · intro p memP afterP beforeP
            apply shape.run_later inside memP
            rcases min_le_iff.mp (show Min.min (s.runStop v.segmentId) (e + 1) ≤ p from afterP)
              with h | h
            · exact h
            · omega
          · intro further
            exact (Nat.min_le_left _ _).trans (shape.runStop_le inside further)

end Queries

/-- **Range scans are exact.** In every state that satisfies the representation
invariant and for `min ≤ max`, the iterator of `find(min, max)` yields the
elements with a key in `[min, max]`, each once and in order, and then stops, and
`sum(min, max)` aggregates the same elements; both read occupied cells only. -/
theorem rangeScan_exact {index : StaticIndex} {s : Storage} {min max : Int}
    (inv : RepInv index s) (order : min ≤ max) :
    let expected := s.elements.filter fun e => min ≤ e.1 ∧ e.1 ≤ max
    (expected.map Prod.fst).Pairwise (· ≤ ·) ∧
      (∃ it, PackedMemoryArray.findRange index s min max = some (.ok it) ∧
        ∀ count, it.drain s count = some (expected.take count)) ∧
      ∃ r, PackedMemoryArray.sum index s min max = some r ∧
        r.numElements = expected.length ∧
        r.sumKeys = (expected.map Prod.fst).sum.bmod (2 ^ 64) ∧
        r.sumValues = (expected.map Prod.snd).sum.bmod (2 ^ 64) ∧
        (∀ e, expected.head? = some e → r.firstKey = e.1) ∧
        ∀ e, expected.getLast? = some e → r.lastKey = e.1 := by
  refine ⟨?_, findRange_eq inv order, sum_eq inv order⟩
  exact List.Pairwise.sublist (List.filter_sublist.map Prod.fst) inv.sorted

/-- An array of two segments, with the key 3 in both. -/
def twoSegments : Storage where
  keys := fun p => [0, 0, 1, 3, 3, 5, 0, 0].getD p 0
  values := fun p => [0, 0, 10, 30, 31, 50, 0, 0].getD p 0
  segmentSizes := fun i => [2, 2].getD i 0
  segmentCapacity := 4
  cardinality := 4
  numberSegments := 2
  pagesPerExtent := 1

theorem repInv_twoSegments : ∃ index, RepInv index twoSegments := by
  have ⟨u, index, built⟩ : ∃ u index,
      StaticIndex.create 4 2 (some fun _ => 0) (StaticIndex.blank 4) = .ok u index := ⟨_, _, rfl⟩
  have stored := StaticIndex.storeAll_separators (StaticIndex.create_ok (by decide) built)
    (show ∀ e ∈ [(0, 1), (1, 3)], e.1 < 2 by decide)
  refine ⟨index.storeAll [(0, 1), (1, 3)], ⟨by decide, by decide, by decide, by decide⟩, by decide,
    by unfold Storage.Sorted; decide, _, stored, ?_⟩
  intro i inside _
  have inside : i < 2 := inside
  interval_cases i <;> rfl

theorem rangeScan_exact_twoSegments :
    ∃ index, RepInv index twoSegments ∧
      (∃ it, PackedMemoryArray.findRange index twoSegments 2 4 = some (.ok it) ∧
        it.drain twoSegments 9 = some [(3, 30), (3, 31)]) ∧
      ∃ r, PackedMemoryArray.sum index twoSegments 2 4 = some r ∧ r.sumValues = 61 := by
  obtain ⟨index, inv⟩ := repInv_twoSegments
  rcases rangeScan_exact inv (show (2 : Int) ≤ 4 by decide) with
    ⟨_, ⟨it, found, yields⟩, r, summed, _, _, values, _⟩
  exact ⟨index, inv, ⟨it, found, yields 9⟩, r, summed, values⟩

end Rma
