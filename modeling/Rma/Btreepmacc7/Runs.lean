import Rma.Base.Live
import Rma.FindWindow
import Rma.RangeScan

/-!
# Runs of a bulk load

A sorted batch is cut into runs, each of which goes to one segment. Where the segment would
exceed its threshold its run grows to a window of the calibrator tree: the window is doubled
until its density is within the threshold of its height, and the runs whose segments it comes
to contain are fused with it. Those before it have grown already and may be windows, those after
it are still single segments; a fused run stays in the vector, marked as not valid.

`Span` is the invariant: a run with the segments counted so far, which need not be a window.
It grows by a segment, or by the run beside it. Whatever the order in which the runs have grown, a
window is examined with the elements of its segments and those of the batch that the index sends
there, its `load`. The number of its cells is an `int`: a window of `2 ^ 31` cells has a negative
density, and its run stops there whatever its load is.
-/

namespace Rma

open Base

/-- `BlkRunInfo`: a run of the batch and its window. -/
structure BlkRunInfo where
  runStart : Nat
  runLength : Nat
  cardinality : Nat
  windowStart : Nat
  windowLength : Nat
  valid : Bool
  deriving DecidableEq, Repr

namespace BlkRunInfo

/-- `BlkRunInfo(array_index, segment_id)` -/
def create (arrayIndex segmentId : Nat) : BlkRunInfo where
  runStart := arrayIndex
  runLength := 1
  cardinality := 0
  windowStart := segmentId
  windowLength := 1
  valid := true

/-- The segment after the window. -/
def windowEnd (r : BlkRunInfo) : Nat := r.windowStart + r.windowLength

/-- The elements of the run. -/
def piece (batch : List (Int × Int)) (r : BlkRunInfo) : List (Int × Int) :=
  (batch.drop r.runStart).take r.runLength

end BlkRunInfo

namespace Storage

/-- The greatest key that goes to a segment. -/
def keyMax (s : Storage) (segmentId : Nat) : Int :=
  if segmentId + 1 < s.numberSegments then s.getMinimum (segmentId + 1) else 2 ^ 63 - 1

/-- `sizes[index]`, undefined outside the array. -/
def sizeAt (s : Storage) (index : Int) : Option Nat :=
  if 0 ≤ index ∧ index < s.numberSegments then some (s.segmentSizes index.toNat) else none

end Storage

namespace BTreePMACC7

/-! ## Generating the runs -/

/-- The loop of `load_generate_runs` from position `i` of the batch on. -/
def generateRuns (index : StaticIndex) (s : Storage) (i : Nat) :
    List (Int × Int) → List BlkRunInfo
  | [] => []
  | e :: rest =>
    let segmentId := index.findFirst e.1
    let max := s.keyMax segmentId
    let taken := rest.takeWhile fun e => decide (e.1 ≤ max)
    let entry := BlkRunInfo.create i segmentId
    let entry := { entry with runLength := entry.runLength + taken.length }
    let entry := { entry with cardinality := s.segmentSizes segmentId + entry.runLength }
    entry :: generateRuns index s (i + entry.runLength) (rest.drop taken.length)
termination_by l => l.length

/-- `load_generate_runs(array, array_sz)` -/
def loadGenerateRuns (index : StaticIndex) (s : Storage) (batch : List (Int × Int)) :
    List BlkRunInfo :=
  generateRuns index s 0 batch

/-! ## Fusing the runs -/

/-- A cursor on the vector: `sindex`, and in `srun` the segment of the window of that run that
is the nearest one, or -1. -/
structure Cursor where
  sindex : Int
  srun : Int

/-- The search for the valid run on the left, among the first `count` ones. -/
def seekLeft (runs : List BlkRunInfo) : (count : Nat) → Option Cursor
  | 0 => some ⟨-1, -1⟩
  | k + 1 => do
    let run ← runs[k]?
    if run.valid then some ⟨k, run.windowStart + run.windowLength - 1⟩ else seekLeft runs k

/-- The search for the valid run on the right, among those from `sindex` on. -/
def seekRight : (rest : List BlkRunInfo) → (sindex : Nat) → Cursor
  | [], sindex => ⟨sindex, -1⟩
  | run :: rest, sindex =>
    if run.valid then ⟨sindex, run.windowStart⟩ else seekRight rest (sindex + 1)

/-- `runs[k]` -/
def entryAt (runs : List BlkRunInfo) (k : Int) : Option BlkRunInfo :=
  if 0 ≤ k then runs[k.toNat]? else none

/-- The variables of the loops over the segments around a run. -/
structure Fusion where
  runs : List BlkRunInfo
  numElements : Nat
  windexLeft : Int
  windexRight : Int
  left : Cursor
  right : Cursor

/-- A turn to the left for the run `i`: fuse a run or count a segment. -/
def turnLeft (s : Storage) (i : Nat) (f : Fusion) : Option Fusion :=
  if f.windexLeft = f.left.srun then do
    let fused ← entryAt f.runs f.left.sindex
    let run ← f.runs[i]?
    let runs := f.runs.set i
      { run with runStart := fused.runStart, runLength := run.runLength + fused.runLength }
    let runs := runs.set f.left.sindex.toNat { fused with valid := false }
    let left ← seekLeft runs f.left.sindex.toNat
    some { f with
      runs := runs
      numElements := f.numElements + fused.cardinality
      windexLeft := fused.windowStart - 1
      left := left }
  else do
    let size ← s.sizeAt f.windexLeft
    some { f with numElements := f.numElements + size, windexLeft := f.windexLeft - 1 }

/-- A turn to the right. -/
def turnRight (s : Storage) (i : Nat) (f : Fusion) : Option Fusion :=
  if f.windexRight = f.right.srun then do
    let fused ← entryAt f.runs f.right.sindex
    let run ← f.runs[i]?
    let runs := f.runs.set i { run with runLength := run.runLength + fused.runLength }
    let runs := runs.set f.right.sindex.toNat { fused with valid := false }
    let next := f.right.sindex.toNat + 1
    some { f with
      runs := runs
      numElements := f.numElements + fused.cardinality
      windexRight := fused.windowStart + fused.windowLength
      right := seekRight (runs.drop next) next }
  else do
    let size ← s.sizeAt f.windexRight
    some { f with numElements := f.numElements + size, windexRight := f.windexRight + 1 }

/-- Move backwards, with a bound on the number of turns. -/
def moveLeft (s : Storage) (i : Nat) (windowStart : Int) : (turns : Nat) → Fusion → Option Fusion
  | 0, _ => none
  | turns + 1, f =>
    if f.windexLeft ≥ windowStart then
      (turnLeft s i f).bind (moveLeft s i windowStart turns)
    else some f

/-- Move forwards. -/
def moveRight (s : Storage) (i : Nat) (windowEnd : Int) : (turns : Nat) → Fusion → Option Fusion
  | 0, _ => none
  | turns + 1, f =>
    if f.windexRight < windowEnd then
      (turnRight s i f).bind (moveRight s i windowEnd turns)
    else some f

/-- The window of a run, and the variables of its loops. -/
structure Widening where
  height : Nat
  windowLength : Nat
  windowId : Nat
  fusion : Fusion

namespace Widening

/-- `window_start`; in a window of one segment it is the segment. -/
def windowStart (w : Widening) : Nat := w.windowId * w.windowLength

/-- `density`: the product of the window length and the capacity is an `int`. The quotient is exact
in doubles, as the capacity is a power of two. -/
def density (s : Storage) (w : Widening) : ℚ :=
  if w.height = 1 then w.fusion.numElements / s.segmentCapacity
  else w.fusion.numElements / toInt (w.windowLength * s.segmentCapacity : Nat)

end Widening

/-- The upper threshold at a height: `get_upper_threshold_leaves()` or `thresholds(height)`. -/
def theta (d : DensityBounds) (s : Storage) (height : Nat) : ℚ :=
  if height = 1 then d.theta0 else (d.thresholds s.height height).2

/-- The body of the loop over the heights. -/
def widen (s : Storage) (i : Nat) (w : Widening) : Option Widening := do
  let windowLength := w.windowLength * 2
  let windowId := w.windowId / 2
  let windowStart := windowId * windowLength
  let windowEnd := windowStart + windowLength
  let f ← moveLeft s i windowStart (s.numberSegments + 1) w.fusion
  let f ← moveRight s i windowEnd (s.numberSegments + 1) f
  some ⟨w.height + 1, windowLength, windowId, f⟩

/-- The loop over the heights, with a bound on the number of its turns. -/
def widenLoop (s : Storage) (d : DensityBounds) (i : Nat) : (turns : Nat) → Widening →
    Option Widening
  | 0, _ => none
  | turns + 1, w => (widen s i w).bind fun w =>
      if w.density s > theta d s w.height ∧ w.height < s.height then widenLoop s d i turns w
      else some w

/-- The window of a run before the loop: its segment. -/
def firstWindow (runs : List BlkRunInfo) (i : Nat) (run : BlkRunInfo) : Widening :=
  let segmentId := run.windowStart
  ⟨1, 1, segmentId,
    { runs := runs
      numElements := run.cardinality
      windexLeft := segmentId - 1
      windexRight := segmentId + 1
      left := ⟨i - 1, -1⟩
      right := ⟨i + 1, -1⟩ }⟩

/-- The window of the run `i`. -/
def fuseRun (s : Storage) (d : DensityBounds) (runs : List BlkRunInfo) (i : Nat)
    (run : BlkRunInfo) : Option Widening :=
  let first := firstWindow runs i run
  if s.height > 1 ∧ first.density s > theta d s 1 then do
    let left ← seekLeft runs i
    let right := seekRight (runs.drop (i + 1)) (i + 1)
    widenLoop s d i s.height
      { first with fusion := { first.fusion with left := left, right := right } }
  else some first

/-- The loop of `load_fuse_runs` over the last `count` runs, from the run `i` on. -/
def fuseRuns (s : Storage) (d : DensityBounds) : (count : Nat) → (i : Nat) → List BlkRunInfo →
    Option (Bool × List BlkRunInfo)
  | 0, _, runs => some (false, runs)
  | count + 1, i, runs => do
    let run ← runs[i]?
    if run.valid then do
      let w ← fuseRun s d runs i run
      let run ← w.fusion.runs[i]?
      let runs := w.fusion.runs.set i { run with
        windowStart := w.windowStart
        windowLength := w.windowLength
        cardinality := w.fusion.numElements }
      -- no point in continuing, the whole array needs to be resized anyway
      if w.windowLength = s.numberSegments ∧ w.density s > theta d s w.height then
        some (true, runs)
      else fuseRuns s d count (i + 1) runs
    else fuseRuns s d count (i + 1) runs -- fused with a previous run

/-- `load_fuse_runs(runs)`: whether to resize, and the runs. -/
def loadFuseRuns (s : Storage) (d : DensityBounds) (runs : List BlkRunInfo) :
    Option (Bool × List BlkRunInfo) :=
  fuseRuns s d runs.length 0 runs

/-! ## Spans -/

/-- The runs have consecutive pieces of the batch, from `a` to `b`. -/
def Consecutive : (a : Nat) → List BlkRunInfo → (b : Nat) → Prop
  | a, [], b => a = b
  | a, r :: runs, b => r.runStart = a ∧ 0 < r.runLength ∧ Consecutive (a + r.runLength) runs b

/-- The run of `length` elements from `start` on, with the elements of the segments from `a` to
`b`: `n` elements in all. Its keys are between those of the segments outside. -/
structure Span (s : Storage) (batch : List (Int × Int)) (start length n a b : Nat) : Prop where
  some : 0 < length
  order : a < b
  inside : b ≤ s.numberSegments
  count : n = length + ∑ i ∈ Finset.Ico a b, s.segmentSizes i
  lower : 0 < a → ∀ e ∈ (batch.drop start).take length, s.keys (s.stop (a - 1) - 1) ≤ e.1
  upper : b < s.numberSegments → ∀ e ∈ (batch.drop start).take length, e.1 ≤ s.getMinimum b

/-- A run and its window: an aligned window of a power of two segments, the number of elements
in it with those of the run, and keys in between those of the segments outside. -/
structure Fits (s : Storage) (batch : List (Int × Int)) (r : BlkRunInfo) : Prop where
  span : Span s batch r.runStart r.runLength r.cardinality r.windowStart r.windowEnd
  aligned : ∃ k, r.windowLength = 2 ^ k ∧ 2 ^ k ∣ r.windowStart

/-- The density of the window of a run is within the threshold of its height. -/
def Within (s : Storage) (d : DensityBounds) (r : BlkRunInfo) : Prop :=
  (r.cardinality : ℚ) / (r.windowLength * s.segmentCapacity : Nat) ≤
    theta d s (Nat.log 2 r.windowLength + 1)

/-- The run covers the whole array and exceeds the threshold of the root. -/
def Overfull (s : Storage) (d : DensityBounds) (r : BlkRunInfo) : Prop :=
  r.windowStart = 0 ∧ r.windowLength = s.numberSegments ∧
    theta d s s.height < (r.cardinality : ℚ) / (r.windowLength * s.segmentCapacity : Nat)

/-- The valid runs, when the array need not be resized. -/
structure Fused (s : Storage) (d : DensityBounds) (batch : List (Int × Int))
    (runs : List BlkRunInfo) : Prop where
  consecutive : Consecutive 0 runs batch.length
  apart : runs.Pairwise fun r r' => r.windowEnd ≤ r'.windowStart
  fits : ∀ r ∈ runs, Fits s batch r
  within : ∀ r ∈ runs, Within s d r

/-- The elements of the segments from `a` to `b`, with those that the index sends there. -/
def load (index : StaticIndex) (s : Storage) (batch : List (Int × Int)) (a b : Nat) : Nat :=
  (batch.countP fun e => decide (a ≤ index.findFirst e.1 ∧ index.findFirst e.1 < b)) +
    ∑ i ∈ Finset.Ico a b, s.segmentSizes i

/-- The window of `2 ^ k` segments around a segment exceeds the threshold of its height. -/
def Crowded (index : StaticIndex) (s : Storage) (d : DensityBounds) (batch : List (Int × Int))
    (segment k : Nat) : Prop :=
  theta d s (k + 1) <
    (load index s batch (segment / 2 ^ k * 2 ^ k) (segment / 2 ^ k * 2 ^ k + 2 ^ k) : ℚ) /
      (2 ^ k * s.segmentCapacity : Nat)

/-- An element of the batch goes to a segment around which all windows exceed their thresholds, up
to one with so many cells that their number is not an `int`. -/
def Overflows (index : StaticIndex) (s : Storage) (d : DensityBounds)
    (batch : List (Int × Int)) : Prop :=
  ∃ e ∈ batch, ∃ k, 2 ^ k ≤ s.numberSegments ∧ 2 ^ 31 ≤ 2 ^ k * s.segmentCapacity ∧
    ∀ j ≤ k, Crowded index s d batch (index.findFirst e.1) j

/-! ## The invariant of the loops -/

/-- The elements of a run go to the segments from `a` to `b`. -/
def Routed (index : StaticIndex) (batch : List (Int × Int)) (r : BlkRunInfo) (a b : Nat) : Prop :=
  ∀ e ∈ r.piece batch, a ≤ index.findFirst e.1 ∧ index.findFirst e.1 < b

/-- A run that fits, and whose elements go to its window. -/
structure Sound (index : StaticIndex) (s : Storage) (batch : List (Int × Int)) (r : BlkRunInfo) :
    Prop extends Fits s batch r where
  routed : Routed index batch r r.windowStart r.windowEnd

/-- The window of `2 ^ k` segments around a segment is where a run stops: the smaller windows exceed
their thresholds, and this one does not or its number of cells is not an `int`. -/
structure Halted (index : StaticIndex) (s : Storage) (d : DensityBounds)
    (batch : List (Int × Int)) (segment k : Nat) : Prop where
  inside : 2 ^ k ≤ s.numberSegments
  below : ∀ j < k, Crowded index s d batch segment j
  cells : 2 ^ k * s.segmentCapacity < 2 ^ 32
  stops : 2 ^ k * s.segmentCapacity < 2 ^ 31 → ¬Crowded index s d batch segment k

/-- A run has grown to the window where it stops. -/
def Settled (index : StaticIndex) (s : Storage) (d : DensityBounds) (batch : List (Int × Int))
    (r : BlkRunInfo) : Prop :=
  ∃ e ∈ batch, ∃ k, r.windowLength = 2 ^ k ∧
    r.windowStart = index.findFirst e.1 / 2 ^ k * 2 ^ k ∧
    Halted index s d batch (index.findFirst e.1) k

/-- The valid runs when those in `done` have been fused and those in `todo` have not. -/
structure Cut (index : StaticIndex) (s : Storage) (d : DensityBounds) (batch : List (Int × Int))
    (done todo : List BlkRunInfo) : Prop where
  consecutive : Consecutive 0 (done ++ todo) batch.length
  apart : (done ++ todo).Pairwise fun r r' => r.windowEnd ≤ r'.windowStart
  sound : ∀ r ∈ done ++ todo, Sound index s batch r
  settled : ∀ r ∈ done, Settled index s d batch r
  single : ∀ r ∈ todo, r.windowLength = 1

section Pieces

variable {batch : List (Int × Int)} {l l' : List BlkRunInfo} {r run fused : BlkRunInfo} {a b c : Nat}

theorem consecutive_append :
    Consecutive a (l ++ l') c ↔ ∃ b, Consecutive a l b ∧ Consecutive b l' c := by
  induction l generalizing a with
  | nil => simp [Consecutive]
  | cons r l ih =>
      simp only [List.cons_append, Consecutive, ih]
      constructor
      · rintro ⟨start, some, b, left, right⟩
        exact ⟨b, ⟨start, some, left⟩, right⟩
      · rintro ⟨b, ⟨start, some, left⟩, right⟩
        exact ⟨start, some, b, left, right⟩

theorem Consecutive.le (consecutive : Consecutive a l b) : a ≤ b := by
  induction l generalizing a with
  | nil => exact consecutive.le
  | cons r l ih => exact (Nat.le_add_right a _).trans (ih consecutive.2.2)

/-- The pieces in order are the batch. -/
theorem Consecutive.flatMap (batch : List (Int × Int)) (consecutive : Consecutive a l b) :
    l.flatMap (BlkRunInfo.piece batch) = (batch.drop a).take (b - a) := by
  induction l generalizing a with
  | nil =>
      obtain rfl : a = b := consecutive
      rw [Nat.sub_self, List.take_zero, List.flatMap_nil]
  | cons r l ih =>
      obtain ⟨start, -, rest⟩ := consecutive
      have after := rest.le
      rw [List.flatMap_cons, ih rest, BlkRunInfo.piece, start, ← List.drop_drop, ← List.take_add]
      congr 1
      omega

/-- Two neighbouring runs are fused. -/
theorem Consecutive.fuse (consecutive : Consecutive a (l ++ r :: run :: l') b)
    (start : fused.runStart = r.runStart) (length : fused.runLength = r.runLength + run.runLength) :
    Consecutive a (l ++ fused :: l') b := by
  rw [consecutive_append] at consecutive ⊢
  obtain ⟨m, left, first, some, -, -, right⟩ := consecutive
  refine ⟨m, left, start.trans first, by omega, ?_⟩
  rwa [length, ← Nat.add_assoc]

/-- The piece of two neighbouring runs. -/
theorem piece_join (batch : List (Int × Int)) (start : fused.runStart = r.runStart)
    (follows : run.runStart = r.runStart + r.runLength)
    (length : fused.runLength = r.runLength + run.runLength) :
    fused.piece batch = r.piece batch ++ run.piece batch := by
  unfold BlkRunInfo.piece
  rw [start, length, follows, List.take_add, List.drop_drop]

/-- A run is replaced by one with the same piece. -/
theorem Consecutive.replace (consecutive : Consecutive a (l ++ run :: l') b)
    (start : fused.runStart = run.runStart) (length : fused.runLength = run.runLength) :
    Consecutive a (l ++ fused :: l') b := by
  rw [consecutive_append] at consecutive ⊢
  obtain ⟨m, left, first, some, right⟩ := consecutive
  exact ⟨m, left, start.trans first, by omega, by rwa [length]⟩

end Pieces

section Order

variable {index : StaticIndex} {s : Storage} {i j : Nat}

/-- The first position of a segment and the last one. -/
theorem ends_mem (shape : s.Shape) (several : 1 < s.numberSegments) (inside : i < s.numberSegments) :
    s.start i ∈ s.positions ∧ s.stop i - 1 ∈ s.positions ∧ s.start i ≤ s.stop i - 1 := by
  have some := shape.sizes_pos several i inside
  have bounds := Storage.layout (shape.sizes_le i inside)
  exact ⟨shape.mem_positions.mpr ⟨i, inside, le_rfl, by omega⟩,
    shape.mem_positions.mpr ⟨i, inside, by omega, by omega⟩, by omega⟩

/-- The keys of a segment are at most those of a later one. -/
theorem last_le_minimum (inv : RepInv index s) (before : i < j) (inside : j < s.numberSegments) :
    s.keys (s.stop i - 1) ≤ s.getMinimum j := by
  have shape := inv.shape
  have several : 1 < s.numberSegments := by omega
  obtain ⟨-, last, -⟩ := ends_mem shape several (before.trans inside)
  obtain ⟨first, -, -⟩ := ends_mem shape several inside
  have apart := Storage.stop_le_start (shape.sizes_le i (before.trans inside))
    (shape.sizes_le j inside) before
  exact shape.keys_le inv.sorted last first (by omega)

theorem minimum_le_last (inv : RepInv index s) (several : 1 < s.numberSegments)
    (inside : i < s.numberSegments) : s.getMinimum i ≤ s.keys (s.stop i - 1) := by
  obtain ⟨first, last, order⟩ := ends_mem inv.shape several inside
  exact inv.shape.keys_le inv.sorted first last order

theorem last_le (inv : RepInv index s) (order : i ≤ j) (several : 1 < s.numberSegments)
    (inside : j < s.numberSegments) : s.keys (s.stop i - 1) ≤ s.keys (s.stop j - 1) := by
  rcases Nat.eq_or_lt_of_le order with rfl | before
  · exact le_rfl
  · exact (last_le_minimum inv before inside).trans (minimum_le_last inv several inside)

theorem minimum_le (inv : RepInv index s) (order : i ≤ j) (inside : j < s.numberSegments) :
    s.getMinimum i ≤ s.getMinimum j := by
  rcases Nat.eq_or_lt_of_le order with rfl | before
  · exact le_rfl
  · exact (minimum_le_last inv (by omega) (before.trans inside)).trans
      (last_le_minimum inv before inside)

/-- The segment that the index finds: the last one whose minimum is below the key. -/
theorem findFirst_segment (inv : RepInv index s) (key : Int) :
    index.findFirst key < s.numberSegments ∧
      (0 < index.findFirst key → s.getMinimum (index.findFirst key) < key) ∧
      ∀ i, 0 < i → i < s.numberSegments → s.getMinimum i < key → i ≤ index.findFirst key := by
  have positive := inv.segments_pos
  obtain ⟨seps, separators, minima⟩ := inv.separators
  have equal : 1 < s.numberSegments → ∀ i, i < s.numberSegments → seps i = s.getMinimum i :=
    fun several i inside => minima i inside (inv.shape.sizes_pos several i inside)
  have sorted : ∀ i j, i ≤ j → j < s.numberSegments → seps i ≤ seps j := by
    intro i j order inside
    by_cases several : 1 < s.numberSegments
    · rw [equal several i (by omega), equal several j inside]
      exact minimum_le inv order inside
    · rw [show i = j by omega]
  have found := (separators.find_spec sorted key).2.1
  have below : index.findFirst key ≤ s.numberSegments - 1 := found ▸ Nat.findGreatest_le _
  refine ⟨by omega, fun above => ?_, fun i above inside small => ?_⟩
  · rw [← equal (by omega) _ (by omega)]
    rw [found] at above ⊢
    exact Nat.findGreatest_of_ne_zero (P := fun i => seps i < key) rfl (by omega)
  · rw [found]
    apply Nat.le_findGreatest (by omega)
    rwa [equal (by omega) i inside]

end Order

section Spans

variable {index : StaticIndex} {s : Storage} {batch : List (Int × Int)}
  {start length length' n n' a b c : Nat}

/-- A segment on the left is counted. -/
theorem Span.left (span : Span s batch start length n (a + 1) b) (inv : RepInv index s) :
    Span s batch start length (n + s.segmentSizes a) a b := by
  have order := span.order
  have inside := span.inside
  refine ⟨span.some, by omega, span.inside, ?_, fun above e member => ?_, span.upper⟩
  · rw [span.count, Finset.sum_eq_sum_Ico_succ_bot (by omega : a < b)]
    omega
  · exact (last_le inv (Nat.sub_le a 1) (by omega) (by omega)).trans
      (span.lower (Nat.succ_pos a) e member)

/-- A segment on the right is counted. -/
theorem Span.right (span : Span s batch start length n a b) (inv : RepInv index s)
    (inside : b < s.numberSegments) :
    Span s batch start length (n + s.segmentSizes b) a (b + 1) := by
  have order := span.order
  refine ⟨span.some, by omega, inside, ?_, span.lower, fun below e member => ?_⟩
  · rw [span.count, Finset.sum_Ico_succ_top (by omega)]
    omega
  · exact (span.upper inside e member).trans (minimum_le inv (Nat.le_succ b) below)

/-- Two spans side by side are one. -/
theorem Span.join (left : Span s batch start length n a b)
    (right : Span s batch (start + length) length' n' b c) (inv : RepInv index s) :
    Span s batch start (length + length') (n + n') a c := by
  have order := left.order
  have order' := right.order
  have inside := right.inside
  have both : (batch.drop start).take (length + length') =
      (batch.drop start).take length ++ (batch.drop (start + length)).take length' := by
    rw [List.take_add, List.drop_drop]
  refine ⟨Nat.add_pos_left left.some _, by omega, inside, ?_, ?_, ?_⟩
  · rw [left.count, right.count,
      ← Finset.sum_Ico_consecutive _ (by omega : a ≤ b) (by omega : b ≤ c)]
    omega
  · intro above e member
    rw [both, List.mem_append] at member
    rcases member with first | second
    · exact left.lower above e first
    · exact (last_le inv (by omega) (by omega) (by omega)).trans
        (right.lower (by omega) e second)
  · intro below e member
    rw [both, List.mem_append] at member
    rcases member with first | second
    · exact (left.upper (by omega) e first).trans (minimum_le inv (by omega) below)
    · exact right.upper below e second

end Spans

section Loads

variable {index : StaticIndex} {s : Storage} {batch : List (Int × Int)}
  {l l' : List BlkRunInfo} {r run fused : BlkRunInfo} {a a' b b' c : Nat}

theorem Routed.mono (routed : Routed index batch r a b) (start : a' ≤ a) (stop : b ≤ b') :
    Routed index batch r a' b' := fun e member =>
  ⟨start.trans (routed e member).1, (routed e member).2.trans_le stop⟩

/-- Two neighbouring runs are fused. -/
theorem Routed.join (left : Routed index batch r a b) (right : Routed index batch run b c)
    (first : a ≤ b) (second : b ≤ c) (start : fused.runStart = r.runStart)
    (follows : run.runStart = r.runStart + r.runLength)
    (length : fused.runLength = r.runLength + run.runLength) : Routed index batch fused a c := by
  intro e member
  rw [piece_join batch start follows length, List.mem_append] at member
  rcases member with before | after
  · exact left.mono le_rfl second e before
  · exact right.mono first le_rfl e after

/-- The run whose window contains the segment of an element is that of the element. -/
theorem countP_outside (beside : ∀ r ∈ l, Sound index s batch r ∧
    (r.windowEnd ≤ a ∨ b ≤ r.windowStart)) :
    ((l.flatMap (BlkRunInfo.piece batch)).countP fun e =>
      decide (a ≤ index.findFirst e.1 ∧ index.findFirst e.1 < b)) = 0 := by
  rw [List.countP_eq_zero]
  intro e member
  obtain ⟨r, run, piece⟩ := List.mem_flatMap.mp member
  obtain ⟨sound, apart⟩ := beside r run
  have bounds := sound.routed e piece
  rw [decide_eq_true_eq]
  omega

/-- The piece of a run has its length. -/
theorem length_piece (consecutive : Consecutive 0 (l ++ run :: l') batch.length) :
    (run.piece batch).length = run.runLength ∧ 0 < run.runLength := by
  obtain ⟨m, -, start, some, rest⟩ := consecutive_append.mp consecutive
  have stop := rest.le
  rw [BlkRunInfo.piece, List.length_take, List.length_drop]
  omega

/-- The load of the segments of a run: no element of another run goes there. -/
theorem load_run (consecutive : Consecutive 0 (l ++ run :: l') batch.length)
    (routed : Routed index batch run a b)
    (left : ∀ r ∈ l, Sound index s batch r ∧ r.windowEnd ≤ a)
    (right : ∀ r ∈ l', Sound index s batch r ∧ b ≤ r.windowStart) :
    load index s batch a b = run.runLength + ∑ i ∈ Finset.Ico a b, s.segmentSizes i := by
  have pieces := consecutive.flatMap batch
  rw [Nat.sub_zero, List.drop_zero, List.take_length, List.flatMap_append, List.flatMap_cons]
    at pieces
  have own : ((run.piece batch).countP fun e =>
      decide (a ≤ index.findFirst e.1 ∧ index.findFirst e.1 < b)) = run.runLength := by
    rw [List.countP_eq_length.mpr fun e member => decide_eq_true (routed e member)]
    exact (length_piece consecutive).1
  have before := @countP_outside index s batch l a b fun r member =>
    ⟨(left r member).1, Or.inl (left r member).2⟩
  have after := @countP_outside index s batch l' a b fun r member =>
    ⟨(right r member).1, Or.inr (right r member).2⟩
  unfold load
  nth_rewrite 1 [← pieces]
  rw [List.countP_append, List.countP_append, own, before, after, Nat.zero_add, Nat.add_zero]

end Loads

/-! ## The generated runs -/

section Generate

variable {index : StaticIndex} {s : Storage} {batch : List (Int × Int)}

/-- The elements up to the greatest key, and those after them. -/
theorem takeWhile_sorted {l : List (Int × Int)} (sorted : l.Pairwise fun e e' => e.1 ≤ e'.1)
    (max : Int) :
    l.take (l.takeWhile fun e => decide (e.1 ≤ max)).length =
        l.takeWhile (fun e => decide (e.1 ≤ max)) ∧
      ∀ e ∈ l.drop (l.takeWhile fun e => decide (e.1 ≤ max)).length, max < e.1 := by
  induction l with
  | nil => simp
  | cons x l ih =>
      obtain ⟨first, rest⟩ := List.pairwise_cons.mp sorted
      by_cases small : x.1 ≤ max
      · rw [List.takeWhile_cons_of_pos (by simpa using small)]
        exact ⟨congrArg (x :: ·) (ih rest).1, (ih rest).2⟩
      · rw [List.takeWhile_cons_of_neg (by simpa using small)]
        refine ⟨rfl, fun e member => ?_⟩
        rcases List.mem_cons.mp member with rfl | later
        · omega
        · have := first e later
          omega

/-- An element of the run goes to the segment of its first one. -/
theorem findFirst_eq (inv : RepInv index s) {first key : Int} (order : first ≤ key)
    (upper : index.findFirst first + 1 < s.numberSegments →
      key ≤ s.getMinimum (index.findFirst first + 1)) :
    index.findFirst key = index.findFirst first := by
  obtain ⟨insideFirst, aboveFirst, -⟩ := findFirst_segment inv first
  obtain ⟨inside, above, greatest⟩ := findFirst_segment inv key
  have least : index.findFirst first ≤ index.findFirst key := by
    rcases Nat.eq_zero_or_pos (index.findFirst first) with zero | positive
    · rw [zero]
      exact Nat.zero_le _
    · exact greatest _ positive insideFirst ((aboveFirst positive).trans_le order)
  refine le_antisymm (not_lt.mp fun beyond => ?_) least
  have small := upper (by omega)
  have minima := minimum_le inv beyond inside
  have large := above (by omega)
  exact absurd (minima.trans_lt large) (not_lt.mpr small)

/-- Each generated run fits in its segment, and the segments are increasing. -/
theorem generateRuns_fits (inv : RepInv index s) (sorted : batch.Pairwise fun e e' => e.1 ≤ e'.1)
    (keys : ∀ e ∈ batch, e.1 < 2 ^ 63) (i : Nat) (l : List (Int × Int)) (least : Nat)
    (position : i + l.length = batch.length) (same : batch.drop i = l)
    (later : ∀ e ∈ l, least ≤ index.findFirst e.1) :
    Consecutive i (generateRuns index s i l) batch.length ∧
      (generateRuns index s i l).Pairwise (fun r r' => r.windowEnd ≤ r'.windowStart) ∧
      ∀ r ∈ generateRuns index s i l,
        Sound index s batch r ∧ r.windowLength = 1 ∧ r.valid ∧ least ≤ r.windowStart := by
  induction i, l using generateRuns.induct index s generalizing least with
  | case1 i => simpa [generateRuns, Consecutive] using position
  | case2 i e rest segmentId max taken _ _ entry ih =>
      rw [generateRuns]
      obtain ⟨inside, above, greatest⟩ := findFirst_segment inv e.1
      have sortedRest : (e :: rest).Pairwise fun e e' => e.1 ≤ e'.1 := same ▸ sorted.drop
      obtain ⟨first, sortedRest⟩ := List.pairwise_cons.mp sortedRest
      obtain ⟨pieceEq, beyond⟩ := takeWhile_sorted sortedRest max
      have all : ∀ x ∈ e :: rest, x.1 < 2 ^ 63 := fun x member =>
        keys x (List.mem_of_mem_drop (same ▸ member))
      have size : entry.runLength = 1 + taken.length := rfl
      have shorter : taken.length ≤ rest.length := by
        rw [← show rest.take taken.length = taken from pieceEq, List.length_take]
        exact Nat.min_le_right _ _
      have piece : (batch.drop i).take (1 + taken.length) = e :: taken := by
        rw [same, Nat.add_comm, List.take_succ_cons]
        exact congrArg (e :: ·) pieceEq
      have span : Span s batch i (1 + taken.length) (s.segmentSizes segmentId + (1 + taken.length))
          segmentId (segmentId + 1) := by
        refine ⟨by omega, Nat.lt_succ_self _, inside, ?_, fun after x member => ?_,
          fun before x member => ?_⟩
        · rw [Nat.Ico_succ_singleton, Finset.sum_singleton, Nat.add_comm]
        · rw [piece] at member
          have least : e.1 ≤ x.1 := by
            rcases List.mem_cons.mp member with rfl | member
            · exact le_rfl
            · exact first x ((List.takeWhile_prefix _).subset member)
          have below := last_le_minimum inv (Nat.sub_lt after Nat.one_pos) inside
          exact below.trans ((above after).le.trans least)
        · rw [piece] at member
          rcases List.mem_cons.mp member with rfl | member
          · by_contra large
            have := greatest _ (Nat.succ_pos _) before (not_le.mp large)
            exact absurd this (Nat.not_succ_le_self _)
          · have bound := of_decide_eq_true (List.all_eq_true.mp List.all_takeWhile x member)
            rwa [show max = s.getMinimum (segmentId + 1) from if_pos before] at bound
      have fits : Fits s batch entry := ⟨span, 0, rfl, one_dvd _⟩
      have routed : Routed index batch entry segmentId (segmentId + 1) := by
        intro x member
        change x ∈ (batch.drop i).take (1 + taken.length) at member
        have upper := span.upper
        rw [piece] at member upper
        have least : e.1 ≤ x.1 := by
          rcases List.mem_cons.mp member with rfl | member
          · exact le_rfl
          · exact first x ((List.takeWhile_prefix _).subset member)
        have same := findFirst_eq inv least fun before => upper before x
          member
        change index.findFirst e.1 ≤ _ ∧ _ < index.findFirst e.1 + 1
        omega
      have following : ∀ x ∈ rest.drop taken.length, segmentId + 1 ≤ index.findFirst x.1 := by
        intro x member
        have large : max < x.1 := beyond x member
        by_cases before : segmentId + 1 < s.numberSegments
        · rw [show max = s.getMinimum (segmentId + 1) from if_pos before] at large
          exact (findFirst_segment inv x.1).2.2 _ (Nat.succ_pos _) before large
        · rw [show max = 2 ^ 63 - 1 from if_neg before] at large
          have small := all x (List.mem_cons_of_mem e (List.mem_of_mem_drop member))
          omega
      obtain ⟨consecutive, apart, each⟩ := ih (segmentId + 1)
        (by rw [size, List.length_drop]; simp only [List.length_cons] at position; omega)
        (by rw [size, ← List.drop_drop, same, Nat.add_comm 1, List.drop_succ_cons]) following
      refine ⟨⟨rfl, span.some, consecutive⟩, List.pairwise_cons.mpr ⟨fun r member => ?_, apart⟩,
        fun r member => ?_⟩
      · exact (each r member).2.2.2
      · rcases List.mem_cons.mp member with rfl | member
        · exact ⟨⟨fits, routed⟩, rfl, rfl, later e List.mem_cons_self⟩
        · obtain ⟨sound, one, valid, least'⟩ := each r member
          have here := later e List.mem_cons_self
          exact ⟨sound, one, valid, by omega⟩

end Generate

/-! ## The runs beside a run -/

/-- The valid runs before the run `i`. -/
def leftOf (runs : List BlkRunInfo) (i : Nat) : List BlkRunInfo :=
  (runs.take i).filter BlkRunInfo.valid

/-- The valid runs after the run `i`. -/
def rightOf (runs : List BlkRunInfo) (i : Nat) : List BlkRunInfo :=
  (runs.drop (i + 1)).filter BlkRunInfo.valid

/-- The cursor is at the last valid run before position `i`. -/
def IsLeft (runs : List BlkRunInfo) (i : Nat) (c : Cursor) : Prop :=
  (leftOf runs i = [] ∧ c.srun = -1) ∨ ∃ k r, LastLive BlkRunInfo.valid runs i k r ∧
    c = ⟨k, r.windowStart + r.windowLength - 1⟩

/-- The cursor is at the first valid run from position `i` on. -/
def IsRight (runs : List BlkRunInfo) (i : Nat) (c : Cursor) : Prop :=
  ((runs.drop i).filter BlkRunInfo.valid = [] ∧ c.srun = -1) ∨
    ∃ k r, FirstLive BlkRunInfo.valid runs i k r ∧ c = ⟨k, r.windowStart⟩

/-- The runs before the run `i` when the segments from `a` on are counted. -/
structure Left (index : StaticIndex) (s : Storage) (d : DensityBounds) (batch : List (Int × Int))
    (runs : List BlkRunInfo) (i : Nat) (c : Cursor) (a : Nat) : Prop where
  cursor : IsLeft runs i c
  apart : (leftOf runs i).Pairwise fun r r' => r.windowEnd ≤ r'.windowStart
  each : ∀ r ∈ leftOf runs i, Sound index s batch r ∧ Settled index s d batch r ∧ r.windowEnd ≤ a

/-- The runs after the run `i` when the segments up to `b` are counted. -/
structure Right (index : StaticIndex) (s : Storage) (batch : List (Int × Int))
    (runs : List BlkRunInfo) (i : Nat) (c : Cursor) (b : Nat) : Prop where
  cursor : IsRight runs (i + 1) c
  apart : (rightOf runs i).Pairwise fun r r' => r.windowEnd ≤ r'.windowStart
  each : ∀ r ∈ rightOf runs i, Sound index s batch r ∧ r.windowLength = 1 ∧ b ≤ r.windowStart

/-- The run `i` with the segments from `a` to `b`, between the runs before and after it. -/
structure Fusing (index : StaticIndex) (s : Storage) (d : DensityBounds)
    (batch : List (Int × Int)) (count i : Nat) (f : Fusion) (a b : Nat) : Prop where
  length : f.runs.length = count
  run : ∃ run, f.runs[i]? = some run ∧ run.valid ∧
    Consecutive 0 (leftOf f.runs i ++ run :: rightOf f.runs i) batch.length ∧
    Span s batch run.runStart run.runLength f.numElements a b ∧ Routed index batch run a b
  windexLeft : f.windexLeft = (a : Int) - 1
  windexRight : f.windexRight = b
  left : Left index s d batch f.runs i f.left a
  right : Right index s batch f.runs i f.right b

section Cursors

variable {runs : List BlkRunInfo} {i k : Nat}

theorem seekLeft_spec (inside : k ≤ runs.length) :
    ∃ c, seekLeft runs k = some c ∧ IsLeft runs k c := by
  induction k with
  | zero => exact ⟨⟨-1, -1⟩, rfl, Or.inl ⟨by simp [leftOf], rfl⟩⟩
  | succ k ih =>
      have entry : runs[k]? = some runs[k] := List.getElem?_eq_getElem inside
      rw [seekLeft, entry, Option.bind_eq_bind, Option.bind_some]
      by_cases valid : runs[k].valid
      · rw [if_pos valid]
        exact ⟨_, rfl, Or.inr ⟨k, _, .here entry valid, rfl⟩⟩
      · rw [if_neg valid]
        obtain ⟨c, found, left⟩ := ih (Nat.le_of_succ_le inside)
        refine ⟨c, found, ?_⟩
        rcases left with ⟨none, srun⟩ | ⟨j, r, last, rfl⟩
        · refine Or.inl ⟨?_, srun⟩
          rw [leftOf, filter_take_succ entry, if_neg valid, List.append_nil]
          exact none
        · exact Or.inr ⟨j, r, .skip entry valid last, rfl⟩

theorem seekRight_spec (runs : List BlkRunInfo) (k : Nat) :
    IsRight runs k (seekRight (runs.drop k) k) := by
  induction rest : runs.drop k generalizing k with
  | nil => exact Or.inl ⟨by rw [rest]; rfl, rfl⟩
  | cons run tail ih =>
      have inside : k < runs.length := by
        by_contra beyond
        rw [List.drop_eq_nil_of_le (not_lt.mp beyond)] at rest
        cases rest
      obtain ⟨same, tailEq⟩ := List.cons_eq_cons.mp ((List.drop_eq_getElem_cons inside).symm.trans rest)
      have entry : runs[k]? = some run := by rw [List.getElem?_eq_getElem inside, same]
      rw [seekRight]
      by_cases valid : run.valid
      · rw [if_pos valid]
        exact Or.inr ⟨k, run, .here entry valid, rfl⟩
      · rw [if_neg valid]
        rcases ih (k + 1) tailEq with ⟨none, srun⟩ | ⟨j, r, first, same⟩
        · refine Or.inl ⟨?_, srun⟩
          rw [filter_drop entry, if_neg valid, none]
          rfl
        · exact Or.inr ⟨j, r, .skip entry valid first, same⟩

/-- An aligned window that ends within a longer one or a shorter one that goes on after it is
within that one. -/
theorem aligned_within {a b j k : Nat} (first : 2 ^ j ∣ a) (second : 2 ^ k ∣ b)
    (meet : b < a + 2 ^ j) (ends : a + 2 ^ j < b + 2 ^ k) : b ≤ a := by
  by_contra before
  rcases Nat.le_total j k with le | le
  · obtain ⟨m, rfl⟩ := first
    obtain ⟨n, rfl⟩ := (pow_dvd_pow 2 le).trans second
    have positive : 0 < 2 ^ j := by positivity
    rw [← Nat.mul_succ] at meet
    have lower := Nat.lt_of_mul_lt_mul_left meet
    have upper := Nat.lt_of_mul_lt_mul_left (not_le.mp before)
    omega
  · obtain ⟨m, same⟩ := ((pow_dvd_pow 2 le).trans first).add (pow_dvd_pow 2 le)
    obtain ⟨n, rfl⟩ := second
    rw [same] at meet ends
    rw [← Nat.mul_succ] at ends
    have lower := Nat.lt_of_mul_lt_mul_left meet
    have upper := Nat.lt_of_mul_lt_mul_left ends
    omega

end Cursors

section Turns

variable {index : StaticIndex} {s : Storage} {d : DensityBounds} {batch : List (Int × Int)}
  {count i a b : Nat} {f : Fusion}

theorem sizeAt_eq {i : Nat} (inside : i < s.numberSegments) :
    s.sizeAt i = some (s.segmentSizes i) := by
  rw [Storage.sizeAt, if_pos ⟨by omega, by omega⟩, Int.toNat_natCast]

/-- The segment before the counted ones goes with no run. -/
theorem Left.pass {runs : List BlkRunInfo} {c : Cursor} (left : Left index s d batch runs i c (a + 1))
    (apart : c.srun ≠ a) : Left index s d batch runs i c a := by
  refine ⟨left.cursor, left.apart, fun r member => ?_⟩
  obtain ⟨sound, settled, ends⟩ := left.each r member
  refine ⟨sound, settled, ?_⟩
  rcases left.cursor with ⟨none, -⟩ | ⟨j, last, live, rfl⟩
  · rw [none] at member
    cases member
  · have leftEq : leftOf runs i = leftOf runs j ++ [last] := live.all
    obtain ⟨lastSound, -, lastEnds⟩ := left.each last (by simp [leftEq])
    have least : last.windowEnd ≤ a := by
      unfold BlkRunInfo.windowEnd at lastEnds ⊢
      simp only at apart
      omega
    have ordered := left.apart
    rw [leftEq] at ordered member
    rcases List.mem_append.mp member with earlier | final
    · have before := (List.pairwise_append.mp ordered).2.2 r earlier last (List.mem_singleton_self _)
      exact before.trans (lastSound.span.order.le.trans least)
    · rw [List.mem_singleton.mp final]
      exact least

/-- The segment after the counted ones goes with no run. -/
theorem Right.pass {runs : List BlkRunInfo} {c : Cursor} (right : Right index s batch runs i c b)
    (apart : c.srun ≠ b) : Right index s batch runs i c (b + 1) := by
  refine ⟨right.cursor, right.apart, fun r member => ?_⟩
  obtain ⟨sound, single, starts⟩ := right.each r member
  refine ⟨sound, single, ?_⟩
  rcases right.cursor with ⟨none, -⟩ | ⟨j, first, live, rfl⟩
  · rw [rightOf, none] at member
    cases member
  · have rightEq : rightOf runs i = first :: rightOf runs j := live.all
    obtain ⟨firstSound, -, firstStarts⟩ := right.each first (by simp [rightEq])
    have most : b + 1 ≤ first.windowStart := by
      simp only at apart
      omega
    have ordered := right.apart
    rw [rightEq] at ordered member
    rcases List.mem_cons.mp member with rfl | later
    · exact most
    · have after := (List.pairwise_cons.mp ordered).1 r later
      exact most.trans (firstSound.span.order.le.trans after)

/-- Only the runs before the run `i` matter. -/
theorem Left.congr {runs runs' : List BlkRunInfo} {c : Cursor}
    (left : Left index s d batch runs i c a) (same : runs'.take i = runs.take i) :
    Left index s d batch runs' i c a := by
  have leftSame : leftOf runs' i = leftOf runs i := by rw [leftOf, same, leftOf]
  refine ⟨?_, by rw [leftSame]; exact left.apart, by rw [leftSame]; exact left.each⟩
  rcases left.cursor with ⟨none, srun⟩ | ⟨m, r, last, at'⟩
  · exact Or.inl ⟨leftSame.trans none, srun⟩
  · exact Or.inr ⟨m, r, last.congr same, at'⟩

/-- Only the runs after the run `i` matter. -/
theorem Right.congr {runs runs' : List BlkRunInfo} {c : Cursor}
    (right : Right index s batch runs i c b) (same : runs'.drop (i + 1) = runs.drop (i + 1)) :
    Right index s batch runs' i c b := by
  have rightSame : rightOf runs' i = rightOf runs i := by rw [rightOf, same, rightOf]
  refine ⟨?_, by rw [rightSame]; exact right.apart, by rw [rightSame]; exact right.each⟩
  rcases right.cursor with ⟨none, srun⟩ | ⟨m, r, first, at'⟩
  · exact Or.inl ⟨rightSame.trans none, srun⟩
  · exact Or.inr ⟨m, r, first.congr same, at'⟩

/-- A turn to the left takes over the last run before. -/
theorem Fusing.fuseLeft (fusing : Fusing index s d batch count i f a b) (inv : RepInv index s)
    (meets : f.windexLeft = f.left.srun) (positive : 0 < a) :
    ∃ f' fused, turnLeft s i f = some f' ∧ Fusing index s d batch count i f' fused.windowStart b ∧
      Sound index s batch fused ∧ fused.windowEnd = a := by
  obtain ⟨run, entry, valid, consecutive, span, routed⟩ := fusing.run
  obtain ⟨cursor, apart, each⟩ := fusing.left
  have insideRun : i < f.runs.length := (List.getElem?_eq_some_iff.mp entry).1
  rw [turnLeft, if_pos meets]
  rw [fusing.windexLeft] at meets
  rcases cursor with ⟨-, srun⟩ | ⟨j, fused, last, same⟩
  · omega
  have before := last.before
  have ends : fused.windowEnd = a := by
    rw [same] at meets
    simp only at meets
    unfold BlkRunInfo.windowEnd
    omega
  have leftEq : leftOf f.runs i = leftOf f.runs j ++ [fused] := last.all
  have sound := (each fused (by simp [leftEq])).1
  have insideFused : j < f.runs.length := (List.getElem?_eq_some_iff.mp last.entry).1
  have found : entryAt f.runs f.left.sindex = some fused := by
    rw [same, entryAt, if_pos (by simp), Int.toNat_natCast]
    exact last.entry
  have place : f.left.sindex.toNat = j := by rw [same]; simp
  rw [found, entry, place]
  simp only [Option.bind_eq_bind, Option.bind_some]
  generalize joined : ({ run with
    runStart := fused.runStart, runLength := run.runLength + fused.runLength } :
    BlkRunInfo) = run'
  generalize marked : ({ fused with valid := false } : BlkRunInfo) = fused'
  have dead : ¬fused'.valid := by simp [← marked]
  have swap : (f.runs.set i run').set j fused' = (f.runs.set j fused').set i run' :=
    List.set_comm _ _ before.ne'
  have leftSame : leftOf ((f.runs.set i run').set j fused') i = leftOf f.runs j := by
    rw [swap, leftOf, List.take_set_of_le le_rfl]
    exact last.kill dead
  have leftJ : leftOf ((f.runs.set i run').set j fused') j = leftOf f.runs j := by
    rw [leftOf, List.take_set_of_le le_rfl, List.take_set_of_le before.le]
    rfl
  have afterwards : ((f.runs.set i run').set j fused').drop (i + 1) = f.runs.drop (i + 1) := by
    rw [List.drop_set_of_lt (by omega), List.drop_set_of_lt (Nat.lt_succ_self i)]
  have rightSame : rightOf ((f.runs.set i run').set j fused') i = rightOf f.runs i := by
    rw [rightOf, afterwards, rightOf]
  have entry' : ((f.runs.set i run').set j fused')[i]? = some run' := by
    rw [List.getElem?_set_ne before.ne, List.getElem?_set_self insideRun]
  obtain ⟨c, sought, left⟩ := @seekLeft_spec ((f.runs.set i run').set j fused') j
    (by simpa using insideFused.le)
  rw [sought, Option.bind_some]
  have split := consecutive
  rw [leftEq, List.append_assoc, List.singleton_append] at split
  have starts : run.runStart = fused.runStart + fused.runLength := by
    obtain ⟨m, -, first, -, second, -⟩ := consecutive_append.mp split
    omega
  have soundSpan := sound.span
  have soundRouted := sound.routed
  rw [ends] at soundSpan soundRouted
  rw [leftEq] at apart each
  obtain ⟨apart, -, beside⟩ := List.pairwise_append.mp apart
  refine ⟨_, fused, rfl, ⟨by simpa using fusing.length, ⟨run', entry', ?_, ?_, ?_, ?_⟩, rfl,
    fusing.windexRight, ⟨?_, by rwa [leftSame], ?_⟩, fusing.right.congr afterwards⟩, sound, ends⟩
  · rw [← joined]
    exact valid
  · rw [leftSame, rightSame]
    refine split.fuse ?_ ?_
    · rw [← joined]
    · rw [← joined, Nat.add_comm]
  · rw [starts] at span
    have both := soundSpan.join span inv
    rw [← joined, Nat.add_comm run.runLength, Nat.add_comm f.numElements]
    exact both
  · refine soundRouted.join routed soundSpan.order.le span.order.le ?_ starts ?_
    · rw [← joined]
    · rw [← joined, Nat.add_comm]
  · rcases left with ⟨none, srun⟩ | ⟨m, r, lastOf, same⟩
    · exact Or.inl ⟨leftSame.trans (leftJ.symm.trans none), srun⟩
    · exact Or.inr ⟨m, r, lastOf.mono before.le (leftSame.trans leftJ.symm), same⟩
  · rw [leftSame]
    intro r member
    obtain ⟨sound, settled, -⟩ := each r (List.mem_append_left _ member)
    exact ⟨sound, settled, beside r member fused (List.mem_singleton_self _)⟩

/-- A turn to the left, within an aligned window that goes on after the counted segments. -/
theorem Fusing.stepLeft (fusing : Fusing index s d batch count i f a b) (inv : RepInv index s)
    {w k segment : Nat} (aligned : 2 ^ k ∣ w) (contains : segment < w + 2 ^ k) (after : a ≤ segment)
    (before : w < a) :
    ∃ f' a', turnLeft s i f = some f' ∧ Fusing index s d batch count i f' a' b ∧ w ≤ a' ∧ a' < a := by
  by_cases meets : f.windexLeft = f.left.srun
  · -- the segment is the last one of a run
    obtain ⟨f', fused, turn, fusing', sound, ends⟩ := fusing.fuseLeft inv meets (by omega)
    obtain ⟨n, length, divides⟩ := sound.aligned
    have ends' : fused.windowStart + 2 ^ n = a := by rw [← length]; exact ends
    refine ⟨f', fused.windowStart, turn, fusing', aligned_within divides aligned (by omega)
      (by omega), ?_⟩
    rw [← ends]
    exact sound.span.order
  · -- the segment goes with no run
    obtain ⟨run, entry, valid, consecutive, span, routed⟩ := fusing.run
    obtain ⟨a, rfl⟩ := Nat.exists_eq_add_one_of_ne_zero (by omega : a ≠ 0)
    have inside := span.inside
    have order := span.order
    have here : f.windexLeft = a := by rw [fusing.windexLeft]; omega
    have size : s.sizeAt f.windexLeft = some (s.segmentSizes a) := by
      rw [here, sizeAt_eq (by omega)]
    rw [turnLeft, if_neg meets, size]
    rw [here] at meets
    refine ⟨_, a, rfl, ⟨fusing.length, ⟨run, entry, valid, consecutive, span.left inv,
      routed.mono (Nat.le_succ a) le_rfl⟩, ?_, fusing.windexRight, fusing.left.pass (Ne.symm meets),
        fusing.right⟩, by omega, Nat.lt_succ_self a⟩
    simp only [here]

/-- A turn to the right takes over the first run after. -/
theorem Fusing.fuseRight (fusing : Fusing index s d batch count i f a b) (inv : RepInv index s)
    (meets : f.windexRight = f.right.srun) :
    ∃ f' fused, turnRight s i f = some f' ∧ Fusing index s d batch count i f' a fused.windowEnd ∧
      Sound index s batch fused ∧ fused.windowLength = 1 ∧ fused.windowStart = b := by
  obtain ⟨run, entry, valid, consecutive, span, routed⟩ := fusing.run
  obtain ⟨cursor, apart, each⟩ := fusing.right
  have insideRun : i < f.runs.length := (List.getElem?_eq_some_iff.mp entry).1
  rw [turnRight, if_pos meets]
  rw [fusing.windexRight] at meets
  rcases cursor with ⟨-, srun⟩ | ⟨j, fused, first, same⟩
  · omega
  have after := first.after
  have starts : fused.windowStart = b := by
    rw [same] at meets
    exact (Int.ofNat_inj.mp meets).symm
  have rightEq : rightOf f.runs i = fused :: rightOf f.runs j := first.all
  obtain ⟨sound, single, -⟩ := each fused (by simp [rightEq])
  have found : entryAt f.runs f.right.sindex = some fused := by
    rw [same, entryAt, if_pos (by simp), Int.toNat_natCast]
    exact first.entry
  have place : f.right.sindex.toNat = j := by rw [same]; simp
  rw [found, entry, place]
  simp only [Option.bind_eq_bind, Option.bind_some]
  generalize joined : ({ run with runLength := run.runLength + fused.runLength } :
    BlkRunInfo) = run'
  generalize marked : ({ fused with valid := false } : BlkRunInfo) = fused'
  have dead : ¬fused'.valid := by simp [← marked]
  have swap : (f.runs.set i run').set j fused' = (f.runs.set j fused').set i run' :=
    List.set_comm _ _ (by omega)
  have rightSame : rightOf ((f.runs.set i run').set j fused') i = rightOf f.runs j := by
    rw [swap, rightOf, List.drop_set_of_lt (Nat.lt_succ_self i)]
    exact first.kill dead
  have rightJ : ((((f.runs.set i run').set j fused').drop (j + 1)).filter BlkRunInfo.valid) =
      rightOf f.runs j := by
    rw [List.drop_set_of_lt (Nat.lt_succ_self j), List.drop_set_of_lt (by omega)]
    rfl
  have beforehand : ((f.runs.set i run').set j fused').take i = f.runs.take i := by
    rw [List.take_set_of_le (by omega), List.take_set_of_le le_rfl]
  have leftSame : leftOf ((f.runs.set i run').set j fused') i = leftOf f.runs i := by
    rw [leftOf, beforehand, leftOf]
  have entry' : ((f.runs.set i run').set j fused')[i]? = some run' := by
    rw [List.getElem?_set_ne (by omega), List.getElem?_set_self insideRun]
  have right := seekRight_spec ((f.runs.set i run').set j fused') (j + 1)
  generalize seekRight (((f.runs.set i run').set j fused').drop (j + 1)) (j + 1) = c at right ⊢
  have split := consecutive
  rw [rightEq] at split
  have follows : fused.runStart = run.runStart + run.runLength := by
    obtain ⟨m, -, first, -, second, -⟩ := consecutive_append.mp split
    omega
  have ends : fused.windowStart + fused.windowLength = fused.windowEnd := rfl
  have soundSpan := sound.span
  have soundRouted := sound.routed
  rw [starts] at soundSpan soundRouted
  rw [rightEq] at apart each
  obtain ⟨beside, apart⟩ := List.pairwise_cons.mp apart
  refine ⟨_, fused, rfl, ⟨by simpa using fusing.length, ⟨run', entry', ?_, ?_, ?_, ?_⟩,
    fusing.windexLeft, ?_, fusing.left.congr beforehand, ⟨?_, by rwa [rightSame], ?_⟩⟩, sound,
    single, starts⟩
  · rw [← joined]
    exact valid
  · rw [leftSame, rightSame]
    refine split.fuse ?_ ?_
    · rw [← joined]
    · rw [← joined]
  · rw [follows] at soundSpan
    rw [← joined]
    exact span.join soundSpan inv
  · refine routed.join soundRouted span.order.le soundSpan.order.le ?_ follows ?_
    · rw [← joined]
    · rw [← joined]
  · simp only [← ends, Nat.cast_add]
  · rcases right with ⟨none, srun⟩ | ⟨m, r, firstOf, same⟩
    · exact Or.inl ⟨rightSame.trans (rightJ.symm.trans none), srun⟩
    · exact Or.inr ⟨m, r, firstOf.mono (by omega) (rightSame.trans rightJ.symm), same⟩
  · rw [rightSame]
    intro r member
    obtain ⟨sound, single, -⟩ := each r (List.mem_cons_of_mem _ member)
    exact ⟨sound, single, beside r member⟩

/-- A turn to the right. -/
theorem Fusing.stepRight (fusing : Fusing index s d batch count i f a b) (inv : RepInv index s)
    {e : Nat} (inside : e ≤ s.numberSegments) (before : b < e) :
    ∃ f' b', turnRight s i f = some f' ∧ Fusing index s d batch count i f' a b' ∧ b' ≤ e ∧ b < b' := by
  by_cases meets : f.windexRight = f.right.srun
  · -- the segment is that of a run
    obtain ⟨f', fused, turn, fusing', sound, single, starts⟩ := fusing.fuseRight inv meets
    have ends : fused.windowEnd = b + 1 := by rw [BlkRunInfo.windowEnd, single, starts]
    exact ⟨f', fused.windowEnd, turn, fusing', by omega, by omega⟩
  · -- the segment goes with no run
    obtain ⟨run, entry, valid, consecutive, span, routed⟩ := fusing.run
    have size : s.sizeAt f.windexRight = some (s.segmentSizes b) := by
      rw [fusing.windexRight, sizeAt_eq (by omega)]
    rw [turnRight, if_neg meets, size]
    rw [fusing.windexRight] at meets
    refine ⟨_, b + 1, rfl, ⟨fusing.length, ⟨run, entry, valid, consecutive,
      span.right inv (by omega), routed.mono le_rfl (Nat.le_succ b)⟩, fusing.windexLeft, ?_,
        fusing.left, fusing.right.pass (Ne.symm meets)⟩, by omega, Nat.lt_succ_self b⟩
    simp only [fusing.windexRight, Nat.cast_add, Nat.cast_one]

/-- All the segments of the window on the left are counted. -/
theorem Fusing.moveLeft (inv : RepInv index s) (turns : Nat) {w k segment : Nat}
    (aligned : 2 ^ k ∣ w) (contains : segment < w + 2 ^ k)
    (fusing : Fusing index s d batch count i f a b)
    (after : a ≤ segment) (before : w ≤ a) (enough : a - w < turns) :
    ∃ f', moveLeft s i w turns f = some f' ∧ Fusing index s d batch count i f' w b := by
  induction turns generalizing f a with
  | zero => omega
  | succ turns ih =>
      rw [BTreePMACC7.moveLeft, fusing.windexLeft]
      rcases Nat.eq_or_lt_of_le before with rfl | more
      · rw [if_neg (by omega)]
        exact ⟨f, rfl, fusing⟩
      · rw [if_pos (by omega)]
        obtain ⟨f', a', turn, fusing', lower, less⟩ :=
          fusing.stepLeft inv aligned contains after more
        rw [turn, Option.bind_some]
        exact ih fusing' (by omega) lower (by omega)

theorem Fusing.moveRight (inv : RepInv index s) (turns : Nat) {e : Nat}
    (inside : e ≤ s.numberSegments) (fusing : Fusing index s d batch count i f a b)
    (before : b ≤ e) (enough : e - b < turns) :
    ∃ f', moveRight s i e turns f = some f' ∧ Fusing index s d batch count i f' a e := by
  induction turns generalizing f b with
  | zero => omega
  | succ turns ih =>
      rw [BTreePMACC7.moveRight, fusing.windexRight]
      rcases Nat.eq_or_lt_of_le before with rfl | more
      · rw [if_neg (by omega)]
        exact ⟨f, rfl, fusing⟩
      · rw [if_pos (by omega)]
        obtain ⟨f', b', turn, fusing', upper, greater⟩ := fusing.stepRight inv inside more
        rw [turn, Option.bind_some]
        exact ih fusing' upper (by omega)

end Turns

/-! ## The window of a run -/

/-- The run `i` has grown to the segments from `a` to `b`, between the runs before and after. -/
structure Placed (index : StaticIndex) (s : Storage) (d : DensityBounds)
    (batch : List (Int × Int)) (count i : Nat) (runs : List BlkRunInfo) (n a b : Nat) : Prop where
  length : runs.length = count
  run : ∃ run, runs[i]? = some run ∧ run.valid ∧
    Consecutive 0 (leftOf runs i ++ run :: rightOf runs i) batch.length ∧
    Span s batch run.runStart run.runLength n a b ∧ Routed index batch run a b
  apartLeft : (leftOf runs i).Pairwise fun r r' => r.windowEnd ≤ r'.windowStart
  left : ∀ r ∈ leftOf runs i, Sound index s batch r ∧ Settled index s d batch r ∧ r.windowEnd ≤ a
  apartRight : (rightOf runs i).Pairwise fun r r' => r.windowEnd ≤ r'.windowStart
  right : ∀ r ∈ rightOf runs i, Sound index s batch r ∧ r.windowLength = 1 ∧ b ≤ r.windowStart

/-- The window is that of the segment at its height. -/
structure Wide (s : Storage) (segment : Nat) (w : Widening) : Prop where
  leaf : 1 ≤ w.height
  root : w.height ≤ s.height
  windowLength : w.windowLength = 2 ^ (w.height - 1)
  windowId : w.windowId = segment / 2 ^ (w.height - 1)

/-- The window is reached: those below it exceed their thresholds, and have fewer cells than an `int`
can count. -/
structure Reached (index : StaticIndex) (s : Storage) (d : DensityBounds)
    (batch : List (Int × Int)) (segment : Nat) (w : Widening) : Prop extends Wide s segment w where
  below : ∀ j < w.height - 1, Crowded index s d batch segment j
  cells : 2 ^ (w.height - 1) * s.segmentCapacity < 2 ^ 32

section Windows

variable {index : StaticIndex} {s : Storage} {d : DensityBounds} {batch : List (Int × Int)}
  {count i n a b segment : Nat} {f : Fusion} {w : Widening}

theorem Fusing.placed (fusing : Fusing index s d batch count i f a b) :
    Placed index s d batch count i f.runs f.numElements a b :=
  ⟨fusing.length, fusing.run, fusing.left.apart, fusing.left.each, fusing.right.apart,
    fusing.right.each⟩

/-- The elements that are counted are the load of the window. -/
theorem Placed.load_eq {runs : List BlkRunInfo}
    (placed : Placed index s d batch count i runs n a b) : n = load index s batch a b := by
  obtain ⟨run, -, -, consecutive, span, routed⟩ := placed.run
  rw [load_run consecutive routed (fun r member => ⟨(placed.left r member).1,
    (placed.left r member).2.2⟩) fun r member => ⟨(placed.right r member).1,
    (placed.right r member).2.2⟩]
  exact span.count

theorem theta_nonneg (d : DensityBounds) {height : Nat} (leaf : 1 ≤ height)
    (root : height ≤ s.height) : 0 ≤ theta d s height := by
  have bottom : 0 ≤ d.thetaH := d.rho0_nonneg.trans (d.rho0_lt.le.trans d.rhoH_le)
  unfold theta
  split
  · exact bottom.trans d.thetaH_lt.le
  · exact bottom.trans (d.le_theta leaf root)

/-- The computed density exceeds the threshold when the window is crowded and the number of its
cells is an `int`. From `2 ^ 31` cells on the product is negative. -/
theorem Reached.crowded_iff (reached : Reached index s d batch segment w)
    (capacity : s.segmentCapacity < 2 ^ 16)
    (loaded : w.fusion.numElements =
      load index s batch w.windowStart (w.windowStart + w.windowLength)) :
    w.density s > theta d s w.height ↔ 2 ^ (w.height - 1) * s.segmentCapacity < 2 ^ 31 ∧
      Crowded index s d batch segment (w.height - 1) := by
  have leaf := reached.leaf
  have cells := reached.cells
  have nonneg := theta_nonneg d leaf reached.root
  rw [Widening.windowStart, reached.windowId, reached.windowLength] at loaded
  rw [Crowded, ← loaded, Nat.sub_add_cancel leaf, Widening.density]
  split
  · next one =>
    rw [one, Nat.sub_self, pow_zero, Nat.one_mul]
    exact (and_iff_right (by omega)).symm
  · rw [reached.windowLength]
    generalize 2 ^ (w.height - 1) * s.segmentCapacity = product at cells ⊢
    by_cases small : product < 2 ^ 31
    · rw [toInt_of_lt (by omega) (by exact_mod_cast small), Int.cast_natCast]
      exact (and_iff_right small).symm
    · have negative : toInt product < 0 := by
        rw [toInt_of_ge (by omega) (by exact_mod_cast cells)]
        omega
      have sparse : (w.fusion.numElements : ℚ) / (toInt product : ℚ) ≤ 0 :=
        div_nonpos_of_nonneg_of_nonpos (Nat.cast_nonneg _) (by exact_mod_cast negative.le)
      exact iff_of_false (not_lt.mpr (sparse.trans nonneg)) fun both => small both.1

/-- The aligned window of `2 ^ k` segments around a segment. -/
theorem window_bounds (k : Nat) : segment / 2 ^ k * 2 ^ k ≤ segment ∧
    segment < segment / 2 ^ k * 2 ^ k + 2 ^ k := by
  have positive : 0 < 2 ^ k := by positivity
  have division := Nat.div_add_mod' segment (2 ^ k)
  have rest := Nat.mod_lt segment positive
  omega

theorem window_inside {k m : Nat} (inside : segment < 2 ^ m) (le : k ≤ m) :
    segment / 2 ^ k * 2 ^ k + 2 ^ k ≤ 2 ^ m := by
  have split : 2 ^ m = 2 ^ (m - k) * 2 ^ k := by rw [← pow_add, Nat.sub_add_cancel le]
  have quotient : segment / 2 ^ k < 2 ^ (m - k) := by
    rw [Nat.div_lt_iff_lt_mul (by positivity), ← split]
    exact inside
  rw [split, ← Nat.succ_mul]
  exact Nat.mul_le_mul_right _ quotient

/-- The window of the next height contains the window. -/
theorem window_nested (k : Nat) : segment / 2 ^ (k + 1) * 2 ^ (k + 1) ≤ segment / 2 ^ k * 2 ^ k ∧
    segment / 2 ^ k * 2 ^ k + 2 ^ k ≤ segment / 2 ^ (k + 1) * 2 ^ (k + 1) + 2 ^ (k + 1) := by
  have parent : segment / 2 ^ (k + 1) = segment / 2 ^ k / 2 := by
    rw [pow_succ, Nat.div_div_eq_div_mul]
  rw [parent]
  generalize segment / 2 ^ k = q
  have double : q / 2 * 2 ^ (k + 1) = 2 * (q / 2) * 2 ^ k := by ring
  rw [double, pow_succ, Nat.mul_comm (2 ^ k) 2]
  have lower := Nat.mul_le_mul_right (2 ^ k) (show 2 * (q / 2) ≤ q by omega)
  have upper := Nat.mul_le_mul_right (2 ^ k) (show q ≤ 2 * (q / 2) + 1 by omega)
  rw [Nat.succ_mul] at upper
  omega

/-- The window of a run at the next height. -/
theorem Fusing.widen (inv : RepInv index s) (power : s.numberSegments = 2 ^ (s.height - 1))
    (inside : segment < s.numberSegments) (wide : Wide s segment w) (below : w.height < s.height)
    (fusing : Fusing index s d batch count i w.fusion w.windowStart (w.windowStart + w.windowLength)) :
    ∃ w', widen s i w = some w' ∧ w'.height = w.height + 1 ∧ Wide s segment w' ∧
      Fusing index s d batch count i w'.fusion w'.windowStart (w'.windowStart + w'.windowLength) := by
  obtain ⟨leaf, root, windowLength, windowId⟩ := wide
  obtain ⟨k, height⟩ := Nat.exists_eq_add_one_of_ne_zero (Nat.one_le_iff_ne_zero.mp leaf)
  rw [height, Nat.add_sub_cancel] at windowLength windowId
  have length' : w.windowLength * 2 = 2 ^ (k + 1) := by rw [windowLength, pow_succ]
  have id' : w.windowId / 2 = segment / 2 ^ (k + 1) := by
    rw [windowId, pow_succ, Nat.div_div_eq_div_mul]
  have nested := @window_nested segment k
  have bounds := @window_bounds segment k
  have bounds' := @window_bounds segment (k + 1)
  have within := window_inside (k := k + 1) (power ▸ inside) (by omega)
  rw [← power] at within
  have start : w.windowStart = segment / 2 ^ k * 2 ^ k := by
    rw [Widening.windowStart, windowId, windowLength]
  rw [start, windowLength] at fusing
  obtain ⟨f, left, fusing⟩ := fusing.moveLeft inv (s.numberSegments + 1)
    (Dvd.intro_left (segment / 2 ^ (k + 1)) rfl) bounds'.2 bounds.1 nested.1 (by omega)
  obtain ⟨f', right, fusing⟩ := fusing.moveRight inv (s.numberSegments + 1) within nested.2
    (by omega)
  refine ⟨⟨w.height + 1, w.windowLength * 2, w.windowId / 2, f'⟩, ?_, rfl,
    ⟨Nat.succ_pos _, below, ?_, ?_⟩, ?_⟩
  · rw [BTreePMACC7.widen, length', id', left, Option.bind_eq_bind, Option.bind_some, right]
    rfl
  · rw [length', height, Nat.add_sub_cancel]
  · rw [id', height, Nat.add_sub_cancel]
  · simp only [Widening.windowStart, length', id']
    exact fusing

/-- Above a window that is crowded, the next one is reached. -/
theorem Reached.next {w' : Widening} (reached : Reached index s d batch segment w)
    (wide : Wide s segment w') (height : w'.height = w.height + 1)
    (small : 2 ^ (w.height - 1) * s.segmentCapacity < 2 ^ 31)
    (crowded : Crowded index s d batch segment (w.height - 1)) :
    Reached index s d batch segment w' := by
  have leaf := reached.leaf
  refine ⟨wide, fun j less => ?_, ?_⟩
  · rw [height, Nat.add_sub_cancel] at less
    rcases Nat.eq_or_lt_of_le (Nat.le_sub_one_of_lt less) with rfl | below
    · exact crowded
    · exact reached.below j below
  · obtain ⟨k, same⟩ := Nat.exists_eq_add_one_of_ne_zero (Nat.one_le_iff_ne_zero.mp leaf)
    rw [same, Nat.add_sub_cancel] at small
    rw [height, same, Nat.add_sub_cancel, pow_succ, Nat.mul_right_comm]
    omega

/-- The loop stops at the first height at which the computed density is within the threshold. -/
theorem Fusing.widenLoop (turns : Nat) (inv : RepInv index s)
    (power : s.numberSegments = 2 ^ (s.height - 1)) (capacity : s.segmentCapacity < 2 ^ 16)
    (inside : segment < s.numberSegments) (reached : Reached index s d batch segment w)
    (below : w.height < s.height) (enough : s.height ≤ w.height + turns)
    (dense : w.density s > theta d s w.height)
    (fusing : Fusing index s d batch count i w.fusion w.windowStart
      (w.windowStart + w.windowLength)) :
    ∃ w', widenLoop s d i turns w = some w' ∧ Reached index s d batch segment w' ∧
      Fusing index s d batch count i w'.fusion w'.windowStart (w'.windowStart + w'.windowLength) ∧
      (w'.density s ≤ theta d s w'.height ∨ w'.height = s.height) := by
  induction turns generalizing w with
  | zero => omega
  | succ turns ih =>
      obtain ⟨small, crowded⟩ := (reached.crowded_iff capacity fusing.placed.load_eq).mp dense
      obtain ⟨w', body, height, wide, fusing'⟩ := fusing.widen inv power inside reached.toWide below
      have reached' := reached.next wide height small crowded
      rw [BTreePMACC7.widenLoop, body, Option.bind_some]
      by_cases goesOn : w'.density s > theta d s w'.height ∧ w'.height < s.height
      · rw [if_pos goesOn]
        exact ih reached' goesOn.2 (by omega) goesOn.1 fusing'
      · rw [if_neg goesOn]
        refine ⟨w', rfl, reached', fusing', ?_⟩
        have root := reached'.root
        by_cases dense : w'.density s > theta d s w'.height
        · exact Or.inr (by have := not_and.mp goesOn dense; omega)
        · exact Or.inl (not_lt.mp dense)

/-- The window of a run that has not grown yet. -/
theorem fuseRun_spec (inv : RepInv index s) (power : s.numberSegments = 2 ^ (s.height - 1))
    (capacity : s.segmentCapacity < 2 ^ 16) {runs : List BlkRunInfo} {run : BlkRunInfo}
    (entry : runs[i]? = some run) (valid : run.valid)
    (cut : Cut index s d batch (leftOf runs i) (run :: rightOf runs i)) :
    ∃ w, fuseRun s d runs i run = some w ∧ Reached index s d batch run.windowStart w ∧
      Placed index s d batch runs.length i w.fusion.runs w.fusion.numElements w.windowStart
        (w.windowStart + w.windowLength) ∧
      (w.density s ≤ theta d s w.height ∨ w.height = s.height) := by
  have inside : i < runs.length := (List.getElem?_eq_some_iff.mp entry).1
  have single := cut.single run List.mem_cons_self
  have sound := cut.sound run (by simp)
  have span := sound.span
  have routed := sound.routed
  have ends : run.windowEnd = run.windowStart + 1 := by rw [BlkRunInfo.windowEnd, single]
  rw [ends] at span routed
  have bounds := span.inside
  obtain ⟨apartLeft, apartRight, beside⟩ := List.pairwise_append.mp cut.apart
  obtain ⟨first, apartRight⟩ := List.pairwise_cons.mp apartRight
  have left : ∀ r ∈ leftOf runs i,
      Sound index s batch r ∧ Settled index s d batch r ∧ r.windowEnd ≤ run.windowStart :=
    fun r member => ⟨cut.sound r (List.mem_append_left _ member), cut.settled r member,
      beside r member run List.mem_cons_self⟩
  have right : ∀ r ∈ rightOf runs i,
      Sound index s batch r ∧ r.windowLength = 1 ∧ run.windowStart + 1 ≤ r.windowStart :=
    fun r member => ⟨cut.sound r (List.mem_append_right _ (List.mem_cons_of_mem _ member)),
      cut.single r (List.mem_cons_of_mem _ member), ends ▸ first r member⟩
  have reached : ∀ f, Reached index s d batch run.windowStart ⟨1, 1, run.windowStart, f⟩ :=
    fun f => ⟨⟨le_rfl, Nat.succ_pos _, rfl, (Nat.div_one _).symm⟩,
      fun j less => absurd less (Nat.not_lt_zero j), by
        rw [Nat.sub_self, pow_zero, Nat.one_mul]
        omega⟩
  rw [fuseRun]
  by_cases dense : s.height > 1 ∧ (firstWindow runs i run).density s > theta d s 1
  · rw [if_pos dense]
    obtain ⟨c, sought, isLeft⟩ := seekLeft_spec inside.le
    rw [sought, Option.bind_eq_bind, Option.bind_some]
    have fusing : Fusing index s d batch runs.length i
        ⟨runs, run.cardinality, run.windowStart - 1, run.windowStart + 1, c,
          seekRight (runs.drop (i + 1)) (i + 1)⟩ run.windowStart (run.windowStart + 1) :=
      ⟨rfl, ⟨run, entry, valid, cut.consecutive, span, routed⟩, rfl, by
        simp only [Nat.cast_add, Nat.cast_one], ⟨isLeft, apartLeft, left⟩,
        ⟨seekRight_spec _ _, apartRight, right⟩⟩
    have one : run.windowStart * 1 = run.windowStart := Nat.mul_one _
    have heavy : Widening.density s ⟨1, 1, run.windowStart, ⟨runs, run.cardinality,
        run.windowStart - 1, run.windowStart + 1, c,
        seekRight (runs.drop (i + 1)) (i + 1)⟩⟩ > theta d s 1 := dense.2
    obtain ⟨w, loop, reached', fusing', stops⟩ := Fusing.widenLoop s.height inv
      power capacity bounds (reached _) dense.1 (Nat.le_add_left _ _) heavy
      (by simp only [Widening.windowStart, one]; exact fusing)
    exact ⟨w, loop, reached', fusing'.placed, stops⟩
  · rw [if_neg dense]
    refine ⟨_, rfl, reached _, ?_, ?_⟩
    · simp only [firstWindow, Widening.windowStart, Nat.mul_one]
      exact ⟨rfl, ⟨run, entry, valid, cut.consecutive, span, routed⟩, apartLeft, left, apartRight,
        right⟩
    · by_cases several : s.height > 1
      · exact Or.inl (not_lt.mp (not_and.mp dense several))
      · have leaf : 1 ≤ s.height := Nat.succ_pos _
        exact Or.inr (Nat.le_antisymm leaf (not_lt.mp several))

end Windows

/-! ## All the runs -/

section Loop

variable {index : StaticIndex} {s : Storage} {d : DensityBounds} {batch : List (Int × Int)}
  {count i k segment : Nat} {runs : List BlkRunInfo} {w : Widening} {r : BlkRunInfo}

/-- The run takes its window. -/
theorem Placed.fused {e : Int × Int} (member : e ∈ batch)
    (power : s.numberSegments = 2 ^ (s.height - 1)) (capacity : s.segmentCapacity < 2 ^ 16)
    (reached : Reached index s d batch (index.findFirst e.1) w)
    (placed : Placed index s d batch count i w.fusion.runs w.fusion.numElements w.windowStart
      (w.windowStart + w.windowLength))
    (stops : w.density s ≤ theta d s w.height ∨ w.height = s.height) :
    ∃ run, w.fusion.runs[i]? = some run ∧ ∃ taken : BlkRunInfo, taken =
        { run with
          windowStart := w.windowStart
          windowLength := w.windowLength
          cardinality := w.fusion.numElements } ∧ taken.valid ∧
      leftOf (w.fusion.runs.set i taken) (i + 1) = leftOf w.fusion.runs i ++ [taken] ∧
      ((w.fusion.runs.set i taken).drop (i + 1)).filter BlkRunInfo.valid =
        rightOf w.fusion.runs i ∧
      (if w.windowLength = s.numberSegments ∧ w.density s > theta d s w.height then
          Overfull s d taken ∧ s.numberSegments * s.segmentCapacity < 2 ^ 31
        else Cut index s d batch (leftOf w.fusion.runs i ++ [taken])
          (rightOf w.fusion.runs i)) := by
  have denseIff := reached.crowded_iff capacity placed.load_eq
  have loaded := placed.load_eq
  obtain ⟨length, ⟨run, entry, valid, consecutive, span, routed⟩, apartLeft, left, apartRight,
    right⟩ := placed
  have inside : i < w.fusion.runs.length := (List.getElem?_eq_some_iff.mp entry).1
  refine ⟨run, entry, _, rfl, valid, ?_, ?_, ?_⟩
  · rw [leftOf, filter_take_succ (List.getElem?_set_self inside), List.take_set_of_le le_rfl]
    simp only [valid, if_true, leftOf]
  · rw [List.drop_set_of_lt (Nat.lt_succ_self i)]
    rfl
  generalize same : ({ run with
    windowStart := w.windowStart
    windowLength := w.windowLength
    cardinality := w.fusion.numElements } : BlkRunInfo) = taken
  have start : taken.windowStart = w.windowStart := by rw [← same]
  have size : taken.windowLength = w.windowLength := by rw [← same]
  have elements : taken.cardinality = w.fusion.numElements := by rw [← same]
  have ends : taken.windowEnd = w.windowStart + w.windowLength := by
    rw [BlkRunInfo.windowEnd, start, size]
  have place : w.windowStart =
      index.findFirst e.1 / 2 ^ (w.height - 1) * 2 ^ (w.height - 1) := by
    rw [Widening.windowStart, reached.windowId, reached.windowLength]
  split
  · next full =>
    obtain ⟨whole, dense⟩ := full
    have root : w.height = s.height := by
      rcases stops with sparse | root
      · exact absurd dense (not_lt.mpr sparse)
      · exact root
    obtain ⟨small, crowded⟩ := denseIff.mp dense
    rw [Crowded, ← place, ← reached.windowLength, ← loaded, Nat.sub_add_cancel reached.leaf, root]
      at crowded
    refine ⟨⟨?_, size.trans whole, ?_⟩, ?_⟩
    · have inside := span.inside
      rw [start]
      omega
    · rw [elements, size]
      exact crowded
    · rwa [← whole, reached.windowLength]
  · next notFull =>
    have sparse : ¬w.density s > theta d s w.height := by
      rcases stops with sparse | root
      · exact not_lt.mpr sparse
      · refine fun dense => notFull ⟨?_, dense⟩
        rw [reached.windowLength, root, power]
    have sound : Sound index s batch taken := by
      refine ⟨⟨?_, w.height - 1, size.trans reached.windowLength, ?_⟩, ?_⟩
      · rw [elements, start, ends, ← same]
        exact span
      · rw [start, place]
        exact Dvd.intro_left _ rfl
      · rw [start, ends, ← same]
        exact routed
    have settled : Settled index s d batch taken := by
      refine ⟨e, member, w.height - 1, size.trans reached.windowLength, start.trans place, ?_,
        reached.below, reached.cells, fun small crowded => sparse (denseIff.mpr ⟨small, crowded⟩)⟩
      rw [power]
      exact Nat.pow_le_pow_right (by decide) (Nat.sub_le_sub_right reached.root 1)
    refine ⟨?_, ?_, ?_, ?_, fun r member => (right r member).2.1⟩
    · rw [List.append_assoc]
      exact consecutive.replace (by rw [← same]) (by rw [← same])
    · rw [List.append_assoc, List.pairwise_append]
      refine ⟨apartLeft, List.pairwise_cons.mpr ⟨fun r member => ?_, apartRight⟩,
        fun r first r' second => ?_⟩
      · rw [ends]
        exact (right r member).2.2
      · have before := (left r first).2.2
        rcases List.mem_cons.mp second with rfl | later
        · rw [start]
          exact before
        · have := (right r' later).2.2
          omega
    · intro r member
      rw [List.append_assoc] at member
      rcases List.mem_append.mp member with first | second
      · exact (left r first).1
      · rcases List.mem_cons.mp second with rfl | later
        · exact sound
        · exact (right r later).1
    · intro r member
      rcases List.mem_append.mp member with first | second
      · exact (left r first).2.1
      · rw [List.mem_singleton.mp second]
        exact settled

/-- A run in a single segment has an element that goes there. -/
theorem Cut.element {done todo : List BlkRunInfo} (cut : Cut index s d batch done (r :: todo)) :
    ∃ e ∈ batch, index.findFirst e.1 = r.windowStart := by
  obtain ⟨length, some⟩ := length_piece cut.consecutive
  obtain ⟨e, piece⟩ := List.exists_mem_of_length_pos (length ▸ some)
  have bounds := (cut.sound r (by simp)).routed e piece
  rw [BlkRunInfo.windowEnd, cut.single r List.mem_cons_self] at bounds
  exact ⟨e, List.mem_of_mem_drop (List.mem_of_mem_take piece), by omega⟩

/-- The loop over the runs: the fused runs, or one that exceeds the threshold of the root. -/
theorem fuseRuns_spec (inv : RepInv index s) (power : s.numberSegments = 2 ^ (s.height - 1))
    (capacity : s.segmentCapacity < 2 ^ 16) (length : runs.length = i + count)
    (cut : Cut index s d batch (leftOf runs i) ((runs.drop i).filter BlkRunInfo.valid)) :
    ∃ resize runs', fuseRuns s d count i runs = some (resize, runs') ∧
      (resize = false → Cut index s d batch (runs'.filter BlkRunInfo.valid) []) ∧
      (resize = true → (∃ r ∈ runs'.filter BlkRunInfo.valid, Overfull s d r) ∧
        s.numberSegments * s.segmentCapacity < 2 ^ 31) := by
  induction count generalizing i runs with
  | zero =>
      refine ⟨false, runs, rfl, fun _ => ?_, fun resize => by cases resize⟩
      have last : runs.length ≤ i := length.le
      rw [leftOf, List.take_of_length_le last, List.drop_of_length_le last] at cut
      exact cut
  | succ count ih =>
      have inside : i < runs.length := by omega
      have entry : runs[i]? = some runs[i] := List.getElem?_eq_getElem inside
      generalize runs[i] = run at entry
      rw [fuseRuns, entry, Option.bind_eq_bind, Option.bind_some]
      by_cases valid : run.valid
      · have todo := filter_drop (p := BlkRunInfo.valid) entry
        rw [if_pos valid] at todo
        rw [todo] at cut
        obtain ⟨w, window, reached, placed, stops⟩ :=
          fuseRun_spec inv power capacity entry valid cut
        obtain ⟨e, member, same⟩ := cut.element
        rw [← same] at reached
        obtain ⟨run', entry', taken, rfl, live, done, todo', outcome⟩ :=
          placed.fused member power capacity reached stops
        rw [if_pos valid, window, Option.bind_eq_bind, Option.bind_some, entry', Option.bind_some]
        dsimp only
        by_cases full : w.windowLength = s.numberSegments ∧ w.density s > theta d s w.height
        · rw [if_pos full] at outcome ⊢
          refine ⟨true, _, rfl, (fun no => by cases no), fun _ =>
            ⟨⟨_, ?_, outcome.1⟩, outcome.2⟩⟩
          have member := List.getElem?_set_self (a := ({ run' with
            windowStart := w.windowStart
            windowLength := w.windowLength
            cardinality := w.fusion.numElements } : BlkRunInfo))
            (show i < w.fusion.runs.length from placed.length ▸ inside)
          exact List.mem_filter.mpr ⟨List.mem_of_getElem? member, live⟩
        · rw [if_neg full] at outcome ⊢
          refine ih ?_ ?_
          · rw [List.length_set, placed.length, length]
            omega
          · rw [done, todo']
            exact outcome
      · rw [if_neg valid]
        refine ih (by omega) ?_
        have todo := filter_drop (p := BlkRunInfo.valid) entry
        rw [if_neg valid, List.nil_append] at todo
        rw [leftOf, filter_take_succ entry, if_neg valid, List.append_nil, ← todo]
        exact cut

/-- A run is within its threshold when its window is not crowded. -/
theorem Cut.within_iff (cut : Cut index s d batch runs []) (member : r ∈ runs)
    (length : r.windowLength = 2 ^ k) (start : r.windowStart = segment / 2 ^ k * 2 ^ k) :
    Within s d r ↔ ¬Crowded index s d batch segment k := by
  have consecutive := cut.consecutive
  have apart := cut.apart
  have sound := cut.sound
  rw [List.append_nil] at consecutive apart sound
  obtain ⟨l, l', rfl⟩ := List.append_of_mem member
  obtain ⟨-, after, before⟩ := List.pairwise_append.mp apart
  have loaded := load_run consecutive (sound r member).routed
    (fun r' left => ⟨sound r' (List.mem_append_left _ left),
      before r' left r List.mem_cons_self⟩)
    fun r' right => ⟨sound r' (List.mem_append_right _ (List.mem_cons_of_mem _ right)),
      (List.pairwise_cons.mp after).1 r' right⟩
  rw [← (sound r member).span.count, BlkRunInfo.windowEnd, length, start] at loaded
  rw [Within, Crowded, loaded, length, Nat.log_pow Nat.one_lt_two, not_lt]

/-- An element of the batch goes to the window of its run. -/
theorem Cut.window {e : Int × Int} (cut : Cut index s d batch runs []) (member : e ∈ batch) :
    ∃ r ∈ runs, ∃ k, r.windowLength = 2 ^ k ∧ 2 ^ k * s.segmentCapacity < 2 ^ 32 ∧
      r.windowStart = index.findFirst e.1 / 2 ^ k * 2 ^ k := by
  have consecutive := cut.consecutive
  rw [List.append_nil] at consecutive
  have pieces := consecutive.flatMap batch
  rw [Nat.sub_zero, List.drop_zero, List.take_length] at pieces
  rw [← pieces] at member
  obtain ⟨r, run, piece⟩ := List.mem_flatMap.mp member
  obtain ⟨_, _, k, length, start, halted⟩ := cut.settled r run
  obtain ⟨lower, upper⟩ := (cut.sound r (List.mem_append_left _ run)).routed e piece
  refine ⟨r, run, k, length, halted.cells, ?_⟩
  rw [BlkRunInfo.windowEnd, length] at upper
  rw [start] at lower upper ⊢
  congr 1
  exact (Nat.div_eq_of_lt_le lower (by rwa [Nat.succ_mul])).symm

/-- Where a run has to grow too far, the array is not resized, and a run exceeds its threshold. -/
theorem Overflows.not_within {resize : Bool} (overflows : Overflows index s d batch)
    (cut : resize = false → Cut index s d batch runs [])
    (overfull : resize = true → s.numberSegments * s.segmentCapacity < 2 ^ 31) :
    resize = false ∧ ∃ r ∈ runs, ¬Within s d r := by
  obtain ⟨e, member, k, inside, large, crowded⟩ := overflows
  cases resize with
  | true =>
      have product := Nat.mul_le_mul_right s.segmentCapacity inside
      have small := overfull rfl
      omega
  | false =>
      obtain ⟨r, one, j, length, cells, place⟩ := (cut rfl).window member
      refine ⟨rfl, r, one, fun within => ?_⟩
      have sparse := ((cut rfl).within_iff one length place).mp within
      -- its window is one of those that are crowded, for a larger one has too many cells
      rcases Nat.lt_or_ge k j with more | le
      · have product := Nat.mul_le_mul_right s.segmentCapacity
          (Nat.pow_le_pow_right (show 0 < 2 by decide) more)
        rw [Nat.succ_eq_add_one, pow_succ, Nat.mul_right_comm] at product
        omega
      · exact sparse (crowded j le)

/-- Otherwise all the runs are within their thresholds. -/
theorem Cut.within (cut : Cut index s d batch runs []) (fits : ¬Overflows index s d batch) :
    ∀ r ∈ runs, Within s d r := by
  intro r one
  obtain ⟨e, member, k, length, place, halted⟩ := cut.settled r one
  refine (cut.within_iff one length place).mpr fun crowded => fits ?_
  refine ⟨e, member, k, halted.inside, not_lt.mp fun small => halted.stops small crowded,
    fun j le => ?_⟩
  rcases Nat.eq_or_lt_of_le le with rfl | less
  · exact crowded
  · exact halted.below j less

/-- The runs that are generated and fused. -/
theorem loadFuseRuns_cut (inv : RepInv index s) (power : ∃ n, s.numberSegments = 2 ^ n)
    (capacity : s.segmentCapacity < 2 ^ 16)
    (sorted : batch.Pairwise fun e e' => e.1 ≤ e'.1) (keys : ∀ e ∈ batch, e.1 < 2 ^ 63)
    (d : DensityBounds) :
    ∃ resize runs, loadFuseRuns s d (loadGenerateRuns index s batch) = some (resize, runs) ∧
      (resize = false → Cut index s d batch (runs.filter BlkRunInfo.valid) []) ∧
      (resize = true → (∃ r ∈ runs.filter BlkRunInfo.valid, Overfull s d r) ∧
        s.numberSegments * s.segmentCapacity < 2 ^ 31) := by
  have height : s.numberSegments = 2 ^ (s.height - 1) := by
    obtain ⟨n, segments⟩ := power
    rw [Storage.height, segments, Nat.log_pow Nat.one_lt_two, Nat.add_sub_cancel]
  obtain ⟨consecutive, apart, each⟩ := generateRuns_fits inv sorted keys 0 batch 0
    (Nat.zero_add _) rfl fun _ _ => Nat.zero_le _
  have all : (loadGenerateRuns index s batch).filter BlkRunInfo.valid =
      loadGenerateRuns index s batch :=
    List.filter_eq_self.mpr fun r member => (each r member).2.2.1
  have start : Cut index s d batch (leftOf (loadGenerateRuns index s batch) 0)
      (((loadGenerateRuns index s batch).drop 0).filter BlkRunInfo.valid) := by
    rw [leftOf, List.take_zero, List.filter_nil, List.drop_zero, all]
    exact ⟨consecutive, apart, fun r member => (each r member).1,
      fun r member => absurd member List.not_mem_nil, fun r member => (each r member).2.1⟩
  exact fuseRuns_spec inv height capacity (Nat.zero_add _).symm start

end Loop

/-- **Run generation and fusion.** Where the array need not be resized, the valid runs cut the
batch into consecutive pieces that are not empty; their windows are disjoint and in order, aligned
and within the array, with the elements of the run and of the segments counted, densities within
the threshold of the height, and keys between those of the segments around the window. The array
is to be resized exactly when a run covers the whole of it and exceeds the threshold of the root.
All this holds exactly when no run has to grow to a window of `2 ^ 31` cells that exceeds its
threshold too. -/
theorem loadFuseRuns_fused_iff {index : StaticIndex} {s : Storage} {batch : List (Int × Int)}
    (inv : RepInv index s) (power : ∃ n, s.numberSegments = 2 ^ n)
    (capacity : s.segmentCapacity < 2 ^ 16)
    (sorted : batch.Pairwise fun e e' => e.1 ≤ e'.1) (keys : ∀ e ∈ batch, e.1 < 2 ^ 63)
    (d : DensityBounds) :
    (∃ resize runs, loadFuseRuns s d (loadGenerateRuns index s batch) = some (resize, runs) ∧
      (resize = false → Fused s d batch (runs.filter BlkRunInfo.valid) ∧
        (runs.filter BlkRunInfo.valid).flatMap (BlkRunInfo.piece batch) = batch) ∧
      (resize = true ↔ ∃ r ∈ runs.filter BlkRunInfo.valid, Overfull s d r)) ↔
      ¬Overflows index s d batch := by
  obtain ⟨resize, runs, run, cut, overfull⟩ := loadFuseRuns_cut inv power capacity sorted keys d
  constructor
  · rintro ⟨_, _, run', fused, -⟩ overflows
    have same := Option.some.inj (run.symm.trans run')
    obtain ⟨rfl, rfl⟩ := Prod.mk.inj same
    obtain ⟨no, r, member, dense⟩ := overflows.not_within cut fun yes => (overfull yes).2
    exact dense ((fused no).1.within r member)
  · intro fits
    have fused : resize = false → Fused s d batch (runs.filter BlkRunInfo.valid) := by
      intro no
      have within := (cut no).within fits
      obtain ⟨consecutive, apart, sound, -, -⟩ := cut no
      rw [List.append_nil] at consecutive apart sound
      exact ⟨consecutive, apart, fun r member => (sound r member).toFits, within⟩
    refine ⟨resize, runs, run, fun no => ⟨fused no, ?_⟩, fun yes => (overfull yes).1, ?_⟩
    · have pieces := (fused no).consecutive.flatMap batch
      rwa [Nat.sub_zero, List.drop_zero, List.take_length] at pieces
    · rintro ⟨r, member, -, whole, dense⟩
      by_contra no
      have sparse := (fused (Bool.not_eq_true _ ▸ no)).within r member
      rw [Within, whole, ← Storage.height] at sparse
      rw [whole] at dense
      exact absurd dense (not_lt.mpr sparse)

/-- An array of two segments of 32 cells, with the key 3 in both. -/
def twoBlocks : Storage where
  keys := fun p => [1, 3, 3, 5].getD (p - 30) 0
  values := fun p => p
  segmentSizes := fun i => [2, 2].getD i 0
  segmentCapacity := 32
  cardinality := 4
  numberSegments := 2
  pagesPerExtent := 1

theorem repInv_twoBlocks : ∃ index, RepInv index twoBlocks := by
  have ⟨u, index, built⟩ : ∃ u index,
      StaticIndex.create 4 2 (some fun _ => 0) (StaticIndex.blank 4) = .ok u index := ⟨_, _, rfl⟩
  have stored := StaticIndex.storeAll_separators (StaticIndex.create_ok (by decide) built)
    (show ∀ e ∈ [(0, 1), (1, 3)], e.1 < 2 by decide)
  refine ⟨index.storeAll [(0, 1), (1, 3)], ⟨by decide, by decide, by decide, by decide⟩, by decide,
    by unfold Storage.Sorted; decide, _, stored, ?_⟩
  intro i inside _
  have inside : i < 2 := inside
  interval_cases i <;> rfl

/-- A window of 64 cells cannot overflow. -/
theorem loadFuseRuns_fused_two : ∃ index, RepInv index twoBlocks ∧
    ∃ resize runs, loadFuseRuns twoBlocks (DensityBounds.primary double)
      (loadGenerateRuns index twoBlocks [(2, 20), (3, 32), (4, 40)]) = some (resize, runs) ∧
      (resize = true ↔ ∃ r ∈ runs.filter BlkRunInfo.valid,
        Overfull twoBlocks (DensityBounds.primary double) r) := by
  obtain ⟨index, inv⟩ := repInv_twoBlocks
  obtain ⟨resize, runs, run, -, overfull⟩ := (loadFuseRuns_fused_iff inv ⟨1, rfl⟩ (by decide)
    (show [(2, 20), (3, 32), (4, 40)].Pairwise fun e e' : Int × Int => e.1 ≤ e'.1 by decide)
    (by decide) (DensityBounds.primary double)).mpr (by
      rintro ⟨_, _, k, inside, large, _⟩
      have product := Nat.mul_le_mul_right twoBlocks.segmentCapacity inside
      exact absurd (large.trans product) (by decide))
  exact ⟨index, inv, resize, runs, run, overfull⟩

/-- The value of a key in a list of pairs with one value only. -/
theorem lookup_uniform {l : List (Nat × Int)} {i : Nat} {key : Int} (member : (i, key) ∈ l)
    (uniform : ∀ e ∈ l, e.2 = key) : l.lookup i = some key := by
  induction l with
  | nil => cases member
  | cons e l ih =>
      rw [List.lookup_cons]
      by_cases same : i = e.1
      · rw [beq_iff_eq.mpr same]
        exact congrArg some (uniform e List.mem_cons_self)
      · rw [beq_eq_false_iff_ne.mpr same]
        refine ih ?_ fun e later => uniform e (List.mem_cons_of_mem _ later)
        rcases List.mem_cons.mp member with rfl | later
        · exact absurd rfl same
        · exact later

/-- Two to the 26 segments, all of them full of the key 0. -/
def flooded : Storage where
  keys := fun _ => 0
  values := fun p => p
  segmentSizes := fun _ => 32
  segmentCapacity := 32
  cardinality := 2 ^ 31
  numberSegments := 2 ^ 26
  pagesPerExtent := 1

theorem repInv_flooded : ∃ index, RepInv index flooded := by
  have height : StaticIndex.heightOf (StaticIndex.blank 64).nodeSize (2 ^ 26) ≤
      StaticIndex.rightmostSz :=
    (Nat.clog_le_of_le_pow (show 2 ^ 26 ≤ 64 ^ 5 by decide)).trans (by decide)
  obtain ⟨index, built⟩ := ((@StaticIndex.rebuild_cases (StaticIndex.blank 64) (2 ^ 26)
    (some fun _ => 0) (by decide)).2 height).2 (Or.inr nofun)
  have sized := (StaticIndex.rebuild_ok (show 1 < (StaticIndex.blank 64).nodeSize by decide)
    (fun above => absurd above (by decide)) built).1
  have stored := @StaticIndex.storeAll_separators index (2 ^ 26) sized
    ((List.range (2 ^ 26)).map fun i => (i, 0)) fun e member => by
      obtain ⟨i, inside, rfl⟩ := List.mem_map.mp member
      exact List.mem_range.mp inside
  refine ⟨_, ⟨show 0 < 32 by decide, fun _ _ => le_refl 32, fun _ _ _ => show 0 < 32 by decide,
    ?_⟩, show 0 < 2 ^ 26 by decide, ?_, _, stored, fun i inside _ => ?_⟩
  · change 2 ^ 31 = ((List.range (2 ^ 26)).map fun _ => 32).sum
    rw [List.map_const', List.sum_replicate, List.length_range]
    rfl
  · refine List.pairwise_of_forall_mem_list fun a first b second => ?_
    have zero : ∀ x ∈ flooded.elements.map Prod.fst, x = 0 := by
      intro x member
      obtain ⟨e, element, rfl⟩ := List.mem_map.mp member
      obtain ⟨p, -, rfl⟩ := List.mem_map.mp element
      rfl
    rw [zero a first, zero b second]
  · have uniform : ((((List.range (2 ^ 26)).map fun i => (i, (0 : Int))).reverse).lookup i) =
        some 0 := by
      refine lookup_uniform ?_ fun e member => ?_
      · exact List.mem_reverse.mpr (List.mem_map.mpr ⟨i, List.mem_range.mpr inside, rfl⟩)
      · obtain ⟨j, -, rfl⟩ := List.mem_map.mp (List.mem_reverse.mp member)
        rfl
    rw [uniform]
    rfl

/-- A single element is one too many in every window around the first segment. -/
theorem flooded_overflows {index : StaticIndex} (inv : RepInv index flooded) (d : DensityBounds) :
    Overflows index flooded d [(0, 0)] := by
  have first : index.findFirst 0 = 0 := by
    by_contra other
    have above := (findFirst_segment inv 0).2.1 (Nat.pos_of_ne_zero other)
    exact absurd above (lt_irrefl 0)
  have height : flooded.height = 27 := by
    rw [Storage.height]
    exact congrArg (· + 1) (Nat.log_pow (by decide) 26)
  refine ⟨(0, 0), List.mem_singleton_self _, 26, le_rfl, show 2 ^ 31 ≤ 2 ^ 26 * 32 by decide,
    fun j le => ?_⟩
  have load : load index flooded [(0, 0)] 0 (0 + 2 ^ j) = 1 + 2 ^ j * 32 := by
    have size : ∑ i ∈ Finset.Ico 0 (0 + 2 ^ j), flooded.segmentSizes i = 2 ^ j * 32 := by
      change ∑ i ∈ Finset.Ico 0 (0 + 2 ^ j), 32 = 2 ^ j * 32
      rw [Finset.sum_const, Nat.card_Ico, Nat.zero_add, Nat.sub_zero, smul_eq_mul]
    rw [BTreePMACC7.load, size, List.countP_singleton, first]
    simp
  have most : theta d flooded (j + 1) ≤ 1 := by
    unfold theta
    split
    · exact d.theta0_le
    · exact d.theta_le_one (Nat.succ_pos j) (by omega)
  have power : (0 : ℚ) < 2 ^ j := by positivity
  have capacity : flooded.segmentCapacity = 32 := rfl
  rw [Crowded, first, Nat.zero_div, Nat.zero_mul, load, capacity]
  refine most.trans_lt ?_
  push_cast
  rw [lt_div_iff₀ (by positivity)]
  linarith

/-- **A run may exceed the threshold of the root unnoticed.** In a full array of `2 ^ 31` cells, the
run of one more element grows to the whole array, and the array is not resized. -/
theorem loadFuseRuns_overflows :
    ¬∀ (index : StaticIndex) (s : Storage) (d : DensityBounds) (batch : List (Int × Int)),
      RepInv index s → (∃ n, s.numberSegments = 2 ^ n) → s.segmentCapacity < 2 ^ 16 →
      batch.Pairwise (fun e e' => e.1 ≤ e'.1) → (∀ e ∈ batch, e.1 < 2 ^ 63) →
      ∃ resize runs, loadFuseRuns s d (loadGenerateRuns index s batch) = some (resize, runs) ∧
        (resize = false → Fused s d batch (runs.filter BlkRunInfo.valid) ∧
          (runs.filter BlkRunInfo.valid).flatMap (BlkRunInfo.piece batch) = batch) ∧
        (resize = true ↔ ∃ r ∈ runs.filter BlkRunInfo.valid, Overfull s d r) := by
  intro claim
  obtain ⟨index, inv⟩ := repInv_flooded
  have sorted : [((0, 0) : Int × Int)].Pairwise fun e e' => e.1 ≤ e'.1 := List.pairwise_singleton _ _
  have keys : ∀ e ∈ [((0, 0) : Int × Int)], e.1 < 2 ^ 63 := by decide
  obtain ⟨_, _, run', fused, -⟩ := claim index flooded (DensityBounds.primary double) [(0, 0)] inv
    ⟨26, rfl⟩ (show 32 < 2 ^ 16 by decide) sorted keys
  obtain ⟨resize, runs, run, cut, overfull⟩ := loadFuseRuns_cut inv ⟨26, rfl⟩
    (show 32 < 2 ^ 16 by decide) sorted keys (DensityBounds.primary double)
  have same := Option.some.inj (run.symm.trans run')
  obtain ⟨rfl, rfl⟩ := Prod.mk.inj same
  obtain ⟨no, r, member, dense⟩ :=
    (flooded_overflows inv (DensityBounds.primary double)).not_within cut fun yes => (overfull yes).2
  exact dense ((fused no).1.within r member)

end BTreePMACC7

end Rma
