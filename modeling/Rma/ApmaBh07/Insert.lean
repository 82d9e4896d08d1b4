import Rma.ApmaBh07.Weights
import Rma.Base.Aligned
import Rma.Base.Words

/-!
# Insertions in the array of BH07

An insertion in a full segment asks for a rebalance. `request` doubles a window around the
segment until its density is within the upper threshold of its height; it is then spread,
with the new element. When the window is the whole array, the array is resized to twice the
segments and the insertion is tried again.

What the index answers is left open: an insertion is a sequence of attempts, each in some
segment. The keys and the values are left out, the sizes of the segments and the predictor
are what the rebalancing depends on.
-/

namespace Rma

open Base

namespace ApmaBh07

/-- The array with the sizes of its segments and its predictor. -/
structure State where
  array : ApmaBh07
  sizes : List Nat
  predictor : Predictor
  predictorScale : ℚ

/-- The arguments of `apma_partitions`, with the array whose thresholds it reads. -/
structure Request where
  array : ApmaBh07
  height : Nat
  cardinality : Nat
  windowStart : Nat
  windowLength : Nat
  resize : Bool
  canFill : Bool

namespace State

/-! ## The window -/

/-- `while(index_left >= window_start)`, counting the elements: the index after `index_left`
and the number. -/
def countLeft (sizes : List Nat) (windowStart : Nat) : (index num : Nat) → Option (Nat × Nat)
  | 0, num => some (0, num)
  | i + 1, num =>
    if i ≥ windowStart then do
      let size ← sizes[i]?
      countLeft sizes windowStart i (num + size)
    else some (i + 1, num)

/-- `while(index_right < window_end)`, counting the elements; `room` segments are left. -/
def countRight (sizes : List Nat) : (room index num : Nat) → Option (Nat × Nat)
  | 0, i, num => some (i, num)
  | room + 1, i, num => do
    let size ← sizes[i]?
    countRight sizes room (i + 1) (num + size)

/-- The local variables of `rebalance`; `leftEnd` is the index after `index_left`. -/
structure Search where
  height : Nat
  windowLength : Nat
  windowId : Nat
  windowStart : Nat
  numElements : Nat
  leftEnd : Nat
  indexRight : Nat
  theta : ℚ
  density : ℚ

variable (s : State)

/-- The variables before the loop. The threshold is only used when there is one segment. -/
def Search.first (segment : Nat) : Search where
  height := 1
  windowLength := 1
  windowId := segment
  windowStart := segment
  numElements := s.array.segmentCapacity + 1
  leftEnd := segment
  indexRight := segment + 1
  theta := 1
  density := (s.array.segmentCapacity + 1 : ℚ) / s.array.segmentCapacity

/-- One turn of the loop. -/
def turn (w : Search) : Option Search := do
  let height := w.height + 1
  let windowLength := w.windowLength * 2
  let windowId := w.windowId / 2
  let windowStart := windowId * windowLength
  let windowEnd := windowStart + windowLength
  let (leftEnd, numElements) ← countLeft s.sizes windowStart w.leftEnd w.numElements
  let (indexRight, numElements) ←
    countRight s.sizes (windowEnd - w.indexRight) w.indexRight numElements
  some {
    height := height
    windowLength := windowLength
    windowId := windowId
    windowStart := windowStart
    numElements := numElements
    leftEnd := leftEnd
    indexRight := indexRight
    theta := (s.array.thresholds height).2
    -- the number of cells is an `int`
    density := (numElements : ℚ) / toInt (windowLength * s.array.segmentCapacity : Nat) }

/-- The loop, with a bound on the number of its turns. -/
def search : (turns : Nat) → Search → Option Search
  | 0, _ => none
  | turns + 1, w => do
    let w ← s.turn w
    if w.density > w.theta ∧ w.height < s.array.height then search turns w else some w

/-- The window that `rebalance(segment_id)` finds. -/
def findWindow (segment : Nat) : Option Search :=
  if s.array.height > 1 then s.search s.array.height (.first s segment)
  else some (.first s segment)

/-- What `rebalance(segment_id)` asks for: a spread of the window, or a resize. -/
def request (segment : Nat) : Option Request := do
  let w ← s.findWindow segment
  if w.density ≤ w.theta then
    some {
      array := s.array
      height := w.height
      cardinality := w.numElements
      windowStart := w.windowStart
      windowLength := w.windowLength
      resize := false
      canFill := true }
  else
    some {
      -- the thresholds are those of the taller tree
      array := { s.array with height := s.array.height + 1 }
      height := w.height + 1
      -- the new key has not been inserted yet
      cardinality := w.numElements - 1
      windowStart := w.windowStart
      windowLength := 2 * w.windowLength
      resize := true
      canFill := false }

end State

/-- The weights that the partitions of a request use. -/
def Request.weights (r : Request) (predictor : Predictor) : List PermutedItem :=
  predictor.items r.windowStart (r.windowStart + r.windowLength - 1)

namespace State

/-! ## Insertions -/

variable (s : State)

/-- Insert in a segment that has room. -/
def store (segment : Nat) : Option State := do
  let size ← s.sizes[segment]?
  let predictor ← s.predictor.update segment
  some { s with sizes := s.sizes.set segment (size + 1), predictor := predictor }

/-- The part of `resize` that rebuilds the predictor. -/
def rebuildPredictor (height : Nat) (predictor : Predictor) : Option Predictor :=
  match predictor.resize (max 4 ⌊height * s.predictorScale⌋₊) with
  | .error _ => none
  | .ok resized => do
    let predictor ← resized
    match predictor.setMaxCount height with
    | .error _ => none
    | .ok predictor => some predictor

/-- `rebalance(segment_id)` -/
def rebalance (segment : Nat) : Option State := do
  let r ← s.request segment
  let (partitions, predictor) ← r.array.partitions r.resize r.canFill s.predictor r.height
    r.cardinality r.windowStart r.windowLength
  if r.resize then
    let predictor ← s.rebuildPredictor r.array.height predictor
    some { s with
      array := r.array
      sizes := Partition.quotas partitions
      predictor := predictor }
  else
    some { s with
      sizes := s.sizes.take r.windowStart ++ Partition.quotas partitions ++
        s.sizes.drop (r.windowStart + r.windowLength)
      predictor := predictor }

/-- One attempt to insert an element, in the segment that the index answers. -/
def attempt (segment : Nat) : Option State := do
  if s.sizes.sum = 0 then s.store 0
  else
    let size ← s.sizes[segment]?
    if size = s.array.segmentCapacity then s.rebalance segment else s.store segment

/-- The array without elements. -/
def initial (array : ApmaBh07) (predictor : Predictor) (predictorScale : ℚ) : State where
  array := { array with height := 1 }
  sizes := [0]
  predictor := predictor
  predictorScale := predictorScale

end State

/-! ## What a request is -/

namespace State

/-- The shape of the array. -/
structure Shaped (s : State) : Prop where
  height_pos : 1 ≤ s.array.height
  length : s.sizes.length = 2 ^ (s.array.height - 1)
  sizes_le : ∀ q ∈ s.sizes, q ≤ s.array.segmentCapacity
  capacity : 32 ≤ s.array.segmentCapacity

/-- The number of cells is an `int`. -/
def Small (s : State) : Prop := s.sizes.length * s.array.segmentCapacity < 2 ^ 31

instance (s : State) : Decidable s.Small := inferInstanceAs (Decidable (_ < _))

/-- The number of elements of `n` segments. -/
def sumSizes (sizes : List Nat) (a n : Nat) : Nat := ((sizes.drop a).take n).sum

section Counting

variable {sizes : List Nat} {a m n i room num : Nat}

theorem sumSizes_add (sizes : List Nat) (a m n : Nat) :
    sumSizes sizes a m + sumSizes sizes (a + m) n = sumSizes sizes a (m + n) := by
  rw [sumSizes, sumSizes, sumSizes, List.take_add, List.sum_append, List.drop_drop]

theorem sumSizes_one {size : Nat} (read : sizes[a]? = some size) : sumSizes sizes a 1 = size := by
  obtain ⟨inside, rfl⟩ := List.getElem?_eq_some_iff.mp read
  rw [sumSizes, List.drop_eq_getElem_cons inside, List.take_succ_cons, List.take_zero,
    List.sum_singleton]

theorem sumSizes_le {capacity : Nat} (bounded : ∀ q ∈ sizes, q ≤ capacity) :
    sumSizes sizes a n ≤ n * capacity := by
  have most := List.sum_le_card_nsmul ((sizes.drop a).take n) capacity fun q member =>
    bounded q (List.mem_of_mem_drop (List.mem_of_mem_take member))
  exact most.trans (Nat.mul_le_mul_right _ (List.length_take_le _ _))

/-- The index on the left ends at the start of the window. -/
theorem countLeft_eq (num : Nat) (start : a ≤ i) (inside : i ≤ sizes.length) :
    countLeft sizes a i num = some (a, num + sumSizes sizes a (i - a)) := by
  induction i generalizing num with
  | zero =>
      rw [Nat.le_zero.mp start]
      simp [countLeft, sumSizes]
  | succ i ih =>
      rw [countLeft]
      by_cases within : i ≥ a
      · have read : sizes[i]? = some sizes[i] := List.getElem?_eq_getElem inside
        have last := sumSizes_add sizes a (i - a) 1
        rw [show a + (i - a) = i by omega, show i - a + 1 = i + 1 - a by omega,
          sumSizes_one read] at last
        rw [if_pos within, read]
        simp only [Option.bind_eq_bind, Option.bind_some]
        rw [ih _ within (by omega), ← last]
        congr 2
        omega
      · rw [if_neg within, show a = i + 1 by omega]
        simp [sumSizes]

/-- The index on the right ends at the end of the window. -/
theorem countRight_eq (room num : Nat) (inside : i + room ≤ sizes.length) :
    countRight sizes room i num = some (i + room, num + sumSizes sizes i room) := by
  induction room generalizing i num with
  | zero => simp [countRight, sumSizes]
  | succ room ih =>
      have read : sizes[i]? = some sizes[i] := List.getElem?_eq_getElem (by omega)
      have first := sumSizes_add sizes i 1 room
      rw [sumSizes_one read, Nat.add_comm 1 room] at first
      rw [countRight, read]
      simp only [Option.bind_eq_bind, Option.bind_some]
      rw [ih _ (by omega), ← first]
      congr 2
      · omega
      · omega

/-- The two loops count what the window of the next height has besides a window. -/
theorem count_window {k segment : Nat} (num : Nat)
    (inside : segment / 2 ^ (k + 1) * 2 ^ (k + 1) + 2 ^ (k + 1) ≤ sizes.length) :
    ∃ left right, countLeft sizes (segment / 2 ^ (k + 1) * 2 ^ (k + 1)) (segment / 2 ^ k * 2 ^ k)
        num = some (segment / 2 ^ (k + 1) * 2 ^ (k + 1), left) ∧
      countRight sizes (segment / 2 ^ (k + 1) * 2 ^ (k + 1) + 2 ^ (k + 1) -
          (segment / 2 ^ k * 2 ^ k + 2 ^ k)) (segment / 2 ^ k * 2 ^ k + 2 ^ k) left =
        some (segment / 2 ^ (k + 1) * 2 ^ (k + 1) + 2 ^ (k + 1), right) ∧
      right + sumSizes sizes (segment / 2 ^ k * 2 ^ k) (2 ^ k) =
        num + sumSizes sizes (segment / 2 ^ (k + 1) * 2 ^ (k + 1)) (2 ^ (k + 1)) := by
  have double : 2 ^ (k + 1) = 2 ^ k + 2 ^ k := by
    rw [pow_succ]
    omega
  have halves := aligned_halves segment k
  generalize segment / 2 ^ (k + 1) * 2 ^ (k + 1) = b at *
  generalize segment / 2 ^ k * 2 ^ k = a at *
  generalize 2 ^ (k + 1) = long at *
  generalize 2 ^ k = short at *
  subst double
  have parts := sumSizes_add sizes b short short
  rcases halves with rfl | rfl
  · have left := @countLeft_eq sizes a a num le_rfl (by omega)
    have right := @countRight_eq sizes (a + short) short (num + sumSizes sizes a (a - a)) (by omega)
    have none : sumSizes sizes a (a - a) = 0 := by simp [sumSizes]
    have room : a + (short + short) - (a + short) = short := by omega
    exact ⟨_, _, left, by rw [room, right, Nat.add_assoc], by omega⟩
  · have left := @countLeft_eq sizes b (b + short) num (Nat.le_add_right b short) (by omega)
    rw [Nat.add_sub_cancel_left] at left
    have room : b + (short + short) - (b + short + short) = 0 := by omega
    refine ⟨_, _, left, by rw [room, countRight, Nat.add_assoc], by omega⟩

end Counting

section Search

variable {s : State} {segment k : Nat} {w : Search}

/-- The variables of the search after `k` turns. -/
structure Around (s : State) (segment k : Nat) (w : Search) : Prop where
  height : w.height = k + 1
  windowLength : w.windowLength = 2 ^ k
  windowId : w.windowId = segment / 2 ^ k
  windowStart : w.windowStart = segment / 2 ^ k * 2 ^ k
  numElements : w.numElements = sumSizes s.sizes w.windowStart (2 ^ k) + 1
  leftEnd : w.leftEnd = w.windowStart
  indexRight : w.indexRight = w.windowStart + 2 ^ k
  theta : 0 < k → w.theta = (s.array.thresholds (k + 1)).2
  density : w.density = (w.numElements : ℚ) / (2 ^ k * s.array.segmentCapacity)

theorem around_first (full : s.sizes[segment]? = some s.array.segmentCapacity) :
    s.Around segment 0 (.first s segment) := by
  constructor <;> simp [Search.first, sumSizes_one full]

/-- A window of the calibrator tree lies in the array. -/
theorem window_inside (shaped : s.Shaped) (inside : segment < s.sizes.length)
    (low : k ≤ s.array.height - 1) :
    segment / 2 ^ k * 2 ^ k + 2 ^ k ≤ s.sizes.length := by
  rw [shaped.length] at inside ⊢
  exact aligned_inside inside low

/-- One turn doubles the window. -/
theorem Around.turn (around : s.Around segment k w) (shaped : s.Shaped) (small : s.Small)
    (inside : segment < s.sizes.length) (low : k + 1 ≤ s.array.height - 1) :
    ∃ w', s.turn w = some w' ∧ s.Around segment (k + 1) w' := by
  have outer := window_inside shaped inside low
  have half : segment / 2 ^ k / 2 = segment / 2 ^ (k + 1) := by
    rw [Nat.div_div_eq_div_mul, ← Nat.pow_succ]
  have double : 2 ^ k * 2 = 2 ^ (k + 1) := (Nat.pow_succ 2 k).symm
  obtain ⟨left, right, countL, countR, counted⟩ :=
    count_window w.numElements outer
  have total := around.numElements
  rw [around.windowStart] at total
  have cells : 2 ^ (k + 1) * s.array.segmentCapacity < 2 ^ 31 :=
    (Nat.mul_le_mul_right _ ((Nat.le_add_left _ _).trans outer)).trans_lt small
  have exact : toInt (2 ^ (k + 1) * s.array.segmentCapacity : Nat) =
      (2 ^ (k + 1) * s.array.segmentCapacity : Nat) :=
    toInt_of_lt (Int.natCast_nonneg _) (by exact_mod_cast cells)
  unfold State.turn
  simp only [around.windowId, around.windowLength, half, double, around.leftEnd, around.indexRight,
    around.windowStart, countL, countR, Option.bind_eq_bind, Option.bind_some]
  refine ⟨_, rfl, ?_⟩
  constructor
  · simp only [around.height]
  · rfl
  · rfl
  · rfl
  · simp only
    omega
  · rfl
  · rfl
  · intro _
    simp only [around.height]
  · simp only [exact]
    push_cast
    rfl

/-- The search ends with a window that is within its upper threshold, or is the array. -/
theorem Around.search (around : s.Around segment k w) (shaped : s.Shaped) (small : s.Small)
    (inside : segment < s.sizes.length) (low : k + 1 ≤ s.array.height - 1) {turns : Nat}
    (enough : s.array.height - 1 - k ≤ turns) :
    ∃ k' w', s.search turns w = some w' ∧ s.Around segment k' w' ∧ 0 < k' ∧
      k' ≤ s.array.height - 1 ∧ (w'.density ≤ w'.theta ∨ k' = s.array.height - 1) := by
  induction turns generalizing k w with
  | zero => omega
  | succ turns ih =>
      rcases around.turn shaped small inside low with ⟨w', turned, around'⟩
      rw [State.search, turned]
      simp only [Option.bind_eq_bind, Option.bind_some]
      have height := around'.height
      by_cases more : w'.density > w'.theta ∧ w'.height < s.array.height
      · rw [if_pos more]
        exact ih around' (by omega) (by omega)
      · rw [if_neg more]
        refine ⟨k + 1, w', rfl, around', Nat.succ_pos k, low, ?_⟩
        by_contra both
        exact more (by
          rw [not_or, not_le] at both
          exact ⟨both.1, by omega⟩)

/-- What `rebalance` asks for. -/
structure Asked (s : State) (r : Request) : Prop where
  height_pos : 1 ≤ r.height
  height_le : r.height ≤ r.array.height
  windowLength : r.windowLength = 2 ^ (r.height - 1)
  capacity : r.array.segmentCapacity = s.array.segmentCapacity
  canFill : r.canFill = !r.resize
  spread : r.resize = false → r.array = s.array ∧
    r.windowStart + r.windowLength ≤ s.sizes.length ∧
    (r.cardinality : ℚ) ≤
      r.windowLength * r.array.segmentCapacity * (r.array.thresholds r.height).2
  grown : r.resize = true → r.array.height = s.array.height + 1 ∧
    r.windowLength = 2 * s.sizes.length ∧ r.height = r.array.height ∧
    2 * r.cardinality ≤ r.windowLength * r.array.segmentCapacity

theorem request_spec (shaped : s.Shaped) (small : s.Small)
    (full : s.sizes[segment]? = some s.array.segmentCapacity) :
    ∃ r, s.request segment = some r ∧ s.Asked r := by
  have inside : segment < s.sizes.length := (List.getElem?_eq_some_iff.mp full).1
  have positive : (0 : ℚ) < s.array.segmentCapacity := by
    have capacity := shaped.capacity
    exact_mod_cast (show 0 < s.array.segmentCapacity by omega)
  have height := shaped.height_pos
  have length := shaped.length
  have found : ∃ k w, s.findWindow segment = some w ∧ s.Around segment k w ∧
      k ≤ s.array.height - 1 ∧ (w.density ≤ w.theta → 0 < k) ∧
      (w.density ≤ w.theta ∨ k = s.array.height - 1) := by
    unfold findWindow
    by_cases several : s.array.height > 1
    · rw [if_pos several]
      rcases (around_first full).search shaped small inside (by omega)
        (show s.array.height - 1 - 0 ≤ s.array.height by omega) with
        ⟨k, w, searched, around, some, low, ends⟩
      exact ⟨k, w, searched, around, low, fun _ => some, ends⟩
    · rw [if_neg several]
      refine ⟨0, _, rfl, around_first full, Nat.zero_le _, ?_, .inr (by omega)⟩
      -- a full segment is denser than 1
      intro sparse
      simp only [Search.first] at sparse
      rw [div_le_one positive] at sparse
      linarith
  obtain ⟨k, w, searched, around, low, notLeaf, ends⟩ := found
  have within := window_inside shaped inside low
  unfold request
  rw [searched]
  simp only [Option.bind_eq_bind, Option.bind_some]
  by_cases sparse : w.density ≤ w.theta
  · rw [if_pos sparse]
    refine ⟨_, rfl, ?_, ?_, ?_, rfl, rfl, ?_, nofun⟩
    · simp only [around.height]
      omega
    · simp only [around.height]
      omega
    · simp only [around.height, around.windowLength, Nat.add_sub_cancel]
    · intro _
      refine ⟨rfl, ?_, ?_⟩
      · simp only [around.windowStart, around.windowLength]
        exact within
      · have theta := around.theta (notLeaf sparse)
        rw [around.density, theta, div_le_iff₀ (by positivity)] at sparse
        simp only [around.height, around.windowLength, Nat.cast_pow, Nat.cast_ofNat]
        linarith
  · rw [if_neg sparse]
    have whole := ends.resolve_left sparse
    have number := around.numElements
    have most := sumSizes_le (a := w.windowStart) (n := 2 ^ k) shaped.sizes_le
    refine ⟨_, rfl, ?_, ?_, ?_, rfl, rfl, nofun, ?_⟩
    · simp only [around.height]
      omega
    · simp only [around.height]
      omega
    · simp only [around.height, around.windowLength, Nat.add_sub_cancel]
      rw [Nat.pow_succ, Nat.mul_comm]
    · intro _
      refine ⟨rfl, ?_, ?_, ?_⟩
      · simp only [around.windowLength, length, whole]
      · simp only [around.height]
        omega
      · simp only [around.windowLength, number, Nat.add_sub_cancel]
        calc 2 * sumSizes s.sizes w.windowStart (2 ^ k) ≤
              2 * (2 ^ k * s.array.segmentCapacity) := Nat.mul_le_mul_left _ most
          _ = 2 * 2 ^ k * s.array.segmentCapacity := (Nat.mul_assoc _ _ _).symm

end Search

end State

end ApmaBh07

end Rma
