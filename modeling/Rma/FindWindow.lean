import Rma.Storage
import Rma.DensityBounds
import Rma.Base.Words

/-!
# The window to rebalance

`rebalance_find_window` doubles a window around a segment until its density is within the
thresholds of its height. The windows are aligned at multiples of their length; the last one
of a height is moved to the left where the number of segments is not a multiple of it. The
elements are counted with two running indices, that only ever move away from the segment.
-/

namespace Rma

open Base

namespace Storage

/-! ## The search -/

/-- The local variables of `rebalance_find_window`. -/
structure Search where
  height : Nat
  windowLength : Int
  windowId : Int
  windowStart : Int
  windowEnd : Int
  cardinalityAfter : Int
  indexLeft : Int
  indexRight : Int
  rho : ℚ
  theta : ℚ
  density : ℚ

/-- What `rebalance_find_window` writes through its pointers. -/
structure FoundWindow where
  windowStart : Int
  windowLength : Int
  cardinalityAfter : Int
  resize : Bool

/-- `height()` -/
def height (s : Storage) : Nat := Nat.log 2 s.numberSegments + 1

/-- `hyperheight()` -/
def hyperheight (s : Storage) : Nat := Nat.clog 2 s.numberSegments + 1

/-- `get_thresholds(height)`: the thresholds of the full calibrator tree. -/
def getThresholds (s : Storage) (densities : DensityBounds) (height : Nat) : ℚ × ℚ :=
  densities.thresholds s.hyperheight height

/-- `m_segment_sizes[index]`, undefined outside the array. -/
def readSize (s : Storage) (index : Int) : Option Int :=
  if 0 ≤ index ∧ index < s.numberSegments then some (s.segmentSizes index.toNat : Int) else none

/-- Count the elements down to the start of the window. -/
def countLeft (s : Storage) (windowStart indexLeft cardinality : Int) : Option (Int × Int) :=
  if indexLeft ≥ windowStart then
    (s.readSize indexLeft).bind fun size =>
      s.countLeft windowStart (indexLeft - 1) (cardinality + size)
  else some (indexLeft, cardinality)
termination_by (indexLeft + 1 - windowStart).toNat

/-- Count the elements up to the end of the window. -/
def countRight (s : Storage) (windowEnd indexRight cardinality : Int) : Option (Int × Int) :=
  if indexRight < windowEnd then
    (s.readSize indexRight).bind fun size =>
      s.countRight windowEnd (indexRight + 1) (cardinality + size)
  else some (indexRight, cardinality)
termination_by (windowEnd - indexRight).toNat

/-- The variables before the loop. The thresholds are only used when there is one segment. -/
def Search.first (s : Storage) (isInsertion : Bool) (segmentId : Nat) : Search :=
  let cardinality : Int :=
    if isInsertion then s.segmentCapacity + 1 else s.segmentSizes segmentId
  { height := 1
    windowLength := 1
    windowId := segmentId
    windowStart := segmentId
    windowEnd := segmentId + 1
    cardinalityAfter := cardinality
    indexLeft := segmentId - 1
    indexRight := segmentId + 1
    rho := 0
    theta := 1
    density := (cardinality : ℚ) / s.segmentCapacity }

/-- How far a window is moved to the left, an integer of 32 bits. -/
def offset (s : Storage) (windowEnd : Int) : Int :=
  if windowEnd > s.numberSegments then (windowEnd - s.numberSegments).bmod (2 ^ 32) else 0

/-- One turn of the loop. -/
def turn (s : Storage) (thresholds : Nat → ℚ × ℚ) (w : Search) : Option Search :=
  let height := w.height + 1
  let windowLength := w.windowLength * 2
  let windowId := w.windowId / 2
  let windowStart := windowId * windowLength
  let windowEnd := windowStart + windowLength
  -- re-align the calibrator tree
  let offset := s.offset windowEnd
  let windowStart := windowStart - offset
  let windowEnd := windowEnd - offset
  (s.countLeft windowStart w.indexLeft w.cardinalityAfter).bind fun left =>
    (s.countRight windowEnd w.indexRight left.2).bind fun right =>
      some
        { height := height
          windowLength := windowLength
          windowId := windowId
          windowStart := windowStart
          windowEnd := windowEnd
          cardinalityAfter := right.2
          indexLeft := left.1
          indexRight := right.1
          rho := (thresholds height).1
          theta := (thresholds height).2
          density := (right.2 : ℚ) / (windowLength * s.segmentCapacity) }

/-- The density is not within the threshold. -/
def Search.Violates (w : Search) (isInsertion : Bool) : Prop :=
  (isInsertion = true ∧ w.density > w.theta) ∨ (isInsertion = false ∧ w.density < w.rho)

instance (w : Search) (isInsertion : Bool) : Decidable (w.Violates isInsertion) :=
  inferInstanceAs (Decidable (_ ∨ _))

/-- The loop, with a bound on the number of its turns. -/
def search (s : Storage) (thresholds : Nat → ℚ × ℚ) (isInsertion : Bool) :
    Nat → Search → Option Search
  | 0, _ => none
  | turns + 1, w => (s.turn thresholds w).bind fun w =>
      if w.Violates isInsertion ∧ w.height < s.height then s.search thresholds isInsertion turns w
      else some w

/-- The choice after the loop: rebalance the window, or resize. The cardinality is an integer of 32
bits. -/
def Search.result (s : Storage) (isInsertion : Bool) (w : Search) : FoundWindow :=
  if (isInsertion = true ∧ w.density ≤ w.theta) ∨ (isInsertion = false ∧ w.density ≥ w.rho) then
    { windowStart := w.windowStart
      windowLength := w.windowLength
      cardinalityAfter := w.cardinalityAfter
      resize := false }
  else
    { windowStart := 0
      windowLength := 0
      cardinalityAfter := uint32 (s.cardinality + if isInsertion then 1 else 0)
      resize := true }

/-- `rebalance_find_window(segment_id, is_insertion)` -/
def rebalanceFindWindow (s : Storage) (thresholds : Nat → ℚ × ℚ) (segmentId : Nat)
    (isInsertion : Bool) : Option FoundWindow :=
  let first := Search.first s isInsertion segmentId
  let last := if s.height > 1 then s.search thresholds isInsertion s.height first else some first
  last.map (Search.result s isInsertion)

/-! ## The chain of windows -/

/-- The variables after a number of turns. -/
def windowAt (s : Storage) (thresholds : Nat → ℚ × ℚ) (isInsertion : Bool) (segmentId : Nat) :
    Nat → Option Search
  | 0 => some (.first s isInsertion segmentId)
  | k + 1 => (s.windowAt thresholds isInsertion segmentId k).bind (s.turn thresholds)

/-- The number of elements of the segments from `a` to `b`. -/
def countOf (s : Storage) (a b : Int) : Int :=
  ∑ i ∈ Finset.Ico a.toNat b.toNat, (s.segmentSizes i : Int)

/-- What the window search finds, given the windows after each turn. -/
structure Smallest (s : Storage) (isInsertion : Bool) (chain : Nat → Search) (r : FoundWindow) :
    Prop where
  resize_iff : r.resize = true ↔
    ∀ k, 1 ≤ k → k ≤ Nat.log 2 s.numberSegments → (chain k).Violates isInsertion
  total : r.resize = true →
    r.cardinalityAfter = s.countOf 0 s.numberSegments + if isInsertion then 1 else 0
  found : r.resize = false → ∃ k, 1 ≤ k ∧ k ≤ Nat.log 2 s.numberSegments ∧
    r.windowStart = (chain k).windowStart ∧ r.windowLength = 2 ^ k ∧
    r.cardinalityAfter = s.countOf r.windowStart (r.windowStart + r.windowLength) +
      (if isInsertion then 1 else 0) ∧
    ¬(chain k).Violates isInsertion ∧ ∀ j, 1 ≤ j → j < k → (chain j).Violates isInsertion

/-- What it finds, whatever the counter is: as `Smallest`, but for the reported total. -/
structure Chosen (s : Storage) (isInsertion : Bool) (chain : Nat → Search) (r : FoundWindow) :
    Prop where
  resize_iff : r.resize = true ↔
    ∀ k, 1 ≤ k → k ≤ Nat.log 2 s.numberSegments → (chain k).Violates isInsertion
  reported : r.resize = true →
    r.cardinalityAfter = uint32 (s.cardinality + if isInsertion then 1 else 0)
  found : r.resize = false → ∃ k, 1 ≤ k ∧ k ≤ Nat.log 2 s.numberSegments ∧
    r.windowStart = (chain k).windowStart ∧ r.windowLength = 2 ^ k ∧
    r.cardinalityAfter = s.countOf r.windowStart (r.windowStart + r.windowLength) +
      (if isInsertion then 1 else 0) ∧
    ¬(chain k).Violates isInsertion ∧ ∀ j, 1 ≤ j → j < k → (chain j).Violates isInsertion

section Counting

variable (s : Storage) {a b c windowStart windowEnd indexLeft indexRight cardinality : Int}

theorem countOf_add (ab : a ≤ b) (bc : b ≤ c) :
    s.countOf a b + s.countOf b c = s.countOf a c :=
  Finset.sum_Ico_consecutive _ (by omega) (by omega)

theorem countOf_single (i : Nat) : s.countOf i (i + 1) = s.segmentSizes i := by
  have next : ((i : Int) + 1).toNat = i + 1 := by omega
  rw [countOf, next, Int.toNat_natCast, Nat.Ico_succ_singleton, Finset.sum_singleton]

theorem countOf_self (a : Int) : s.countOf a a = 0 := by
  rw [countOf, Finset.Ico_self, Finset.sum_empty]

theorem countOf_nonneg (a b : Int) : 0 ≤ s.countOf a b :=
  Finset.sum_nonneg fun _ _ => Int.natCast_nonneg _

/-- The index on the left ends just before the window. -/
theorem countLeft_eq (nonneg : 0 ≤ windowStart) (le : windowStart ≤ indexLeft + 1)
    (lt : indexLeft < s.numberSegments) :
    s.countLeft windowStart indexLeft cardinality =
      some (windowStart - 1, cardinality + s.countOf windowStart (indexLeft + 1)) := by
  induction distance : (indexLeft + 1 - windowStart).toNat generalizing indexLeft cardinality with
  | zero =>
      obtain rfl : windowStart = indexLeft + 1 := by omega
      rw [countLeft, if_neg (by omega), countOf_self, add_zero, add_sub_cancel_right]
  | succ n ih =>
      have read : s.readSize indexLeft = some (s.segmentSizes indexLeft.toNat : Int) :=
        if_pos ⟨by omega, lt⟩
      have same : ((indexLeft.toNat : Nat) : Int) = indexLeft := by omega
      have single := s.countOf_single indexLeft.toNat
      rw [same] at single
      have sum := s.countOf_add (show windowStart ≤ indexLeft by omega)
        (show indexLeft ≤ indexLeft + 1 by omega)
      rw [countLeft, if_pos (by omega), read, Option.bind_some,
        ih (by omega) (by omega) (by omega), sub_add_cancel]
      congr 2
      omega

/-- The index on the right ends at the end of the window. -/
theorem countRight_eq (nonneg : 0 ≤ indexRight) (le : indexRight ≤ windowEnd)
    (inside : windowEnd ≤ s.numberSegments) :
    s.countRight windowEnd indexRight cardinality =
      some (windowEnd, cardinality + s.countOf indexRight windowEnd) := by
  induction distance : (windowEnd - indexRight).toNat generalizing indexRight cardinality with
  | zero =>
      obtain rfl : windowEnd = indexRight := by omega
      rw [countRight, if_neg (by omega), countOf_self, add_zero]
  | succ n ih =>
      have read : s.readSize indexRight = some (s.segmentSizes indexRight.toNat : Int) :=
        if_pos ⟨nonneg, by omega⟩
      have same : ((indexRight.toNat : Nat) : Int) = indexRight := by omega
      have single := s.countOf_single indexRight.toNat
      rw [same] at single
      have sum := s.countOf_add (show indexRight ≤ indexRight + 1 by omega)
        (show indexRight + 1 ≤ windowEnd by omega)
      rw [countRight, if_pos (by omega), read, Option.bind_some,
        ih (by omega) (by omega) (by omega)]
      congr 2
      omega

end Counting

section Chain

variable {s : Storage} {thresholds : Nat → ℚ × ℚ} {isInsertion : Bool} {segmentId k : Nat}
  {w : Search}

/-- The start of the window of `2 ^ k` segments around a segment. -/
def aligned (s : Storage) (segmentId k : Nat) : Int :=
  if (segmentId / 2 ^ k : Int) * 2 ^ k + 2 ^ k ≤ s.numberSegments then
    (segmentId / 2 ^ k : Int) * 2 ^ k
  else s.numberSegments - 2 ^ k

/-- The windows are within the array and contain the segment. -/
theorem aligned_bounds (inside : segmentId < s.numberSegments)
    (fits : 2 ^ k ≤ s.numberSegments) :
    0 ≤ s.aligned segmentId k ∧ s.aligned segmentId k + 2 ^ k ≤ s.numberSegments ∧
      s.aligned segmentId k ≤ segmentId ∧ (segmentId : Int) < s.aligned segmentId k + 2 ^ k := by
  have positive : (0 : Int) < 2 ^ k := by positivity
  have fitsInt : (2 : Int) ^ k ≤ s.numberSegments := by exact_mod_cast fits
  have lower := Int.ediv_mul_le (segmentId : Int) positive.ne'
  have upper := Int.lt_ediv_add_one_mul_self (segmentId : Int) positive
  have nonneg : (0 : Int) ≤ (segmentId : Int) / 2 ^ k * 2 ^ k := by positivity
  rw [add_mul, one_mul] at upper
  unfold aligned
  split_ifs <;> omega

/-- Each window contains the one before. -/
theorem aligned_nested (s : Storage) (segmentId : Nat) (fits : 2 ^ (k + 1) ≤ s.numberSegments) :
    s.aligned segmentId (k + 1) ≤ s.aligned segmentId k ∧
      s.aligned segmentId k + 2 ^ k ≤ s.aligned segmentId (k + 1) + 2 ^ (k + 1) := by
  have positive : (0 : Int) < 2 ^ k := by positivity
  have fitsInt : (2 : Int) ^ (k + 1) ≤ s.numberSegments := by exact_mod_cast fits
  have parent : (segmentId : Int) / 2 ^ (k + 1) = segmentId / 2 ^ k / 2 := by
    rw [pow_succ, Int.ediv_ediv_of_nonneg positive.le]
  unfold aligned
  rw [parent]
  generalize (segmentId : Int) / 2 ^ k = q
  have double : q / 2 * 2 ^ (k + 1) = 2 * (q / 2 * 2 ^ k) := by ring
  have split : q * 2 ^ k = 2 * (q / 2 * 2 ^ k) + q % 2 * 2 ^ k := by
    nth_rewrite 1 [← Int.mul_ediv_add_emod q 2]
    ring
  rw [double, split]
  rw [pow_succ] at fitsInt ⊢
  rcases Int.emod_two_eq_zero_or_one q with even | odd
  · rw [even]
    split_ifs <;> omega
  · rw [odd]
    split_ifs <;> omega

/-- The variables after `k` turns. -/
structure Around (s : Storage) (thresholds : Nat → ℚ × ℚ) (isInsertion : Bool) (segmentId k : Nat)
    (w : Search) : Prop where
  height : w.height = k + 1
  length : w.windowLength = 2 ^ k
  id : w.windowId = segmentId / 2 ^ k
  start : w.windowStart = s.aligned segmentId k
  stop : w.windowEnd = s.aligned segmentId k + 2 ^ k
  left : w.indexLeft = s.aligned segmentId k - 1
  right : w.indexRight = s.aligned segmentId k + 2 ^ k
  cardinality : w.cardinalityAfter =
    s.countOf (s.aligned segmentId k) (s.aligned segmentId k + 2 ^ k) +
      if isInsertion then 1 else 0
  thresholds : 0 < k → w.rho = (thresholds (k + 1)).1 ∧ w.theta = (thresholds (k + 1)).2
  density : w.density = (w.cardinalityAfter : ℚ) / (2 ^ k * s.segmentCapacity)

theorem Around.first (inside : segmentId < s.numberSegments)
    (full : isInsertion = true → s.segmentSizes segmentId = s.segmentCapacity) :
    s.Around thresholds isInsertion segmentId 0 (.first s isInsertion segmentId) := by
  have start : s.aligned segmentId 0 = segmentId := by
    unfold aligned
    rw [pow_zero, Int.ediv_one, mul_one, if_pos (by omega)]
  refine ⟨rfl, rfl, ?_, ?_, ?_, ?_, ?_, ?_, ?_, ?_⟩
  · simp [Search.first]
  · rw [start, Search.first]
  · rw [start, pow_zero, Search.first]
  · rw [start, Search.first]
  · rw [start, pow_zero, Search.first]
  · rw [start, pow_zero, countOf_single, Search.first]
    cases isInsertion
    · simp
    · simp [full rfl]
  · exact fun positive => absurd positive (lt_irrefl 0)
  · simp [Search.first]

/-- The offset fits in its type, and leads to the aligned window. -/
theorem sub_offset (inside : segmentId < s.numberSegments) (small : s.numberSegments < 2 ^ 32)
    (fits : 2 ^ k ≤ s.numberSegments) :
    (segmentId / 2 ^ k : Int) * 2 ^ k - s.offset ((segmentId / 2 ^ k : Int) * 2 ^ k + 2 ^ k) =
      s.aligned segmentId k := by
  have positive : (0 : Int) < 2 ^ k := by positivity
  have fitsInt : (2 : Int) ^ k ≤ s.numberSegments := by exact_mod_cast fits
  have lower := Int.ediv_mul_le (segmentId : Int) positive.ne'
  have half : (2 : Int) ^ k ≤ 2 ^ 31 := by
    have less : k < 32 := (Nat.pow_lt_pow_iff_right (by decide)).mp (fits.trans_lt small)
    exact pow_le_pow_right₀ (by decide) (by omega)
  unfold aligned offset
  by_cases outside : (segmentId / 2 ^ k : Int) * 2 ^ k + 2 ^ k > s.numberSegments
  · rw [if_pos outside, if_neg (by omega), Int.bmod_eq_of_le (by omega) (by omega)]
    omega
  · rw [if_neg outside, if_pos (by omega), sub_zero]

/-- One turn leads to the next window, and counts the elements that it adds. -/
theorem Around.turn (inside : segmentId < s.numberSegments) (small : s.numberSegments < 2 ^ 32)
    (fits : 2 ^ (k + 1) ≤ s.numberSegments)
    (around : s.Around thresholds isInsertion segmentId k w) :
    ∃ w', s.turn thresholds w = some w' ∧
      s.Around thresholds isInsertion segmentId (k + 1) w' := by
  have length : w.windowLength * 2 = 2 ^ (k + 1) := by rw [around.length, pow_succ]
  have id : w.windowId / 2 = segmentId / 2 ^ (k + 1) := by
    rw [around.id, pow_succ, Int.ediv_ediv_of_nonneg (by positivity)]
  have bounds := aligned_bounds inside fits
  have before := aligned_bounds inside ((Nat.pow_le_pow_right (by decide) k.le_succ).trans fits)
  have nested := s.aligned_nested segmentId fits
  have start := sub_offset inside small fits
  generalize shift : s.offset ((segmentId / 2 ^ (k + 1) : Int) * 2 ^ (k + 1) + 2 ^ (k + 1)) =
    offset at start
  have stop : (segmentId / 2 ^ (k + 1) : Int) * 2 ^ (k + 1) + 2 ^ (k + 1) - offset =
      s.aligned segmentId (k + 1) + 2 ^ (k + 1) := by omega
  have left := @countLeft_eq s (s.aligned segmentId (k + 1)) (s.aligned segmentId k - 1)
    w.cardinalityAfter bounds.1 (by omega) (by omega)
  rw [sub_add_cancel] at left
  have right := @countRight_eq s (s.aligned segmentId (k + 1) + 2 ^ (k + 1))
    (s.aligned segmentId k + 2 ^ k)
    (w.cardinalityAfter + s.countOf (s.aligned segmentId (k + 1)) (s.aligned segmentId k))
    (by omega) nested.2 bounds.2.1
  have cardinality : w.cardinalityAfter +
      s.countOf (s.aligned segmentId (k + 1)) (s.aligned segmentId k) +
      s.countOf (s.aligned segmentId k + 2 ^ k) (s.aligned segmentId (k + 1) + 2 ^ (k + 1)) =
        s.countOf (s.aligned segmentId (k + 1)) (s.aligned segmentId (k + 1) + 2 ^ (k + 1)) +
          if isInsertion then 1 else 0 := by
    have first := s.countOf_add nested.1 (show s.aligned segmentId k ≤
      s.aligned segmentId k + 2 ^ k by omega)
    have second := s.countOf_add (show s.aligned segmentId (k + 1) ≤
      s.aligned segmentId k + 2 ^ k by omega) nested.2
    rw [around.cardinality]
    omega
  rw [Storage.turn]
  simp only [length, id, shift, start, stop, around.left, around.right, left, right,
    Option.bind_some]
  refine ⟨_, rfl, by rw [around.height], rfl, rfl, rfl, rfl, rfl, rfl, cardinality, ?_, ?_⟩
  · intro _
    rw [around.height]
    exact ⟨rfl, rfl⟩
  · norm_num

/-- Every window of the chain is reached. -/
theorem windowAt_around (inside : segmentId < s.numberSegments)
    (small : s.numberSegments < 2 ^ 32)
    (full : isInsertion = true → s.segmentSizes segmentId = s.segmentCapacity)
    (le : k ≤ Nat.log 2 s.numberSegments) :
    ∃ w, s.windowAt thresholds isInsertion segmentId k = some w ∧
      s.Around thresholds isInsertion segmentId k w := by
  induction k with
  | zero => exact ⟨_, rfl, Around.first inside full⟩
  | succ k ih =>
      rcases ih (by omega) with ⟨w, reached, around⟩
      have fits := Nat.pow_le_of_le_log (by omega) le
      rcases around.turn inside small fits with ⟨w', turned, around'⟩
      exact ⟨w', by rw [windowAt, reached, Option.bind_some, turned], around'⟩

/-- The loop stops at the first window that is within its thresholds, or at the largest. -/
theorem search_eq {chain : Nat → Search}
    (reached : ∀ k ≤ Nat.log 2 s.numberSegments,
      s.windowAt thresholds isInsertion segmentId k = some (chain k))
    (heights : ∀ k ≤ Nat.log 2 s.numberSegments, (chain k).height = k + 1)
    {turns : Nat} (less : k < Nat.log 2 s.numberSegments)
    (enough : Nat.log 2 s.numberSegments ≤ k + turns) :
    ∃ j, k < j ∧ j ≤ Nat.log 2 s.numberSegments ∧
      s.search thresholds isInsertion turns (chain k) = some (chain j) ∧
      (j = Nat.log 2 s.numberSegments ∨ ¬(chain j).Violates isInsertion) ∧
      ∀ i, k < i → i < j → (chain i).Violates isInsertion := by
  induction turns generalizing k with
  | zero => omega
  | succ turns ih =>
      have turned : s.turn thresholds (chain k) = some (chain (k + 1)) := by
        have next := reached (k + 1) less
        rwa [windowAt, reached k (by omega), Option.bind_some] at next
      have height := heights (k + 1) less
      rw [search, turned, Option.bind_some]
      by_cases again : (chain (k + 1)).Violates isInsertion ∧ (chain (k + 1)).height < s.height
      · have lower : k + 1 < Nat.log 2 s.numberSegments := by
          have below := again.2
          rw [height, Storage.height] at below
          omega
        rcases ih lower (by omega) with ⟨j, after, le, found, last, before⟩
        refine ⟨j, by omega, le, by rw [if_pos again, found], last, fun i above below => ?_⟩
        rcases Nat.lt_or_ge (k + 1) i with later | now
        · exact before i later below
        · obtain rfl : i = k + 1 := by omega
          exact again.1
      · refine ⟨k + 1, by omega, by omega, by rw [if_neg again], ?_, by omega⟩
        rcases not_and_or.mp again with within | top
        · exact Or.inr within
        · rw [height, Storage.height] at top
          exact Or.inl (by omega)

/-- The windows of the chain: nested, around the segment, within the array, and counted. -/
structure Windows (s : Storage) (thresholds : Nat → ℚ × ℚ) (isInsertion : Bool) (segmentId : Nat)
    (chain : Nat → Search) : Prop where
  reached : ∀ k ≤ Nat.log 2 s.numberSegments,
    s.windowAt thresholds isInsertion segmentId k = some (chain k)
  inside : ∀ k ≤ Nat.log 2 s.numberSegments, 0 ≤ (chain k).windowStart ∧
    (chain k).windowEnd = (chain k).windowStart + 2 ^ k ∧
    (chain k).windowEnd ≤ s.numberSegments
  contains : ∀ k ≤ Nat.log 2 s.numberSegments,
    (chain k).windowStart ≤ segmentId ∧ segmentId < (chain k).windowEnd
  nested : ∀ k < Nat.log 2 s.numberSegments,
    (chain (k + 1)).windowStart ≤ (chain k).windowStart ∧
      (chain k).windowEnd ≤ (chain (k + 1)).windowEnd
  cardinality : ∀ k ≤ Nat.log 2 s.numberSegments, (chain k).cardinalityAfter =
    s.countOf (chain k).windowStart (chain k).windowEnd + if isInsertion then 1 else 0
  violates_iff : ∀ k, 1 ≤ k → k ≤ Nat.log 2 s.numberSegments →
    ((chain k).Violates isInsertion ↔
      (isInsertion = true ∧
        ((chain k).cardinalityAfter : ℚ) / (2 ^ k * s.segmentCapacity) > (thresholds (k + 1)).2) ∨
      (isInsertion = false ∧
        ((chain k).cardinalityAfter : ℚ) / (2 ^ k * s.segmentCapacity) < (thresholds (k + 1)).1))

theorem windows_exist (inside : segmentId < s.numberSegments) (small : s.numberSegments < 2 ^ 32)
    (full : isInsertion = true → s.segmentSizes segmentId = s.segmentCapacity) :
    ∃ chain, s.Windows thresholds isInsertion segmentId chain ∧
      ∀ k ≤ Nat.log 2 s.numberSegments,
        (chain k).height = k + 1 ∧ (chain k).windowLength = 2 ^ k := by
  let chain := fun k => (s.windowAt thresholds isInsertion segmentId k).getD
    (.first s isInsertion segmentId)
  have all : ∀ k ≤ Nat.log 2 s.numberSegments,
      s.windowAt thresholds isInsertion segmentId k = some (chain k) ∧
        s.Around thresholds isInsertion segmentId k (chain k) := by
    intro k le
    rcases @windowAt_around s thresholds _ _ _ inside small full le with ⟨w, reached, around⟩
    have same : chain k = w := by simp only [chain, reached, Option.getD_some]
    rw [same]
    exact ⟨reached, around⟩
  have fits : ∀ k ≤ Nat.log 2 s.numberSegments, 2 ^ k ≤ s.numberSegments :=
    fun k le => Nat.pow_le_of_le_log (by omega) le
  refine ⟨chain, ⟨fun k le => (all k le).1, ?_, ?_, ?_, ?_, ?_⟩,
    fun k le => ⟨(all k le).2.height, (all k le).2.length⟩⟩
  · intro k le
    have bounds := aligned_bounds inside (fits k le)
    rw [(all k le).2.start, (all k le).2.stop]
    exact ⟨bounds.1, rfl, bounds.2.1⟩
  · intro k le
    have bounds := aligned_bounds inside (fits k le)
    rw [(all k le).2.start, (all k le).2.stop]
    exact bounds.2.2
  · intro k less
    rw [(all k less.le).2.start, (all k less.le).2.stop, (all (k + 1) less).2.start,
      (all (k + 1) less).2.stop]
    exact s.aligned_nested segmentId (fits (k + 1) less)
  · intro k le
    rw [(all k le).2.start, (all k le).2.stop]
    exact (all k le).2.cardinality
  · intro k positive le
    have bounds := (all k le).2.thresholds positive
    rw [Search.Violates, (all k le).2.density, bounds.1, bounds.2]

/-- The test after the loop. -/
theorem within_iff : (isInsertion = true ∧ w.density ≤ w.theta) ∨
    (isInsertion = false ∧ w.density ≥ w.rho) ↔ ¬w.Violates isInsertion := by
  unfold Search.Violates
  cases isInsertion <;> simp

/-- What is found at the end of the chain. -/
theorem Windows.chosen {chain : Nat → Search}
    (windows : s.Windows thresholds isInsertion segmentId chain)
    (lengths : ∀ k ≤ Nat.log 2 s.numberSegments,
      (chain k).height = k + 1 ∧ (chain k).windowLength = 2 ^ k)
    (several : 2 ≤ s.numberSegments) :
    ∃ r, s.rebalanceFindWindow thresholds segmentId isInsertion = some r ∧
      s.Chosen isInsertion chain r := by
  have positive : 0 < Nat.log 2 s.numberSegments := Nat.log_pos (by decide) several
  have first := windows.reached 0 (Nat.zero_le _)
  rcases @search_eq s thresholds isInsertion segmentId 0 chain windows.reached
    (fun k le => (lengths k le).1) s.height positive (by rw [height]; omega) with
    ⟨j, after, le, found, last, before⟩
  rw [windowAt, Option.some_inj] at first
  refine ⟨Search.result s isInsertion (chain j), ?_, ?_⟩
  · rw [rebalanceFindWindow, first, found, if_pos (by rw [height]; omega), Option.map_some]
  · have bounds := windows.inside j le
    by_cases violates : (chain j).Violates isInsertion
    · obtain rfl := last.resolve_right (not_not.mpr violates)
      have result : Search.result s isInsertion (chain _) = _ :=
        if_neg (mt within_iff.mp (not_not.mpr violates))
      rw [result]
      refine ⟨iff_of_true rfl fun k positive le => ?_, fun _ => rfl, ?_⟩
      · rcases Nat.lt_or_eq_of_le le with less | rfl
        · exact before k positive less
        · exact violates
      · intro no
        cases no
    · have result : Search.result s isInsertion (chain j) = _ := if_pos (within_iff.mpr violates)
      rw [result]
      refine ⟨iff_of_false nofun fun all => violates (all j after le), nofun, fun _ => ?_⟩
      refine ⟨j, after, le, rfl, (lengths j le).2, ?_, violates, before⟩
      simp only [(lengths j le).2, ← bounds.2.1]
      exact windows.cardinality j le

/-- The reported total is exact as long as the counter does not overflow. -/
theorem Chosen.smallest {chain : Nat → Search} {r : FoundWindow}
    (chosen : s.Chosen isInsertion chain r)
    (counted : (s.cardinality : Int) = s.countOf 0 s.numberSegments)
    (counter : s.cardinality + (if isInsertion then 1 else 0) < 2 ^ 32) :
    s.Smallest isInsertion chain r := by
  refine ⟨chosen.resize_iff, fun resize => ?_, chosen.found⟩
  rw [chosen.reported resize, ← counted]
  have fits := uint32_natCast counter
  push_cast at fits
  rw [fits]
  push_cast
  rfl

/-- Otherwise a resize is reported with no element at all. -/
theorem Chosen.not_smallest {chain : Nat → Search} {r : FoundWindow}
    (chosen : s.Chosen true chain r)
    (violated : ∀ k, 1 ≤ k → k ≤ Nat.log 2 s.numberSegments → (chain k).Violates true)
    (counted : (s.cardinality : Int) = s.countOf 0 s.numberSegments)
    (full : 2 ^ 32 ≤ s.cardinality + 1) : ¬s.Smallest true chain r := by
  intro smallest
  have resize := chosen.resize_iff.mpr violated
  have total := smallest.total resize
  have below := uint32_lt ((s.cardinality : Int) + if true then 1 else 0)
  rw [chosen.reported resize, ← counted] at total
  simp only [if_true] at total below
  omega

/-- An array of one segment is resized when it is full. -/
theorem rebalanceFindWindow_one (one : s.numberSegments = 1) (positive : 0 < s.segmentCapacity) :
    s.rebalanceFindWindow thresholds segmentId true = some
      { windowStart := 0, windowLength := 0,
        cardinalityAfter := uint32 (s.cardinality + 1 : Nat),
        resize := true } := by
  have cast : (0 : ℚ) < s.segmentCapacity := by exact_mod_cast positive
  have dense : ¬((s.segmentCapacity : ℚ) + 1) / s.segmentCapacity ≤ 1 := by
    rw [div_le_one cast]
    linarith
  have height : ¬s.height > 1 := by
    rw [Storage.height, one]
    decide
  rw [rebalanceFindWindow]
  simp [height, Search.first, Search.result, dense]

/-- The window of `2 ^ k` segments around the segment can take another element. -/
def Roomy (s : Storage) (thresholds : Nat → ℚ × ℚ) (segmentId k : Nat) : Prop :=
  ((s.countOf (s.aligned segmentId k) (s.aligned segmentId k + 2 ^ k) + 1 : Int) : ℚ) /
    (2 ^ k * s.segmentCapacity) ≤ (thresholds (k + 1)).2

/-- A window of the chain is within its threshold when it is roomy. -/
theorem Windows.roomy_iff {chain : Nat → Search}
    (windows : s.Windows thresholds true segmentId chain) (inside : segmentId < s.numberSegments)
    (small : s.numberSegments < 2 ^ 32)
    (full : true = true → s.segmentSizes segmentId = s.segmentCapacity) (positive : 1 ≤ k)
    (le : k ≤ Nat.log 2 s.numberSegments) :
    s.Roomy thresholds segmentId k ↔ ¬(chain k).Violates true := by
  rcases @windowAt_around s thresholds true segmentId k inside small full le with
    ⟨w, reached, around⟩
  have same : chain k = w := by
    have reached' := windows.reached k le
    rw [reached] at reached'
    exact (Option.some.inj reached').symm
  rw [windows.violates_iff k positive le, same, around.cardinality, Roomy]
  simp

/-- **When the window found is the smallest one of the chain.** A resize is requested exactly when
all of its windows, even the largest, violate their thresholds; the total that is reported then is
right unless an element is inserted into an array of `2 ^ 32 - 1`. -/
theorem rebalanceFindWindow_smallest_iff (several : 2 ≤ s.numberSegments)
    (small : s.numberSegments < 2 ^ 32) (inside : segmentId < s.numberSegments)
    (full : isInsertion = true → s.segmentSizes segmentId = s.segmentCapacity)
    (counted : (s.cardinality : Int) = s.countOf 0 s.numberSegments)
    (counter : s.cardinality < 2 ^ 32) :
    ∃ chain r, s.rebalanceFindWindow thresholds segmentId isInsertion = some r ∧
      s.Windows thresholds isInsertion segmentId chain ∧
      (s.Smallest isInsertion chain r ↔ (isInsertion = true → s.cardinality + 1 < 2 ^ 32 ∨
        ∃ k, 1 ≤ k ∧ k ≤ Nat.log 2 s.numberSegments ∧ s.Roomy thresholds segmentId k)) := by
  rcases @windows_exist s thresholds isInsertion segmentId inside small full with
    ⟨chain, windows, lengths⟩
  rcases windows.chosen lengths several with ⟨r, found, chosen⟩
  refine ⟨chain, r, found, windows, ?_⟩
  cases inserting : isInsertion with
  | false =>
      subst inserting
      refine iff_of_true (chosen.smallest counted counter) fun no => ?_
      cases no
  | true =>
      subst inserting
      have roomy : ∀ k, 1 ≤ k → k ≤ Nat.log 2 s.numberSegments →
          (s.Roomy thresholds segmentId k ↔ ¬(chain k).Violates true) := fun k positive le =>
        windows.roomy_iff inside small full positive le
      constructor
      · intro smallest _
        by_contra not
        rw [not_or, not_lt] at not
        refine chosen.not_smallest (fun k positive le => ?_) counted not.1 smallest
        by_contra fits
        exact not.2 ⟨k, positive, le, (roomy k positive le).mpr fits⟩
      · intro condition
        rcases condition rfl with counter | ⟨k, positive, le, fits⟩
        · exact chosen.smallest counted (by rwa [if_pos rfl])
        · refine ⟨chosen.resize_iff, fun resize => ?_, chosen.found⟩
          have violates := chosen.resize_iff.mp resize k positive le
          exact absurd violates ((roomy k positive le).mp fits)

/-- Six segments, the last one full: an insertion there. -/
def sixSegments : Storage where
  keys := fun p => p
  values := fun p => p
  segmentSizes := fun i => if i = 5 then 32 else 16
  segmentCapacity := 32
  cardinality := 112
  numberSegments := 6
  pagesPerExtent := 1

theorem rebalanceFindWindow_smallest_six :
    ∃ chain r, sixSegments.rebalanceFindWindow (sixSegments.getThresholds (.primary double)) 5 true =
        some r ∧
      sixSegments.Windows (sixSegments.getThresholds (.primary double)) true 5 chain ∧
        (sixSegments.Smallest true chain r ↔ (true = true → 112 + 1 < 2 ^ 32 ∨
          ∃ k, 1 ≤ k ∧ k ≤ Nat.log 2 6 ∧
            sixSegments.Roomy (sixSegments.getThresholds (.primary double)) 5 k)) :=
  rebalanceFindWindow_smallest_iff (by decide) (by decide) (by decide) (fun _ => rfl) (by decide)
    (by decide)

/-- Two to the 27 segments, of which all but the second one are full. -/
def almostFull : Storage where
  keys := fun p => p
  values := fun p => p
  segmentSizes := fun i => if i = 1 then 31 else 32
  segmentCapacity := 32
  cardinality := 2 ^ 32 - 1
  numberSegments := 2 ^ 27
  pagesPerExtent := 1

/-- Only one element is missing in a window that starts with the first two segments. -/
theorem countOf_almostFull {k : Nat} (positive : 1 ≤ k) :
    almostFull.countOf 0 (2 ^ k) + 1 = 2 ^ k * 32 := by
  have stop : ((2 : Int) ^ k).toNat = 2 ^ k := by
    rw [show (2 : Int) ^ k = ((2 ^ k : Nat) : Int) by norm_cast, Int.toNat_natCast]
  have second : 1 ∈ Finset.Ico 0 (2 ^ k) := by
    have large := Nat.pow_le_pow_right (show 0 < 2 by decide) positive
    rw [Finset.mem_Ico]
    omega
  have size : ∀ i, (almostFull.segmentSizes i : Int) = 32 - if i = 1 then 1 else 0 := by
    intro i
    by_cases one : i = 1
    · simp [almostFull, one]
    · simp [almostFull, one]
  rw [countOf, stop, Int.toNat_zero, Finset.sum_congr rfl fun i _ => size i,
    Finset.sum_sub_distrib, Finset.sum_ite_eq_of_mem' _ _ _ second]
  simp

theorem almostFull_counted :
    (almostFull.cardinality : Int) = almostFull.countOf 0 almostFull.numberSegments := by
  have count := countOf_almostFull (k := 27) (by decide)
  change ((2 ^ 32 - 1 : Nat) : Int) = almostFull.countOf 0 ((2 ^ 27 : Nat) : Int)
  norm_num at count ⊢
  omega

/-- With 3/4 as the upper density of every height, an insertion in the first segment asks for a
resize, and reports that the array will have no element. -/
theorem rebalanceFindWindow_wraps :
    ¬∃ chain r, almostFull.rebalanceFindWindow (fun _ => (0, 3 / 4)) 0 true = some r ∧
      almostFull.Windows (fun _ => (0, 3 / 4)) true 0 chain ∧
        almostFull.Smallest true chain r := by
  have log : Nat.log 2 almostFull.numberSegments = 27 := Nat.log_pow (by decide) 27
  have inside : 0 < almostFull.numberSegments := Nat.pow_pos (by decide)
  have small : almostFull.numberSegments < 2 ^ 32 := Nat.pow_lt_pow_right (by decide) (by decide)
  have several : 2 ≤ almostFull.numberSegments :=
    Nat.pow_le_pow_right (n := 2) (by decide) (show 1 ≤ 27 by decide)
  have full : true = true → almostFull.segmentSizes 0 = almostFull.segmentCapacity := fun _ => rfl
  have violated : ∀ k, 1 ≤ k → k ≤ 27 →
      ¬almostFull.Roomy (fun _ => (0, 3 / 4)) 0 k := by
    intro k positive le
    have start : almostFull.aligned 0 k = 0 := by
      have fits : (2 : Int) ^ k ≤ almostFull.numberSegments := by
        exact_mod_cast Nat.pow_le_pow_right (show 0 < 2 by decide) le
      rw [aligned, Nat.cast_zero, Int.zero_ediv, Int.zero_mul, zero_add, if_pos fits]
    rw [Roomy, start, zero_add, countOf_almostFull positive, not_le]
    have power : (0 : ℚ) < 2 ^ k := by positivity
    have capacity : (almostFull.segmentCapacity : ℚ) = 32 := rfl
    rw [capacity]
    push_cast
    rw [div_self (by positivity)]
    norm_num
  rintro ⟨chain, r, found, windows, smallest⟩
  rcases @windows_exist almostFull (fun _ => (0, 3 / 4)) true 0 inside small full with
    ⟨chain', windows', lengths⟩
  rcases windows'.chosen lengths several with ⟨r', found', chosen⟩
  rw [found] at found'
  obtain rfl := Option.some.inj found'
  have resize := smallest.resize_iff.mpr fun k positive le => by
    by_contra fits
    exact violated k positive (log ▸ le) ((windows.roomy_iff inside small full positive le).mpr fits)
  have total := smallest.total resize
  have below := uint32_lt ((almostFull.cardinality : Int) + if true then 1 else 0)
  have all : (almostFull.cardinality : Int) = 2 ^ 32 - 1 := rfl
  rw [chosen.reported resize, ← almostFull_counted] at total
  simp only [if_true] at total below
  omega

end Chain

end Storage

end Rma
