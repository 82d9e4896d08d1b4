import Mathlib.Algebra.Order.Floor.Semifield
import Rma.FindWindow

/-!
# Resize plans

`rebalance_plan` decides how many segments the array has after a resize. Up to 64 extents'
worth of segments the array is doubled and halved, and above them it grows and shrinks by
extents, with thresholds of its own. The plan does not look at the thresholds of the user,
so that it can ask for more segments than there are elements, or for too few to hold them.

`Roomy` is the condition on a request under which the plan fits, and `Pma.rebalancePlan_fits` says
that the plans of a run fit exactly when its requests are roomy. What the partitions and the
extents of a rebalance are is left open: an event carries them.
-/

namespace Rma

open Base

/-- `Storage::capacity()`, a product of 32 bits. -/
def Storage.capacity (s : Storage) : Nat := uint32 (s.numberSegments * s.segmentCapacity : Nat)

/-- The extents of the array, as `BufferedRewiredMemory` counts them. -/
structure Extents where
  allocatedExtents : Nat
  totalBuffers : Nat

/-- What the plan of a resize depends on. -/
structure Pma where
  storage : Storage
  memoryKeys : Option Extents
  pageSize : Nat
  densityBounds0 : DensityBounds
  primaryDensities : Bool

inductive RebalanceOperation where
  | rebalance
  | resize
  | resizeRebalance
deriving DecidableEq

/-- `RebalanceMetadata` -/
structure RebalanceMetadata where
  isInsert : Bool
  operation : RebalanceOperation
  windowStart : Nat
  windowLength : Nat
  cardinalityAfter : Int

namespace Pma

/-! ## Plans -/

/-- The bytes of an extent, a product of 64 bits. -/
def extentSize (s : Pma) : Nat := uint64 (s.storage.pagesPerExtent * s.pageSize : Nat)

/-- `get_segments_per_extent()` -/
def segmentsPerExtent (s : Pma) : Nat := s.extentSize / (s.storage.segmentCapacity * 8)

/-- `get_number_extents()` -/
def numberExtents (s : Pma) : Nat :=
  match s.memoryKeys with
  | some m => m.allocatedExtents - m.totalBuffers
  | none => 1

/-- `balanced_thresholds_cutoff()` -/
def balancedThresholdsCutoff (s : Pma) : Nat := 64 * s.segmentsPerExtent

/-- `get_thresholds(height)` -/
def getThresholds (s : Pma) (height : Nat) : ℚ × ℚ :=
  s.storage.getThresholds
    (if s.primaryDensities then DensityBounds.primary s.densityBounds0.rounding else s.densityBounds0)
    height

/-- Whether `alloc_workspace` uses rewired memory. -/
def usesRewiring (s : Pma) (numSegments : Nat) : Prop :=
  numSegments * s.storage.segmentCapacity * 8 ≥ s.extentSize

instance (s : Pma) (numSegments : Nat) : Decidable (s.usesRewiring numSegments) :=
  inferInstanceAs (Decidable (_ ≥ _))

/-- The number of segments for a number of elements, at the density where the array grows. The
quotient of doubles is on the same side of every integer: the elements are fewer than `2 ^ 32`. -/
def idealSegments (s : Pma) (cardinalityAfter : Int) : ℚ :=
  cardinalityAfter /
    ((DensityBounds.primary s.densityBounds0.rounding).thetaH * s.storage.segmentCapacity)

/-- The plan to resize on insertion. The number of segments has 32 bits. -/
def growPlan (s : Pma) (cardinalityAfter : Int) : RebalanceOperation × Nat :=
  let ideal := max ⌈s.idealSegments cardinalityAfter⌉₊ (uint32 (s.storage.numberSegments + 1 : Nat))
  if ideal < s.balancedThresholdsCutoff then
    let windowLength := uint32 (s.storage.numberSegments * 2 : Nat)
    -- use rewiring ?
    (if windowLength > s.segmentsPerExtent then .resizeRebalance else .resize, windowLength)
  else
    let numExtents := ⌈(ideal : ℚ) / s.segmentsPerExtent⌉₊
    let numExtents := if numExtents = s.numberExtents then numExtents + 1 else numExtents
    (.resizeRebalance, numExtents * s.segmentsPerExtent)

/-- The plan to resize on deletion. -/
def shrinkPlan (s : Pma) (cardinalityAfter : Int) : RebalanceOperation × Nat :=
  let ideal := ⌊s.idealSegments cardinalityAfter⌋₊
  let numExtents := ⌊(ideal : ℚ) / s.segmentsPerExtent⌋₊
  let numExtents := if numExtents = s.numberExtents then numExtents - 1 else numExtents
  if numExtents * s.segmentsPerExtent ≤ s.balancedThresholdsCutoff then
    if s.storage.numberSegments > s.balancedThresholdsCutoff then
      (.resizeRebalance, s.balancedThresholdsCutoff)
    else (.resize, s.storage.numberSegments / 2)
  else
    let operation := match s.memoryKeys with
      | none => .resize
      | some m =>
        -- the numbers of extents have 64 bits
        let wasted := (m.allocatedExtents + (2 ^ 64 - numExtents % 2 ^ 64)) % 2 ^ 64
        if wasted + m.totalBuffers ≥ 2 * numExtents then .resize else .resizeRebalance
    (operation, numExtents * s.segmentsPerExtent)

/-- `rebalance_plan(is_insert, window_start, window_length, cardinality_after, resize)` -/
def rebalancePlan (s : Pma) (isInsert : Bool) (windowStart windowLength : Int)
    (cardinalityAfter : Int) (resize : Bool) : RebalanceMetadata :=
  if !resize then
    { isInsert := isInsert
      operation := .rebalance
      windowStart := windowStart.toNat
      windowLength := windowLength.toNat
      cardinalityAfter := cardinalityAfter }
  else
    let plan := if isInsert then s.growPlan cardinalityAfter else s.shrinkPlan cardinalityAfter
    { isInsert := isInsert
      operation := plan.1
      windowStart := 0
      windowLength := plan.2
      cardinalityAfter := cardinalityAfter }

/-- The plan of `rebalance(segment_id)`. -/
def rebalance (s : Pma) (segmentId : Nat) (isInsert : Bool) : Option RebalanceMetadata :=
  (s.storage.rebalanceFindWindow s.getThresholds segmentId isInsert).map fun w =>
    s.rebalancePlan isInsert w.windowStart w.windowLength w.cardinalityAfter w.resize

/-! ## Events -/

/-- What is decided elsewhere: the number of elements that a rebalance gives to each segment
of its window, and the buffers that the memory has after a resize. -/
structure Outcome where
  quota : Nat → Nat
  buffers : Nat

/-- An insertion in a segment, or the removal of an element that was found there. -/
inductive Event where
  | insert (segment : Nat) (outcome : Outcome)
  | remove (segment : Nat) (value : Int) (outcome : Outcome)

def Event.outcome : Event → Outcome
  | .insert _ outcome => outcome
  | .remove _ _ outcome => outcome

/-- The array with another size for a segment. -/
def setSize (s : Pma) (segment size cardinality : Nat) : Pma :=
  { s with storage :=
      { s.storage with
        segmentSizes := Function.update s.storage.segmentSizes segment size
        cardinality := cardinality } }

/-- A segment without one of its elements. -/
def take (s : Pma) (segment : Nat) : Pma :=
  s.setSize segment (s.storage.segmentSizes segment - 1) (predUint32 s.storage.cardinality)

/-- A segment with one more element. -/
def put (s : Pma) (segment : Nat) : Pma :=
  s.setSize segment (s.storage.segmentSizes segment + 1) (uint32 (s.storage.cardinality + 1 : Nat))

/-- The plan of the removal of an element, in the array without it. -/
def removePlan (s : Pma) (segment : Nat) (value : Int) : Option RebalanceMetadata :=
  if value = -1 then none
  else if s.storage.numberSegments ≥ 2 * s.balancedThresholdsCutoff ∧
      (s.storage.cardinality : ℚ) < 1 / 2 * s.storage.capacity then
    some (s.rebalancePlan false 0 0 s.storage.cardinality true)
  else if s.storage.numberSegments > 1 then
    -- at least one element per segment
    let minimumSize := max ⌊(s.getThresholds 1).1 * s.storage.segmentCapacity⌋₊ 1
    if s.storage.segmentSizes segment < minimumSize then s.rebalance segment false else none
  else none

/-- The plan of an event, with the array that it is made for. -/
def planOf (s : Pma) : Event → Option (Pma × RebalanceMetadata)
  | .insert segment _ =>
    if s.storage.cardinality = 0 then none -- insert_empty
    else if s.storage.segmentSizes segment = s.storage.segmentCapacity then
      (s.rebalance segment true).map fun plan => (s, plan)
    else none
  | .remove segment value _ =>
    ((s.take segment).removePlan segment value).map fun plan => (s.take segment, plan)

/-- `m_cardinality` after a plan, an integer of 32 bits. -/
def cardinalityAfter (s : Pma) (plan : RebalanceMetadata) : Nat :=
  if plan.isInsert then uint32 (s.storage.cardinality + 1 : Nat) else s.storage.cardinality

/-- The counter is exact as long as it does not overflow. -/
theorem cardinalityAfter_eq {s : Pma} {plan : RebalanceMetadata}
    (small : plan.isInsert = true → s.storage.cardinality + 1 < 2 ^ 32) :
    s.cardinalityAfter plan = s.storage.cardinality + if plan.isInsert then 1 else 0 := by
  unfold cardinalityAfter
  split_ifs with inserts
  · exact uint32_natCast (small inserts)
  · rfl

theorem cardinalityAfter_lt {s : Pma} {plan : RebalanceMetadata}
    (counter : s.storage.cardinality < 2 ^ 32) : s.cardinalityAfter plan < 2 ^ 32 := by
  unfold cardinalityAfter
  split_ifs
  · exact uint32_lt _
  · exact counter

/-- The array after a plan for a window. -/
def spread (s : Pma) (plan : RebalanceMetadata) (outcome : Outcome) : Pma :=
  { s with storage :=
      { s.storage with
        segmentSizes := fun i =>
          if plan.windowStart ≤ i ∧ i < plan.windowStart + plan.windowLength then
            outcome.quota (i - plan.windowStart)
          else s.storage.segmentSizes i
        cardinality := s.cardinalityAfter plan } }

/-- The array after a plan to resize: the memory and the thresholds change too. -/
def resize (s : Pma) (plan : RebalanceMetadata) (outcome : Outcome) : Pma :=
  { s with
    storage :=
      { s.storage with
        segmentSizes := outcome.quota
        cardinality := s.cardinalityAfter plan
        numberSegments := plan.windowLength }
    memoryKeys :=
      if s.usesRewiring plan.windowLength then
        some ⟨plan.windowLength / s.segmentsPerExtent + outcome.buffers, outcome.buffers⟩
      else none
    primaryDensities := plan.windowLength > s.balancedThresholdsCutoff }

/-- `do_rebalance(plan)` -/
def doRebalance (s : Pma) (plan : RebalanceMetadata) (outcome : Outcome) : Pma :=
  if plan.operation = .rebalance then s.spread plan outcome else s.resize plan outcome

/-- The array after an event. -/
def perform (s : Pma) (e : Event) : Pma :=
  match s.planOf e with
  | some (t, plan) => t.doRebalance plan e.outcome
  | none =>
    match e with
    | .insert segment _ => s.put segment
    | .remove segment _ _ => s.take segment

/-- The array of the constructor: one segment. -/
def create (storage : Storage) (pageSize : Nat) (densityBounds0 : DensityBounds)
    (outcome : Outcome) : Pma :=
  let s : Pma :=
    { storage := { storage with
        segmentSizes := fun _ => 0
        cardinality := 0
        numberSegments := 1 }
      memoryKeys := none
      pageSize := pageSize
      densityBounds0 := densityBounds0
      primaryDensities := false }
  { s with memoryKeys :=
      if s.usesRewiring 1 then
        some ⟨1 / s.segmentsPerExtent + outcome.buffers, outcome.buffers⟩
      else none }

/-! ## What a plan has to keep -/

/-- The new number of segments is larger on insertion and smaller on deletion, there are
enough elements for it and room for them, it has the shape of a number of segments, and
memory is rewired only where it was and will be. -/
structure Fits (s : Pma) (plan : RebalanceMetadata) : Prop where
  grows : plan.isInsert = true → s.storage.numberSegments < plan.windowLength
  shrinks : plan.isInsert = false →
    plan.windowLength < s.storage.numberSegments ∧ 1 ≤ plan.windowLength
  enough : plan.windowLength ≤ plan.cardinalityAfter
  room : plan.cardinalityAfter ≤ plan.windowLength * s.storage.segmentCapacity
  shape : (∃ k, plan.windowLength = 2 ^ k ∧ plan.windowLength ≤ s.balancedThresholdsCutoff) ∨
    s.segmentsPerExtent ∣ plan.windowLength
  rewired : plan.operation = .resizeRebalance →
    s.memoryKeys.isSome ∧ s.usesRewiring plan.windowLength

/-- The condition on a request to resize. Where it grows the array under the thresholds of the
user, there are as many elements as segments afterwards; where it shrinks it, the elements
fit in half of the array, or in the hardwired density and one more extent. -/
structure Roomy (s : Pma) (isInsert : Bool) (cardinalityAfter : Int) : Prop where
  doubled : isInsert = true → s.storage.numberSegments < s.balancedThresholdsCutoff →
    2 * s.storage.numberSegments ≤ cardinalityAfter
  extended : isInsert = true → s.storage.numberSegments = s.balancedThresholdsCutoff →
    s.storage.numberSegments + s.segmentsPerExtent ≤ cardinalityAfter
  halved : isInsert = false → s.storage.numberSegments ≤ s.balancedThresholdsCutoff →
    2 * cardinalityAfter ≤ s.storage.numberSegments * s.storage.segmentCapacity
  reduced : isInsert = false → s.balancedThresholdsCutoff < s.storage.numberSegments →
    4 * cardinalityAfter <
      3 * s.storage.segmentCapacity * (s.storage.numberSegments + s.segmentsPerExtent)

/-- What the constructors of `Storage` and of the array check; a page has `2 ^ r` bytes. The
constructor divides by the bytes of an extent. -/
structure Configured (s : Pma) : Prop where
  capacity : ∃ q, 5 ≤ q ∧ s.storage.segmentCapacity = 2 ^ q
  pages : ∃ p, s.storage.pagesPerExtent = 2 ^ p
  page : ∃ r, s.pageSize = 2 ^ r
  divides : s.storage.segmentCapacity * 8 ∣ s.pageSize
  extent : s.extentSize ≠ 0

/-- A power of two up to the cutoff, or a multiple of the segments per extent from there on. -/
def Shape (s : Pma) (n : Nat) : Prop :=
  (∃ k, n = 2 ^ k) ∧ n ≤ s.balancedThresholdsCutoff ∨
    s.segmentsPerExtent ∣ n ∧ s.balancedThresholdsCutoff ≤ n

/-- The invariant of the array but for the sizes of its segments. -/
structure Framed (s : Pma) : Prop where
  configured : s.Configured
  positive : 1 ≤ s.storage.numberSegments
  shape : s.Shape s.storage.numberSegments
  rewired : s.memoryKeys.isSome ↔ s.segmentsPerExtent ≤ s.storage.numberSegments
  extents : ∀ m, s.memoryKeys = some m →
    m.allocatedExtents = s.storage.numberSegments / s.segmentsPerExtent + m.totalBuffers
  primary : s.primaryDensities = decide (s.storage.numberSegments > s.balancedThresholdsCutoff)

section Configured

variable {s : Pma} {n : Nat}

/-- A power of two either fits in 64 bits or wraps around to zero. -/
theorem Configured.extentSize_eq (configured : s.Configured) :
    s.extentSize = s.storage.pagesPerExtent * s.pageSize := by
  rcases configured.pages with ⟨p, pages⟩
  rcases configured.page with ⟨r, page⟩
  have extent := configured.extent
  unfold extentSize at extent ⊢
  rw [pages, page, ← pow_add] at extent ⊢
  rcases Nat.lt_or_ge (p + r) 64 with fits | wraps
  · exact uint64_natCast (Nat.pow_lt_pow_right (by decide) fits)
  · have multiple : (2 : Nat) ^ 64 ∣ 2 ^ (p + r) := Nat.pow_dvd_pow 2 wraps
    unfold uint64 at extent
    omega

theorem Configured.segmentsPerExtent_eq (configured : s.Configured) :
    (∃ j, s.segmentsPerExtent = 2 ^ j) ∧
      s.segmentsPerExtent * (s.storage.segmentCapacity * 8) = s.extentSize := by
  rcases configured.capacity with ⟨q, _, capacity⟩
  rcases configured.pages with ⟨p, pages⟩
  rcases configured.page with ⟨r, page⟩
  have divides := configured.divides
  have bytes : s.storage.segmentCapacity * 8 = 2 ^ (q + 3) := by rw [capacity, pow_add]; rfl
  rw [bytes, page] at divides
  have le := (Nat.pow_dvd_pow_iff_le_right (show 1 < 2 by decide)).mp divides
  have split : 2 ^ p * 2 ^ r = 2 ^ (p + (r - (q + 3))) * 2 ^ (q + 3) := by
    rw [← pow_add, ← pow_add]
    congr 1
    omega
  unfold segmentsPerExtent
  rw [configured.extentSize_eq, bytes, pages, page, split, Nat.mul_div_cancel _ (by positivity)]
  exact ⟨⟨_, rfl⟩, rfl⟩

theorem Configured.segmentsPerExtent_pos (configured : s.Configured) :
    1 ≤ s.segmentsPerExtent := by
  rcases configured.segmentsPerExtent_eq.1 with ⟨j, same⟩
  rw [same]
  exact Nat.one_le_two_pow

theorem Configured.capacity_le (configured : s.Configured) : 32 ≤ s.storage.segmentCapacity := by
  rcases configured.capacity with ⟨q, le, same⟩
  have power : 2 ^ 5 ≤ 2 ^ q := Nat.pow_le_pow_right (by decide) le
  rwa [← same] at power

theorem Configured.usesRewiring_iff (configured : s.Configured) :
    s.usesRewiring n ↔ s.segmentsPerExtent ≤ n := by
  have capacity := configured.capacity_le
  unfold usesRewiring
  rw [← configured.segmentsPerExtent_eq.2, ge_iff_le, mul_assoc]
  exact Nat.mul_le_mul_right_iff (show 0 < s.storage.segmentCapacity * 8 by omega)

/-- A power of two below another one is at most half of it. -/
theorem two_mul_le_of_lt {k j : Nat} (less : 2 ^ k < 2 ^ j) : 2 * 2 ^ k ≤ 2 ^ j := by
  have lt := (Nat.pow_lt_pow_iff_right (by decide)).mp less
  rw [← pow_succ']
  exact Nat.pow_le_pow_right (by decide) lt

theorem Configured.cutoff_eq (configured : s.Configured) :
    ∃ j, s.balancedThresholdsCutoff = 2 ^ j ∧ s.balancedThresholdsCutoff =
      64 * s.segmentsPerExtent := by
  rcases configured.segmentsPerExtent_eq.1 with ⟨j, same⟩
  refine ⟨j + 6, ?_, rfl⟩
  rw [balancedThresholdsCutoff, same, pow_add]
  ring

/-- Below the cutoff, twice as many segments do not exceed it. -/
theorem Framed.double_le (framed : s.Framed)
    (below : s.storage.numberSegments < s.balancedThresholdsCutoff) :
    (∃ k, s.storage.numberSegments = 2 ^ k) ∧
      2 * s.storage.numberSegments ≤ s.balancedThresholdsCutoff := by
  rcases framed.shape with ⟨⟨k, power⟩, _⟩ | ⟨_, above⟩
  · rcases framed.configured.cutoff_eq with ⟨j, cutoff, _⟩
    refine ⟨⟨k, power⟩, ?_⟩
    rw [cutoff, power] at below ⊢
    exact two_mul_le_of_lt below
  · omega

/-- From the number of segments of an extent on, the segments are whole extents. -/
theorem Framed.dvd (framed : s.Framed) (le : s.segmentsPerExtent ≤ s.storage.numberSegments) :
    s.segmentsPerExtent ∣ s.storage.numberSegments := by
  rcases framed.shape with ⟨⟨k, power⟩, _⟩ | ⟨multiple, _⟩
  · rcases framed.configured.segmentsPerExtent_eq.1 with ⟨j, same⟩
    rw [same, power] at le ⊢
    exact Nat.pow_dvd_pow 2 ((Nat.pow_le_pow_iff_right (by decide)).mp le)
  · exact multiple

theorem Framed.numberExtents_eq (framed : s.Framed)
    (le : s.segmentsPerExtent ≤ s.storage.numberSegments) :
    s.numberExtents = s.storage.numberSegments / s.segmentsPerExtent := by
  rcases Option.isSome_iff_exists.mp (framed.rewired.mpr le) with ⟨m, some⟩
  have extents := framed.extents m some
  unfold numberExtents
  rw [some]
  simp only [extents, Nat.add_sub_cancel]

end Configured

/-! ## Growing -/

section Grow

variable {s : Pma} {cardinalityAfter : Int} {m : Nat}

/-- A bound on the ideal number of segments. -/
theorem ceil_idealSegments_le (capacity : 32 ≤ s.storage.segmentCapacity) :
    ⌈s.idealSegments cardinalityAfter⌉₊ ≤ m ↔
      4 * cardinalityAfter ≤ 3 * s.storage.segmentCapacity * m := by
  have positive : (0 : ℚ) <
      (DensityBounds.primary s.densityBounds0.rounding).thetaH * s.storage.segmentCapacity := by
    have cast : (32 : ℚ) ≤ s.storage.segmentCapacity := by exact_mod_cast capacity
    exact mul_pos (by norm_num [DensityBounds.primary]) (by linarith)
  rw [Nat.ceil_le, idealSegments, div_le_iff₀ positive]
  constructor
  · intro le
    have scaled : (4 * cardinalityAfter : ℚ) ≤ 3 * s.storage.segmentCapacity * m := by
      simp only [DensityBounds.primary] at le
      linarith
    exact_mod_cast scaled
  · intro le
    have scaled : (4 * cardinalityAfter : ℚ) ≤ 3 * s.storage.segmentCapacity * m := by
      exact_mod_cast le
    simp only [DensityBounds.primary]
    linarith

theorem ceil_extents_le (positive : 1 ≤ s.segmentsPerExtent) {ideal : Nat} :
    ⌈(ideal : ℚ) / s.segmentsPerExtent⌉₊ ≤ m ↔ ideal ≤ m * s.segmentsPerExtent := by
  have cast : (0 : ℚ) < s.segmentsPerExtent := by exact_mod_cast positive
  rw [Nat.ceil_le, div_le_iff₀ cast]
  norm_cast

/-- Below the cutoff the array is doubled. -/
theorem Framed.growPlan_double (framed : s.Framed)
    (below : s.storage.numberSegments < s.balancedThresholdsCutoff)
    (le : cardinalityAfter ≤ s.storage.numberSegments * s.storage.segmentCapacity + 1) :
    s.growPlan cardinalityAfter =
      (if uint32 (s.storage.numberSegments * 2 : Nat) > s.segmentsPerExtent then .resizeRebalance
        else .resize, uint32 (s.storage.numberSegments * 2 : Nat)) := by
  have capacity := framed.configured.capacity_le
  have positive := framed.configured.segmentsPerExtent_pos
  have half := (framed.double_le below).2
  rw [balancedThresholdsCutoff] at half
  have ceil : ⌈s.idealSegments cardinalityAfter⌉₊ ≤ 43 * s.segmentsPerExtent := by
    rw [ceil_idealSegments_le capacity]
    have cells : s.storage.numberSegments * s.storage.segmentCapacity ≤
        32 * s.segmentsPerExtent * s.storage.segmentCapacity :=
      Nat.mul_le_mul_right _ (by omega)
    have cell : 32 * 1 ≤ s.storage.segmentCapacity * s.segmentsPerExtent :=
      Nat.mul_le_mul capacity positive
    push_cast
    zify at cells cell
    nlinarith
  have next := uint32_natCast_le (s.storage.numberSegments + 1)
  unfold growPlan
  simp only
  rw [if_pos]
  rw [balancedThresholdsCutoff]
  omega

/-- From the cutoff on, the array has enough extents for the ideal number of segments, and no
more. -/
theorem Framed.growPlan_extents (framed : s.Framed)
    (above : s.balancedThresholdsCutoff ≤ s.storage.numberSegments)
    (small : s.storage.numberSegments + 1 < 2 ^ 32) :
    ∃ numExtents, s.growPlan cardinalityAfter =
        (.resizeRebalance, numExtents * s.segmentsPerExtent) ∧
      s.storage.numberSegments + 1 ≤ numExtents * s.segmentsPerExtent ∧
      numExtents * s.segmentsPerExtent <
        max ⌈s.idealSegments cardinalityAfter⌉₊ (s.storage.numberSegments + 1) +
          s.segmentsPerExtent := by
  have positive := framed.configured.segmentsPerExtent_pos
  have le : s.segmentsPerExtent ≤ s.storage.numberSegments := by
    rw [balancedThresholdsCutoff] at above
    omega
  unfold growPlan
  rw [uint32_natCast small]
  simp only
  rw [if_neg (by omega)]
  generalize same : max ⌈s.idealSegments cardinalityAfter⌉₊ (s.storage.numberSegments + 1) = ideal
  have more : s.storage.numberSegments + 1 ≤ ideal := same ▸ le_max_right _ _
  have enough := (@ceil_extents_le s _ positive ideal).mp le_rfl
  have other : ⌈(ideal : ℚ) / s.segmentsPerExtent⌉₊ ≠ s.numberExtents := by
    intro equal
    rw [equal, framed.numberExtents_eq le, Nat.div_mul_cancel (framed.dvd le)] at enough
    omega
  rw [if_neg other]
  refine ⟨_, rfl, by omega, ?_⟩
  by_contra much
  rw [not_lt] at much
  have pred : ⌈(ideal : ℚ) / s.segmentsPerExtent⌉₊ ≤
      ⌈(ideal : ℚ) / s.segmentsPerExtent⌉₊ - 1 := by
    rw [ceil_extents_le positive, Nat.sub_mul]
    omega
  have zero : ⌈(ideal : ℚ) / s.segmentsPerExtent⌉₊ = 0 := by omega
  rw [zero] at enough
  omega

/-- What a request to grow is known to satisfy: it comes from a full segment, and above the
cutoff the largest window is denser than the hardwired threshold. The segments and the elements
are counted with 32 bits. -/
structure GrowRequest (s : Pma) (cardinalityAfter : Int) : Prop where
  segments : s.storage.numberSegments < 2 ^ 32
  counter : cardinalityAfter < 2 ^ 32
  le : cardinalityAfter ≤ s.storage.numberSegments * s.storage.segmentCapacity + 1
  dense : s.balancedThresholdsCutoff < s.storage.numberSegments →
    3 * s.storage.segmentCapacity * s.storage.numberSegments < 8 * cardinalityAfter

/-- From the cutoff on there are fewer segments than the counter can hold. -/
theorem Framed.next_lt (framed : s.Framed) (request : s.GrowRequest cardinalityAfter)
    (above : s.balancedThresholdsCutoff ≤ s.storage.numberSegments) :
    s.storage.numberSegments + 1 < 2 ^ 32 := by
  have segments := request.segments
  rcases Nat.lt_or_eq_of_le above with larger | equal
  · have dense := request.dense larger
    have counter := request.counter
    have cells := Nat.mul_le_mul_right s.storage.numberSegments framed.configured.capacity_le
    zify at cells
    rw [mul_assoc] at dense
    omega
  · -- a multiple of 64 is not the last word
    rw [balancedThresholdsCutoff] at equal
    omega

/-- The plan to grow, as a record. -/
theorem rebalancePlan_grow (s : Pma) (windowStart windowLength cardinalityAfter : Int) :
    s.rebalancePlan true windowStart windowLength cardinalityAfter true =
      { isInsert := true
        operation := (s.growPlan cardinalityAfter).1
        windowStart := 0
        windowLength := (s.growPlan cardinalityAfter).2
        cardinalityAfter := cardinalityAfter } := rfl

theorem Framed.enough_of_extended (framed : s.Framed) (request : s.GrowRequest cardinalityAfter)
    (roomy : s.Roomy true cardinalityAfter)
    (above : s.balancedThresholdsCutoff ≤ s.storage.numberSegments) {n : Nat}
    (less : n < max ⌈s.idealSegments cardinalityAfter⌉₊ (s.storage.numberSegments + 1) +
      s.segmentsPerExtent) :
    n ≤ cardinalityAfter := by
  have capacity := framed.configured.capacity_le
  have le : 64 * s.segmentsPerExtent ≤ s.storage.numberSegments := above
  have extended := roomy.extended rfl
  have more : s.storage.numberSegments + s.segmentsPerExtent ≤ cardinalityAfter := by
    rcases Nat.lt_or_eq_of_le above with dense | equal
    · have dense := request.dense dense
      have cells : 32 * s.storage.numberSegments ≤
          s.storage.segmentCapacity * s.storage.numberSegments :=
        Nat.mul_le_mul_right _ capacity
      zify at cells le
      nlinarith
    · exact extended equal.symm
  rcases Nat.lt_or_ge (s.storage.numberSegments + 1) ⌈s.idealSegments cardinalityAfter⌉₊ with
    big | small
  · have least : ¬⌈s.idealSegments cardinalityAfter⌉₊ ≤
        ⌈s.idealSegments cardinalityAfter⌉₊ - 1 := by omega
    rw [ceil_idealSegments_le capacity] at least
    rw [max_eq_left big.le] at less
    generalize ⌈s.idealSegments cardinalityAfter⌉₊ = ideal at *
    have cells : 32 * (ideal - 1) ≤ s.storage.segmentCapacity * (ideal - 1) :=
      Nat.mul_le_mul_right _ capacity
    have cast : ((s.storage.segmentCapacity * (ideal - 1) : Nat) : Int) =
        s.storage.segmentCapacity * ((ideal - 1 : Nat) : Int) := Nat.cast_mul _ _
    rw [mul_assoc, ← cast] at least
    omega
  · rw [max_eq_right small] at less
    omega

/-- The plan of a roomy request to grow fits, and keeps the shape. -/
theorem Framed.grow_fits (framed : s.Framed) (request : s.GrowRequest cardinalityAfter)
    (roomy : s.Roomy true cardinalityAfter) (windowStart windowLength : Int) :
    s.Fits (s.rebalancePlan true windowStart windowLength cardinalityAfter true) ∧
      s.Shape
        (s.rebalancePlan true windowStart windowLength cardinalityAfter true).windowLength := by
  have capacity := framed.configured.capacity_le
  have positive := framed.configured.segmentsPerExtent_pos
  have one := framed.positive
  have le := request.le
  rw [rebalancePlan_grow]
  rcases Nat.lt_or_ge s.storage.numberSegments s.balancedThresholdsCutoff with below | above
  · have doubled := roomy.doubled rfl below
    rcases framed.double_le below with ⟨⟨k, power⟩, double⟩
    have power' : s.storage.numberSegments * 2 = 2 ^ (k + 1) := by rw [power, pow_succ]
    have counter := request.counter
    rw [framed.growPlan_double below le,
      uint32_natCast (show s.storage.numberSegments * 2 < 2 ^ 32 by omega)]
    refine ⟨⟨?_, nofun, ?_, ?_, ?_, ?_⟩, ?_⟩
    · intro _
      simp only
      omega
    · push_cast
      omega
    · push_cast
      have cell : 1 * 1 ≤ s.storage.numberSegments * s.storage.segmentCapacity :=
        Nat.mul_le_mul one (by omega)
      zify at cell
      nlinarith
    · exact Or.inl ⟨k + 1, power', by simp only; omega⟩
    · intro rewiring
      have more : s.storage.numberSegments * 2 > s.segmentsPerExtent := by
        by_contra few
        simp only [if_neg few] at rewiring
        cases rewiring
      have whole : s.segmentsPerExtent ≤ s.storage.numberSegments := by
        by_contra few
        rcases framed.configured.segmentsPerExtent_eq.1 with ⟨j, same⟩
        rw [same, power] at few more
        have half := two_mul_le_of_lt (not_le.mp few)
        omega
      refine ⟨framed.rewired.mpr whole, ?_⟩
      rw [framed.configured.usesRewiring_iff]
      simp only
      omega
    · exact Or.inl ⟨⟨k + 1, power'⟩, by simp only; omega⟩
  · rcases @Framed.growPlan_extents s cardinalityAfter framed above
      (framed.next_lt request above) with ⟨numExtents, same, more, less⟩
    have cutoff : 64 * s.segmentsPerExtent ≤ s.storage.numberSegments := above
    rw [same]
    refine ⟨⟨fun _ => more, nofun, ?_, ?_, ?_, ?_⟩, ?_⟩
    · exact framed.enough_of_extended request roomy above less
    · have cells : (s.storage.numberSegments + 1) * s.storage.segmentCapacity ≤
          numExtents * s.segmentsPerExtent * s.storage.segmentCapacity :=
        Nat.mul_le_mul_right _ more
      zify at cells
      simp only
      push_cast
      nlinarith
    · exact Or.inr (Nat.dvd_mul_left _ _)
    · intro _
      refine ⟨framed.rewired.mpr (by omega), ?_⟩
      rw [framed.configured.usesRewiring_iff]
      simp only
      omega
    · refine Or.inr ⟨Nat.dvd_mul_left _ _, ?_⟩
      simp only
      omega

/-- A plan to grow that fits comes from a roomy request. -/
theorem Framed.grow_roomy (framed : s.Framed) (request : s.GrowRequest cardinalityAfter)
    (windowStart windowLength : Int)
    (fits : s.Fits (s.rebalancePlan true windowStart windowLength cardinalityAfter true)) :
    s.Roomy true cardinalityAfter := by
  have enough := fits.enough
  have grows := fits.grows rfl
  rw [rebalancePlan_grow] at enough grows
  refine ⟨fun _ below => ?_, fun _ equal => ?_, nofun, nofun⟩
  · have segments := request.segments
    rw [framed.growPlan_double below request.le] at enough grows
    simp only at enough grows
    -- a number of segments that wrapped around is smaller than before
    have exact : uint32 (s.storage.numberSegments * 2 : Nat) = s.storage.numberSegments * 2 := by
      unfold uint32 at grows ⊢
      omega
    rw [exact] at enough
    push_cast at enough
    omega
  · rcases @Framed.growPlan_extents s cardinalityAfter framed equal.ge
      (framed.next_lt request equal.ge) with ⟨numExtents, same, more, _⟩
    rw [same] at enough
    simp only at enough
    have cutoff : s.storage.numberSegments = 64 * s.segmentsPerExtent := equal
    have next : 64 < numExtents := by
      by_contra few
      have le := Nat.mul_le_mul_right s.segmentsPerExtent (not_lt.mp few)
      omega
    have extents := Nat.mul_le_mul_right s.segmentsPerExtent next
    push_cast at enough
    zify at extents cutoff
    nlinarith

end Grow

/-! ## Shrinking -/

section Shrink

variable {s : Pma} {cardinalityAfter : Int} {m : Nat}

theorem le_floor_idealSegments (capacity : 32 ≤ s.storage.segmentCapacity)
    (nonneg : 0 ≤ cardinalityAfter) :
    m ≤ ⌊s.idealSegments cardinalityAfter⌋₊ ↔
      3 * s.storage.segmentCapacity * m ≤ 4 * cardinalityAfter := by
  have positive : (0 : ℚ) <
      (DensityBounds.primary s.densityBounds0.rounding).thetaH * s.storage.segmentCapacity := by
    have cast : (32 : ℚ) ≤ s.storage.segmentCapacity := by exact_mod_cast capacity
    exact mul_pos (by norm_num [DensityBounds.primary]) (by linarith)
  have ideal : 0 ≤ s.idealSegments cardinalityAfter := by
    have cast : (0 : ℚ) ≤ cardinalityAfter := by exact_mod_cast nonneg
    exact div_nonneg cast positive.le
  rw [Nat.le_floor_iff ideal, idealSegments, le_div_iff₀ positive]
  constructor
  · intro le
    have scaled : (3 * s.storage.segmentCapacity * m : ℚ) ≤ 4 * cardinalityAfter := by
      simp only [DensityBounds.primary] at le
      linarith
    exact_mod_cast scaled
  · intro le
    have scaled : (3 * s.storage.segmentCapacity * m : ℚ) ≤ 4 * cardinalityAfter := by
      exact_mod_cast le
    simp only [DensityBounds.primary]
    linarith

/-- The extents that the plan to shrink keeps. -/
def keptExtents (s : Pma) (cardinalityAfter : Int) : Nat :=
  let numExtents := ⌊s.idealSegments cardinalityAfter⌋₊ / s.segmentsPerExtent
  if numExtents = s.numberExtents then numExtents - 1 else numExtents

theorem shrinkPlan_cases (s : Pma) (cardinalityAfter : Int) :
    (s.keptExtents cardinalityAfter * s.segmentsPerExtent ≤ s.balancedThresholdsCutoff ∧
        s.balancedThresholdsCutoff < s.storage.numberSegments ∧
        s.shrinkPlan cardinalityAfter = (.resizeRebalance, s.balancedThresholdsCutoff)) ∨
      (s.storage.numberSegments ≤ s.balancedThresholdsCutoff ∧
        s.shrinkPlan cardinalityAfter = (.resize, s.storage.numberSegments / 2)) ∨
      (s.balancedThresholdsCutoff < s.keptExtents cardinalityAfter * s.segmentsPerExtent ∧
        (s.shrinkPlan cardinalityAfter).1 ≠ .rebalance ∧
        (s.shrinkPlan cardinalityAfter).2 =
          s.keptExtents cardinalityAfter * s.segmentsPerExtent) := by
  have floor : ⌊((⌊s.idealSegments cardinalityAfter⌋₊ : Nat) : ℚ) / s.segmentsPerExtent⌋₊ =
      ⌊s.idealSegments cardinalityAfter⌋₊ / s.segmentsPerExtent := by
    rw [Nat.floor_div_natCast, Nat.floor_natCast]
  unfold shrinkPlan keptExtents
  simp only [floor]
  generalize (if ⌊s.idealSegments cardinalityAfter⌋₊ / s.segmentsPerExtent = s.numberExtents then
    ⌊s.idealSegments cardinalityAfter⌋₊ / s.segmentsPerExtent - 1 else
    ⌊s.idealSegments cardinalityAfter⌋₊ / s.segmentsPerExtent) = kept
  by_cases few : kept * s.segmentsPerExtent ≤ s.balancedThresholdsCutoff
  · rw [if_pos few]
    by_cases many : s.storage.numberSegments > s.balancedThresholdsCutoff
    · rw [if_pos many]
      exact Or.inl ⟨few, many, rfl⟩
    · rw [if_neg many]
      exact Or.inr (Or.inl ⟨not_lt.mp many, rfl⟩)
  · rw [if_neg few]
    refine Or.inr (Or.inr ⟨not_le.mp few, ?_, rfl⟩)
    rcases s.memoryKeys with _ | m
    · nofun
    · simp only
      split_ifs <;> nofun

/-- What a request to shrink is known to satisfy: no segment is empty, but for the one that an
element was taken from. -/
structure ShrinkRequest (s : Pma) (cardinalityAfter : Int) : Prop where
  several : 2 ≤ s.storage.numberSegments
  ge : s.storage.numberSegments ≤ cardinalityAfter + 1

theorem rebalancePlan_shrink (s : Pma) (windowStart windowLength cardinalityAfter : Int) :
    s.rebalancePlan false windowStart windowLength cardinalityAfter true =
      { isInsert := false
        operation := (s.shrinkPlan cardinalityAfter).1
        windowStart := 0
        windowLength := (s.shrinkPlan cardinalityAfter).2
        cardinalityAfter := cardinalityAfter } := rfl

/-- Up to the cutoff the number of segments is a power of two. -/
theorem Framed.power_of_le (framed : s.Framed)
    (le : s.storage.numberSegments ≤ s.balancedThresholdsCutoff) :
    ∃ k, s.storage.numberSegments = 2 ^ k := by
  rcases framed.shape with ⟨power, _⟩ | ⟨_, ge⟩
  · exact power
  · rcases framed.configured.cutoff_eq with ⟨j, cutoff, _⟩
    exact ⟨j, by rw [← cutoff]; omega⟩

/-- The elements of a halved array leave at most two thirds of its extents. -/
theorem Framed.keptExtents_halved (framed : s.Framed) (nonneg : 0 ≤ cardinalityAfter)
    (le : s.storage.numberSegments ≤ s.balancedThresholdsCutoff)
    (halved : 2 * cardinalityAfter ≤ s.storage.numberSegments * s.storage.segmentCapacity) :
    s.keptExtents cardinalityAfter * s.segmentsPerExtent ≤ s.balancedThresholdsCutoff := by
  have capacity := framed.configured.capacity_le
  have few : ¬s.storage.numberSegments + 1 ≤ ⌊s.idealSegments cardinalityAfter⌋₊ := by
    rw [le_floor_idealSegments capacity nonneg]
    push_cast
    nlinarith
  have kept : s.keptExtents cardinalityAfter ≤
      ⌊s.idealSegments cardinalityAfter⌋₊ / s.segmentsPerExtent := by
    unfold keptExtents
    simp only
    split_ifs <;> omega
  have product := Nat.mul_le_mul_right s.segmentsPerExtent kept
  have floor := Nat.div_mul_le_self ⌊s.idealSegments cardinalityAfter⌋₊ s.segmentsPerExtent
  omega

/-- Above the cutoff, the extents kept are fewer than there are, if the elements fit in the
hardwired density and one more extent. -/
theorem Framed.keptExtents_reduced (framed : s.Framed) (nonneg : 0 ≤ cardinalityAfter)
    (above : s.balancedThresholdsCutoff < s.storage.numberSegments)
    (reduced : 4 * cardinalityAfter <
      3 * s.storage.segmentCapacity * (s.storage.numberSegments + s.segmentsPerExtent)) :
    (s.keptExtents cardinalityAfter + 1) * s.segmentsPerExtent ≤ s.storage.numberSegments ∧
      4 * cardinalityAfter < 3 * s.storage.segmentCapacity *
        ((s.keptExtents cardinalityAfter + 2) * s.segmentsPerExtent) := by
  have capacity := framed.configured.capacity_le
  have positive := framed.configured.segmentsPerExtent_pos
  have cutoff : 64 * s.segmentsPerExtent < s.storage.numberSegments := above
  have whole : s.segmentsPerExtent ≤ s.storage.numberSegments := by omega
  have extents := framed.numberExtents_eq whole
  have segments := Nat.div_mul_cancel (framed.dvd whole)
  have few : ¬s.storage.numberSegments + s.segmentsPerExtent ≤
      ⌊s.idealSegments cardinalityAfter⌋₊ := by
    rw [le_floor_idealSegments capacity nonneg]
    push_cast
    exact not_le.mpr reduced
  have floor := Nat.div_mul_le_self ⌊s.idealSegments cardinalityAfter⌋₊ s.segmentsPerExtent
  have next := Nat.lt_mul_of_div_lt (Nat.lt_succ_self
    (⌊s.idealSegments cardinalityAfter⌋₊ / s.segmentsPerExtent)) positive
  rw [Nat.succ_eq_add_one] at next
  have le : ⌊s.idealSegments cardinalityAfter⌋₊ / s.segmentsPerExtent ≤ s.numberExtents := by
    by_contra many
    have product := Nat.mul_le_mul_right s.segmentsPerExtent (not_le.mp many)
    rw [extents, Nat.succ_mul, segments] at product
    omega
  have some : 0 < s.numberExtents := by
    rw [extents]
    exact Nat.div_pos whole positive
  have kept : s.keptExtents cardinalityAfter + 1 ≤ s.numberExtents ∧
      ⌊s.idealSegments cardinalityAfter⌋₊ / s.segmentsPerExtent ≤
        s.keptExtents cardinalityAfter + 1 := by
    unfold keptExtents
    simp only
    split_ifs <;> omega
  constructor
  · have product := Nat.mul_le_mul_right s.segmentsPerExtent kept.1
    rwa [extents, segments] at product
  · have product : (⌊s.idealSegments cardinalityAfter⌋₊ / s.segmentsPerExtent + 1) *
        s.segmentsPerExtent ≤ (s.keptExtents cardinalityAfter + 2) * s.segmentsPerExtent :=
      Nat.mul_le_mul_right _ (by omega)
    have most : ¬(s.keptExtents cardinalityAfter + 2) * s.segmentsPerExtent ≤
        ⌊s.idealSegments cardinalityAfter⌋₊ := by omega
    rw [le_floor_idealSegments capacity nonneg] at most
    push_cast at most
    exact not_le.mp most

/-- The plan of a roomy request to shrink fits, and keeps the shape. -/
theorem Framed.shrink_fits (framed : s.Framed) (request : s.ShrinkRequest cardinalityAfter)
    (roomy : s.Roomy false cardinalityAfter) (windowStart windowLength : Int) :
    s.Fits (s.rebalancePlan false windowStart windowLength cardinalityAfter true) ∧
      s.Shape
        (s.rebalancePlan false windowStart windowLength cardinalityAfter true).windowLength := by
  have capacity := framed.configured.capacity_le
  have positive := framed.configured.segmentsPerExtent_pos
  have several := request.several
  have ge := request.ge
  have nonneg : 0 ≤ cardinalityAfter := by omega
  rw [rebalancePlan_shrink]
  rcases Nat.lt_or_ge s.balancedThresholdsCutoff s.storage.numberSegments with above | below
  · have cutoff : 64 * s.segmentsPerExtent < s.storage.numberSegments := above
    have whole : s.segmentsPerExtent ≤ s.storage.numberSegments := by omega
    have rewired := framed.rewired.mpr whole
    rcases framed.keptExtents_reduced nonneg above (roomy.reduced rfl above) with ⟨fewer, room⟩
    rw [Nat.succ_mul] at fewer
    rcases s.shrinkPlan_cases cardinalityAfter with
      ⟨few, _, plan⟩ | ⟨le, _⟩ | ⟨many, _, plan⟩
    · rw [plan]
      have elements :
          4 * cardinalityAfter < 3 * s.storage.segmentCapacity * (66 * s.segmentsPerExtent) := by
        have product : (s.keptExtents cardinalityAfter + 2) * s.segmentsPerExtent ≤
            66 * s.segmentsPerExtent := by
          rw [balancedThresholdsCutoff] at few
          rw [Nat.add_mul]
          omega
        have cells := Nat.mul_le_mul_left (3 * s.storage.segmentCapacity) product
        zify at cells
        omega
      rcases framed.configured.cutoff_eq with ⟨j, power, _⟩
      refine ⟨⟨nofun, fun _ => ⟨above, ?_⟩, ?_, ?_, Or.inl ⟨j, power, le_rfl⟩,
        fun _ => ⟨rewired, ?_⟩⟩, Or.inl ⟨⟨j, power⟩, le_rfl⟩⟩
      · rw [balancedThresholdsCutoff]
        simp only
        omega
      · rw [balancedThresholdsCutoff]
        simp only
        push_cast
        omega
      · rw [balancedThresholdsCutoff]
        simp only
        push_cast
        nlinarith
      · rw [framed.configured.usesRewiring_iff, balancedThresholdsCutoff]
        simp only
        omega
    · omega
    · have bound : 65 ≤ s.keptExtents cardinalityAfter := by
        by_contra few
        have product := Nat.mul_le_mul_right s.segmentsPerExtent
          (show s.keptExtents cardinalityAfter ≤ 64 by omega)
        rw [balancedThresholdsCutoff] at many
        omega
      have elements : 3 * ((s.keptExtents cardinalityAfter + 2) * s.segmentsPerExtent) ≤
          4 * (s.keptExtents cardinalityAfter * s.segmentsPerExtent) := by
        have product := Nat.mul_le_mul_right s.segmentsPerExtent bound
        rw [Nat.add_mul]
        omega
      have cells := Nat.mul_le_mul_left s.storage.segmentCapacity elements
      rw [balancedThresholdsCutoff] at many
      rw [plan]
      refine ⟨⟨nofun, fun _ => ⟨?_, ?_⟩, ?_, ?_, Or.inr (Nat.dvd_mul_left _ _),
        fun _ => ⟨rewired, ?_⟩⟩, Or.inr ⟨Nat.dvd_mul_left _ _, ?_⟩⟩
      · simp only
        omega
      · simp only
        omega
      · simp only
        omega
      · simp only
        zify at cells
        push_cast at room ⊢
        nlinarith
      · rw [framed.configured.usesRewiring_iff]
        simp only
        omega
      · rw [balancedThresholdsCutoff]
        simp only
        omega
  · rcases s.shrinkPlan_cases cardinalityAfter with
      ⟨_, above, _⟩ | ⟨_, plan⟩ | ⟨many, _⟩
    · omega
    · have halved := roomy.halved rfl below
      rcases framed.power_of_le below with ⟨k, power⟩
      have even : ∃ k', s.storage.numberSegments = 2 * 2 ^ k' := by
        rcases k with _ | k
        · rw [pow_zero] at power
          omega
        · exact ⟨k, by rw [power, pow_succ']⟩
      rcases even with ⟨k', even⟩
      have half : s.storage.numberSegments / 2 = 2 ^ k' := by omega
      have one : 1 ≤ 2 ^ k' := Nat.one_le_two_pow
      rw [plan, half]
      refine ⟨⟨nofun, fun _ => ⟨?_, one⟩, ?_, ?_, Or.inl ⟨k', rfl, ?_⟩, nofun⟩,
        Or.inl ⟨⟨k', rfl⟩, ?_⟩⟩
      · simp only
        omega
      · simp only
        omega
      · simp only
        rw [even] at halved
        push_cast at halved ⊢
        linarith
      · simp only
        omega
      · simp only
        omega
    · have few := framed.keptExtents_halved nonneg below (roomy.halved rfl below)
      omega

/-- A plan to shrink that fits comes from a roomy request. -/
theorem Framed.shrink_roomy (framed : s.Framed) (request : s.ShrinkRequest cardinalityAfter)
    (windowStart windowLength : Int)
    (fits : s.Fits (s.rebalancePlan false windowStart windowLength cardinalityAfter true)) :
    s.Roomy false cardinalityAfter := by
  have capacity := framed.configured.capacity_le
  have positive := framed.configured.segmentsPerExtent_pos
  have nonneg : 0 ≤ cardinalityAfter := by
    have several := request.several
    have ge := request.ge
    omega
  have smaller := (fits.shrinks rfl).1
  have room := fits.room
  rw [rebalancePlan_shrink] at smaller room
  refine ⟨nofun, nofun, fun _ below => ?_, fun _ above => ?_⟩
  · rcases s.shrinkPlan_cases cardinalityAfter with
      ⟨_, above, _⟩ | ⟨_, plan⟩ | ⟨many, _, plan⟩
    · omega
    · rw [plan] at room
      have half := Nat.mul_le_mul_right s.storage.segmentCapacity
        (Nat.div_mul_le_self s.storage.numberSegments 2)
      zify at half
      push_cast at room half
      nlinarith
    · rw [plan] at smaller
      simp only at smaller
      omega
  · by_contra crowded
    have cutoff : 64 * s.segmentsPerExtent < s.storage.numberSegments := above
    have whole : s.segmentsPerExtent ≤ s.storage.numberSegments := by omega
    have extents := framed.numberExtents_eq whole
    have segments := Nat.div_mul_cancel (framed.dvd whole)
    have many : s.storage.numberSegments + s.segmentsPerExtent ≤
        ⌊s.idealSegments cardinalityAfter⌋₊ := by
      rw [le_floor_idealSegments capacity nonneg]
      push_cast
      exact not_lt.mp crowded
    have more : s.numberExtents + 1 ≤
        ⌊s.idealSegments cardinalityAfter⌋₊ / s.segmentsPerExtent := by
      rw [Nat.le_div_iff_mul_le positive, Nat.succ_mul, extents, segments]
      exact many
    have kept : s.numberExtents + 1 ≤ s.keptExtents cardinalityAfter := by
      unfold keptExtents
      simp only
      split_ifs <;> omega
    have product := Nat.mul_le_mul_right s.segmentsPerExtent kept
    rw [Nat.succ_mul, extents, segments] at product
    rcases s.shrinkPlan_cases cardinalityAfter with ⟨few, _⟩ | ⟨le, _⟩ | ⟨_, _, plan⟩
    · omega
    · omega
    · rw [plan] at smaller
      simp only at smaller
      omega

end Shrink

/-! ## Counting after an event -/

section Counting

variable {s t : Storage} {a b : Int}

theorem countOf_congr (same : ∀ i : Nat, a ≤ i → (i : Int) < b →
    s.segmentSizes i = t.segmentSizes i) : s.countOf a b = t.countOf a b := by
  apply Finset.sum_congr rfl
  intro i member
  rw [Finset.mem_Ico] at member
  rw [same i (by omega) (by omega)]

/-- The number of elements after the size of one segment has changed. -/
theorem countOf_update {segment n : Nat} (inside : segment < n)
    (same : ∀ i, i ≠ segment → t.segmentSizes i = s.segmentSizes i) :
    t.countOf 0 n = s.countOf 0 n - s.segmentSizes segment + t.segmentSizes segment := by
  have parts : ∀ u : Storage, u.countOf 0 segment + u.segmentSizes segment +
      u.countOf (segment + 1) n = u.countOf 0 n := by
    intro u
    rw [← u.countOf_single, u.countOf_add (by omega) (by omega),
      u.countOf_add (by omega) (by omega)]
  have before := @countOf_congr t s 0 segment fun i _ less => same i (by omega)
  have after := @countOf_congr t s (segment + 1) n fun i le _ => same i (by omega)
  rw [← parts t, ← parts s, before, after]
  omega

theorem size_le_countOf (s : Storage) {segment n : Nat} (inside : segment < n) :
    (s.segmentSizes segment : Int) ≤ s.countOf 0 n := by
  have nonneg : ∀ i ∈ Finset.Ico 0 n, (0 : Int) ≤ s.segmentSizes i :=
    fun i _ => Int.natCast_nonneg _
  exact Finset.single_le_sum nonneg (by simpa using inside)

theorem countOf_le {n capacity : Nat} (le : ∀ i < n, s.segmentSizes i ≤ capacity) :
    s.countOf 0 n ≤ n * capacity := by
  have bound := Finset.sum_le_card_nsmul (Finset.Ico 0 n) (fun i => (s.segmentSizes i : Int))
    capacity fun i member => by
      exact_mod_cast le i (Finset.mem_Ico.mp member).2
  rw [Nat.card_Ico, Nat.sub_zero, nsmul_eq_mul] at bound
  exact bound

theorem le_countOf {n : Nat} (nonempty : ∀ i < n, 1 ≤ s.segmentSizes i) :
    (n : Int) ≤ s.countOf 0 n := by
  have bound := Finset.card_nsmul_le_sum (Finset.Ico 0 n) (fun i => (s.segmentSizes i : Int))
    1 fun i member => by
      exact_mod_cast nonempty i (Finset.mem_Ico.mp member).2
  rw [Nat.card_Ico, Nat.sub_zero, nsmul_eq_mul, mul_one] at bound
  exact bound

/-- The number of elements after those of a window are divided anew. -/
theorem countOf_window {start length n : Nat} {quota : Nat → Nat} (inside : start + length ≤ n)
    (window : ∀ i < length, t.segmentSizes (start + i) = quota i)
    (outside : ∀ i, ¬(start ≤ i ∧ i < start + length) → t.segmentSizes i = s.segmentSizes i) :
    t.countOf 0 n = s.countOf 0 n - s.countOf start (start + length) +
      ∑ i ∈ Finset.range length, (quota i : Int) := by
  have parts : ∀ u : Storage, u.countOf 0 start + u.countOf start (start + length) +
      u.countOf (start + length) n = u.countOf 0 n := by
    intro u
    rw [u.countOf_add (by omega) (by omega), u.countOf_add (by omega) (by omega)]
  have before := @countOf_congr t s 0 start fun i _ less => outside i (by omega)
  have after := @countOf_congr t s (start + length) n fun i le _ => outside i (by omega)
  have divided : t.countOf start (start + length) = ∑ i ∈ Finset.range length, (quota i : Int) := by
    rw [Storage.countOf, Finset.sum_Ico_eq_sum_range]
    have size : ((start : Int) + length).toNat - (start : Int).toNat = length := by omega
    rw [size, Int.toNat_natCast]
    apply Finset.sum_congr rfl
    intro i member
    rw [window i (Finset.mem_range.mp member)]
  rw [← parts t, ← parts s, before, after, divided]
  omega

end Counting

/-! ## Runs -/

/-- The invariant: no segment is empty, unless there is only one. -/
structure Valid (s : Pma) : Prop where
  framed : s.Framed
  small : s.storage.numberSegments < 2 ^ 32
  counter : s.storage.cardinality < 2 ^ 32
  size_le : ∀ i < s.storage.numberSegments, s.storage.segmentSizes i ≤ s.storage.segmentCapacity
  nonempty : 1 < s.storage.numberSegments →
    ∀ i < s.storage.numberSegments, 1 ≤ s.storage.segmentSizes i
  counted : (s.storage.cardinality : Int) = s.storage.countOf 0 s.storage.numberSegments

/-- The event is one of a segment of the array, which holds an element if one is removed. The
counter of the elements does not overflow, and a removed value of -1, which the code takes
for a missing key, is not the last one of its segment. -/
def Admissible (s : Pma) : Event → Prop
  | .insert segment _ => segment < s.storage.numberSegments ∧ s.storage.cardinality + 1 < 2 ^ 32
  | .remove segment value _ => segment < s.storage.numberSegments ∧
      0 < s.storage.segmentSizes segment ∧
      (value = -1 → 1 < s.storage.numberSegments → 1 < s.storage.segmentSizes segment)

/-- The partition gives each segment at least one element and no more than its capacity. -/
structure Partitioned (s : Pma) (plan : RebalanceMetadata) (outcome : Outcome) : Prop where
  quota : ∀ i < plan.windowLength, 1 ≤ outcome.quota i ∧ outcome.quota i ≤ s.storage.segmentCapacity
  sum : ∑ i ∈ Finset.range plan.windowLength, (outcome.quota i : Int) = plan.cardinalityAfter

/-- An event is admissible, and the elements of the window are partitioned if there is a
rebalance; after a resize, as long as there are enough elements and room for them. -/
structure Ordinary (s : Pma) (e : Event) : Prop where
  admissible : s.Admissible e
  partitioned : ∀ t plan, s.planOf e = some (t, plan) →
    (plan.operation ≠ .rebalance → plan.windowLength ≤ plan.cardinalityAfter ∧
      plan.cardinalityAfter ≤ plan.windowLength * t.storage.segmentCapacity) →
    t.Partitioned plan e.outcome

def OrdinaryRun (s : Pma) : List Event → Prop
  | [] => True
  | e :: es => s.Ordinary e ∧ (s.perform e).OrdinaryRun es

/-- All the plans of a run to resize fit. -/
def FitsRun (s : Pma) : List Event → Prop
  | [] => True
  | e :: es => (∀ t plan, s.planOf e = some (t, plan) → plan.operation ≠ .rebalance →
      t.Fits plan) ∧ (s.perform e).FitsRun es

/-- All the requests of a run to resize are roomy. -/
def RoomyRun (s : Pma) : List Event → Prop
  | [] => True
  | e :: es => (∀ t plan, s.planOf e = some (t, plan) → plan.operation ≠ .rebalance →
      t.Roomy plan.isInsert plan.cardinalityAfter) ∧ (s.perform e).RoomyRun es

/-! ## The plan of a rebalance -/

/-- The invariant of an array in which one segment may be empty. -/
structure Ready (s : Pma) (segment : Nat) : Prop where
  framed : s.Framed
  small : s.storage.numberSegments < 2 ^ 32
  counter : s.storage.cardinality < 2 ^ 32
  size_le : ∀ i < s.storage.numberSegments, s.storage.segmentSizes i ≤ s.storage.segmentCapacity
  nonempty : 1 < s.storage.numberSegments →
    ∀ i < s.storage.numberSegments, i ≠ segment → 1 ≤ s.storage.segmentSizes i
  counted : (s.storage.cardinality : Int) = s.storage.countOf 0 s.storage.numberSegments

/-- What a plan for a window is known to satisfy. -/
structure Local (s : Pma) (segment : Nat) (plan : RebalanceMetadata) : Prop where
  operation : plan.operation = .rebalance
  inside : plan.windowStart + plan.windowLength ≤ s.storage.numberSegments
  lower : plan.windowStart ≤ segment
  upper : segment < plan.windowStart + plan.windowLength
  cardinality : plan.cardinalityAfter =
    s.storage.countOf plan.windowStart (plan.windowStart + plan.windowLength) +
      if plan.isInsert then 1 else 0
  small : plan.isInsert = true → s.storage.cardinality + 1 < 2 ^ 32

section Request

variable {s : Pma} {segment : Nat}

theorem Valid.ready (valid : s.Valid) (segment : Nat) : s.Ready segment :=
  ⟨valid.framed, valid.small, valid.counter, valid.size_le,
    fun several i inside _ => valid.nonempty several i inside, valid.counted⟩

theorem Framed.setSize (framed : s.Framed) (segment size cardinality : Nat) :
    (s.setSize segment size cardinality).Framed :=
  ⟨⟨framed.configured.capacity, framed.configured.pages, framed.configured.page,
    framed.configured.divides, framed.configured.extent⟩, framed.positive, framed.shape,
    framed.rewired, framed.extents, framed.primary⟩

theorem setSize_self (s : Pma) (segment size cardinality : Nat) :
    (s.setSize segment size cardinality).storage.segmentSizes segment = size :=
  Function.update_self ..

theorem setSize_of_ne (s : Pma) {segment i : Nat} (size cardinality : Nat) (other : i ≠ segment) :
    (s.setSize segment size cardinality).storage.segmentSizes i = s.storage.segmentSizes i :=
  Function.update_of_ne other ..

/-- The array without an element of a segment. -/
theorem Valid.take (valid : s.Valid) (inside : segment < s.storage.numberSegments)
    (some : 0 < s.storage.segmentSizes segment) : (s.take segment).Ready segment := by
  have size := s.setSize_self segment (s.storage.segmentSizes segment - 1)
    (predUint32 s.storage.cardinality)
  have same := fun i (other : i ≠ segment) => s.setSize_of_ne
    (s.storage.segmentSizes segment - 1) (predUint32 s.storage.cardinality) other
  have count := @countOf_update s.storage (s.take segment).storage segment s.storage.numberSegments
    inside same
  have least := size_le_countOf s.storage inside
  have counted := valid.counted
  have stored : predUint32 s.storage.cardinality = s.storage.cardinality - 1 :=
    predUint32_of_pos (by omega)
  have counter := valid.counter
  refine ⟨valid.framed.setSize _ _ _, valid.small, ?_, fun i insideI => ?_,
    fun several i insideI other => ?_, ?_⟩
  · change predUint32 s.storage.cardinality < 2 ^ 32
    omega
  · by_cases here : i = segment
    · subst here
      have le := valid.size_le i inside
      change (s.setSize i _ _).storage.segmentSizes i ≤ s.storage.segmentCapacity
      omega
    · change (s.setSize segment _ _).storage.segmentSizes i ≤ s.storage.segmentCapacity
      rw [same i here]
      exact valid.size_le i insideI
  · change 1 ≤ (s.setSize segment _ _).storage.segmentSizes i
    rw [same i other]
    exact valid.nonempty several i insideI
  · change (predUint32 s.storage.cardinality : Int) =
      (s.take segment).storage.countOf 0 s.storage.numberSegments
    change (s.take segment).storage.segmentSizes segment = _ at size
    rw [stored, count, size]
    omega

/-- The largest window is denser than the hardwired threshold, above the cutoff. -/
theorem Ready.grow_dense (ready : s.Ready segment) {chain : Nat → Storage.Search}
    (several : 2 ≤ s.storage.numberSegments)
    (windows : s.storage.Windows s.getThresholds true segment chain)
    (violates : (chain (Nat.log 2 s.storage.numberSegments)).Violates true)
    (above : s.balancedThresholdsCutoff < s.storage.numberSegments) :
    3 * s.storage.segmentCapacity * s.storage.numberSegments <
      8 * ((s.storage.cardinality : Int) + 1) := by
  have capacity := ready.framed.configured.capacity_le
  have positive := Nat.log_pos (by decide) several
  have dense := ((windows.violates_iff _ positive le_rfl).mp violates).resolve_right nofun
  have bounds := windows.inside _ (le_refl (Nat.log 2 s.storage.numberSegments))
  have counted := windows.cardinality _ (le_refl (Nat.log 2 s.storage.numberSegments))
  have primary : s.primaryDensities = true := by
    rw [ready.framed.primary]
    exact decide_eq_true above
  have threshold : (3 / 4 : ℚ) ≤ (s.getThresholds (Nat.log 2 s.storage.numberSegments + 1)).2 := by
    have le := Nat.log_le_clog 2 s.storage.numberSegments
    rw [getThresholds, primary, if_pos rfl]
    exact (DensityBounds.primary _).le_theta (by omega) (Nat.succ_le_succ le)
  have larger : s.storage.numberSegments < 2 * 2 ^ Nat.log 2 s.storage.numberSegments := by
    rw [← pow_succ']
    exact Nat.lt_pow_succ_log_self (by decide) _
  generalize chain (Nat.log 2 s.storage.numberSegments) = w at *
  generalize Nat.log 2 s.storage.numberSegments = k at *
  have elements : w.cardinalityAfter ≤ (s.storage.cardinality : Int) + 1 := by
    have before := s.storage.countOf_nonneg 0 w.windowStart
    have after := s.storage.countOf_nonneg w.windowEnd s.storage.numberSegments
    have first := s.storage.countOf_add bounds.1 (show w.windowStart ≤ w.windowEnd by
      have power : (0 : Int) < 2 ^ k := by positivity
      omega)
    have second := s.storage.countOf_add (show (0 : Int) ≤ w.windowEnd by
      have power : (0 : Int) < 2 ^ k := by positivity
      omega) bounds.2.2
    have total := ready.counted
    have upper : w.windowEnd ≤ s.storage.numberSegments := bounds.2.2
    simp only [if_true] at counted
    omega
  have cells : (0 : ℚ) < 2 ^ k * s.storage.segmentCapacity := by
    have cast : (32 : ℚ) ≤ s.storage.segmentCapacity := by exact_mod_cast capacity
    have power : (0 : ℚ) < 2 ^ k := by positivity
    exact mul_pos power (by linarith)
  have ratio := lt_of_le_of_lt threshold dense.2
  change (3 / 4 : ℚ) < (w.cardinalityAfter : ℚ) / (2 ^ k * s.storage.segmentCapacity) at ratio
  rw [lt_div_iff₀ cells] at ratio
  have scaled : 3 * (2 ^ k * s.storage.segmentCapacity : ℚ) < 4 * w.cardinalityAfter := by linarith
  have integral : 3 * (2 ^ k * (s.storage.segmentCapacity : Int)) < 4 * w.cardinalityAfter := by
    exact_mod_cast scaled
  have product := Nat.mul_le_mul_right s.storage.segmentCapacity larger.le
  zify at product
  nlinarith

/-- The plan of a rebalance: for a window around the segment, or to resize. -/
theorem Ready.rebalance (ready : s.Ready segment) (inside : segment < s.storage.numberSegments)
    {isInsert : Bool} (several : isInsert = false → 2 ≤ s.storage.numberSegments)
    (full : isInsert = true → s.storage.segmentSizes segment = s.storage.segmentCapacity)
    (small : isInsert = true → s.storage.cardinality + 1 < 2 ^ 32) :
    ∃ plan, s.rebalance segment isInsert = some plan ∧ plan.isInsert = isInsert ∧
      (s.Local segment plan ∨
        (∃ a b, plan = s.rebalancePlan isInsert a b
          ((s.storage.cardinality : Int) + if isInsert then 1 else 0) true) ∧
        (isInsert = true → s.GrowRequest ((s.storage.cardinality : Int) + 1))) := by
  have capacity := ready.framed.configured.capacity_le
  have most := countOf_le ready.size_le
  have counter : s.storage.cardinality + (if isInsert then 1 else 0) < 2 ^ 32 := by
    split_ifs with insertion
    · exact small insertion
    · exact ready.counter
  rw [← ready.counted] at most
  rcases Nat.lt_or_ge s.storage.numberSegments 2 with one | many
  · have one : s.storage.numberSegments = 1 := by
      have positive := ready.framed.positive
      omega
    rcases isInsert with _ | _
    · have two := several rfl
      omega
    · have found := @Storage.rebalanceFindWindow_one s.storage s.getThresholds segment one
        (by omega)
      rw [uint32_natCast (small rfl)] at found
      refine ⟨_, by rw [Pma.rebalance, found, Option.map_some]; rfl, rfl,
        Or.inr ⟨⟨0, 0, rfl⟩, ?_⟩⟩
      refine fun _ => ⟨ready.small, by exact_mod_cast counter, by omega, fun above => ?_⟩
      have positive := ready.framed.configured.segmentsPerExtent_pos
      rw [balancedThresholdsCutoff] at above
      omega
  · rcases @Storage.windows_exist s.storage s.getThresholds isInsert segment inside ready.small
      full with ⟨chain, windows, lengths⟩
    rcases windows.chosen lengths many with ⟨r, found, chosen⟩
    have smallest := chosen.smallest ready.counted counter
    rcases resize : r.resize with _ | _
    · rcases smallest.found resize with ⟨k, positive, le, start, length, elements, _⟩
      have bounds := windows.inside k le
      have contains := windows.contains k le
      rw [← start] at bounds contains
      refine ⟨_, by rw [Pma.rebalance, found, Option.map_some, resize], rfl, Or.inl ?_⟩
      have startCast : (r.windowStart.toNat : Int) = r.windowStart :=
        Int.toNat_of_nonneg bounds.1
      have lengthCast : (r.windowLength.toNat : Int) = r.windowLength := by
        have power : (0 : Int) < 2 ^ k := by positivity
        exact Int.toNat_of_nonneg (by omega)
      constructor
      · rfl
      · simp only [rebalancePlan, Bool.not_false, if_true]
        omega
      · simp only [rebalancePlan, Bool.not_false, if_true]
        omega
      · simp only [rebalancePlan, Bool.not_false, if_true]
        omega
      · simp only [rebalancePlan, Bool.not_false, if_true]
        rw [startCast, lengthCast]
        exact elements
      · exact small
    · have cardinality := smallest.total resize
      rw [← ready.counted] at cardinality
      refine ⟨_, by rw [Pma.rebalance, found, Option.map_some, resize], rfl,
        Or.inr ⟨⟨r.windowStart, r.windowLength, by rw [cardinality]⟩, ?_⟩⟩
      rintro rfl
      refine ⟨ready.small, by exact_mod_cast counter, by omega,
        ready.grow_dense many windows ?_⟩
      exact (smallest.resize_iff.mp resize) _ (Nat.log_pos (by decide) many) le_rfl

/-- Only one segment may be empty, so that there are nearly as many elements as segments. -/
theorem Ready.shrinkRequest (ready : s.Ready segment) (inside : segment < s.storage.numberSegments)
    (several : 2 ≤ s.storage.numberSegments) : s.ShrinkRequest s.storage.cardinality := by
  have other := fun i (differs : i ≠ segment) => s.setSize_of_ne 1 s.storage.cardinality differs
  have count := @countOf_update s.storage (s.setSize segment 1 s.storage.cardinality).storage
    segment s.storage.numberSegments inside other
  have least := @le_countOf (s.setSize segment 1 s.storage.cardinality).storage
    s.storage.numberSegments fun i insideI => by
      by_cases here : i = segment
      · rw [here, setSize_self]
      · rw [other i here]
        exact ready.nonempty several i insideI here
  have counted := ready.counted
  rw [setSize_self] at count
  exact ⟨several, by omega⟩

/-- A plan that the code makes: for a window, or to resize on a request. -/
inductive Planned (s : Pma) (segment : Nat) (plan : RebalanceMetadata) : Prop
  | window (within : s.Local segment plan)
  | grow (windowStart windowLength : Int)
      (request : s.GrowRequest ((s.storage.cardinality : Int) + 1))
      (small : s.storage.cardinality + 1 < 2 ^ 32)
      (same : plan = s.rebalancePlan true windowStart windowLength
        ((s.storage.cardinality : Int) + 1) true)
  | shrink (windowStart windowLength : Int)
      (request : s.ShrinkRequest s.storage.cardinality)
      (same : plan = s.rebalancePlan false windowStart windowLength s.storage.cardinality true)

/-- The counter does not overflow. -/
theorem Planned.small {plan : RebalanceMetadata} (planned : s.Planned segment plan) :
    plan.isInsert = true → s.storage.cardinality + 1 < 2 ^ 32 := by
  rcases planned with within | ⟨_, _, _, small, _⟩ | ⟨_, _, _, rfl⟩
  · exact within.small
  · exact fun _ => small
  · intro inserts
    cases inserts

/-- The plan of a rebalance is one of these. -/
theorem Ready.planned (ready : s.Ready segment) (inside : segment < s.storage.numberSegments)
    {isInsert : Bool} {plan : RebalanceMetadata}
    (several : isInsert = false → 2 ≤ s.storage.numberSegments)
    (full : isInsert = true → s.storage.segmentSizes segment = s.storage.segmentCapacity)
    (small : isInsert = true → s.storage.cardinality + 1 < 2 ^ 32)
    (made : s.rebalance segment isInsert = some plan) : s.Planned segment plan := by
  rcases ready.rebalance inside several full small with
    ⟨_, same, _, within | ⟨⟨windowStart, windowLength, plan⟩, request⟩⟩
  · rw [made, Option.some_inj] at same
    exact .window (same ▸ within)
  · rw [made, Option.some_inj] at same
    rw [← same] at plan
    rcases isInsert with _ | _
    · simp only [Bool.false_eq_true, if_false, add_zero] at plan
      exact .shrink windowStart windowLength (ready.shrinkRequest inside (several rfl)) plan
    · exact .grow windowStart windowLength (request rfl) (small rfl) plan

theorem Valid.planned {e : Event} {t : Pma} {plan : RebalanceMetadata} (valid : s.Valid)
    (admissible : s.Admissible e) (made : s.planOf e = some (t, plan)) :
    ∃ segment < t.storage.numberSegments, t.Ready segment ∧ t.Planned segment plan := by
  rcases e with ⟨segment, outcome⟩ | ⟨segment, value, outcome⟩
  · rcases admissible with ⟨inside, small⟩
    unfold planOf at made
    simp only at made
    split_ifs at made with _ full
    rcases Option.map_eq_some_iff.mp made with ⟨plan', rebalanced, same⟩
    cases same
    exact ⟨segment, inside, valid.ready segment, @Ready.planned s segment (valid.ready segment)
      inside true plan nofun (fun _ => full) (fun _ => small) rebalanced⟩
  · rcases admissible with ⟨inside, some, _⟩
    rcases Option.map_eq_some_iff.mp made with ⟨plan', removed, same⟩
    cases same
    have ready := valid.take inside some
    refine ⟨segment, inside, ready, ?_⟩
    unfold removePlan at removed
    simp only at removed
    split_ifs at removed with _ half several _
    · have positive := ready.framed.configured.segmentsPerExtent_pos
      have many := half.1
      rw [balancedThresholdsCutoff] at many
      exact .shrink 0 0 (ready.shrinkRequest inside (by omega)) (Option.some_inj.mp removed).symm
    · exact @Ready.planned _ segment ready inside false plan (fun _ => several) nofun nofun removed

theorem rebalancePlan_operation (s : Pma) (isInsert : Bool) (a b c : Int) :
    (s.rebalancePlan isInsert a b c true).operation ≠ .rebalance := by
  rcases isInsert with _ | _
  · rw [rebalancePlan_shrink]
    rcases s.shrinkPlan_cases c with ⟨_, _, plan⟩ | ⟨_, plan⟩ | ⟨_, other, _⟩
    · rw [plan]
      nofun
    · rw [plan]
      nofun
    · exact other
  · rw [rebalancePlan_grow]
    unfold growPlan
    simp only
    split_ifs <;> nofun

/-- A plan to resize fits exactly when the request is roomy. -/
theorem Ready.fits_iff {plan : RebalanceMetadata} (ready : s.Ready segment)
    (planned : s.Planned segment plan) (resizes : plan.operation ≠ .rebalance) :
    s.Fits plan ↔ s.Roomy plan.isInsert plan.cardinalityAfter := by
  rcases planned with within | ⟨a, b, request, _, rfl⟩ | ⟨a, b, request, rfl⟩
  · exact absurd within.operation resizes
  · exact ⟨ready.framed.grow_roomy request a b, fun roomy =>
      (ready.framed.grow_fits request roomy a b).1⟩
  · exact ⟨ready.framed.shrink_roomy request a b, fun roomy =>
      (ready.framed.shrink_fits request roomy a b).1⟩

end Request

section Step

variable {s : Pma} {segment : Nat} {plan : RebalanceMetadata} {outcome : Outcome}

/-- The array after a plan for a window is valid. -/
theorem Ready.spread (ready : s.Ready segment) (within : s.Local segment plan)
    (partitioned : s.Partitioned plan outcome) : (s.spread plan outcome).Valid := by
  have window : ∀ i < plan.windowLength,
      (s.spread plan outcome).storage.segmentSizes (plan.windowStart + i) = outcome.quota i := by
    intro i less
    simp only [Pma.spread]
    rw [if_pos ⟨by omega, by omega⟩, Nat.add_sub_cancel_left]
  have outside : ∀ i, ¬(plan.windowStart ≤ i ∧ i < plan.windowStart + plan.windowLength) →
      (s.spread plan outcome).storage.segmentSizes i = s.storage.segmentSizes i := by
    intro i beyond
    simp only [Pma.spread]
    rw [if_neg beyond]
  have count := countOf_window within.inside window outside
  have counted := ready.counted
  have cardinality := within.cardinality
  have sum := partitioned.sum
  have stored := cardinalityAfter_eq within.small
  refine ⟨⟨⟨ready.framed.configured.capacity, ready.framed.configured.pages,
    ready.framed.configured.page, ready.framed.configured.divides,
    ready.framed.configured.extent⟩, ready.framed.positive,
    ready.framed.shape, ready.framed.rewired, ready.framed.extents, ready.framed.primary⟩,
    ready.small, ?_, fun i inside => ?_, fun several i inside => ?_, ?_⟩
  · exact cardinalityAfter_lt ready.counter
  · by_cases here : plan.windowStart ≤ i ∧ i < plan.windowStart + plan.windowLength
    · have quota := partitioned.quota (i - plan.windowStart) (by omega)
      rw [← window _ (by omega), Nat.add_sub_cancel' here.1] at quota
      exact quota.2
    · rw [outside i here]
      exact ready.size_le i inside
  · by_cases here : plan.windowStart ≤ i ∧ i < plan.windowStart + plan.windowLength
    · have quota := partitioned.quota (i - plan.windowStart) (by omega)
      rw [← window _ (by omega), Nat.add_sub_cancel' here.1] at quota
      exact quota.1
    · have lower := within.lower
      have upper := within.upper
      rw [outside i here]
      exact ready.nonempty several i inside (by omega)
  · change (s.cardinalityAfter plan : Int) =
      (s.spread plan outcome).storage.countOf 0 s.storage.numberSegments
    rw [stored, count, sum, cardinality]
    push_cast
    omega

/-- The array after a plan to resize that fits is valid. -/
theorem Ready.resize (ready : s.Ready segment) (fits : s.Fits plan)
    (shape : s.Shape plan.windowLength) (small : plan.windowLength < 2 ^ 32)
    (counter : plan.isInsert = true → s.storage.cardinality + 1 < 2 ^ 32)
    (cardinality : plan.cardinalityAfter =
      (s.storage.cardinality : Int) + if plan.isInsert then 1 else 0)
    (partitioned : s.Partitioned plan outcome) : (s.resize plan outcome).Valid := by
  have configured := ready.framed.configured
  have positive : 1 ≤ plan.windowLength := by
    rcases inserts : plan.isInsert with _ | _
    · exact (fits.shrinks inserts).2
    · have grows := fits.grows inserts
      omega
  have rewires := @Configured.usesRewiring_iff s plan.windowLength configured
  refine ⟨⟨⟨configured.capacity, configured.pages, configured.page, configured.divides,
    configured.extent⟩, positive, shape, ?_, ?_, rfl⟩, small, cardinalityAfter_lt ready.counter,
    fun i inside => (partitioned.quota i inside).2,
    fun _ i inside => (partitioned.quota i inside).1, ?_⟩
  · change (if s.usesRewiring plan.windowLength then some _ else none).isSome = true ↔
      s.segmentsPerExtent ≤ plan.windowLength
    rw [← rewires]
    by_cases uses : s.usesRewiring plan.windowLength <;> simp [uses]
  · intro m same
    change (if s.usesRewiring plan.windowLength then some _ else none) = some m at same
    split_ifs at same
    cases same
    rfl
  · change (s.cardinalityAfter plan : Int) =
      ∑ i ∈ Finset.Ico 0 plan.windowLength, (outcome.quota i : Int)
    rw [cardinalityAfter_eq counter, ← Finset.range_eq_Ico, partitioned.sum, cardinality]
    push_cast
    rfl

/-- The array after a plan, whose request is roomy if it is one to resize, is valid. -/
theorem Ready.doRebalance (ready : s.Ready segment) (planned : s.Planned segment plan)
    (partitioned : (plan.operation ≠ .rebalance → plan.windowLength ≤ plan.cardinalityAfter ∧
      plan.cardinalityAfter ≤ plan.windowLength * s.storage.segmentCapacity) →
      s.Partitioned plan outcome)
    (roomy : plan.operation ≠ .rebalance → s.Roomy plan.isInsert plan.cardinalityAfter) :
    (s.doRebalance plan outcome).Valid := by
  rcases planned with within | ⟨a, b, request, small, rfl⟩ | ⟨a, b, request, rfl⟩
  · rw [Pma.doRebalance, if_pos within.operation]
    exact ready.spread within (partitioned fun resizes => absurd within.operation resizes)
  · have resizes := s.rebalancePlan_operation true a b (s.storage.cardinality + 1)
    rcases ready.framed.grow_fits request (roomy resizes) a b with ⟨fits, shape⟩
    have enough := fits.enough
    rw [Pma.doRebalance, if_neg resizes]
    refine ready.resize fits shape ?_ (fun _ => small) rfl
      (partitioned fun _ => ⟨fits.enough, fits.room⟩)
    change _ ≤ (s.storage.cardinality : Int) + 1 at enough
    omega
  · have resizes := s.rebalancePlan_operation false a b s.storage.cardinality
    rcases ready.framed.shrink_fits request (roomy resizes) a b with ⟨fits, shape⟩
    rw [Pma.doRebalance, if_neg resizes]
    have fewer := (fits.shrinks rfl).1
    exact ready.resize fits shape (fewer.trans ready.small) nofun (add_zero _).symm
      (partitioned fun _ => ⟨fits.enough, fits.room⟩)

theorem Valid.put (valid : s.Valid) (inside : segment < s.storage.numberSegments)
    (small : s.storage.cardinality + 1 < 2 ^ 32)
    (room : s.storage.segmentSizes segment < s.storage.segmentCapacity) :
    (s.put segment).Valid := by
  have size := s.setSize_self segment (s.storage.segmentSizes segment + 1)
    (uint32 (s.storage.cardinality + 1 : Nat))
  have same := fun i (other : i ≠ segment) => s.setSize_of_ne
    (s.storage.segmentSizes segment + 1) (uint32 (s.storage.cardinality + 1 : Nat)) other
  have count := @countOf_update s.storage (s.put segment).storage segment
    s.storage.numberSegments inside same
  have counted := valid.counted
  change (s.put segment).storage.segmentSizes segment = _ at size
  change ∀ i, i ≠ segment → (s.put segment).storage.segmentSizes i = _ at same
  refine ⟨valid.framed.setSize _ _ _, valid.small,
    show uint32 (s.storage.cardinality + 1 : Nat) < 2 ^ 32 from uint32_lt _, fun i insideI => ?_,
    fun several i insideI => ?_, ?_⟩
  · change (s.put segment).storage.segmentSizes i ≤ s.storage.segmentCapacity
    by_cases here : i = segment
    · rw [here, size]
      omega
    · rw [same i here]
      exact valid.size_le i insideI
  · by_cases here : i = segment
    · rw [here, size]
      omega
    · rw [same i here]
      exact valid.nonempty several i insideI
  · change (uint32 (s.storage.cardinality + 1 : Nat) : Int) =
      (s.put segment).storage.countOf 0 s.storage.numberSegments
    rw [uint32_natCast small, count, size]
    push_cast
    omega

/-- An insertion without a plan is in a segment that is not full. -/
theorem Valid.room (valid : s.Valid) (inside : segment < s.storage.numberSegments)
    (small : s.storage.cardinality + 1 < 2 ^ 32)
    (made : s.planOf (.insert segment outcome) = none) :
    s.storage.segmentSizes segment < s.storage.segmentCapacity := by
  have le := valid.size_le segment inside
  have capacity := valid.framed.configured.capacity_le
  unfold planOf at made
  simp only at made
  split_ifs at made with empty full
  · have least := size_le_countOf s.storage inside
    rw [← valid.counted, empty] at least
    omega
  · rcases @Ready.rebalance s segment (valid.ready segment) inside true nofun (fun _ => full)
      (fun _ => small) with ⟨plan, rebalanced, _⟩
    rw [rebalanced] at made
    cases made
  · omega

/-- A removal without a plan leaves an element in the segment. -/
theorem Valid.remains (valid : s.Valid) {value : Int}
    (admissible : s.Admissible (.remove segment value outcome))
    (several : 1 < s.storage.numberSegments)
    (made : s.planOf (.remove segment value outcome) = none) :
    1 ≤ (s.take segment).storage.segmentSizes segment := by
  rcases admissible with ⟨inside, some, kept⟩
  have ready := valid.take inside some
  have removed := Option.map_eq_none_iff.mp made
  unfold removePlan at removed
  simp only at removed
  split_ifs at removed with missing _ _ few
  · have more := kept missing several
    change 1 ≤ (s.setSize segment _ _).storage.segmentSizes segment
    rw [setSize_self]
    omega
  · rcases @Ready.rebalance _ segment ready inside false (fun _ => several) nofun nofun with
      ⟨plan, rebalanced, _⟩
    rw [rebalanced] at removed
    cases removed
  · exact (le_max_right _ 1).trans (not_lt.mp few)
  · contradiction

theorem Ready.valid (ready : s.Ready segment)
    (remains : 1 < s.storage.numberSegments → 1 ≤ s.storage.segmentSizes segment) : s.Valid := by
  refine ⟨ready.framed, ready.small, ready.counter, ready.size_le, fun several i inside => ?_,
    ready.counted⟩
  by_cases here : i = segment
  · rw [here]
    exact remains several
  · exact ready.nonempty several i inside here

/-- An ordinary event, whose request to resize is roomy if there is one, keeps the invariant. -/
theorem Valid.perform {e : Event} (valid : s.Valid) (ordinary : s.Ordinary e)
    (roomy : ∀ t plan, s.planOf e = some (t, plan) → plan.operation ≠ .rebalance →
      t.Roomy plan.isInsert plan.cardinalityAfter) : (s.perform e).Valid := by
  unfold Pma.perform
  rcases made : s.planOf e with _ | ⟨t, plan⟩
  · rcases e with ⟨segment, outcome⟩ | ⟨segment, value, outcome⟩
    · rcases ordinary.admissible with ⟨inside, small⟩
      exact valid.put inside small (valid.room inside small made)
    · have inside := ordinary.admissible.1
      have ready := valid.take inside ordinary.admissible.2.1
      exact ready.valid fun several => valid.remains ordinary.admissible several made
  · rcases valid.planned ordinary.admissible made with ⟨segment, _, ready, planned⟩
    exact ready.doRebalance planned (ordinary.partitioned t plan made) (roomy t plan made)

/-- From a valid array on, the plans fit exactly when the requests are roomy. -/
theorem Valid.fitsRun_iff {events : List Event} (valid : s.Valid)
    (ordinary : s.OrdinaryRun events) : s.FitsRun events ↔ s.RoomyRun events := by
  induction events generalizing s with
  | nil => exact Iff.rfl
  | cons e events ih =>
      rcases ordinary with ⟨first, rest⟩
      have same : ∀ t plan, s.planOf e = some (t, plan) → plan.operation ≠ .rebalance →
          (t.Fits plan ↔ t.Roomy plan.isInsert plan.cardinalityAfter) := by
        intro t plan made resizes
        rcases valid.planned first.admissible made with ⟨segment, _, ready, planned⟩
        exact ready.fits_iff planned resizes
      constructor
      · rintro ⟨fits, later⟩
        have roomy := fun t plan made resizes =>
          (same t plan made resizes).mp (fits t plan made resizes)
        exact ⟨roomy, (ih (valid.perform first roomy) rest).mp later⟩
      · rintro ⟨roomy, later⟩
        have fits := fun t plan made resizes =>
          (same t plan made resizes).mpr (roomy t plan made resizes)
        exact ⟨fits, (ih (valid.perform first roomy) rest).mpr later⟩

/-- The new array is valid. -/
theorem Valid.create {storage : Storage} {pageSize : Nat} {densityBounds0 : DensityBounds}
    (configured : (Pma.create storage pageSize densityBounds0 outcome).Configured) :
    (Pma.create storage pageSize densityBounds0 outcome).Valid := by
  have positive := configured.segmentsPerExtent_pos
  have rewires := @Configured.usesRewiring_iff _ 1 configured
  have cutoff :
      1 ≤ (Pma.create storage pageSize densityBounds0 outcome).balancedThresholdsCutoff := by
    rw [balancedThresholdsCutoff]
    omega
  refine ⟨⟨configured, le_rfl, Or.inl ⟨⟨0, rfl⟩, cutoff⟩, ?_, ?_, ?_⟩, show 1 < 2 ^ 32 by decide,
    show 0 < 2 ^ 32 by decide, fun _ _ => Nat.zero_le _,
    fun several => absurd several (lt_irrefl 1), ?_⟩
  · change (if (Pma.create storage pageSize densityBounds0 outcome).usesRewiring 1 then some _
      else none).isSome = true ↔ _
    change _ ↔ (Pma.create storage pageSize densityBounds0 outcome).segmentsPerExtent ≤ 1
    rw [← rewires]
    by_cases uses : (Pma.create storage pageSize densityBounds0 outcome).usesRewiring 1
    · simp [uses]
    · simp [uses]
  · intro m same
    change (if (Pma.create storage pageSize densityBounds0 outcome).usesRewiring 1 then some _
      else none) = some m at same
    split_ifs at same
    cases same
    rfl
  · exact (decide_eq_false (not_lt.mpr cutoff)).symm
  · exact (Finset.sum_eq_zero fun _ _ => rfl).symm

end Step

/-- **The plans fit.** Along every run of ordinary events from a new array, the plans to
resize fit exactly when the requests are roomy. -/
theorem rebalancePlan_fits {storage : Storage} {pageSize : Nat} {densityBounds0 : DensityBounds}
    {outcome : Outcome} {events : List Event}
    (configured : (create storage pageSize densityBounds0 outcome).Configured)
    (ordinary : (create storage pageSize densityBounds0 outcome).OrdinaryRun events) :
    (create storage pageSize densityBounds0 outcome).FitsRun events ↔
      (create storage pageSize densityBounds0 outcome).RoomyRun events :=
  (Valid.create configured).fitsRun_iff ordinary

section Decide

variable {s : Pma}

instance (s : Pma) (e : Event) : Decidable (s.Admissible e) :=
  match e with
  | .insert _ _ => inferInstanceAs (Decidable (_ ∧ _))
  | .remove _ _ _ => inferInstanceAs (Decidable (_ ∧ _ ∧ _))

instance (s : Pma) (plan : RebalanceMetadata) (outcome : Outcome) :
    Decidable (s.Partitioned plan outcome) :=
  decidable_of_iff
    ((∀ i < plan.windowLength,
      1 ≤ outcome.quota i ∧ outcome.quota i ≤ s.storage.segmentCapacity) ∧
      ∑ i ∈ Finset.range plan.windowLength, (outcome.quota i : Int) = plan.cardinalityAfter)
    ⟨fun h => ⟨h.1, h.2⟩, fun h => ⟨h.quota, h.sum⟩⟩

instance (s : Pma) (e : Event) : Decidable (s.Ordinary e) :=
  decidable_of_iff
    (s.Admissible e ∧ ∀ made ∈ s.planOf e,
      (made.2.operation ≠ .rebalance → made.2.windowLength ≤ made.2.cardinalityAfter ∧
        made.2.cardinalityAfter ≤ made.2.windowLength * made.1.storage.segmentCapacity) →
      made.1.Partitioned made.2 e.outcome)
    ⟨fun h => ⟨h.1, fun t plan made => h.2 (t, plan) made⟩,
      fun h => ⟨h.admissible, fun made same => h.partitioned made.1 made.2 same⟩⟩

instance (s : Pma) (events : List Event) : Decidable (s.OrdinaryRun events) :=
  decideRun s events
where
  decideRun (s : Pma) : (events : List Event) → Decidable (s.OrdinaryRun events)
    | [] => inferInstanceAs (Decidable True)
    | e :: events =>
      have := decideRun (s.perform e) events
      inferInstanceAs (Decidable (s.Ordinary e ∧ (s.perform e).OrdinaryRun events))

end Decide

/-- A new array of segments of 32 elements, with pages of 4096 bytes. -/
def small (densityBounds0 : DensityBounds) : Pma :=
  create
    { keys := fun _ => 0, values := fun _ => 0, segmentSizes := fun _ => 0
      segmentCapacity := 32, cardinality := 0, numberSegments := 1, pagesPerExtent := 1 }
    4096 densityBounds0 ⟨fun _ => 0, 0⟩

theorem small_configured (densityBounds0 : DensityBounds) : (small densityBounds0).Configured :=
  ⟨⟨5, le_rfl, show 32 = 2 ^ 5 by decide⟩, ⟨0, show 1 = 2 ^ 0 by decide⟩,
    ⟨12, show 4096 = 2 ^ 12 by decide⟩, ⟨16, show 4096 = 32 * 8 * 16 by decide⟩,
    show uint64 (1 * 4096 : Nat) ≠ 0 by decide⟩

/-- The elements are divided evenly over two segments. -/
def halves : Outcome where
  quota := fun i => if i = 0 then 17 else 16
  buffers := 0

/-- The array is filled until it has two segments, then the first of them, and an element is
removed from the second one. -/
def fillAndRemove : List Event :=
  List.replicate 33 (.insert 0 halves) ++ List.replicate 15 (.insert 0 halves) ++
    [.remove 1 0 ⟨fun _ => 0, 0⟩]

/-- The plan of the last event of a run. -/
theorem FitsRun.last {s : Pma} {events : List Event} {e : Event}
    (fits : s.FitsRun (events ++ [e])) (t : Pma) (plan : RebalanceMetadata)
    (made : (events.foldl perform s).planOf e = some (t, plan))
    (resizes : plan.operation ≠ .rebalance) : t.Fits plan := by
  induction events generalizing s with
  | nil => exact fits.1 t plan made resizes
  | cons first events ih => exact ih fits.2 made

/-- A run with two resizes: the array grows to two segments, and is halved when the second one
has too few elements. -/
def growAndShrink : List Event :=
  List.replicate 33 (.insert 0 halves) ++ [.remove 1 0 ⟨fun _ => 32, 0⟩]

theorem rebalancePlan_fits_two :
    (small .tight).FitsRun growAndShrink ↔ (small .tight).RoomyRun growAndShrink :=
  rebalancePlan_fits (small_configured .tight) (by decide +kernel)

/-- Where the lower density is more than a half, the array is halved with 47 elements, for
which there is no room in one segment of 32. -/
theorem rebalancePlan_fits_fails :
    ¬∀ (storage : Storage) (pageSize : Nat) (densityBounds0 : DensityBounds) (outcome : Outcome)
      (events : List Event), (create storage pageSize densityBounds0 outcome).Configured →
      (create storage pageSize densityBounds0 outcome).OrdinaryRun events →
      (create storage pageSize densityBounds0 outcome).FitsRun events := by
  intro claim
  have fits : (small .tight).FitsRun fillAndRemove :=
    claim _ _ .tight _ fillAndRemove (small_configured .tight) (by decide +kernel)
  have last : (((List.replicate 33 (Event.insert 0 halves) ++
      List.replicate 15 (Event.insert 0 halves)).foldl perform (small .tight)).planOf
        (Event.remove 1 0 ⟨fun _ => 0, 0⟩)).map
          (fun made => (made.2.operation, made.2.windowLength, made.2.cardinalityAfter,
            made.1.storage.segmentCapacity)) = some (.resize, 1, 47, 32) := by
    decide +kernel
  rcases Option.map_eq_some_iff.mp last with ⟨⟨t, plan⟩, made, same⟩
  simp only [Prod.mk.injEq] at same
  rcases same with ⟨operation, length, cardinality, capacity⟩
  have room := (fits.last t plan made (by rw [operation]; nofun)).room
  rw [length, cardinality, capacity] at room
  omega

end Pma

end Rma
