import Rma.ApmaBaseline.Partitions
import Rma.ApmaBaseline.Storage
import Rma.PmaImpl4.Multimap

/-!
# Insertions in the adaptive packed memory array

Between two insertions every segment has a free slot, and when there are several, at least a
quarter of the cells of each are occupied (`Balanced`). The window that is spread has a half that
was too dense to be spread alone: with the quarter of the other half, its elements are enough to
be divided by the thresholds of the halves, and those of the window are not too many.
-/

namespace Rma

open Base

namespace ApmaBaseline

open ApmaBh07 (Call)
open ApmaBh07.State (sumSizes sumSizes_add sumSizes_one sumSizes_le count_window)

variable {t : ApmaBaseline} {sizes : List Nat} {k segment : Nat} {w : Window}

/-! ## The window -/

theorem countLeft_eq (reads : ∀ i, t.storageGetSegmentCardinality i = sizes[i]?)
    (windowStart i num : Nat) :
    t.countLeft windowStart i num = ApmaBh07.State.countLeft sizes windowStart i num := by
  induction i generalizing num with
  | zero => rfl
  | succ i ih => simp only [countLeft, ApmaBh07.State.countLeft, reads, ih]

theorem countRight_eq (reads : ∀ i, t.storageGetSegmentCardinality i = sizes[i]?)
    (room i num : Nat) :
    t.countRight room i num = ApmaBh07.State.countRight sizes room i num := by
  induction room generalizing i num with
  | zero => rfl
  | succ room ih => simp only [countRight, ApmaBh07.State.countRight, reads, ih]

/-- The variables of the search after `k` turns. -/
structure Around (t : ApmaBaseline) (sizes : List Nat) (segment k : Nat) (w : Window) : Prop where
  height : w.height = k + 1
  windowLength : w.windowLength = 2 ^ k
  windowId : w.windowId = segment / 2 ^ k
  windowStart : w.windowStart = segment / 2 ^ k * 2 ^ k
  leftEnd : w.leftEnd = segment / 2 ^ k * 2 ^ k
  indexRight : w.indexRight = segment / 2 ^ k * 2 ^ k + 2 ^ k
  numElements : w.numElements = sumSizes sizes (segment / 2 ^ k * 2 ^ k) (2 ^ k)

/-- The window of a segment has no fewer elements than its upper threshold. -/
def Dense (t : ApmaBaseline) (sizes : List Nat) (segment k : Nat) : Prop :=
  4 * t.height * (t.segmentCapacity * 2 ^ k) ≤
    4 * t.height * sumSizes sizes (segment / 2 ^ k * 2 ^ k) (2 ^ k) +
      (k + 1) * (t.segmentCapacity * 2 ^ k)

/-- What the cells say about the search. -/
structure Searchable (t : ApmaBaseline) (sizes : List Nat) (segment : Nat) : Prop where
  reads : ∀ i, t.storageGetSegmentCardinality i = sizes[i]?
  length : sizes.length = 2 ^ (t.height - 1)
  full : sizes[segment]? = some t.segmentCapacity
  positive : 0 < t.segmentCapacity
  leaf : 1 ≤ t.height

/-- One turn doubles the window. -/
theorem Around.turn (around : t.Around sizes segment k w) (searchable : t.Searchable sizes segment)
    (low : k + 1 ≤ t.height - 1) : ∃ w', t.turn w = some w' ∧ t.Around sizes segment (k + 1) w' ∧
      (w'.density ≥ w'.theta ↔ t.Dense sizes segment (k + 1)) := by
  have inside := (List.getElem?_eq_some_iff.mp searchable.full).1
  have length := searchable.length
  have outer : segment / 2 ^ (k + 1) * 2 ^ (k + 1) + 2 ^ (k + 1) ≤ sizes.length := by
    rw [length] at inside ⊢
    exact aligned_inside inside low
  have half : segment / 2 ^ k / 2 = segment / 2 ^ (k + 1) := by
    rw [Nat.div_div_eq_div_mul, ← Nat.pow_succ]
  have double : 2 ^ k * 2 = 2 ^ (k + 1) := (Nat.pow_succ 2 k).symm
  obtain ⟨left, right, countL, countR, counted⟩ := count_window w.numElements outer
  have total := around.numElements
  have elements : right = sumSizes sizes (segment / 2 ^ (k + 1) * 2 ^ (k + 1)) (2 ^ (k + 1)) := by
    omega
  unfold ApmaBaseline.turn
  simp only [around.windowId, around.windowLength, half, double, around.leftEnd, around.indexRight,
    countLeft_eq searchable.reads, countRight_eq searchable.reads, countL, countR,
    Option.bind_eq_bind, Option.bind_some]
  refine ⟨_, rfl, ⟨?_, rfl, rfl, rfl, rfl, rfl, elements⟩, ?_⟩
  · simp only [around.height]
  · have cells : (0 : ℚ) < (2 ^ (k + 1) * t.segmentCapacity : Nat) := by
      exact_mod_cast Nat.mul_pos (Nat.two_pow_pos _) searchable.positive
    have root : (0 : ℚ) < 4 * t.height := by
      have : (0 : ℚ) < t.height := by exact_mod_cast searchable.leaf
      linarith
    have product : t.segmentCapacity * 2 ^ (k + 1) = 2 ^ (k + 1) * t.segmentCapacity :=
      Nat.mul_comm _ _
    simp only [around.height, storageThresholds_eq searchable.leaf, ge_iff_le, Dense, product]
    rw [div_le_div_iff₀ root cells, sub_mul, sub_le_iff_le_add, elements, mul_comm (Nat.cast _) (4 * _)]
    norm_cast

/-- The search ends with a window that is not dense, or with the array. The half of the window
with the segment is dense. -/
theorem Around.search (around : t.Around sizes segment k w)
    (searchable : t.Searchable sizes segment) (dense : t.Dense sizes segment k)
    (low : k + 1 ≤ t.height - 1) {turns : Nat} (enough : t.height - 1 - k ≤ turns) :
    ∃ k' w', t.search turns w = some w' ∧ t.Around sizes segment (k' + 1) w' ∧
      k' + 1 ≤ t.height - 1 ∧ t.Dense sizes segment k' ∧
      (w'.density ≥ w'.theta ↔ t.Dense sizes segment (k' + 1)) ∧
      (w'.density ≥ w'.theta → k' + 1 = t.height - 1) := by
  induction turns generalizing k w with
  | zero => omega
  | succ turns ih =>
      obtain ⟨w', turned, around', threshold⟩ := around.turn searchable low
      have height := around'.height
      rw [ApmaBaseline.search, turned]
      simp only [Option.bind_eq_bind, Option.bind_some]
      by_cases more : w'.density ≥ w'.theta ∧ w'.height < t.height
      · rw [if_pos more]
        exact ih around' (threshold.mp more.1) (by omega) (by omega)
      · rw [if_neg more]
        refine ⟨k, w', rfl, around', low, dense, threshold, fun above => ?_⟩
        by_contra other
        exact more ⟨above, by omega⟩

/-! ## The elements of the window -/

section Elements

variable {H S P card : Nat}

/-- A half of a window that is not the array leaves enough below its upper threshold for the
rounding of the lower one. -/
theorem margin (tall : 3 ≤ H) (wide : H < S) (leaf : 1 ≤ k) (low : k < H) :
    4 * H ≤ 3 * (S * 2 ^ (k - 1) * (H - k)) := by
  rcases Nat.lt_or_ge k 3 with small | large
  · interval_cases k
    · have least : 4 * (H - 1) ≤ S * 2 ^ (1 - 1) * (H - 1) := Nat.mul_le_mul_right _ (by omega)
      omega
    · have least : 8 * (H - 2) ≤ S * 2 ^ (2 - 1) * (H - 2) := Nat.mul_le_mul_right _ (by omega)
      omega
  · have power : 2 ^ 2 ≤ 2 ^ (k - 1) := Nat.pow_le_pow_right Nat.two_pos (by omega)
    have cells : S * 2 ^ 2 ≤ S * 2 ^ (k - 1) * (H - k) :=
      (Nat.mul_le_mul_left S power).trans (Nat.le_mul_of_pos_right _ (by omega))
    omega

/-- A dense half and a quarter of the other one are enough for the lower thresholds. -/
theorem enough_of_dense (low : k < H) (margin : 4 * H ≤ 3 * (P * (H - k)))
    (dense : 5 * (H * P) ≤ 4 * (H * card) + k * P) : (H + k) * P ≤ 4 * H * (card / 2) := by
  obtain ⟨m, rfl⟩ := Nat.exists_eq_add_of_lt low
  have rest : P * (k + m + 1 - k) = (m + 1) * P := by
    rw [show k + m + 1 - k = m + 1 by omega, Nat.mul_comm]
  have half : (k + m + 1) * card ≤ (k + m + 1) * (2 * (card / 2) + 1) :=
    Nat.mul_le_mul_left _ (by omega)
  have expand : (k + m + 1) * (2 * (card / 2) + 1) =
      2 * ((k + m + 1) * (card / 2)) + (k + m + 1) := by ring
  have product : 4 * (k + m + 1) * (card / 2) = 4 * ((k + m + 1) * (card / 2)) := by ring
  have split : (k + m + 1) * P = k * P + (m + 1) * P := by ring
  have split' : (k + m + 1 + k) * P = 2 * (k * P) + (m + 1) * P := by ring
  rw [rest] at margin
  rw [expand] at half
  rw [split] at dense
  rw [product, split']
  omega

/-- A window below its upper threshold has two free slots for each segment of a half. -/
theorem room_of_sparse (wide : H < S) (leaf : 1 ≤ k)
    (sparse : 4 * H * card + (k + 1) * (2 * (S * 2 ^ (k - 1))) < 4 * H * (2 * (S * 2 ^ (k - 1)))) :
    card + 2 * 2 ^ (k - 1) ≤ 2 * (S * 2 ^ (k - 1)) := by
  have positive : 0 < 2 ^ (k - 1) := Nat.two_pow_pos _
  have enough : card ≤ 2 * (S * 2 ^ (k - 1)) := by
    by_contra more
    have := Nat.mul_le_mul_left (4 * H) (Nat.le_of_not_le more)
    omega
  obtain ⟨d, whole⟩ := Nat.exists_eq_add_of_le enough
  have split : 4 * H * (2 * (S * 2 ^ (k - 1))) = 4 * H * card + 4 * H * d := by
    rw [whole, Nat.mul_add]
  -- the free slots, compared with the height
  have slots : (k + 1) * (2 * (H * 2 ^ (k - 1))) < 4 * H * d := by
    have cells : (k + 1) * (2 * (H * 2 ^ (k - 1))) ≤ (k + 1) * (2 * (S * 2 ^ (k - 1))) :=
      Nat.mul_le_mul_left _ (Nat.mul_le_mul_left _ (Nat.mul_le_mul_right _ wide.le))
    omega
  have slots' : H * ((k + 1) * 2 ^ (k - 1)) < H * (2 * d) := by
    have left : (k + 1) * (2 * (H * 2 ^ (k - 1))) = 2 * (H * ((k + 1) * 2 ^ (k - 1))) := by ring
    have right : 4 * H * d = 2 * (H * (2 * d)) := by ring
    omega
  have free := Nat.lt_of_mul_lt_mul_left slots'
  have both : 2 * 2 ^ (k - 1) ≤ d := by
    rcases Nat.lt_or_ge k 3 with small | large
    · interval_cases k <;> omega
    · have := Nat.mul_le_mul_right (2 ^ (k - 1)) (show 4 ≤ k + 1 by omega)
      omega
  omega

end Elements

/-! ## The invariant -/

/-- A window can be spread, whatever the weights are: the range of every split is in order, neither
its greatest fill nor the cardinality on its right wraps, and the partitions give its elements to
its segments, at least one to each and one fewer than it has cells at most. -/
structure Feasible (t : ApmaBaseline) (balance : Balance) (weights : Weights) (w : Window) :
    Prop where
  inRange : ∀ c, t.Reaches balance weights
    (firstCall weights w.height w.numElements w.windowStart w.windowLength) c → Uneven c →
      t.InRange balance weights c
  counted : w.numElements = (((occupied t.elements).drop (w.windowStart * t.segmentCapacity)).take
    (w.windowLength * t.segmentCapacity)).count true
  divided : ∃ partitions, t.apmaPartitions balance weights w.height w.numElements w.windowStart
      w.windowLength = some partitions ∧ partitions.length = w.windowLength ∧
    partitions.sum = w.numElements ∧ ∀ q ∈ partitions, 1 ≤ q ∧ q ≤ t.segmentCapacity - 1

/-- What the fields of an array say of its shape. -/
structure Shape (t : ApmaBaseline) : Prop where
  power : ∃ e, 3 ≤ e ∧ t.capacity = 2 ^ e
  small : t.capacity ≤ maxElements
  leaf : 1 ≤ t.height
  several : 2 ≤ t.segmentCapacity
  tall : t.height ≠ 1 → t.Tall

/-- The cells and the number of the elements do not matter to the shape. -/
theorem Shape.congr {u : ApmaBaseline} (shape : t.Shape) (capacity : u.capacity = t.capacity)
    (segmentCapacity : u.segmentCapacity = t.segmentCapacity) (height : u.height = t.height) :
    u.Shape := by
  refine ⟨?_, ?_, ?_, ?_, fun single => ?_⟩
  · rw [capacity]
    exact shape.power
  · rw [capacity]
    exact shape.small
  · rw [height]
    exact shape.leaf
  · rw [segmentCapacity]
    exact shape.several
  · have tall := shape.tall (height ▸ single)
    refine ⟨?_, ?_, ?_, ?_, ?_⟩
    · rw [segmentCapacity]
      exact tall.quarter
    · rw [segmentCapacity]
      exact tall.small
    · rw [height]
      exact tall.height
    · rw [height, segmentCapacity]
      exact tall.wide
    · rw [height, segmentCapacity]
      exact tall.cells

/-- The invariant, but for a free slot in every segment. -/
structure Loaded (t : ApmaBaseline) (sizes : List Nat) : Prop where
  shape : t.Shape
  laid : t.Laid sizes
  length : sizes.length = 2 ^ (t.height - 1)
  cardinality : t.cardinality = sizes.sum
  quarter : t.height ≠ 1 → ∀ n ∈ sizes, t.segmentCapacity / 4 ≤ n

/-- The invariant between two insertions. -/
structure Balanced (t : ApmaBaseline) (sizes : List Nat) : Prop extends Loaded t sizes where
  free : ∀ n ∈ sizes, n < t.segmentCapacity

/-- An array with the elements of another one. -/
structure Same (u t : ApmaBaseline) : Prop where
  contents : contents u.elements = contents t.elements
  cardinality : u.cardinality = t.cardinality

section Invariant

variable {t u : ApmaBaseline} {sizes : List Nat} {balance : Balance} {weights : Weights}

/-- The segments of an array with elements are not empty. -/
theorem Loaded.filled (loaded : t.Loaded sizes) (stored : t.cardinality ≠ 0) :
    ∀ n ∈ sizes, 1 ≤ n := by
  intro n member
  by_cases single : t.height = 1
  · have length := loaded.length
    rw [single] at length
    obtain ⟨m, rfl⟩ := List.length_eq_one_iff.mp length
    have sum := loaded.cardinality
    rw [List.mem_singleton] at member
    simp only [List.sum_singleton] at sum
    omega
  · have least := loaded.quarter single n member
    have tall := loaded.shape.tall single
    have quarter := tall.quarter
    have wide := tall.wide
    omega

theorem create_balanced : create.Balanced [0] := by
  have eight : hyperceil storageMinCapacity = 8 := by decide +kernel
  refine ⟨⟨⟨⟨3, le_rfl, ?_⟩, ?_, le_rfl, ?_, fun several => absurd rfl several⟩, ⟨?_, ?_, ?_⟩, rfl,
    rfl, fun several => absurd rfl several⟩, ?_⟩
  · exact eight
  · change hyperceil storageMinCapacity ≤ maxElements
    rw [eight]
    decide
  · change 2 ≤ hyperceil storageMinCapacity
    omega
  · change occupied (List.replicate (hyperceil storageMinCapacity) erasedCell) =
      layout (hyperceil storageMinCapacity) [0]
    rw [eight]
    decide
  · intro n member
    rw [List.mem_singleton.mp member]
    exact Nat.zero_le _
  · exact (Nat.one_mul _).symm
  · intro n member
    rw [List.mem_singleton.mp member]
    change 0 < hyperceil storageMinCapacity
    omega

/-- A resize of an array that is at least three quarters full. -/
theorem Loaded.resize (loaded : t.Loaded sizes) (stored : t.cardinality ≠ 0)
    (dense : 3 * t.capacity ≤ 4 * t.cardinality) (small : t.capacity * 2 ≤ maxElements) :
    ∃ u sizes', t.storageResize = some u ∧ u.Balanced sizes' ∧ u.Same t := by
  obtain ⟨e, least, capacity⟩ := loaded.shape.power
  have doubled : t.capacity * 2 = 2 ^ (e + 1) := by rw [capacity, pow_succ]
  have exponent : e + 1 ≤ 58 := by
    by_contra large
    have bound := Nat.pow_le_pow_right Nat.two_pos (show 59 ≤ e + 1 by omega)
    rw [← doubled] at bound
    unfold maxElements at small
    omega
  have enough := PmaImpl4.clog_add_two_le (K := e + 1) (by omega)
  have long := Nat.le_pow_clog (b := 2) (by omega) (e + 1)
  have low : Nat.clog 2 (e + 1) ≤ 6 := Nat.clog_le_of_le_pow (by omega)
  have size : hyperceil (Nat.log 2 (t.capacity * 2)) = 2 ^ Nat.clog 2 (e + 1) := by
    rw [hyperceil, doubled, Nat.log_pow (by omega)]
  generalize Nat.clog 2 (e + 1) = s at *
  have two : 2 ≤ s := by
    by_contra small
    have := Nat.pow_le_pow_right (n := 2) (by omega) (show s ≤ 1 by omega)
    omega
  have split : 2 ^ (e + 1) = 2 ^ (e + 1 - s) * 2 ^ s := by
    rw [← pow_add]
    congr 1
    omega
  obtain ⟨q, fourth⟩ : ∃ q, 2 ^ s = 4 * q := ⟨2 ^ (s - 2), by
    rw [show (4 : Nat) = 2 ^ 2 from rfl, ← pow_add]
    congr 1
    omega⟩
  have positive : 0 < 2 ^ s := Nat.two_pow_pos _
  have nonempty : 0 < 2 ^ (e + 1 - s) := Nat.two_pow_pos _
  have most : t.cardinality ≤ t.capacity := by
    have count := count_layout t.segmentCapacity sizes
    rw [← loaded.laid.cells] at count
    rw [loaded.cardinality, ← count, ← loaded.laid.length]
    exact List.count_le_length
  have whole : t.capacity * 2 = 4 * (2 ^ (e + 1 - s) * q) := by
    rw [doubled, split, fourth]
    ring
  have room : t.cardinality ≤ 2 ^ (e + 1 - s) * (2 ^ s - 1) := by
    have cells : 2 ^ (e + 1 - s) * (2 * q) ≤ 2 ^ (e + 1 - s) * (2 ^ s - 1) :=
      Nat.mul_le_mul_left _ (by omega)
    have half : 2 ^ (e + 1 - s) * (2 * q) = 2 * (2 ^ (e + 1 - s) * q) := by ring
    omega
  have lower : 2 ^ (e + 1 - s) * (2 ^ s / 4) ≤ t.cardinality := by
    rw [fourth, Nat.mul_div_cancel_left q (by omega)]
    omega
  obtain ⟨u, done, laid, same, capacity', segmentCapacity, height, cardinality⟩ :=
    loaded.laid.resize (loaded.filled stored) (by have := loaded.shape.several; omega)
      loaded.cardinality small size (doubled.trans split) positive nonempty
      (room.trans (Nat.mul_le_mul_left _ (Nat.sub_le _ _)))
  rw [Nat.log_pow (by omega)] at height
  have tall : u.Tall := by
    refine ⟨?_, ?_, by omega, by omega, ?_⟩
    · rw [segmentCapacity, fourth, Nat.mul_div_cancel_left q (by omega)]
    · rw [segmentCapacity]
      calc 2 ^ s ≤ 2 ^ 6 := Nat.pow_le_pow_right Nat.two_pos low
        _ = 64 := rfl
    · rw [segmentCapacity, height, Nat.add_sub_cancel, Nat.mul_comm, ← split, ← doubled]
      exact small
  refine ⟨u, _, done, ⟨⟨⟨⟨e + 1, by omega, capacity'.trans doubled⟩, by omega, by omega, by omega,
    fun _ => tall⟩, laid, ?_, ?_, ?_⟩, ?_⟩, same, cardinality⟩
  · rw [List.length_map, List.length_range, height, Nat.add_sub_cancel]
  · rw [sum_evenSize nonempty, cardinality]
  · intro _ n member
    obtain ⟨j, -, rfl⟩ := List.mem_map.mp member
    rw [segmentCapacity]
    exact le_evenSize lower nonempty
  · intro n member
    obtain ⟨j, -, rfl⟩ := List.mem_map.mp member
    have := evenSize_le (j := j) room nonempty
    omega

/-- The elements of some segments, a quarter of the cells of each at least. -/
theorem quarter_sum (quarter : ∀ n ∈ sizes, k ≤ n) {a m : Nat} (inside : a + m ≤ sizes.length) :
    m * k ≤ sumSizes sizes a m := by
  have least := List.card_nsmul_le_sum ((sizes.drop a).take m) k fun n member =>
    quarter n (List.mem_of_mem_drop (List.mem_of_mem_take member))
  rw [List.length_take, List.length_drop, Nat.min_eq_left (by omega)] at least
  exact least

/-- The window that is to be spread can be divided. -/
theorem Loaded.fed (loaded : t.Loaded sizes) (single : t.height ≠ 1)
    (around : t.Around sizes segment (k + 1) w) (inside : segment < sizes.length)
    (low : k + 1 ≤ t.height - 1) (dense : t.Dense sizes segment k)
    (sparse : ¬t.Dense sizes segment (k + 1)) :
    t.Fed (firstCall weights w.height w.numElements w.windowStart w.windowLength) := by
  have tall := loaded.shape.tall single
  have tallest := tall.height
  have length := loaded.length
  have quarters := loaded.quarter single
  have double : 2 ^ (k + 1) = 2 * 2 ^ k := by rw [pow_succ, Nat.mul_comm]
  have outer : segment / 2 ^ (k + 1) * 2 ^ (k + 1) + 2 ^ (k + 1) ≤ sizes.length := by
    rw [length] at inside ⊢
    exact aligned_inside inside low
  have height := around.height
  have segments := around.windowLength
  have elements := around.numElements
  have window : t.segmentCapacity * 2 ^ (k + 1) = 2 * (t.segmentCapacity * 2 ^ k) := by
    rw [double]
    ring
  have fourth := tall.cells_eq (2 ^ k)
  -- the other half has a quarter of its cells occupied
  have sibling : sumSizes sizes (segment / 2 ^ k * 2 ^ k) (2 ^ k) +
      2 ^ k * (t.segmentCapacity / 4) ≤ w.numElements := by
    have halves := aligned_halves segment k
    have parts := sumSizes_add sizes (segment / 2 ^ (k + 1) * 2 ^ (k + 1)) (2 ^ k) (2 ^ k)
    rw [← Nat.two_mul, ← double, ← elements] at parts
    rcases halves with left | right
    · have least := quarter_sum quarters (a := segment / 2 ^ k * 2 ^ k + 2 ^ k) (m := 2 ^ k)
        (by omega)
      rw [← left] at parts
      omega
    · have least := quarter_sum quarters (a := segment / 2 ^ (k + 1) * 2 ^ (k + 1)) (m := 2 ^ k)
        (by omega)
      rw [← right] at parts
      omega
  have enough : 5 * (t.height * (t.segmentCapacity * 2 ^ k)) ≤
      4 * (t.height * w.numElements) + (k + 1) * (t.segmentCapacity * 2 ^ k) := by
    have more := Nat.mul_le_mul_left (4 * t.height) sibling
    have product : 4 * t.height * (sumSizes sizes (segment / 2 ^ k * 2 ^ k) (2 ^ k) +
        2 ^ k * (t.segmentCapacity / 4)) =
          4 * t.height * sumSizes sizes (segment / 2 ^ k * 2 ^ k) (2 ^ k) +
            t.height * (4 * (2 ^ k * (t.segmentCapacity / 4))) := by ring
    have product' : 4 * t.height * w.numElements = 4 * (t.height * w.numElements) := by ring
    have product'' : 4 * t.height * (t.segmentCapacity * 2 ^ k) =
        4 * (t.height * (t.segmentCapacity * 2 ^ k)) := by ring
    unfold Dense at dense
    rw [← fourth] at product
    omega
  unfold Dense at sparse
  rw [not_le, window, ← elements] at sparse
  have room := room_of_sparse (k := k + 1) tall.wide (by omega) (by
    rw [Nat.add_sub_cancel]
    exact sparse)
  rw [Nat.add_sub_cancel] at room
  have margin := margin tallest tall.wide (show 1 ≤ k + 1 by omega) (by omega)
  obtain ⟨wide, wider⟩ := tall.wider (k + 1)
  rw [Nat.add_sub_cancel] at margin wide wider
  have cells := tall.room_eq (2 * 2 ^ k)
  have cells' : t.segmentCapacity * (2 * 2 ^ k) = 2 * (t.segmentCapacity * 2 ^ k) := by ring
  refine ⟨?_, ?_, ?_, ?_, ?_, fun _ => ?_⟩
  · simp only [firstCall]
    omega
  · simp only [firstCall]
    omega
  · simp only [firstCall, segments, height, Nat.add_sub_cancel]
  · simp only [firstCall, segments]
    rw [elements]
    exact quarter_sum quarters outer
  · simp only [firstCall, segments, double]
    omega
  · refine tall.divisible (k := k + 1) ?_ ?_ ?_ ?_ (by omega)
    · simp only [firstCall]
      omega
    · simp only [firstCall, Nat.add_sub_cancel]
      exact enough_of_dense (by omega) margin enough
    · simp only [firstCall, Nat.add_sub_cancel]
      exact halves_upper (by omega) (by omega) wide wider sparse.le
    · simp only [firstCall, Nat.add_sub_cancel]
      exact room

/-- The window that a rebalance decides on: it is dense, and then the array is, or it can be
divided. -/
theorem Loaded.findWindow (loaded : t.Loaded sizes) (stored : t.cardinality ≠ 0)
    (full : sizes[segment]? = some t.segmentCapacity) : ∃ w, t.findWindow segment = some w ∧
      (w.density ≥ w.theta ∧ 3 * t.capacity ≤ 4 * t.cardinality ∨
        ¬w.density ≥ w.theta ∧ t.height ≠ 1 ∧ ∃ k, t.Around sizes segment (k + 1) w ∧
          k + 1 ≤ t.height - 1 ∧ t.Dense sizes segment k ∧ ¬t.Dense sizes segment (k + 1)) := by
  have inside := (List.getElem?_eq_some_iff.mp full).1
  have length := loaded.length
  have leaf := loaded.shape.leaf
  have several := loaded.shape.several
  have capacity := loaded.laid.capacity
  unfold ApmaBaseline.findWindow
  by_cases single : t.height = 1
  · rw [if_neg (by omega)]
    refine ⟨_, rfl, .inl ⟨?_, ?_⟩⟩
    · simp only [firstWindow, t0]
      norm_num
    · rw [single] at length
      obtain ⟨n, rfl⟩ := List.length_eq_one_iff.mp length
      obtain rfl : segment = 0 := by simpa using inside
      have whole : n = t.segmentCapacity := by simpa using full
      rw [loaded.cardinality, capacity, whole]
      simp only [List.length_singleton, List.sum_singleton]
      omega
  · have searchable : t.Searchable sizes segment :=
      ⟨loaded.laid.getSegmentCardinality several (loaded.filled stored), length, full, by omega, leaf⟩
    have tall := loaded.shape.tall single
    have height := tall.height
    have alone := sumSizes_one full
    have first : t.Around sizes segment 0 (t.firstWindow segment) := by
      constructor <;> simp [firstWindow, alone]
    have dense : t.Dense sizes segment 0 := by simp [Dense, alone]
    obtain ⟨k, w, found, around, low, half, threshold, root⟩ :=
      first.search searchable dense (by omega) (show t.height - 1 - 0 ≤ t.height by omega)
    rw [if_pos (by omega)]
    refine ⟨w, found, ?_⟩
    by_cases above : w.density ≥ w.theta
    · refine .inl ⟨above, ?_⟩
      have whole := threshold.mp above
      have start : segment / 2 ^ (t.height - 1) = 0 := Nat.div_eq_of_lt (length ▸ inside)
      have all : sumSizes sizes 0 (2 ^ (t.height - 1)) = t.cardinality := by
        rw [sumSizes, List.drop_zero, ← length, List.take_length, loaded.cardinality]
      rw [Dense, root above, start, Nat.zero_mul, all, Nat.sub_add_cancel leaf, ← length,
        Nat.mul_comm t.segmentCapacity, ← capacity] at whole
      have product : t.height * (3 * t.capacity) ≤ t.height * (4 * t.cardinality) := by
        have left : 4 * t.height * t.capacity = t.height * (3 * t.capacity) + t.height * t.capacity :=
          by ring
        have right : 4 * t.height * t.cardinality = t.height * (4 * t.cardinality) := by ring
        omega
      exact Nat.le_of_mul_le_mul_left product leaf
    · exact .inr ⟨above, single, k, around, low, half, fun more => above (threshold.mpr more)⟩

/-- The window of a spread is feasible, and the spread leaves a free slot in every segment. -/
theorem Loaded.spread (loaded : t.Loaded sizes) (balance : Balance) (weights : Weights)
    (stored : t.cardinality ≠ 0) (full : sizes[segment]? = some t.segmentCapacity)
    (others : ∀ j n, j ≠ segment → sizes[j]? = some n → n < t.segmentCapacity)
    (single : t.height ≠ 1) (around : t.Around sizes segment (k + 1) w) (low : k + 1 ≤ t.height - 1)
    (dense : t.Dense sizes segment k) (sparse : ¬t.Dense sizes segment (k + 1)) :
    t.Feasible balance weights w ∧ ∃ u partitions sizes',
      t.apmaPartitions balance weights w.height w.numElements w.windowStart w.windowLength =
        some partitions ∧
      t.storageSpread partitions w.windowStart w.windowLength = some u ∧ u.Balanced sizes' ∧
        u.Same t := by
  have tall := loaded.shape.tall single
  have inside := (List.getElem?_eq_some_iff.mp full).1
  have length := loaded.length
  have fits := loaded.laid.fits
  have fed : t.Fed (firstCall weights w.height w.numElements w.windowStart w.windowLength) :=
    loaded.fed single around inside low dense sparse
  obtain ⟨partitions, done, quotas⟩ := apmaPartitions_eq balance tall fed
  have count : partitions.length = w.windowLength := quotas.length
  have sum : partitions.sum = w.numElements := quotas.sum
  have least := quotas.least
  have most := quotas.most
  have positive : 1 ≤ t.segmentCapacity / 4 := by
    have quarter := tall.quarter
    have wide := tall.wide
    omega
  have start := around.windowStart
  have long := around.windowLength
  have elements := around.numElements
  rw [← start, ← long] at elements
  have outer : w.windowStart + w.windowLength ≤ sizes.length := by
    rw [start, long]
    rw [length] at inside ⊢
    exact aligned_inside inside low
  have several := loaded.shape.several
  obtain ⟨u, spread, laid, same, capacity, segmentCapacity, height, cardinality⟩ :=
    loaded.laid.spread (loaded.filled stored) (by omega) outer count
      (fun q member => (most q member).trans (Nat.sub_le _ _)) (sum.trans elements)
  refine ⟨⟨fun c reaches uneven => ((fed.reaches tall reaches).children tall uneven).1, ?_,
    partitions, done, count, sum, fun q member => ⟨positive.trans (least q member), most q member⟩⟩,
    u, partitions, _, done, spread, ⟨⟨loaded.shape.congr capacity segmentCapacity height, laid, ?_,
      ?_, ?_⟩, ?_⟩, same, cardinality⟩
  · have window : w.windowLength ≤ (sizes.drop w.windowStart).length := by
      rw [List.length_drop]
      omega
    rw [loaded.laid.cells, layout_drop fits (by omega),
      layout_take (fun n member => fits n (List.mem_of_mem_drop member)) window, count_layout]
    exact elements
  · rw [height, ← length]
    simp only [List.length_append, List.length_take, List.length_drop, count]
    omega
  · -- the window has as many elements as before
    have parts := congrArg List.sum (List.take_append_drop w.windowStart sizes)
    have parts' := congrArg List.sum
      (List.take_append_drop w.windowLength (sizes.drop w.windowStart))
    rw [List.drop_drop] at parts'
    unfold sumSizes at elements
    simp only [List.sum_append] at parts parts' ⊢
    rw [cardinality, loaded.cardinality, sum]
    omega
  · intro _ n member
    rw [segmentCapacity]
    rw [List.append_assoc, List.mem_append, List.mem_append] at member
    rcases member with front | part | back
    · exact loaded.quarter single n (List.mem_of_mem_take front)
    · exact least n part
    · exact loaded.quarter single n (List.mem_of_mem_drop back)
  · have window : w.windowStart ≤ segment ∧ segment < w.windowStart + w.windowLength := by
      rw [start, long]
      exact ⟨Nat.div_mul_le_self _ _, Nat.lt_div_mul_add (Nat.two_pow_pos _)⟩
    intro n member
    rw [segmentCapacity]
    rw [List.append_assoc, List.mem_append, List.mem_append] at member
    rcases member with front | part | back
    · obtain ⟨j, read⟩ := List.mem_iff_getElem?.mp front
      have before := (List.getElem?_eq_some_iff.mp read).1
      rw [List.length_take] at before
      rw [List.getElem?_take_of_lt (by omega)] at read
      exact others j n (by omega) read
    · have := most n part
      omega
    · obtain ⟨j, read⟩ := List.mem_iff_getElem?.mp back
      rw [List.getElem?_drop] at read
      exact others _ n (by omega) read

/-- A rebalance leaves a free slot in every segment. -/
theorem Loaded.rebalance (loaded : t.Loaded sizes) (balance : Balance) (weights : Weights)
    (stored : t.cardinality ≠ 0) (full : sizes[segment]? = some t.segmentCapacity)
    (others : ∀ j n, j ≠ segment → sizes[j]? = some n → n < t.segmentCapacity) {indexInsert : Nat}
    (located : indexInsert / t.segmentCapacity = segment) :
    (∀ w, t.findWindow segment = some w → ¬w.density ≥ w.theta → t.Feasible balance weights w) ∧
      (∀ u, t.storageRebalance balance weights indexInsert = some u →
        (∃ sizes', u.Balanced sizes') ∧ u.Same t) ∧
      (t.capacity * 2 ≤ maxElements →
        ∃ u, t.storageRebalance balance weights indexInsert = some u) := by
  have several := loaded.shape.several
  have isFull := loaded.laid.isSegmentFull full (by omega)
  rw [decide_eq_true rfl] at isFull
  obtain ⟨w, found, ⟨above, dense⟩ | ⟨below, single, k, around, low, half, sparse⟩⟩ :=
    loaded.findWindow stored full
  · have rebalance : t.storageRebalance balance weights indexInsert = t.storageResize := by
      unfold storageRebalance
      simp only [located, isFull, found, Option.bind_eq_bind, Option.bind_some, if_true]
      rw [if_pos above]
    refine ⟨fun w' found' below => ?_, fun u done => ?_, fun small => ?_⟩
    · rw [found, Option.some.injEq] at found'
      exact absurd (found' ▸ above) below
    · rw [rebalance] at done
      have small : t.capacity * 2 ≤ maxElements := by
        by_contra large
        rw [storageResize, if_pos (by omega)] at done
        cases done
      obtain ⟨u', sizes', done', balanced, same⟩ := loaded.resize stored dense small
      rw [done, Option.some.injEq] at done'
      exact done' ▸ ⟨⟨sizes', balanced⟩, same⟩
    · obtain ⟨u, sizes', done, -⟩ := loaded.resize stored dense small
      exact ⟨u, rebalance.trans done⟩
  · obtain ⟨feasible, u, partitions, sizes', divided, spread, balanced, same⟩ :=
      loaded.spread balance weights stored full others single around low half sparse
    have rebalance : t.storageRebalance balance weights indexInsert = some u := by
      unfold storageRebalance
      simp only [located, isFull, found, Option.bind_eq_bind, Option.bind_some, if_true]
      rw [if_neg below, divided]
      exact spread
    refine ⟨fun w' found' _ => ?_, fun u' done => ?_, fun _ => ⟨u, rebalance⟩⟩
    · rw [found, Option.some.injEq] at found'
      exact found' ▸ feasible
    · rw [rebalance, Option.some.injEq] at done
      exact done ▸ ⟨⟨sizes', balanced⟩, same⟩

end Invariant

end ApmaBaseline

end Rma
