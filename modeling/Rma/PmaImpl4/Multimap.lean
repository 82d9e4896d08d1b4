import Rma.PmaImpl4.Segments
import Rma.Base.Runs

/-!
# The plain packed memory array is a sorted multimap

`searchSegment_spec` follows the binary search: a lower bound of zero only meets upper bounds
that are two less than a power of two, or one less at the start, so that its pivot is never
zero. `around_turn` follows the windows of a rebalance up the tree.

`Loaded` is the invariant up to one full segment, and `Valid` holds between two insertions:
every segment has a free slot. A spread leaves one because the height of the tree is at most
the capacity of a segment (`window_room`), and a resize because it halves the density.
-/

namespace Rma

open Base

namespace PmaImpl4

variable {t u : PmaImpl4} {i j n : Nat} {e x : Int × Int} {key : Int}

/-! ## The elements of the segments -/

theorem mem_contents : x ∈ t.contents ↔ ∃ i < t.getNumSegments, x ∈ t.part i := by
  simp [contents, parts, List.mem_flatten]

/-- The elements before a segment, in it and after it. -/
theorem contents_split (inside : i < t.getNumSegments) :
    t.contents = (t.parts.take i).flatten ++ t.part i ++ (t.parts.drop (i + 1)).flatten := by
  have inside' : i < t.parts.length := by rwa [length_parts]
  have split := List.take_append_drop i t.parts
  rw [List.drop_eq_getElem_cons inside', getElem_parts] at split
  rw [contents]
  conv_lhs => rw [← split]
  simp

theorem mem_take_parts {l : List (Int × Int)} (member : l ∈ t.parts.take i) :
    ∃ j < i, j < t.getNumSegments ∧ l = t.part j := by
  obtain ⟨j, inside, rfl⟩ := List.mem_take_iff_getElem.mp member
  rw [length_parts] at inside
  exact ⟨j, by omega, by omega, getElem_parts _⟩

theorem mem_drop_parts {l : List (Int × Int)} (member : l ∈ t.parts.drop i) :
    ∃ j, i ≤ j ∧ j < t.getNumSegments ∧ l = t.part j := by
  obtain ⟨j, inside, rfl⟩ := List.mem_drop_iff_getElem.mp member
  rw [length_parts] at inside
  exact ⟨i + j, by omega, by omega, getElem_parts _⟩

theorem part_sorted (sorted : SortedPairs t.contents) (inside : i < t.getNumSegments) :
    SortedPairs (t.part i) := by
  have parts := (List.pairwise_flatten.mp sorted).1
  exact parts (t.part i) (List.mem_map.mpr ⟨i, List.mem_range.mpr inside, rfl⟩)

theorem part_le (sorted : SortedPairs t.contents) (lt : i < j) (inside : j < t.getNumSegments)
    {y : Int × Int} (memX : x ∈ t.part i) (memY : y ∈ t.part j) : x.1 ≤ y.1 := by
  have ordered := (List.pairwise_flatten.mp sorted).2
  have both := List.pairwise_iff_getElem.mp ordered i j (by rw [length_parts]; omega)
    (by rw [length_parts]; omega) lt
  rw [getElem_parts, getElem_parts] at both
  exact both x memX y memY

theorem first_mem (nonempty : 0 < t.segments i) :
    t.elements (i * t.segmentCapacity) ∈ t.part i :=
  mem_readCells.mpr ⟨_, le_rfl, by omega, rfl⟩

theorem last_mem (nonempty : 0 < t.segments i) :
    t.elements (i * t.segmentCapacity + t.segments i - 1) ∈ t.part i :=
  mem_readCells.mpr ⟨_, by omega, by omega, rfl⟩

theorem first_le (sorted : SortedPairs (t.part i)) (member : x ∈ t.part i) :
    (t.elements (i * t.segmentCapacity)).1 ≤ x.1 := by
  have nonempty : 0 < t.segments i := by
    rw [← length_part]
    exact List.length_pos_of_mem member
  obtain ⟨k, rest⟩ := Nat.exists_eq_add_of_lt nonempty
  rw [part, rest, Nat.zero_add, readCells_succ] at sorted member
  exact sorted.head_le x member

theorem le_last (sorted : SortedPairs (t.part i)) (member : x ∈ t.part i) :
    x.1 ≤ (t.elements (i * t.segmentCapacity + t.segments i - 1)).1 := by
  have nonempty : 0 < t.segments i := by
    rw [← length_part]
    exact List.length_pos_of_mem member
  obtain ⟨k, rest⟩ := Nat.exists_eq_add_of_lt nonempty
  rw [part, rest, Nat.zero_add, readCells_add] at sorted member
  rw [rest, show i * t.segmentCapacity + (0 + k + 1) - 1 = i * t.segmentCapacity + k by omega]
  rcases List.mem_append.mp member with before | last
  · exact (SortedPairs.append_iff.mp sorted).2.2 x before _ (by simp [readCells])
  · have same : x = t.elements (i * t.segmentCapacity + k) := by simpa [readCells] using last
    rw [same]

/-! ## Find -/

/-- The segment of a key: the key may be inserted there, and is there if it is stored. -/
structure Located (t : PmaImpl4) (key : Int) (i : Nat) : Prop where
  inside : i < t.getNumSegments
  below : ∀ j < i, ∀ x ∈ t.part j, x.1 ≤ key
  above : ∀ j, i < j → j < t.getNumSegments → ∀ x ∈ t.part j, key ≤ x.1
  stored : ∀ x ∈ t.contents, x.1 = key → ∃ y ∈ t.part i, y.1 = key

/-- The upper bounds that go with a lower bound of zero. -/
def Safe (ub : Nat) : Prop := (∃ j, ub + 2 = 2 ^ (j + 1)) ∨ ∃ m, m ≠ 1 ∧ ub + 1 = 2 ^ m

/-- The pivot is not the first segment, and the upper bound before it is safe again. -/
theorem Safe.pivot {ub : Nat} (safe : Safe ub) (positive : 0 < ub) :
    0 < ub / 2 ∧ Safe (ub / 2 - 1) := by
  rcases safe with ⟨j, two⟩ | ⟨m, several, one⟩
  · cases j with
    | zero => omega
    | succ j =>
        have half : ub = 2 * (2 ^ (j + 1) - 1) := by
          rw [pow_succ] at two
          omega
        have least := Nat.one_le_two_pow (n := j)
        rw [pow_succ] at half
        refine ⟨by omega, Or.inl ⟨j, ?_⟩⟩
        rw [pow_succ]
        omega
  · cases m with
    | zero => omega
    | succ m =>
        cases m with
        | zero => omega
        | succ j =>
            have least := Nat.one_le_two_pow (n := j)
            rw [pow_succ, pow_succ] at one
            refine ⟨by omega, Or.inl ⟨j, ?_⟩⟩
            rw [pow_succ]
            omega

/-- The binary search ends at the segment of the key. -/
theorem searchSegment_spec (sorted : SortedPairs t.contents)
    (nonempty : ∀ i < t.getNumSegments, 0 < t.segments i) (key : Int) {fuel lb ub : Nat}
    (enough : ub + 1 - lb < fuel) (order : lb ≤ ub + 1) (insideL : lb < t.getNumSegments)
    (insideU : ub < t.getNumSegments) (safe : lb = 0 → Safe ub)
    (less : ∀ i < lb, ∀ x ∈ t.part i, x.1 < key)
    (greater : ∀ i, ub < i → i < t.getNumSegments → ∀ x ∈ t.part i, key < x.1) :
    ∃ i, t.searchSegment key fuel lb ub = some i ∧ t.Located key i := by
  induction fuel generalizing lb ub with
  | zero => omega
  | succ fuel ih =>
      unfold searchSegment
      by_cases more : lb < ub
      · have pivotInside : (lb + ub) / 2 < t.getNumSegments := by omega
        have filled := nonempty _ pivotInside
        have pivotSorted := part_sorted sorted pivotInside
        rw [if_pos more]
        simp only
        rw [if_pos ⟨pivotInside, filled⟩]
        by_cases left : key < (t.elements ((lb + ub) / 2 * t.segmentCapacity)).1
        · have pivot : 0 < (lb + ub) / 2 ∧ (lb = 0 → Safe ((lb + ub) / 2 - 1)) := by
            rcases Nat.eq_zero_or_pos lb with rfl | positive
            · have halves := (safe rfl).pivot more
              rw [Nat.zero_add]
              exact ⟨halves.1, fun _ => halves.2⟩
            · exact ⟨by omega, by omega⟩
          rw [if_pos left, if_neg (by omega)]
          refine ih (by omega) (by omega) insideL (by omega) pivot.2 less ?_
          intro i after inside x member
          rcases Nat.eq_or_lt_of_le (show (lb + ub) / 2 ≤ i by omega) with rfl | later
          · exact lt_of_lt_of_le left (first_le pivotSorted member)
          · exact lt_of_lt_of_le left (part_le sorted later inside (first_mem filled) member)
        · rw [if_neg left]
          by_cases found : key ≤ (t.elements
              ((lb + ub) / 2 * t.segmentCapacity + t.segments ((lb + ub) / 2) - 1)).1
          · rw [if_pos found]
            refine ⟨_, rfl, pivotInside, fun j before x member => ?_,
              fun j after inside x member => ?_, fun x member same => ?_⟩
            · exact (part_le sorted before pivotInside member (first_mem filled)).trans
                (not_lt.mp left)
            · exact found.trans (part_le sorted after inside (last_mem filled) member)
            · obtain ⟨j, inside, memberJ⟩ := mem_contents.mp member
              rcases lt_trichotomy j ((lb + ub) / 2) with before | rfl | after
              · have le := part_le sorted before pivotInside memberJ (first_mem filled)
                exact ⟨_, first_mem filled, le_antisymm (not_lt.mp left) (same ▸ le)⟩
              · exact ⟨x, memberJ, same⟩
              · have le := part_le sorted after inside (last_mem filled) memberJ
                exact ⟨_, last_mem filled, le_antisymm (same ▸ le) found⟩
          · rw [if_neg found]
            refine ih (by omega) (by omega) (by omega) insideU (by omega) ?_ greater
            intro i before x member
            rcases Nat.eq_or_lt_of_le (show i ≤ (lb + ub) / 2 by omega) with rfl | earlier
            · exact lt_of_le_of_lt (le_last pivotSorted member) (not_le.mp found)
            · exact lt_of_le_of_lt (part_le sorted earlier pivotInside member (last_mem filled))
                (not_le.mp found)
      · rw [if_neg more]
        refine ⟨lb, rfl, insideL, fun j before x member => (less j before x member).le,
          fun j after inside x member => (greater j (by omega) inside x member).le,
          fun x member same => ?_⟩
        obtain ⟨j, inside, memberJ⟩ := mem_contents.mp member
        rcases lt_trichotomy j lb with before | rfl | after
        · exact absurd same (less j before x memberJ).ne
        · exact ⟨x, memberJ, same⟩
        · exact absurd same (greater j (by omega) inside x memberJ).ne'

/-! ## Windows -/

/-- The number of elements of `n` segments. -/
def elementsOf (t : PmaImpl4) (i n : Nat) : Nat := ((t.parts.drop i).take n).flatten.length

theorem elementsOf_add (t : PmaImpl4) (i n m : Nat) :
    t.elementsOf i (n + m) = t.elementsOf i n + t.elementsOf (i + n) m := by
  simp [elementsOf, List.take_add, List.drop_drop]

theorem elementsOf_one (inside : i < t.getNumSegments) : t.elementsOf i 1 = t.segments i := by
  rw [elementsOf, List.drop_eq_getElem_cons (by rwa [length_parts]), getElem_parts]
  simp

theorem elementsOf_all (t : PmaImpl4) : t.elementsOf 0 t.getNumSegments = t.contents.length := by
  rw [elementsOf, List.drop_zero, List.take_of_length_le (length_parts t).le, contents]

/-- Segments that are not empty have an element each. -/
theorem le_elementsOf (inside : i + n ≤ t.getNumSegments)
    (filled : ∀ j < t.getNumSegments, 0 < t.segments j) : n ≤ t.elementsOf i n := by
  induction n with
  | zero => exact Nat.zero_le _
  | succ n ih =>
      have before := ih (by omega)
      have last := filled (i + n) (by omega)
      rw [elementsOf_add, elementsOf_one (by omega)]
      omega

/-- Segments that do not overflow have no more elements than cells. -/
theorem elementsOf_le (cells : t.Cells) (inside : i + n ≤ t.getNumSegments) :
    t.elementsOf i n ≤ n * t.segmentCapacity := by
  induction n with
  | zero => simp [elementsOf]
  | succ n ih =>
      have before := ih (by omega)
      have last := cells.sizes (i + n) (by omega)
      rw [elementsOf_add, elementsOf_one (by omega), Nat.succ_mul]
      omega

theorem countLeft_eq {windowStart left : Nat} (le : windowStart ≤ left)
    (inside : left ≤ t.getNumSegments) (m : Nat) :
    t.countLeft windowStart left m =
      (windowStart, m + t.elementsOf windowStart (left - windowStart)) := by
  induction left generalizing m with
  | zero =>
      have zero : windowStart = 0 := Nat.le_zero.mp le
      simp [countLeft, zero, elementsOf]
  | succ left ih =>
      by_cases more : left ≥ windowStart
      · have step := t.elementsOf_add windowStart (left - windowStart) 1
        rw [Nat.add_sub_cancel' more, elementsOf_one (by omega)] at step
        rw [countLeft, if_pos more, ih more (by omega), Nat.succ_sub more, Nat.succ_eq_add_one, step]
        simp only [Prod.mk.injEq, true_and]
        omega
      · have last : windowStart = left + 1 := by omega
        rw [countLeft, if_neg more, last]
        simp [elementsOf]

theorem countRight_eq {room right : Nat} (inside : right + room ≤ t.getNumSegments) (m : Nat) :
    t.countRight room right m = (right + room, m + t.elementsOf right room) := by
  induction room generalizing right m with
  | zero => simp [countRight, elementsOf]
  | succ room ih =>
      have step := t.elementsOf_add right 1 room
      rw [elementsOf_one (by omega)] at step
      rw [countRight, ih (by omega), Nat.add_comm room 1, step]
      simp only [Prod.mk.injEq]
      omega

/-- The window of a height around a segment, with its elements counted. -/
structure Around (t : PmaImpl4) (segmentId : Nat) (w : Window) : Prop where
  leaf : 1 ≤ w.height
  length : w.windowLength = 2 ^ (w.height - 1)
  id : w.windowId = segmentId / w.windowLength
  start : w.windowStart = w.windowId * w.windowLength
  left : w.left = w.windowStart
  right : w.right = w.windowStart + w.windowLength
  inside : w.windowStart + w.windowLength ≤ t.getNumSegments
  counted : w.numElements = t.elementsOf w.windowStart w.windowLength

theorem around_first (inside : i < t.getNumSegments) : t.Around i (t.firstWindow i) where
  leaf := le_rfl
  length := rfl
  id := by simp [firstWindow]
  start := by simp [firstWindow]
  left := rfl
  right := rfl
  inside := inside
  counted := (elementsOf_one inside).symm

theorem around_turn {w : Window} (around : t.Around i w) (inside : i < t.getNumSegments)
    (tree : t.getNumSegments = 2 ^ (t.height - 1)) (lower : w.height < t.height) :
    t.Around i (t.turn w) ∧ (t.turn w).height = w.height + 1 ∧
      (t.turn w).density =
        ((t.turn w).numElements : ℚ) / ((t.turn w).windowLength * t.segmentCapacity : Nat) ∧
      (t.turn w).theta = (t.windowThresholds (t.turn w).height).2 := by
  have length : w.windowLength * 2 = 2 ^ w.height := by
    rw [around.length, ← pow_succ, Nat.sub_add_cancel around.leaf]
  have positive : 0 < w.windowLength := by
    rw [around.length]
    exact Nat.two_pow_pos _
  have half : w.windowId / 2 = i / (w.windowLength * 2) := by
    rw [around.id, Nat.div_div_eq_div_mul]
  have windows : t.getNumSegments = 2 ^ (t.height - 1 - w.height) * (w.windowLength * 2) := by
    rw [length, ← pow_add, tree]
    congr 1
    omega
  have below : w.windowId / 2 + 1 ≤ 2 ^ (t.height - 1 - w.height) := by
    rw [half]
    exact Nat.div_lt_of_lt_mul (by rw [Nat.mul_comm, ← windows]; exact inside)
  have insideNext : w.windowId / 2 * (w.windowLength * 2) + w.windowLength * 2 ≤
      t.getNumSegments := by
    rw [windows, ← Nat.succ_mul]
    exact Nat.mul_le_mul_right _ below
  have nested : w.windowId / 2 * (w.windowLength * 2) ≤ w.windowStart ∧
      w.windowStart + w.windowLength ≤
        w.windowId / 2 * (w.windowLength * 2) + w.windowLength * 2 := by
    have product : w.windowId / 2 * (w.windowLength * 2) + w.windowId % 2 * w.windowLength =
        w.windowStart := by
      rw [around.start]
      conv_rhs => rw [← Nat.div_add_mod w.windowId 2]
      ring
    rcases Nat.mod_two_eq_zero_or_one w.windowId with even | odd
    · rw [even, Nat.zero_mul] at product
      omega
    · rw [odd, Nat.one_mul] at product
      omega
  have counted : t.elementsOf (w.windowId / 2 * (w.windowLength * 2)) (w.windowLength * 2) =
      w.numElements + t.elementsOf (w.windowId / 2 * (w.windowLength * 2))
          (w.windowStart - w.windowId / 2 * (w.windowLength * 2)) +
        t.elementsOf (w.windowStart + w.windowLength)
          (w.windowId / 2 * (w.windowLength * 2) + w.windowLength * 2 -
            (w.windowStart + w.windowLength)) := by
    have first := t.elementsOf_add (w.windowId / 2 * (w.windowLength * 2))
      (w.windowStart - w.windowId / 2 * (w.windowLength * 2)) w.windowLength
    have second := t.elementsOf_add (w.windowId / 2 * (w.windowLength * 2))
      (w.windowStart - w.windowId / 2 * (w.windowLength * 2) + w.windowLength)
      (w.windowId / 2 * (w.windowLength * 2) + w.windowLength * 2 -
        (w.windowStart + w.windowLength))
    rw [show w.windowId / 2 * (w.windowLength * 2) +
      (w.windowStart - w.windowId / 2 * (w.windowLength * 2)) = w.windowStart by omega,
      ← around.counted] at first
    rw [show w.windowId / 2 * (w.windowLength * 2) +
        (w.windowStart - w.windowId / 2 * (w.windowLength * 2) + w.windowLength) =
        w.windowStart + w.windowLength by omega,
      show w.windowStart - w.windowId / 2 * (w.windowLength * 2) + w.windowLength +
        (w.windowId / 2 * (w.windowLength * 2) + w.windowLength * 2 -
          (w.windowStart + w.windowLength)) = w.windowLength * 2 by omega, first] at second
    omega
  have left := countLeft_eq (t := t) (show w.windowId / 2 * (w.windowLength * 2) ≤ w.left by
    rw [around.left]; exact nested.1) (by rw [around.left]; omega) w.numElements
  have room : w.right + (w.windowId / 2 * (w.windowLength * 2) + w.windowLength * 2 - w.right) ≤
      t.getNumSegments := by
    rw [around.right]
    omega
  have right := countRight_eq room
  refine ⟨?_, rfl, rfl, rfl⟩
  unfold turn
  simp only [left, right]
  refine ⟨Nat.le_add_left _ _, length, half, rfl, rfl, ?_, insideNext, ?_⟩
  · rw [around.right]
    simp only
    omega
  · rw [counted, around.left, around.right]

/-- The window that the search ends with. -/
theorem searchWindow_spec {turns : Nat} {w : Window} (around : t.Around i w)
    (inside : i < t.getNumSegments) (tree : t.getNumSegments = 2 ^ (t.height - 1))
    (lower : w.height < t.height) (enough : t.height ≤ w.height + turns) :
    t.Around i (t.searchWindow turns w) ∧ w.height < (t.searchWindow turns w).height ∧
      (t.searchWindow turns w).height ≤ t.height ∧
      (t.searchWindow turns w).density = ((t.searchWindow turns w).numElements : ℚ) /
        ((t.searchWindow turns w).windowLength * t.segmentCapacity : Nat) ∧
      (t.searchWindow turns w).theta =
        (t.windowThresholds (t.searchWindow turns w).height).2 ∧
      ((t.searchWindow turns w).density ≥ (t.searchWindow turns w).theta →
        (t.searchWindow turns w).height = t.height) := by
  induction turns generalizing w with
  | zero => omega
  | succ turns ih =>
      obtain ⟨next, height, density, theta⟩ := around_turn around inside tree lower
      unfold searchWindow
      simp only
      by_cases again : (t.turn w).density ≥ (t.turn w).theta ∧ (t.turn w).height < t.height
      · rw [if_pos again]
        obtain ⟨around', higher, rest⟩ := ih next again.2 (by omega)
        exact ⟨around', by omega, rest⟩
      · rw [if_neg again]
        refine ⟨next, by omega, by omega, density, theta, fun dense => ?_⟩
        by_contra other
        exact again ⟨dense, by omega⟩

/-! ## The invariant -/

/-- The invariant, but for a free slot in every segment. The array has one segment, or at least
four, and the tree is at most as high as a segment is long. -/
structure Loaded (t : PmaImpl4) : Prop where
  cells : t.Cells
  tree : t.getNumSegments = 2 ^ (t.height - 1)
  leaf : 1 ≤ t.height
  bounded : t.height ≤ t.segmentCapacity
  several : t.height ≠ 2
  power : ∃ k, 3 ≤ k ∧ t.capacity = 2 ^ k
  filled : t.Filled
  sorted : SortedPairs t.contents
  count : t.cardinality = t.contents.length

/-- The invariant between two insertions. -/
structure Valid (t : PmaImpl4) : Prop extends Loaded t where
  free : ∀ i < t.getNumSegments, t.segments i < t.segmentCapacity

theorem Loaded.positive (loaded : t.Loaded) : 0 < t.getNumSegments := by
  rw [loaded.tree]
  exact Nat.two_pow_pos _

theorem create_valid : create.Valid := by
  have eight : hyperceil minCapacity = 8 := by decide +kernel
  have count : create.getNumSegments = 1 := by decide +kernel
  have empty : create.contents = [] := by decide +kernel
  refine ⟨⟨⟨?_, ?_, fun i _ => Nat.zero_le _⟩, ?_, le_rfl, ?_, by decide, ⟨3, le_rfl, eight⟩, ?_, ?_,
    ?_⟩, ?_⟩
  · rw [count, Nat.one_mul]
    rfl
  · change 0 < hyperceil minCapacity
    omega
  · rw [count]
    rfl
  · change 1 ≤ hyperceil minCapacity
    omega
  · intro more
    omega
  · rw [empty]
    exact List.Pairwise.nil
  · rw [empty]
    rfl
  · intro i _
    change 0 < hyperceil minCapacity
    omega

/-- The elements of a window below its threshold leave a free slot in each of its segments. -/
theorem window_room {N w C H h : Nat} (length : w = 2 ^ (h - 1)) (lower : 2 ≤ h) (upper : h ≤ H)
    (bounded : H ≤ C)
    (sparse : (N : ℚ) / (w * C : Nat) < 3 / 4 + 1 / 4 * (((H : ℚ) - h) / H)) :
    N ≤ w * (C - 1) := by
  have positive : 0 < w := by
    rw [length]
    exact Nat.two_pow_pos _
  have cells : (0 : ℚ) < (w * C : Nat) := by
    exact_mod_cast Nat.mul_pos positive (by omega)
  have root : (0 : ℚ) < H := by exact_mod_cast (by omega : 0 < H)
  have threshold : 3 / 4 + 1 / 4 * (((H : ℚ) - h) / H) = (4 * H - h) / (4 * H) := by
    field_simp
    ring
  rw [threshold, div_lt_div_iff₀ cells (by linarith)] at sparse
  have whole : N * (4 * H) + h * (w * C) < 4 * H * (w * C) := by
    have cast : (N : ℚ) * (4 * H) + h * (w * C : Nat) < 4 * H * (w * C : Nat) := by linarith
    exact_mod_cast cast
  by_contra more
  have split : w * C = w * (C - 1) + w := by
    conv_lhs => rw [show C = C - 1 + 1 by omega, Nat.mul_succ]
  have above : (w * (C - 1) + 1) * (4 * H) ≤ N * (4 * H) :=
    Nat.mul_le_mul_right _ (by omega)
  have height : h * w * H ≤ h * (w * C) := by
    rw [Nat.mul_assoc]
    exact Nat.mul_le_mul_left _ (Nat.mul_le_mul_left _ bounded)
  have less : h * w * H < 4 * (w - 1) * H := by
    have expand : 4 * H * (w * C) = w * (C - 1) * (4 * H) + 4 * H * w := by
      rw [split]
      ring
    have last : 4 * (w - 1) * H + 4 * H = 4 * H * w := by
      obtain ⟨v, rfl⟩ : ∃ v, w = v + 1 := ⟨w - 1, by omega⟩
      rw [Nat.add_sub_cancel]
      ring
    rw [Nat.add_mul, Nat.one_mul] at above
    omega
  have product := Nat.lt_of_mul_lt_mul_right less
  rcases Nat.lt_or_ge h 4 with small | large
  · interval_cases h
    · omega
    · omega
  · have := Nat.mul_le_mul_right w large
    omega

/-- A power of two that is at least four is at least the logarithm and two more. -/
theorem clog_add_two_le {K : Nat} (large : 4 ≤ K) : Nat.clog 2 K + 2 ≤ K := by
  have power : K ≤ 2 ^ (K - 2) := by
    obtain ⟨m, rfl⟩ := Nat.exists_eq_add_of_le large
    rw [show 4 + m - 2 = m + 2 by omega, pow_add]
    have := Nat.lt_two_pow_self (n := m)
    omega
  have := Nat.clog_le_of_le_pow power
  omega

/-- A resize leaves the elements and half of the slots free. -/
theorem Loaded.resize (loaded : t.Loaded) (dense : 3 * t.capacity ≤ 4 * t.cardinality)
    (most : t.cardinality ≤ t.capacity) :
    ∃ u, t.resize = some u ∧ u.Valid ∧ u.contents = t.contents := by
  obtain ⟨k, least, capacity⟩ := loaded.power
  have doubled : t.capacity * 2 = 2 ^ (k + 1) := by rw [capacity, pow_succ]
  have logarithm : Nat.log 2 (t.capacity * 2) = k + 1 := by
    rw [doubled, Nat.log_pow (by omega)]
  have enough := clog_add_two_le (K := k + 1) (by omega)
  have long := Nat.le_pow_clog (b := 2) (by omega) (k + 1)
  have size : hyperceil (Nat.log 2 (t.capacity * 2)) = 2 ^ Nat.clog 2 (k + 1) := by
    rw [hyperceil, logarithm]
  generalize Nat.clog 2 (k + 1) = s at *
  have split : 2 ^ (k + 1) = 2 ^ (k + 1 - s) * 2 ^ s := by
    rw [← pow_add]
    congr 1
    omega
  have segments : t.capacity * 2 / 2 ^ s = 2 ^ (k + 1 - s) := by
    rw [doubled, split, Nat.mul_div_cancel _ (Nat.two_pow_pos _)]
  have several : 0 < 2 ^ (k + 1 - s) := Nat.two_pow_pos _
  have two : 2 ≤ s := by
    by_contra small
    have := Nat.pow_le_pow_right (n := 2) (by omega) (show s ≤ 1 by omega)
    omega
  have half : 2 ^ (k + 1 - s) * 2 ≤ 2 ^ k := by
    rw [← pow_succ]
    exact Nat.pow_le_pow_right (by omega) (by omega)
  have free : t.cardinality ≤ 2 ^ (k + 1 - s) * (2 ^ s - 1) := by
    have cells : 2 ^ (k + 1 - s) * 2 ^ s = 2 ^ (k + 1 - s) * (2 ^ s - 1) + 2 ^ (k + 1 - s) := by
      conv_lhs => rw [show 2 ^ s = 2 ^ s - 1 + 1 by omega, Nat.mul_succ]
    rw [pow_succ] at split
    omega
  have room : t.cardinality ≤ 2 ^ (k + 1 - s) * 2 ^ s :=
    free.trans (Nat.mul_le_mul_left _ (Nat.sub_le _ _))
  obtain ⟨u, done, parts, capacity', segmentCapacity, height, cardinality, sizes⟩ :=
    resize_parts loaded.cells loaded.positive loaded.filled loaded.count size segments several room
  have count : u.getNumSegments = 2 ^ (k + 1 - s) := by
    rw [getNumSegments, capacity', segmentCapacity, segments]
  have contents : u.contents = t.contents := by
    rw [PmaImpl4.contents, parts, flatten_deal several]
  rw [Nat.log_pow (by omega)] at height
  have below : ∀ i < u.getNumSegments, u.segments i < u.segmentCapacity := by
    intro i _
    have := evenSize_le (j := i) free several
    rw [sizes, segmentCapacity]
    omega
  refine ⟨u, done, ⟨⟨⟨?_, ?_, fun i inside => (below i inside).le⟩, ?_, ?_, ?_, ?_,
    ⟨k + 1, by omega, by rw [capacity', doubled]⟩, ?_, ?_, ?_⟩, below⟩, contents⟩
  · rw [capacity', count, segmentCapacity, doubled, split]
  · rw [segmentCapacity]
    exact Nat.two_pow_pos _
  · rw [count, height, Nat.add_sub_cancel]
  · omega
  · rw [height, segmentCapacity]
    omega
  · omega
  · intro _ i _
    rw [sizes]
    exact le_evenSize (k := 1) (by rw [Nat.mul_one]; omega) several
  · rw [contents]
    exact loaded.sorted
  · rw [contents, cardinality, loaded.count]

/-- A spread leaves the elements, and a free slot in each segment of its window. -/
theorem Loaded.spread (loaded : t.Loaded) {w : Window} (around : t.Around i w)
    (lower : 1 < w.height) (upper : w.height ≤ t.height)
    (density : w.density = (w.numElements : ℚ) / (w.windowLength * t.segmentCapacity : Nat))
    (theta : w.theta = (t.windowThresholds w.height).2) (sparse : ¬w.density ≥ w.theta)
    (others : ∀ j < t.getNumSegments, j ≠ i → t.segments j < t.segmentCapacity) :
    (t.spread w.numElements w.windowStart w.windowLength).Valid ∧
      (t.spread w.numElements w.windowStart w.windowLength).contents = t.contents := by
  have cells := loaded.cells
  have positive : 0 < w.windowLength := by
    rw [around.length]
    exact Nat.two_pow_pos _
  have room : w.numElements ≤ w.windowLength * (t.segmentCapacity - 1) := by
    refine window_room around.length lower upper loaded.bounded ?_
    rw [density, theta] at sparse
    exact not_le.mp sparse
  have fits : w.numElements ≤ w.windowLength * t.segmentCapacity :=
    room.trans (Nat.mul_le_mul_left _ (Nat.sub_le _ _))
  have parts := parts_spread cells positive around.inside around.counted fits
  have window : w.windowStart ≤ i ∧ i < w.windowStart + w.windowLength := by
    rw [around.start, around.id]
    exact ⟨Nat.div_mul_le_self _ _, Nat.lt_div_mul_add positive⟩
  have contents : (t.spread w.numElements w.windowStart w.windowLength).contents = t.contents := by
    rw [PmaImpl4.contents, parts, List.flatten_append, List.flatten_append, flatten_deal positive,
      ← List.flatten_append, ← List.flatten_append, PmaImpl4.contents]
    congr 1
    rw [← List.drop_drop, List.append_assoc, List.take_append_drop, List.take_append_drop]
  have filledAll : ∀ j < t.getNumSegments, 0 < t.segments j := by
    refine loaded.filled ?_
    rw [loaded.tree]
    exact Nat.one_lt_two_pow (by omega)
  have enough : w.windowLength ≤ w.numElements := by
    rw [around.counted]
    exact le_elementsOf around.inside filledAll
  have sizes : ∀ j < t.getNumSegments,
      0 < (t.spread w.numElements w.windowStart w.windowLength).segments j ∧
        (t.spread w.numElements w.windowStart w.windowLength).segments j < t.segmentCapacity := by
    intro j insideJ
    simp only [PmaImpl4.spread]
    split
    · have most := evenSize_le (j := j - w.windowStart) room positive
      have least := le_evenSize (j := j - w.windowStart) (k := 1)
        (show w.windowLength * 1 ≤ w.numElements by omega) positive
      have capacity := cells.positive
      omega
    · next outside => exact ⟨filledAll j insideJ, others j insideJ (by omega)⟩
  refine ⟨⟨⟨⟨cells.capacity, cells.positive, fun j insideJ => (sizes j insideJ).2.le⟩, loaded.tree,
    loaded.leaf, loaded.bounded, loaded.several, loaded.power, fun _ j insideJ => (sizes j insideJ).1,
    ?_, ?_⟩, fun j insideJ => (sizes j insideJ).2⟩, contents⟩
  · rw [contents]
    exact loaded.sorted
  · rw [contents]
    exact loaded.count

/-- A rebalance leaves the elements, and a free slot in every segment. -/
theorem Loaded.rebalance (loaded : t.Loaded) (inside : i < t.getNumSegments)
    (full : t.segments i = t.segmentCapacity)
    (others : ∀ j < t.getNumSegments, j ≠ i → t.segments j < t.segmentCapacity) :
    ∃ u, t.rebalance i = some u ∧ u.Valid ∧ u.contents = t.contents := by
  have capacity := loaded.cells.capacity
  unfold PmaImpl4.rebalance findWindow
  simp only
  by_cases high : t.height > 1
  · obtain ⟨around, lower, upper, density, theta, root⟩ := searchWindow_spec
      (around_first inside) inside loaded.tree high (Nat.le_add_left t.height 1)
    rw [if_pos high]
    generalize t.searchWindow t.height (t.firstWindow i) = w at *
    by_cases dense : w.density ≥ w.theta
    · have height := root dense
      have length : w.windowLength = t.getNumSegments := by
        rw [around.length, height, ← loaded.tree]
      have start : w.windowStart = 0 := by
        have := around.inside
        omega
      have all : w.numElements = t.cardinality := by
        rw [around.counted, start, length, elementsOf_all, loaded.count]
      rw [if_pos dense]
      rw [density, theta, height, all, length, ← capacity] at dense
      have positive : (0 : ℚ) < t.capacity := by
        obtain ⟨k, -, power⟩ := loaded.power
        rw [power]
        exact_mod_cast Nat.two_pow_pos k
      simp only [windowThresholds, sub_self, zero_div, mul_zero, add_zero, ge_iff_le] at dense
      rw [le_div_iff₀ positive] at dense
      refine loaded.resize ?_ ?_
      · have cast : (3 : ℚ) * t.capacity ≤ 4 * t.cardinality := by linarith
        exact_mod_cast cast
      · rw [loaded.count, ← elementsOf_all, capacity]
        exact elementsOf_le loaded.cells (by omega)
    · rw [if_neg dense]
      obtain ⟨valid, contents⟩ := loaded.spread around lower upper density theta dense others
      exact ⟨_, rfl, valid, contents⟩
  · have single : t.getNumSegments = 1 := by
      rw [loaded.tree, show t.height - 1 = 0 by omega, pow_zero]
    have first : i = 0 := by omega
    have all : t.cardinality = t.capacity := by
      rw [loaded.count, ← elementsOf_all, single, elementsOf_one (by omega), capacity, single,
        Nat.one_mul, ← full, first]
    rw [if_neg high, if_pos (by norm_num [firstWindow])]
    exact loaded.resize (by omega) all.le

/-! ## Runs -/

/-- No segment of an array that holds an element is empty. -/
theorem Valid.nonempty (valid : t.Valid) (stored : ¬t.isEmpty) :
    ∀ i < t.getNumSegments, 0 < t.segments i := by
  intro i inside
  by_cases several : 1 < t.getNumSegments
  · exact valid.filled several i inside
  · have positive := valid.positive
    have all := elementsOf_all t
    rw [show t.getNumSegments = 1 by omega, elementsOf_one positive, ← valid.count] at all
    have some : t.cardinality ≠ 0 := fun zero => stored (decide_eq_true zero)
    rw [show i = 0 by omega]
    omega

/-- In a valid array a search finds the segment of a key. -/
theorem Valid.findSegment (valid : t.Valid) (key : Int) :
    ∃ i, t.findSegment key = some i ∧ t.Located key i := by
  have positive := valid.positive
  unfold PmaImpl4.findSegment
  by_cases empty : t.isEmpty = true
  · have nothing : t.contents = [] := by
      have zero : t.cardinality = 0 := of_decide_eq_true empty
      exact List.length_eq_zero_iff.mp (valid.count.symm.trans zero)
    rw [if_pos empty]
    refine ⟨0, rfl, positive, by omega, fun j _ inside x member => ?_, fun x member => ?_⟩
    · have stored := mem_contents.mpr ⟨j, inside, member⟩
      rw [nothing] at stored
      cases stored
    · rw [nothing] at member
      cases member
  · rw [if_neg empty]
    refine searchSegment_spec valid.sorted (valid.nonempty empty) key (by omega) (by omega)
      positive (by omega)
      (fun _ => Or.inr ⟨t.height - 1, ?_, ?_⟩) (by omega) (by omega)
    · have := valid.several
      omega
    · rw [← valid.tree]
      omega

/-- An insertion is one in the sorted list of the elements. -/
theorem Valid.insert (valid : t.Valid) (e : Int × Int) :
    ∃ u, t.insert e = some u ∧ u.Valid ∧ Inserted e t.contents u.contents := by
  obtain ⟨i, found, located⟩ := valid.findSegment e.1
  have inside := located.inside
  have room := valid.free i inside
  have parts := parts_insertIn valid.cells room e
  have sortedI := part_sorted valid.sorted inside
  have inserted : Inserted e t.contents (t.insertIn i e).contents := by
    have here := (insertDown_inserted (e := e) sortedI).context (t.parts.take i).flatten
      (t.parts.drop (i + 1)).flatten
      (fun x member => by
        obtain ⟨l, memL, memX⟩ := List.mem_flatten.mp member
        obtain ⟨j, before, -, rfl⟩ := mem_take_parts memL
        exact located.below j before x memX)
      (fun x member => by
        obtain ⟨l, memL, memX⟩ := List.mem_flatten.mp member
        obtain ⟨j, after, insideJ, rfl⟩ := mem_drop_parts memL
        exact located.above j (by omega) insideJ x memX)
    rw [← contents_split inside] at here
    have changed : (t.insertIn i e).contents =
        (t.parts.take i).flatten ++ insertDown e (t.part i) ++
          (t.parts.drop (i + 1)).flatten := by
      rw [contents, parts, List.set_eq_take_append_cons_drop, if_pos (by rwa [length_parts])]
      simp
    rwa [changed]
  have sizes : ∀ j, (t.insertIn i e).segments j =
      if j = i then t.segments i + 1 else t.segments j := by
    intro j
    simp [insertIn, Function.update_apply]
  have loaded : (t.insertIn i e).Loaded := by
    refine ⟨⟨valid.cells.capacity, valid.cells.positive, fun j insideJ => ?_⟩, valid.tree, valid.leaf,
      valid.bounded, valid.several, valid.power, fun several j insideJ => ?_,
      inserted.sorted valid.sorted, ?_⟩
    · have free := valid.free j insideJ
      rw [sizes]
      split
      · exact room
      · exact free.le
    · have before := valid.filled several j insideJ
      rw [sizes]
      split
      · exact Nat.succ_pos _
      · exact before
    · rw [inserted.length_eq, ← valid.count]
      rfl
  have others : ∀ j < (t.insertIn i e).getNumSegments, j ≠ i →
      (t.insertIn i e).segments j < (t.insertIn i e).segmentCapacity := by
    intro j insideJ other
    rw [sizes, if_neg other]
    exact valid.free j insideJ
  unfold PmaImpl4.insert
  simp only [found, Option.bind_eq_bind, Option.bind_some, if_pos room]
  by_cases full : (t.insertIn i e).segments i = (t.insertIn i e).segmentCapacity
  · rw [if_pos full]
    obtain ⟨u, done, validU, contents⟩ := loaded.rebalance inside full others
    exact ⟨u, done, validU, contents ▸ inserted⟩
  · rw [if_neg full]
    refine ⟨_, rfl, ⟨loaded, fun j insideJ => ?_⟩, inserted⟩
    by_cases same : j = i
    · subst same
      exact lt_of_le_of_ne (loaded.cells.sizes j insideJ) full
    · exact others j insideJ same

/-- A find returns the value of an element with the key, if there is one. -/
theorem Valid.find (valid : t.Valid) (key : Int) :
    (∃ v, t.find key = some v ∧ (key, v) ∈ t.contents) ∨
      t.find key = some (-1) ∧ ∀ v, (key, v) ∉ t.contents := by
  obtain ⟨i, found, located⟩ := valid.findSegment key
  unfold PmaImpl4.find
  simp only [found, Option.bind_eq_bind, Option.bind_some, Nat.mul_comm t.segmentCapacity i]
  obtain ⟨-, upper, passed, stopped⟩ := scanUp_spec
    (fun k => decide ((t.elements (i * t.segmentCapacity + k)).1 ≠ key)) 0 (t.segments i)
  generalize scanUp (fun k => decide ((t.elements (i * t.segmentCapacity + k)).1 ≠ key)) 0
    (t.segments i) = k at *
  by_cases inside : k < t.segments i
  · have same : (t.elements (i * t.segmentCapacity + k)).1 = key := by
      simpa using stopped (by omega)
    have member : t.elements (i * t.segmentCapacity + k) ∈ t.part i :=
      mem_readCells.mpr ⟨_, by omega, by omega, rfl⟩
    refine Or.inl ⟨(t.elements (i * t.segmentCapacity + k)).2, by rw [if_pos inside], ?_⟩
    rw [← same]
    exact mem_contents.mpr ⟨i, located.inside, member⟩
  · refine Or.inr ⟨by rw [if_neg inside], fun v member => ?_⟩
    obtain ⟨y, memY, same⟩ := located.stored _ member rfl
    obtain ⟨q, lower, below, rfl⟩ := mem_readCells.mp memY
    obtain ⟨j, rfl⟩ := Nat.exists_eq_add_of_le lower
    have other := of_decide_eq_true (passed j (Nat.zero_le _) (by omega))
    exact other same

/-- What is known of the array after the insertion of a list of pairs. -/
structure Multimap (t : PmaImpl4) (pairs : List (Int × Int)) : Prop where
  perm : t.contents.Perm pairs
  sorted : SortedPairs t.contents
  count : ((List.range t.getNumSegments).map t.segments).sum = t.cardinality
  free : ∀ i < t.getNumSegments, t.segments i + 1 ≤ t.segmentCapacity
  filled : 1 < t.getNumSegments → ∀ i < t.getNumSegments, 1 ≤ t.segments i
  searched : ∀ key, ∃ i < t.getNumSegments, t.findSegment key = some i
  found : ∀ key, (∃ v, v ≠ -1 ∧ t.find key = some v ∧ (key, v) ∈ pairs) ∨
    t.find key = some (-1) ∧ ∀ v, (key, v) ∉ pairs
  iterated : ∀ n, t.cardinality ≤ n → t.yields n t.iterator = some t.contents

theorem Valid.multimap {pairs : List (Int × Int)} (valid : t.Valid) (perm : t.contents.Perm pairs)
    (values : ∀ e ∈ pairs, e.2 ≠ -1) : t.Multimap pairs where
  perm := perm
  sorted := valid.sorted
  count := by
    have same : (List.range t.getNumSegments).map t.segments = t.parts.map List.length := by
      simp [parts]
    rw [same, ← List.length_flatten, valid.count, contents]
  free := valid.free
  filled := valid.filled
  searched key := by
    obtain ⟨i, found, located⟩ := valid.findSegment key
    exact ⟨i, located.inside, found⟩
  found key := by
    rcases valid.find key with ⟨v, found, member⟩ | ⟨missing, absent⟩
    · have stored := perm.mem_iff.mp member
      exact Or.inl ⟨v, values _ stored, found, stored⟩
    · exact Or.inr ⟨missing, fun v member => absent v (perm.mem_iff.mpr member)⟩
  iterated n enough := by
    rw [valid.count] at enough
    exact yields_contents valid.cells valid.positive valid.filled enough

theorem Valid.run (valid : t.Valid) (pairs : List (Int × Int)) :
    ∃ u, runFrom PmaImpl4.insert t pairs = some u ∧ u.Valid ∧
      u.contents.Perm (pairs ++ t.contents) := by
  induction pairs generalizing t with
  | nil => exact ⟨t, rfl, valid, List.Perm.refl _⟩
  | cons e pairs ih =>
      obtain ⟨u, first, validU, inserted⟩ := valid.insert e
      obtain ⟨v, rest, validV, perm⟩ := ih validU
      refine ⟨v, runFrom_cons_eq_some.mpr ⟨u, first, rest⟩, validV, perm.trans ?_⟩
      rw [List.cons_append]
      exact (inserted.perm.append_left pairs).trans List.perm_middle

/-- **Sorted multimap.** Any sequence of insertions is defined, and leaves an array that holds
the inserted pairs in order, with a free slot in every segment. -/
theorem insertions_multimap (pairs : List (Int × Int)) (values : ∀ e ∈ pairs, e.2 ≠ -1) :
    ∃ t, runFrom PmaImpl4.insert create pairs = some t ∧ t.Multimap pairs := by
  obtain ⟨t, run, valid, perm⟩ := create_valid.run pairs
  have empty : create.contents = [] := by decide +kernel
  rw [empty, List.append_nil] at perm
  exact ⟨t, run, valid.multimap perm values⟩

/-- Nine insertions, with a resize on the eighth. -/
theorem insertions_multimap_nine :
    ∃ t, runFrom PmaImpl4.insert create ((List.range 9).map fun i => ((i : Int) % 3, (i : Int))) =
      some t ∧ t.Multimap ((List.range 9).map fun i => ((i : Int) % 3, (i : Int))) :=
  insertions_multimap _ (by decide)

end PmaImpl4

end Rma
