import Rma.ApmaBaseline.Basic

/-!
# The partitions of a window

A window can be divided when its elements are at least twice the least number of elements of a
half, and at most twice the greatest one (`Divisible`). The range of the split is then not empty,
and any split in it gives halves that can be divided again: the thresholds of a window are between
twice those of its halves with the rounding included, because the segments are longer than the
calibrator tree is high (`half_le`). The weights only decide where in the range the split is.
-/

namespace Rma

open Base

namespace ApmaBaseline

open ApmaBh07 (Call subSize segmentsChildren)

/-! ## The thresholds -/

/-- An array of several segments: the segments can be quartered, and are longer than the tree is
high. -/
structure Tall (t : ApmaBaseline) : Prop where
  quarter : 4 * (t.segmentCapacity / 4) = t.segmentCapacity
  small : t.segmentCapacity ≤ 64
  height : 3 ≤ t.height
  wide : t.height < t.segmentCapacity
  cells : t.segmentCapacity * 2 ^ (t.height - 1) ≤ maxElements

section Thresholds

variable {t : ApmaBaseline} {k height m : Nat}

theorem subSize_of_le {a b : Nat} (le : b ≤ a) : subSize a b = a - b := if_pos le

theorem storageThresholds_eq (positive : 0 < t.height) (k : Nat) :
    t.storageThresholds k =
      (((t.height : ℚ) + k) / (4 * t.height), (4 * (t.height : ℚ) - k) / (4 * t.height)) := by
  have nonzero : (t.height : ℚ) ≠ 0 := by exact_mod_cast positive.ne'
  unfold storageThresholds r0 t0
  refine Prod.ext ?_ ?_
  · simp only
    field_simp
    ring
  · simp only
    field_simp
    ring

/-- When as many elements as `m` are above the lower threshold. -/
theorem sizeMin_le_iff (positive : 0 < t.height) : t.sizeMin height ≤ m ↔
    (t.height + (height - 1)) * t.capacityChildren height ≤ 4 * t.height * m := by
  have four : (0 : ℚ) < 4 * t.height := by
    have : (0 : ℚ) < t.height := by exact_mod_cast positive
    linarith
  rw [sizeMin, Nat.ceil_le, storageThresholds_eq positive, div_mul_eq_mul_div, div_le_iff₀ four,
    mul_comm (m : ℚ)]
  norm_cast

/-- When as many elements as `m` are below the upper threshold, with a slot free per segment. -/
theorem le_sizeMax_iff (positive : 0 < t.height) (low : height - 1 ≤ t.height)
    (cells : 0 < t.segmentCapacity) : m ≤ t.sizeMax height ↔
      4 * t.height * m + (height - 1) * t.capacityChildren height ≤
          4 * t.height * t.capacityChildren height ∧
        m + segmentsChildren height ≤ t.capacityChildren height := by
  have four : (0 : ℚ) < 4 * t.height := by
    have : (0 : ℚ) < t.height := by exact_mod_cast positive
    linarith
  have room : segmentsChildren height ≤ t.capacityChildren height :=
    Nat.le_mul_of_pos_left _ cells
  have least : (0 : ℚ) ≤ (4 * (t.height : ℚ) - (height - 1 : Nat)) / (4 * t.height) *
      t.capacityChildren height := by
    have : ((height - 1 : Nat) : ℚ) ≤ t.height := by exact_mod_cast low
    have : (0 : ℚ) ≤ t.height := Nat.cast_nonneg _
    exact mul_nonneg (div_nonneg (by linarith) four.le) (Nat.cast_nonneg _)
  have upper : m ≤ ⌊(t.storageThresholds (height - 1)).2 * t.capacityChildren height⌋₊ ↔
      4 * t.height * m + (height - 1) * t.capacityChildren height ≤
        4 * t.height * t.capacityChildren height := by
    rw [storageThresholds_eq positive, Nat.le_floor_iff least, div_mul_eq_mul_div,
      le_div_iff₀ four, sub_mul, le_sub_iff_add_le, mul_comm (m : ℚ)]
    norm_cast
  rw [sizeMax, le_min_iff, upper, subSize_of_le room, Nat.le_sub_iff_add_le room]

/-- Half of what a threshold leaves out of a window is at least what it leaves out of a half, for
an integer number of elements. -/
theorem half_le {H P k d : Nat} (leaf : 1 ≤ k) (wide : H < P) (wider : 2 ≤ k → 2 * H ≤ P)
    (enough : (k + 1) * P ≤ 2 * H * d) : k * P ≤ 4 * H * (d / 2) := by
  obtain ⟨e, even | odd⟩ := Nat.even_or_odd' d
  · subst even
    have product : 2 * H * (2 * e) = 4 * H * e := by ring
    rw [product, Nat.succ_mul] at enough
    rw [Nat.mul_div_cancel_left e (by omega)]
    exact (Nat.le_add_right _ _).trans enough
  · subst odd
    have product : 2 * H * (2 * e + 1) = 4 * (H * e) + 2 * H := by ring
    have product' : 4 * H * e = 4 * (H * e) := by ring
    have division : (2 * e + 1) / 2 = e := by omega
    rw [product, Nat.succ_mul] at enough
    rw [division, product']
    rcases Nat.eq_or_lt_of_le leaf with rfl | higher
    · have positive : 0 < e := by
        rcases Nat.eq_zero_or_pos e with rfl | positive
        · omega
        · exact positive
      have := Nat.le_mul_of_pos_right H positive
      omega
    · have := wider higher
      omega

/-- The lower threshold of a window, rounded, is at least twice that of its halves of `P` cells. -/
theorem halves_lower {H P Q k card : Nat} (leaf : 1 ≤ k) (root : 0 < H) (quarter : P = 4 * Q)
    (wide : H < P) (wider : 2 ≤ k → 2 * H ≤ P) (least : (H + (k + 1)) * (2 * P) ≤ 4 * H * card) :
    (H + k) * P ≤ 4 * H * (card / 2) := by
  have expand : (H + (k + 1)) * (2 * P) = 4 * H * (2 * Q) + 2 * ((k + 1) * P) := by
    rw [quarter]
    ring
  rw [expand] at least
  have enough : 2 * Q ≤ card :=
    Nat.le_of_mul_le_mul_left ((Nat.le_add_right _ _).trans least) (by omega)
  obtain ⟨d, rfl⟩ := Nat.exists_eq_add_of_le enough
  rw [Nat.mul_add] at least
  have above := half_le leaf wide wider (d := d) (by
    have product : 4 * H * d = 2 * (2 * H * d) := by ring
    omega)
  have division : (2 * Q + d) / 2 = Q + d / 2 := by omega
  have fourth : (H + k) * P = 4 * H * Q + k * P := by
    rw [Nat.add_mul, quarter]
    ring
  rw [division, Nat.mul_add, fourth]
  omega

/-- The upper threshold of a window, rounded, is at most twice that of its halves. -/
theorem halves_upper {H P k card : Nat} (leaf : 1 ≤ k) (root : 0 < H) (wide : H < P)
    (wider : 2 ≤ k → 2 * H ≤ P)
    (most : 4 * H * card + (k + 1) * (2 * P) ≤ 4 * H * (2 * P)) :
    4 * H * ((card + 1) / 2) + k * P ≤ 4 * H * P := by
  have enough : card ≤ 2 * P :=
    Nat.le_of_mul_le_mul_left ((Nat.le_add_right _ _).trans most) (by omega)
  obtain ⟨d, whole⟩ := Nat.exists_eq_add_of_le enough
  have product : (k + 1) * (2 * P) = 2 * ((k + 1) * P) := by ring
  rw [product, whole, Nat.mul_add] at most
  have below := half_le leaf wide wider (d := d) (by
    have product : 4 * H * d = 2 * (2 * H * d) := by ring
    omega)
  have parts : P = (card + 1) / 2 + d / 2 := by omega
  have whole' : 4 * H * P = 4 * H * ((card + 1) / 2) + 4 * H * (d / 2) := by
    conv_lhs => rw [parts, Nat.mul_add]
  omega

end Thresholds

/-! ## Windows that can be divided -/

/-- The elements of a window can be divided among its halves. -/
structure Divisible (t : ApmaBaseline) (c : Call) : Prop where
  lower : 2 * t.sizeMin c.height ≤ c.cardinality
  upper : c.cardinality ≤ 2 * t.sizeMax c.height

/-- What a call keeps: its window is one of the tree, with an element for each quarter of the
cells and a free slot for each segment, and if it has halves, it can be divided. -/
structure Fed (t : ApmaBaseline) (c : Call) : Prop where
  leaf : 1 ≤ c.height
  root : c.height ≤ t.height
  segments : c.numSegments = 2 ^ (c.height - 1)
  lower : c.numSegments * (t.segmentCapacity / 4) ≤ c.cardinality
  room : c.cardinality ≤ c.numSegments * (t.segmentCapacity - 1)
  divisible : 2 ≤ c.height → t.Divisible c

section Divisions

variable {t : ApmaBaseline} {balance : Balance} {weights : Weights} {c : Call} {k m : Nat}

/-- The cells of the segments of a window, in quarters. -/
theorem Tall.cells_eq (tall : t.Tall) (n : Nat) :
    t.segmentCapacity * n = 4 * (n * (t.segmentCapacity / 4)) := by
  conv_lhs => rw [← tall.quarter]
  ring

theorem Tall.room_eq (tall : t.Tall) (n : Nat) :
    n * (t.segmentCapacity - 1) + n = t.segmentCapacity * n := by
  have wide := tall.wide
  have height := tall.height
  obtain ⟨v, same⟩ : ∃ v, t.segmentCapacity = v + 1 := ⟨t.segmentCapacity - 1, by omega⟩
  rw [same, Nat.add_sub_cancel]
  ring

/-- A window of the tree is wider than the tree is high. -/
theorem Tall.wider (tall : t.Tall) (k : Nat) :
    t.height < t.segmentCapacity * 2 ^ (k - 1) ∧
      (2 ≤ k → 2 * t.height ≤ t.segmentCapacity * 2 ^ (k - 1)) := by
  have wide := tall.wide
  have positive := Nat.two_pow_pos (k - 1)
  refine ⟨wide.trans_le (Nat.le_mul_of_pos_right _ positive), fun several => ?_⟩
  have two : 2 ≤ 2 ^ (k - 1) := Nat.le_self_pow (by omega) 2
  calc 2 * t.height ≤ t.segmentCapacity * 2 := by omega
    _ ≤ t.segmentCapacity * 2 ^ (k - 1) := Nat.mul_le_mul_left _ two

/-- A window whose elements, halved, are within the thresholds of a half can be divided. -/
theorem Tall.divisible (tall : t.Tall) (height : c.height = k + 1)
    (lower : (t.height + k) * (t.segmentCapacity * 2 ^ (k - 1)) ≤
      4 * t.height * (c.cardinality / 2))
    (upper : 4 * t.height * ((c.cardinality + 1) / 2) + k * (t.segmentCapacity * 2 ^ (k - 1)) ≤
      4 * t.height * (t.segmentCapacity * 2 ^ (k - 1)))
    (room : c.cardinality + 2 * 2 ^ (k - 1) ≤ 2 * (t.segmentCapacity * 2 ^ (k - 1)))
    (root : k ≤ t.height) : t.Divisible c := by
  have tallest := tall.height
  have wide := tall.wide
  have cells : t.capacityChildren c.height = t.segmentCapacity * 2 ^ (k - 1) := by
    rw [capacityChildren, segmentsChildren, height, Nat.add_sub_cancel]
  have segments : segmentsChildren c.height = 2 ^ (k - 1) := by
    rw [segmentsChildren, height, Nat.add_sub_cancel]
  have child : c.height - 1 = k := by omega
  have least : t.sizeMin c.height ≤ c.cardinality / 2 := by
    rw [sizeMin_le_iff (by omega), cells, child]
    exact lower
  have most : (c.cardinality + 1) / 2 ≤ t.sizeMax c.height := by
    rw [le_sizeMax_iff (by omega) (by omega) (by omega), cells, segments, child]
    exact ⟨upper, by omega⟩
  constructor <;> omega

/-- A window of as many elements as half of a larger one admits is fed. -/
theorem Tall.fed (tall : t.Tall) (leaf : 1 ≤ c.height) (root : c.height < t.height)
    (segments : c.numSegments = 2 ^ (c.height - 1))
    (least : t.sizeMin (c.height + 1) ≤ c.cardinality)
    (most : c.cardinality ≤ t.sizeMax (c.height + 1)) : t.Fed c := by
  have height := tall.height
  have positive : 0 < t.height := by omega
  have wide := tall.wide
  rw [sizeMin_le_iff positive, Nat.add_sub_cancel] at least
  rw [le_sizeMax_iff positive (by omega) (by omega), Nat.add_sub_cancel] at most
  have cells : t.capacityChildren (c.height + 1) = t.segmentCapacity * c.numSegments := by
    rw [capacityChildren, segmentsChildren, Nat.add_sub_cancel, segments]
  have children : segmentsChildren (c.height + 1) = c.numSegments := by
    rw [segmentsChildren, Nat.add_sub_cancel, segments]
  rw [cells] at least
  rw [cells, children] at most
  have quarters := tall.cells_eq c.numSegments
  have room := tall.room_eq c.numSegments
  refine ⟨leaf, root.le, segments, ?_, by omega, fun several => ?_⟩
  · -- the lower threshold is never below a quarter
    have quarter : 4 * t.height * (c.numSegments * (t.segmentCapacity / 4)) ≤
        4 * t.height * c.cardinality := by
      calc 4 * t.height * (c.numSegments * (t.segmentCapacity / 4)) =
            t.height * (t.segmentCapacity * c.numSegments) := by rw [quarters]; ring
        _ ≤ (t.height + c.height) * (t.segmentCapacity * c.numSegments) :=
            Nat.mul_le_mul_right _ (Nat.le_add_right _ _)
        _ ≤ 4 * t.height * c.cardinality := least
    exact Nat.le_of_mul_le_mul_left quarter (by omega)
  · obtain ⟨k, child⟩ : ∃ k, c.height = k + 1 := ⟨c.height - 1, by omega⟩
    obtain ⟨wide', wider⟩ := tall.wider k
    have double : c.numSegments = 2 * 2 ^ (k - 1) := by
      rw [segments, ← Nat.pow_succ', child, Nat.add_sub_cancel, Nat.succ_eq_add_one,
        Nat.sub_add_cancel (by omega)]
    have whole : t.segmentCapacity * c.numSegments = 2 * (t.segmentCapacity * 2 ^ (k - 1)) := by
      rw [double]
      ring
    rw [whole, child] at least most
    refine tall.divisible child ?_ ?_ ?_ (by omega)
    · exact halves_lower (by omega) positive (tall.cells_eq _) wide' wider least
    · exact halves_upper (by omega) positive wide' wider most.1
    · omega

end Divisions

/-! ## The range of the split -/

section Split

variable {t : ApmaBaseline} {balance : Balance} {weights : Weights} {c : Call}

/-- The range of the split of a call is not empty, and its greatest fill and the cardinality of its
right half do not wrap. -/
structure InRange (t : ApmaBaseline) (balance : Balance) (weights : Weights) (c : Call) :
    Prop where
  order : t.splitStart c ≤ t.splitEnd c
  fillMax : t.sizeMin c.height ≤ c.cardinality
  right : (t.findSplit balance weights c).splitnum ≤ c.cardinality

/-- A turn leaves the best split, or moves it to the split of the turn. -/
theorem splitTurn_splitnum (t : ApmaBaseline) (balance : Balance) (weights : Weights) (c : Call)
    (weightsPos i : Nat) (s : Split) :
    (t.splitTurn balance weights c weightsPos i s).splitnum = s.splitnum ∨
      (t.splitTurn balance weights c weightsPos i s).splitnum = i := by
  have choice : ∀ (m : Split) (curvalue : ℚ), m.splitnum = s.splitnum →
      (if curvalue < m.optvalue then
        { m with
          optvalue := curvalue
          splitnum := i
          weightsSplit := subSize m.nextIndex c.weightsStart }
        else m).splitnum = s.splitnum ∨
      (if curvalue < m.optvalue then
        { m with
          optvalue := curvalue
          splitnum := i
          weightsSplit := subSize m.nextIndex c.weightsStart }
        else m).splitnum = i := by
    intro m curvalue kept
    by_cases better : curvalue < m.optvalue
    · rw [if_pos better]
      exact .inr rfl
    · rw [if_neg better]
      exact .inl kept
  unfold splitTurn
  simp only
  by_cases met : s.nextPtr = some (t.indexStart c + i)
  · rw [if_pos met]
    exact choice _ _ rfl
  · rw [if_neg met]
    exact choice _ _ rfl

/-- The best split is one of those that were looked at. -/
theorem splitAfter_splitnum (t : ApmaBaseline) (balance : Balance) (weights : Weights) (c : Call)
    (turns : Nat) : t.splitStart c ≤ (t.splitAfter balance weights c turns).splitnum ∧
      (t.splitAfter balance weights c turns).splitnum ≤ t.splitStart c + turns := by
  induction turns with
  | zero => exact ⟨le_rfl, le_rfl⟩
  | succ turns ih =>
      rw [splitAfter]
      rcases t.splitTurn_splitnum balance weights c (t.splitInit balance weights c).2
        (t.splitStart c + turns + 1) (t.splitAfter balance weights c turns) with kept | moved
      · rw [kept]
        omega
      · rw [moved]
        omega

/-- A window has no more cells than the array. -/
theorem Tall.window_le (tall : t.Tall) {height : Nat} (root : height ≤ t.height) :
    t.segmentCapacity * 2 ^ (height - 1) ≤ maxElements :=
  (Nat.mul_le_mul_left _ (Nat.pow_le_pow_right Nat.two_pos (by omega))).trans tall.cells

theorem Fed.cells_le (fed : t.Fed c) (tall : t.Tall) : c.cardinality ≤ maxElements := by
  have window := tall.window_le fed.root
  have room := tall.room_eq c.numSegments
  have most := fed.room
  rw [← fed.segments] at window
  omega

theorem Tall.sizeMax_le (tall : t.Tall) {height : Nat} (root : height ≤ t.height) :
    t.sizeMax height ≤ maxElements := by
  have wide := tall.wide
  have room : segmentsChildren height ≤ t.capacityChildren height :=
    Nat.le_mul_of_pos_left _ (by omega)
  have most : t.sizeMax height ≤ t.capacityChildren height := by
    refine (min_le_right _ _).trans ?_
    rw [subSize_of_le room]
    exact Nat.sub_le _ _
  exact most.trans (tall.window_le (show height - 1 ≤ t.height by omega))

/-- The conversions of the least fill do not change it. -/
theorem Fed.fillMin_eq (fed : t.Fed c) (tall : t.Tall) :
    t.fillMin c = c.cardinality - t.sizeMax c.height := by
  have cells := fed.cells_le tall
  have most := tall.sizeMax_le fed.root
  unfold maxElements at cells most
  rw [fillMin, int64_self (by omega) (by omega)]
  omega

/-- A call divides its window in range, and its halves keep what it keeps. -/
theorem Fed.children (fed : t.Fed c) (tall : t.Tall) (uneven : Uneven c) :
    t.InRange balance weights c ∧ t.Fed (callLeft c (t.findSplit balance weights c)) ∧
      t.Fed (callRight c (t.findSplit balance weights c)) := by
  have leaf := fed.leaf
  have several : 2 ≤ c.height := by
    by_contra low
    have single := fed.segments
    rw [show c.height - 1 = 0 by omega] at single
    exact uneven.1 single
  have root := fed.root
  obtain ⟨lower, upper⟩ := fed.divisible several
  have fillMax : t.fillMax c = c.cardinality - t.sizeMin c.height := subSize_of_le (by omega)
  have order : t.splitStart c ≤ t.splitEnd c := by
    rw [splitStart, splitEnd, fed.fillMin_eq tall, fillMax]
    omega
  obtain ⟨first, last⟩ := t.splitAfter_splitnum balance weights c (t.splitEnd c - t.splitStart c)
  rw [Nat.add_sub_cancel' order] at last
  change t.splitStart c ≤ (t.findSplit balance weights c).splitnum at first
  change (t.findSplit balance weights c).splitnum ≤ t.splitEnd c at last
  rw [splitStart, fed.fillMin_eq tall] at first
  rw [splitEnd, fillMax] at last
  have within : (t.findSplit balance weights c).splitnum ≤ c.cardinality := by omega
  have halves : c.numSegments / 2 = 2 ^ (c.height - 1 - 1) ∧
      c.numSegments - c.numSegments / 2 = 2 ^ (c.height - 1 - 1) := by
    have double := Nat.pow_succ' (m := 2) (n := c.height - 1 - 1)
    rw [Nat.succ_eq_add_one, Nat.sub_add_cancel (by omega), ← fed.segments] at double
    omega
  have height : c.height - 1 + 1 = c.height := by omega
  have right : subSize c.cardinality (t.findSplit balance weights c).splitnum =
      c.cardinality - (t.findSplit balance weights c).splitnum := subSize_of_le within
  refine ⟨⟨order, by omega, within⟩, ?_, ?_⟩
  · refine tall.fed (c := callLeft c _) ?_ ?_ halves.1 ?_ ?_
    · simp only [callLeft]
      omega
    · simp only [callLeft]
      omega
    · simp only [callLeft, height]
      omega
    · simp only [callLeft, height]
      omega
  · refine tall.fed (c := callRight c _) ?_ ?_ halves.2 ?_ ?_
    · simp only [callRight]
      omega
    · simp only [callRight]
      omega
    · simp only [callRight, height, right]
      omega
    · simp only [callRight, height, right]
      omega

/-- All the calls keep what the first one keeps. -/
theorem Fed.reaches {first : Call} (fed : t.Fed first) (tall : t.Tall)
    (reaches : t.Reaches balance weights first c) : t.Fed c := by
  induction reaches with
  | refl => exact fed
  | tail _ step ih =>
      cases step with
      | left uneven => exact (ih.children tall uneven).2.1
      | right uneven => exact (ih.children tall uneven).2.2

end Split

/-! ## The vector of the partitions -/

section Vector

variable {t : ApmaBaseline} {balance : Balance} {weights : Weights} {c : Call}
  {adjustment : Int} {before window after : List Nat}

theorem writePartition_eq {x value : Nat} (after : List Nat) (at_ : adjustment = before.length)
    (small : value < 2 ^ 16) :
    writePartition (before ++ x :: after) adjustment value = some (before ++ value :: after) := by
  rw [writePartition, if_pos (by simp; omega), at_, Int.toNat_natCast, uint16,
    Nat.mod_eq_of_lt small, List.set_append_right _ _ le_rfl, Nat.sub_self, List.set_cons_zero]

/-- The even rebalancing of the segments from the `j`-th of the window on. -/
theorem writeEven_eq (n j : Nat) (before window after : List Nat)
    (at_ : adjustment + (c.segmentStart + j : Nat) = before.length)
    (length : window.length = n)
    (small : ∀ i, evenSize c.cardinality c.numSegments i < 2 ^ 16) :
    writeEven adjustment c n (c.segmentStart + j) (before ++ window ++ after) =
      some (before ++ (List.range' j n).map (evenSize c.cardinality c.numSegments) ++ after) := by
  induction n generalizing j before window with
  | zero => simp [writeEven, List.length_eq_zero_iff.mp length]
  | succ n ih =>
      obtain ⟨x, rest, rfl⟩ := List.exists_cons_of_length_eq_add_one length
      have odd : (c.cardinality / c.numSegments + if c.segmentStart + j < c.segmentStart +
          c.cardinality % c.numSegments then 1 else 0) =
            evenSize c.cardinality c.numSegments j := by
        simp only [Nat.add_lt_add_iff_left, evenSize]
      have first := writePartition_eq (x := x) (rest ++ after) at_ (small j)
      have next := ih (j + 1) (before ++ [evenSize c.cardinality c.numSegments j]) rest
        (by push_cast at at_ ⊢; simp; omega) (by simpa using length)
      rw [writeEven]
      simp only [odd, List.append_assoc, List.cons_append, Option.bind_eq_bind]
      rw [first, Option.bind_some, Nat.add_assoc]
      simpa [List.range'_succ] using next

/-- What the partitions of a window are to be. -/
structure Quotas (t : ApmaBaseline) (c : Call) (sizes : List Nat) : Prop where
  length : sizes.length = c.numSegments
  sum : sizes.sum = c.cardinality
  least : ∀ q ∈ sizes, t.segmentCapacity / 4 ≤ q
  most : ∀ q ∈ sizes, q ≤ t.segmentCapacity - 1

/-- A call divides the elements of its window, and leaves the other partitions. -/
theorem Fed.compute (fed : t.Fed c) (tall : t.Tall) (balance : Balance) (weights : Weights)
    {fuel : Nat} (enough : c.height ≤ fuel) (before window after : List Nat)
    (at_ : adjustment + c.segmentStart = before.length) (length : window.length = c.numSegments) :
    ∃ sizes, t.apmaComputeRec balance weights adjustment fuel c (before ++ window ++ after) =
      some (before ++ sizes ++ after) ∧ t.Quotas c sizes := by
  have small := tall.small
  induction fuel generalizing c before window after with
  | zero =>
      have := fed.leaf
      omega
  | succ fuel ih =>
      rw [apmaComputeRec]
      by_cases single : c.numSegments = 1
      · obtain ⟨x, rfl⟩ := List.length_eq_one_iff.mp (length.trans single)
        have lower := fed.lower
        have room := fed.room
        rw [single, Nat.one_mul] at lower room
        rw [if_pos single, List.append_assoc, List.cons_append, List.nil_append,
          writePartition_eq after at_ (by omega)]
        refine ⟨[c.cardinality], by simp, ?_⟩
        constructor <;> simp [single, lower, room]
      · rw [if_neg single]
        by_cases even : c.weightsLength = 0
        · have positive : 0 < c.numSegments := by
            rw [fed.segments]
            exact Nat.two_pow_pos _
          have most := fun j => evenSize_le (j := j) fed.room positive
          have least := fun j => le_evenSize (j := j) fed.lower positive
          have written := writeEven_eq c.numSegments 0 before window after at_ length
            (fun j => (most j).trans_lt (by omega))
          rw [Nat.add_zero] at written
          rw [if_pos even, written, ← List.range_eq_range']
          refine ⟨_, rfl, by simp, sum_evenSize positive, fun q member => ?_, fun q member => ?_⟩
          · obtain ⟨j, -, rfl⟩ := List.mem_map.mp member
            exact least j
          · obtain ⟨j, -, rfl⟩ := List.mem_map.mp member
            exact most j
        · rw [if_neg even]
          obtain ⟨inRange, left, right⟩ :=
            @Fed.children t balance weights c fed tall ⟨single, even⟩
          have within := inRange.right
          generalize t.findSplit balance weights c = s at *
          have half : c.numSegments / 2 ≤ c.numSegments := Nat.div_le_self _ _
          have height : c.height - 1 ≤ fuel := by omega
          have parts : window = window.take (c.numSegments / 2) ++ window.drop (c.numSegments / 2) :=
            (List.take_append_drop _ _).symm
          have lengthL : (window.take (c.numSegments / 2)).length = c.numSegments / 2 := by
            rw [List.length_take]
            omega
          have lengthR : (window.drop (c.numSegments / 2)).length =
              c.numSegments - c.numSegments / 2 := by
            rw [List.length_drop]
            omega
          obtain ⟨sizesL, doneL, quotasL⟩ := ih left height before _
            (window.drop (c.numSegments / 2) ++ after) at_ lengthL
          have at' : adjustment + (callRight c s).segmentStart = (before ++ sizesL).length := by
            rw [List.length_append, quotasL.length]
            simp only [callRight, callLeft]
            push_cast at at_ ⊢
            omega
          obtain ⟨sizesR, doneR, quotasR⟩ := ih right height (before ++ sizesL) _ after at' lengthR
          have sumL := quotasL.sum
          have sumR := quotasR.sum
          have countL := quotasL.length
          have countR := quotasR.length
          simp only [callLeft, callRight] at sumL sumR countL countR
          rw [subSize_of_le within] at sumR
          simp only [List.append_assoc] at doneL doneR
          rw [parts]
          simp only [List.append_assoc, Option.bind_eq_bind, doneL, Option.bind_some, doneR]
          refine ⟨sizesL ++ sizesR, by rw [List.append_assoc], ?_, ?_, ?_, ?_⟩
          · rw [List.length_append]
            omega
          · rw [List.sum_append]
            omega
          · intro q member
            exact (List.mem_append.mp member).elim (quotasL.least q) (quotasR.least q)
          · intro q member
            exact (List.mem_append.mp member).elim (quotasL.most q) (quotasR.most q)

/-- The partitions of a window. -/
theorem apmaPartitions_eq {height cardinality segmentStart numSegments : Nat}
    (balance : Balance) (tall : t.Tall)
    (fed : t.Fed (firstCall weights height cardinality segmentStart numSegments)) :
    ∃ sizes, t.apmaPartitions balance weights height cardinality segmentStart numSegments =
      some sizes ∧ t.Quotas (firstCall weights height cardinality segmentStart numSegments) sizes := by
  obtain ⟨sizes, done, quotas⟩ := @Fed.compute t _ (-(segmentStart : Int)) fed tall balance
    weights _ le_rfl [] (List.replicate numSegments 0) [] (by simp [firstCall]) (by simp [firstCall])
  simp only [List.nil_append, List.append_nil] at done
  exact ⟨sizes, done, quotas⟩

end Vector

end ApmaBaseline

end Rma
