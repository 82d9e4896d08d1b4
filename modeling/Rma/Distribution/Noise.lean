import Rma.Distribution.Apma

/-!
# The noise workload

The constructor of the noise distribution collects the positions of the values below the threshold
and stores these values again, in increasing order. A position of `2 ^ 31` does not fit in the
`int` of the array, and the store that it leads to is outside of the permutation.
-/

namespace Rma

open Base RandomPermutation

namespace Distribution.NoiseDistribution

/-! ## The positions below the threshold -/

section Positions

variable {permutation : CByteArray} {π : List Nat} {threshold : Nat}

/-- The positions of the values below the threshold, of `room` positions from `i` on. -/
def positions (π : List Nat) (threshold i room : Nat) : List Nat :=
  (List.range' i room).filter fun j => π.getD j threshold < threshold

theorem positions_succ {i s : Nat} (read : π[i]? = some s) (room : Nat) :
    positions π threshold i (room + 1) = if s < threshold
      then i :: positions π threshold (i + 1) room else positions π threshold (i + 1) room := by
  have value : π.getD i threshold = s := by
    rw [List.getD_eq_getElem?_getD, read, Option.getD_some]
  rw [positions, List.range'_succ, List.filter_cons, value, ← positions]
  simp only [decide_eq_true_eq]

theorem collect_spec (read : ∀ i, getRawKey permutation i = π[i]?) (room i : Nat)
    (within : i + room ≤ π.length) (reordering : List Int)
    (fits : reordering.length + (positions π threshold i room).length ≤ threshold) :
    collect permutation threshold room i reordering =
      some (reordering ++ (positions π threshold i room).map fun j : Nat => toInt j) := by
  induction room generalizing i reordering with
  | zero => simp [collect, positions]
  | succ room ih =>
      obtain ⟨s, found⟩ : ∃ s, π[i]? = some s := ⟨_, List.getElem?_eq_getElem (by omega)⟩
      rw [positions_succ found] at fits ⊢
      rw [collect, read, found, Option.bind_eq_bind, Option.bind_some]
      by_cases below : s < threshold
      · rw [if_pos below, List.length_cons] at fits
        rw [if_pos below, if_pos below, if_pos (by omega), ih (i + 1) (by omega) _ (by
          rw [List.length_append, List.length_singleton]
          omega), List.map_cons, List.append_assoc, List.singleton_append]
      · rw [if_neg below] at fits
        rw [if_neg below, if_neg below, ih (i + 1) (by omega) _ fits]

/-- As many positions as there are values below the threshold. -/
theorem length_positions {n : Nat} (perm : π.Perm (List.range n)) (less : threshold ≤ n) :
    (positions π threshold 0 n).length = threshold := by
  have length := perm.length_eq
  rw [List.length_range] at length
  have listed : (List.range n).map (fun j => π.getD j threshold) = π := by
    refine List.ext_getElem? fun j => ?_
    by_cases inside : j < n
    · rw [List.getElem?_map, List.getElem?_range inside, Option.map_some,
        List.getD_eq_getElem?_getD, List.getElem?_eq_getElem (by omega), Option.getD_some]
    · rw [List.getElem?_eq_none (by rw [List.length_map, List.length_range]; omega),
        List.getElem?_eq_none (by omega)]
  have below : ∀ m, (List.range m).countP (fun j => decide (j < threshold)) = min m threshold := by
    intro m
    induction m with
    | zero => simp
    | succ m ih =>
        rw [List.range_succ, List.countP_append, ih, List.countP_singleton]
        split_ifs with here <;> simp only [decide_eq_true_eq] at here <;> omega
  have counted := perm.countP_eq fun j => decide (j < threshold)
  rw [below, ← listed, List.countP_map] at counted
  rw [positions, ← List.range_eq_range', ← List.countP_eq_length_filter]
  exact counted.trans (by omega)

theorem mem_positions {n i s : Nat} (inside : i < n) (read : π[i]? = some s) :
    i ∈ positions π threshold 0 n ↔ s < threshold := by
  rw [positions, ← List.range_eq_range', List.mem_filter, List.mem_range,
    List.getD_eq_getElem?_getD, read, Option.getD_some, decide_eq_true_eq]
  exact and_iff_right inside

end Positions

/-! ## The values in order -/

section Reorder

variable {c : CByteArray} {n : Nat}

/-- The values are stored in the positions, one after the other. -/
theorem reorder_spec {ps : List Nat} (nodup : ps.Nodup) (stored : ∀ i < ps.length,
    CByteArray.stored n (i : Nat) = (i : Nat)) (room i : Nat) (within : i + room ≤ ps.length)
    {l : List Nat} (inside : ∀ p ∈ ps, p < l.length) (few : l.length < 2 ^ 64)
    (holds : c.Holds n (l.map Nat.cast)) :
    ∃ (c' : CByteArray) (l' : List Nat), reorder (ps.map Nat.cast) room i c = some c' ∧
      c'.Holds n (l'.map Nat.cast) ∧ l'.length = l.length ∧
      (∀ j p : Nat, i ≤ j → j < i + room → ps[j]? = some p → l'[p]? = some j) ∧
      ∀ p : Nat, (∀ j : Nat, i ≤ j → ps[j]? ≠ some p) → l'[p]? = l[p]? := by
  induction room generalizing i l c with
  | zero => exact ⟨c, l, rfl, holds, rfl, fun j p lower upper => by omega, fun _ _ => rfl⟩
  | succ room ih =>
      obtain ⟨p, found⟩ : ∃ p, ps[i]? = some p := ⟨_, List.getElem?_eq_getElem (by omega)⟩
      have less := inside p (List.mem_of_getElem? found)
      obtain ⟨c₁, store, holds₁⟩ := holds.set (by rwa [List.length_map]) (i : Int)
      rw [stored i (by omega), ← List.map_set] at holds₁
      obtain ⟨c', l', rest, holds', length, here, others⟩ := ih (i + 1) (by omega)
        (fun q member => by rw [List.length_set]; exact inside q member)
        (by rwa [List.length_set]) holds₁
      refine ⟨c', l', ?_, holds', by rw [length, List.length_set],
        fun j q lower upper read => ?_, fun q absent => ?_⟩
      · rw [reorder, List.getElem?_map, found, Option.map_some, Option.bind_eq_bind,
          Option.bind_some, sizeT_of_lt (by omega), store]
        exact rest
      · rcases Nat.eq_or_lt_of_le lower with rfl | later
        · obtain rfl : p = q := Option.some.inj (found.symm.trans read)
          rw [others p fun j later found' => ?_, List.getElem?_set_self less]
          have same := (List.getElem?_inj (by omega) nodup).mp (found.trans found'.symm)
          omega
        · exact here j q later (by omega) read
      · rw [others q fun j later => absent j (by omega), List.getElem?_set_ne]
        exact fun same => absent i le_rfl (same ▸ found)

/-- A store outside of the permutation is undefined: `set_value_at` does not check the index. -/
theorem reorder_eq_none {reordering : List Int} {j : Nat} {x : Int}
    (read : reordering[j]? = some x) (outside : c.capacity ≤ sizeT x) {room i : Nat}
    (lower : i ≤ j) (upper : j < i + room) : reorder reordering room i c = none := by
  induction room generalizing i c with
  | zero => omega
  | succ room ih =>
      rw [reorder]
      refine Option.bind_eq_none_iff.mpr fun y here => Option.bind_eq_none_iff.mpr fun c' set => ?_
      have stored : sizeT y < c.capacity ∧ c'.capacity = c.capacity := by
        by_cases room : sizeT y < c.capacity
        · obtain ⟨c₁, result, -, capacity, -⟩ := CByteArray.setValueAt_spec room (i : Int)
          rw [result] at set
          exact ⟨room, Option.some.inj set ▸ capacity⟩
        · rw [CByteArray.setValueAt, if_neg room] at set
          cases set
      rcases Nat.eq_or_lt_of_le lower with rfl | later
      · rw [read] at here
        cases here
        omega
      · exact ih (by rw [stored.2]; exact outside) later (by omega)

end Reorder

/-! ## The distribution -/

section Create

variable {direction : Direction} {size threshold noBuckets : Nat} {alpha : ℚ} {o : Outcome}

/-- The constructor, up to the order of the values below the threshold. -/
theorem create_eq (small : size < 2 ^ 63) (noise : 0 < alpha ∧ alpha < 1)
    (less : threshold < size) {rp : CByteArray} {π : List Nat}
    (run : computeRandomPermutationParallel size noBuckets o = some rp)
    (read : ∀ i, getRawKey rp i = π[i]?) (perm : π.Perm (List.range size)) :
    create direction size alpha threshold noBuckets o =
      (reorder ((positions π threshold 0 size).map fun j : Nat => toInt j) threshold 0 rp).map
        fun permutation => ⟨⟨direction, 1, (1 + threshold : Nat)⟩, permutation, threshold, size, 0,
          size⟩ := by
  have length := perm.length_eq
  rw [List.length_range] at length
  have sequential : Sequential.create direction 1 (int64 (threshold + 1)) =
      some ⟨direction, 1, (1 + threshold : Nat)⟩ := by
    rw [int64_of_lt (by omega) (by omega), Sequential.create, if_neg (by omega)]
    congr 2
    omega
  have collected := collect_spec read size 0 (by omega) []
    (by rw [List.length_nil, Nat.zero_add, length_positions perm less.le])
  rw [create, if_neg (by omega), if_neg (by rw [not_or, not_le, not_le]; exact noise), sequential,
    Option.bind_eq_bind, Option.bind_some, run, Option.bind_eq_bind, Option.bind_some, collected,
    Option.bind_eq_bind, Option.bind_some, List.nil_append]
  cases reorder ((positions π threshold 0 size).map fun j : Nat => toInt j) threshold 0 rp <;> rfl

/-- A noise distribution is a permutation where the positions of its values below the threshold
fit in an `int`, and the keys below the threshold are in the sequence. -/
theorem create_spec (positive : 0 < size) (small : size < 2 ^ 63) (noise : 0 < alpha ∧ alpha < 1)
    (less : threshold < size) (fits : size ≤ 2 ^ 31 ∨ threshold = 0) (several : 0 < noBuckets)
    (drawn : o.Drawn size noBuckets) :
    ∃ d, create direction size alpha threshold noBuckets o = some d ∧
      Permutes size d.size d.key ∧
      ∀ i < size, ∃ offset, getRawKey d.permutation i = some offset ∧
        (offset < d.threshold → offset < d.sequential.size) := by
  obtain ⟨rp, π, run, capacity, holds, read, perm⟩ := rawKeys positive (by omega) several drawn
  have length := perm.length_eq
  rw [List.length_range] at length
  have nodup := perm.nodup_iff.mpr List.nodup_range
  obtain ⟨bytes, bytesLe, room⟩ := @computeBytesPerElements_spec size (by omega)
  obtain ⟨ps, collected⟩ : ∃ ps, positions π threshold 0 size = ps := ⟨_, rfl⟩
  have count := length_positions perm less.le
  have member : ∀ (i s : Nat), i < size → π[i]? = some s → (i ∈ ps ↔ s < threshold) :=
    fun i s inside found => collected ▸ mem_positions inside found
  have inside : ∀ p ∈ ps, p < size := by
    intro p found
    rw [← collected, positions, ← List.range_eq_range', List.mem_filter] at found
    exact List.mem_range.mp found.1
  have nodup' : ps.Nodup := by
    rw [← collected, positions, ← List.range_eq_range']
    exact List.nodup_range.filter _
  rw [collected] at count
  -- the positions fit, or there are none
  have positions_fit : (ps.map fun j : Nat => toInt j) = ps.map Nat.cast := by
    refine List.map_congr_left fun p found => ?_
    rcases fits with few | empty
    · exact toInt_of_lt (Int.natCast_nonneg p) (by have := inside p found; omega)
    · rw [List.eq_nil_of_length_eq_zero (count.trans empty)] at found
      cases found
  obtain ⟨c, l, reordered, holds', lengthL, here, others⟩ := reorder_spec nodup' (fun i below =>
      CByteArray.stored_of_lt bytesLe (Int.natCast_nonneg i)
        (by exact_mod_cast Nat.lt_of_lt_of_le (show i < size by omega) room) (by omega))
    threshold 0 (by omega) (fun p found => by rw [length]; exact inside p found)
    (by omega) holds
  have value : ∀ i < size, ∃ v, l[i]? = some v ∧ v < size ∧
      (v < threshold ∧ ps[v]? = some i ∨ threshold ≤ v ∧ π[i]? = some v) := by
    intro i below
    obtain ⟨s, found⟩ : ∃ s, π[i]? = some s := ⟨_, List.getElem?_eq_getElem (by omega)⟩
    by_cases first : i ∈ ps
    · obtain ⟨j, position⟩ := List.mem_iff_getElem?.mp first
      have bound := (List.getElem?_eq_some_iff.mp position).1
      exact ⟨j, here j i (Nat.zero_le j) (by omega) position, by omega,
        Or.inl ⟨by omega, position⟩⟩
    · have kept := others i fun j _ position => first (List.mem_of_getElem? position)
      have sBound := List.mem_range.mp (perm.mem_iff.mp (List.mem_of_getElem? found))
      exact ⟨s, kept.trans found, sBound,
        Or.inr ⟨by rw [← not_lt, ← member i s below found]; exact first, found⟩⟩
  choose! f readL bound source using value
  have raw : ∀ i < size, getRawKey c i = some (f i) := by
    intro i below
    have := bound i below
    rw [getRawKey, holds'.get, List.getElem?_map, readL i below, Option.map_some, Option.map_some,
      sizeT_of_lt (by omega)]
  refine ⟨⟨⟨direction, 1, (1 + threshold : Nat)⟩, c, threshold, size, 0, size⟩, ?_, ?_,
    fun i below => ⟨f i, raw i below, fun under => ?_⟩⟩
  · rw [create_eq small noise less run read perm, collected, positions_fit, reordered]
    rfl
  · rw [show (NoiseDistribution.mk _ c threshold size 0 size).size = size from
      sizeT_sub_zero small]
    refine permutes_of_injective (f := fun i =>
      if f i < threshold then direction.place threshold (f i) else f i) (fun i below => ?_)
      (fun i below => ?_) (fun i belowI j belowJ same => ?_)
    · have less := bound i below
      rw [NoiseDistribution.key]
      dsimp only
      rw [sizeT_add_zero (by omega), raw i below, Option.bind_eq_bind, Option.bind_some]
      split_ifs with under
      · rw [show (1 : Int) = (1 : Nat) by rfl, Sequential.key_eq (by omega) under]
        congr 1
        omega
      · rw [int64_of_lt (by omega) (by omega)]
    · have less := bound i below
      split_ifs with under
      · have := direction.place_lt under
        omega
      · exact less
    · have equal : f i = f j := by
        split_ifs at same with underI underJ underJ
        · exact direction.place_injective underI underJ same
        · have := direction.place_lt underI
          omega
        · have := direction.place_lt underJ
          omega
        · exact same
      rcases source i belowI with ⟨under, positionI⟩ | ⟨above, readI⟩ <;>
        rcases source j belowJ with ⟨under', positionJ⟩ | ⟨above', readJ⟩
      · exact Option.some.inj (positionI.symm.trans (equal ▸ positionJ))
      · omega
      · omega
      · exact (List.getElem?_inj (by omega) nodup).mp (by rw [readI, readJ, equal])
  · change f i < Sequential.size ⟨direction, (1 : Nat), (1 + threshold : Nat)⟩
    rwa [Sequential.size_eq (by omega)]

/-- A value below the threshold in position `2 ^ 31` is stored outside of the permutation. -/
theorem create_eq_none (small : size < 2 ^ 63) (noise : 0 < alpha ∧ alpha < 1)
    (less : threshold < size) {rp : CByteArray} {π : List Nat}
    (run : computeRandomPermutationParallel size noBuckets o = some rp)
    (capacity : rp.capacity = size) (read : ∀ i, getRawKey rp i = π[i]?)
    (perm : π.Perm (List.range size)) {s : Nat} (far : π[2 ^ 31]? = some s)
    (below : s < threshold) : create direction size alpha threshold noBuckets o = none := by
  have length := perm.length_eq
  rw [List.length_range] at length
  have inside := (List.getElem?_eq_some_iff.mp far).1
  obtain ⟨j, position⟩ := List.mem_iff_getElem?.mp
    ((mem_positions (n := size) (by omega) far).mpr below)
  have bound := (List.getElem?_eq_some_iff.mp position).1
  rw [length_positions perm less.le] at bound
  have outside : sizeT (toInt ((2 ^ 31 : Nat) : Int)) = 2 ^ 64 - 2 ^ 31 := by decide +kernel
  rw [create_eq small noise less run read perm, reorder_eq_none (j := j)
    (x := toInt ((2 ^ 31 : Nat) : Int)) (by rw [List.getElem?_map, position, Option.map_some])
    (by rw [outside, capacity]; omega) (Nat.zero_le j) (by omega)]
  rfl

end Create

end Distribution.NoiseDistribution

end Rma
