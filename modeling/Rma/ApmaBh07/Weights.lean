import Rma.ApmaBh07.Basic

/-!
# The weights of the windows

`Sound` says what the search for a split relies on: the slice of the weights lies in the
vector, the sums on the two sides of a split are those of the slice, the split that is
chosen is the most even one, and the slices of the two halves make up that of the window.

The loop reads the weight at the end of the slice in place of the one at the split, and
the slice of the right half starts at the number of weights on the left, counted from the
start of the vector. So the search is sound exactly for the calls that are `Undisturbed`:
no weight lies in the range of the split, and none lies after it unless the slice starts
the vector.
-/

namespace Rma

open Base

theorem Predictor.sorted_items (s : Predictor) (min max : Nat) :
    (s.items min max).Pairwise fun w1 w2 => w1.pointer ≤ w2.pointer := by
  unfold items weightedElements
  split
  · exact List.Pairwise.nil
  · refine List.Pairwise.imp of_decide_eq_true (List.pairwise_mergeSort ?_ ?_ _)
    · intro a b c
      simpa using fun h h' => Nat.le_trans h h'
    · intro a b
      simpa using Nat.le_total a.pointer b.pointer

namespace ApmaBh07

section Definitions

variable (p : ApmaBh07) (weights : List PermutedItem) (resize canFill : Bool)

/-- The weights of a call. -/
def slice (c : Call) : List PermutedItem := (weights.drop c.weightsStart).take c.weightsLength

/-- The positions of the weights of a call. -/
def positions (c : Call) : List Nat := List.range' c.weightsStart c.weightsLength

/-- The count of some weights. -/
def sumCounts (l : List PermutedItem) : Nat := (l.map PermutedItem.count).sum

/-- The total count of the slice. -/
def total (c : Call) : Nat := sumCounts (slice weights c)

/-- The count of the weights that are located before the split `i`. -/
def countBefore (c : Call) (i : Nat) : Nat :=
  sumCounts ((slice weights c).filter fun w => p.location w < p.indexStart c + i)

/-- How uneven the split `i` is. -/
def measure (c : Call) (i : Nat) : ℚ :=
  p.curvalue c i (p.countBefore weights c i) (total weights c - p.countBefore weights c i)

/-- The positions that a turn of the loop reads. -/
def turnReads (c : Call) (weightsPos i : Nat) (s : Split) : List Nat :=
  if s.nextPtr = some (p.indexStart c + i) then
    weightsPos :: if s.nextIndex + 1 < c.weightsStart + c.weightsLength then [s.nextIndex + 1] else []
  else []

/-- The search for a split uses the weights of the window, all of them and no other. -/
structure SplitSound (c : Call) : Prop where
  turns : ∀ turns ≤ p.splitMax canFill c - p.splitMin canFill c, ∃ s weightsPos,
    p.splitAfter weights canFill c turns = some (s, weightsPos) ∧
      s.sumLeft + s.sumRight = total weights c ∧
      s.sumLeft = p.countBefore weights c (p.splitMin canFill c + turns) ∧
      (turns < p.splitMax canFill c - p.splitMin canFill c →
        ∀ r ∈ p.turnReads c weightsPos (p.splitMin canFill c + turns + 1) s, r ∈ positions c)
  children : ∀ s, p.findSplit weights canFill c = some s →
    positions (c.left s) ++ positions (c.right s) = positions c
  least : ∀ s, p.findSplit weights canFill c = some s → ∀ i, p.splitMin canFill c ≤ i →
    i ≤ p.splitMax canFill c → p.splitMin canFill c ≤ s.splitnum ∧
      s.splitnum ≤ p.splitMax canFill c ∧ p.measure weights c s.splitnum ≤ p.measure weights c i

/-- A call that uses exactly the weights of its window. -/
structure Sound (c : Call) : Prop where
  slice : c.weightsStart + c.weightsLength ≤ weights.length
  split : Uneven resize c → p.SplitSound weights canFill c

/-- No weight lies in the range of the split, and none lies after it, unless the slice is at
the start of the vector. -/
def Undisturbed (c : Call) : Prop :=
  Uneven resize c →
    (∀ w ∈ ApmaBh07.slice weights c, p.location w < p.indexStart c + p.splitMin canFill c ∨
      p.indexStart c + p.splitMax canFill c ≤ p.location w) ∧
    (c.weightsStart = 0 ∨
      ∀ w ∈ ApmaBh07.slice weights c, p.location w < p.indexStart c + p.splitMin canFill c)

end Definitions

/-! ## The first split -/

section Search

variable {p : ApmaBh07} {weights : List PermutedItem} {resize canFill : Bool} {c : Call}
  {early late : List PermutedItem}

/-- The loop adds up the weights at the front of a slice that pass the test. -/
theorem sumWhile_eq (test : PermutedItem → Bool) {room pos : Nat} (sum : Nat)
    (inside : pos + room ≤ weights.length) : sumWhile weights test room pos sum =
      some (pos + (((weights.drop pos).take room).takeWhile test).length,
        sum + sumCounts (((weights.drop pos).take room).takeWhile test)) := by
  induction room generalizing pos sum with
  | zero => simp [sumWhile, sumCounts]
  | succ room ih =>
      have here : pos < weights.length := by omega
      rw [sumWhile, List.getElem?_eq_getElem here, List.drop_eq_getElem_cons here,
        List.take_succ_cons]
      simp only [Option.bind_eq_bind, Option.bind_some]
      by_cases passes : test weights[pos] = true
      · rw [if_pos passes, ih _ (by omega), List.takeWhile_cons_of_pos passes]
        simp only [sumCounts, List.length_cons, List.map_cons, List.sum_cons, Option.some.injEq,
          Prod.mk.injEq]
        omega
      · rw [if_neg passes, List.takeWhile_cons_of_neg passes]
        rfl

/-- The weights of a slice before the first split, and the others. -/
structure Divided (p : ApmaBh07) (weights : List PermutedItem) (canFill : Bool) (c : Call)
    (early late : List PermutedItem) : Prop where
  slice : slice weights c = early ++ late
  before : ∀ w ∈ early, p.location w < p.indexStart c + p.splitMin canFill c
  after : ∀ w ∈ late, p.indexStart c + p.splitMin canFill c ≤ p.location w

theorem exists_divided (sorted : weights.Pairwise fun w1 w2 => w1.pointer ≤ w2.pointer)
    (canFill : Bool) (c : Call) : ∃ early late, p.Divided weights canFill c early late ∧
      early = (slice weights c).takeWhile
        (fun w => p.location w < p.indexStart c + p.splitMin canFill c) := by
  refine ⟨_, (slice weights c).dropWhile
    (fun w => p.location w < p.indexStart c + p.splitMin canFill c),
    ⟨List.takeWhile_append_dropWhile.symm, ?_, ?_⟩, rfl⟩
  · intro w member
    have holds := List.mem_takeWhile_imp member
    exact of_decide_eq_true holds
  · intro w member
    have sortedSlice : (slice weights c).Pairwise fun w1 w2 => w1.pointer ≤ w2.pointer :=
      sorted.sublist ((List.take_sublist _ _).trans (List.drop_sublist _ _))
    cases rest : (slice weights c).dropWhile
        (fun w => p.location w < p.indexStart c + p.splitMin canFill c) with
    | nil => simp [rest] at member
    | cons first rest' =>
        have fails := List.head?_dropWhile_not
          (fun w => decide (p.location w < p.indexStart c + p.splitMin canFill c)) (slice weights c)
        rw [rest] at fails member
        have least : p.indexStart c + p.splitMin canFill c ≤ p.location first := by
          simpa using fails
        have sortedRest := sortedSlice.sublist (List.dropWhile_sublist
          (fun w => decide (p.location w < p.indexStart c + p.splitMin canFill c)))
        rw [rest] at sortedRest
        rcases List.mem_cons.mp member with rfl | later
        · exact least
        · have order := (List.pairwise_cons.mp sortedRest).1 w later
          exact least.trans (Nat.mul_le_mul_right _ order)

theorem Divided.total (divided : p.Divided weights canFill c early late) :
    total weights c = sumCounts early + sumCounts late := by
  simp [ApmaBh07.total, divided.slice, sumCounts]

/-- The weights that are not before the first split are sorted. -/
theorem Divided.sorted_late (divided : p.Divided weights canFill c early late)
    (sorted : weights.Pairwise fun w1 w2 => w1.pointer ≤ w2.pointer) :
    late.Pairwise fun w1 w2 => w1.pointer ≤ w2.pointer := by
  have sortedSlice : (ApmaBh07.slice weights c).Pairwise fun w1 w2 => w1.pointer ≤ w2.pointer :=
    sorted.sublist ((List.take_sublist _ _).trans (List.drop_sublist _ _))
  rw [divided.slice] at sortedSlice
  exact (List.pairwise_append.mp sortedSlice).2.1

/-- As long as the split does not pass a weight, the count before it stays. -/
theorem Divided.countBefore (divided : p.Divided weights canFill c early late) {i : Nat}
    (start : p.splitMin canFill c ≤ i) (quiet : ∀ w ∈ late, p.indexStart c + i ≤ p.location w) :
    p.countBefore weights c i = sumCounts early := by
  rw [ApmaBh07.countBefore, divided.slice, List.filter_append, List.filter_eq_self.mpr,
    List.filter_eq_nil_iff.mpr, List.append_nil]
  · intro w member
    simpa using quiet w member
  · intro w member
    have before := divided.before w member
    exact decide_eq_true (by omega)

/-- The weights that are not before the first split end the slice. -/
theorem Divided.late_eq (divided : p.Divided weights canFill c early late)
    (inside : c.weightsStart + c.weightsLength ≤ weights.length) :
    early.length + late.length = c.weightsLength ∧
      (weights.drop (c.weightsStart + early.length)).take late.length = late := by
  have split := divided.slice
  rw [ApmaBh07.slice] at split
  have size := congrArg List.length split
  rw [List.length_take, List.length_drop, List.length_append] at size
  have dropped := congrArg (List.drop early.length) split
  rw [List.drop_left, List.drop_take, List.drop_drop] at dropped
  have room : c.weightsLength - early.length = late.length := by omega
  rw [room] at dropped
  exact ⟨by omega, dropped⟩

/-- The pointer of the first weight that is not before the first split. -/
theorem Divided.pointerAt (divided : p.Divided weights canFill c early late)
    (inside : c.weightsStart + c.weightsLength ≤ weights.length) :
    p.pointerAt weights (c.weightsStart + early.length) (c.weightsStart + c.weightsLength) =
      some (late.head?.map fun w => p.location w + 1) := by
  rcases divided.late_eq inside with ⟨length, later⟩
  rw [ApmaBh07.pointerAt]
  cases late with
  | nil =>
      rw [if_neg (by rw [List.length_nil] at length; omega)]
      rfl
  | cons w rest =>
      have first := congrArg List.head? later
      rw [List.length_cons, List.head?_take, List.head?_drop, if_neg (Nat.succ_ne_zero _)] at first
      rw [if_pos (by rw [List.length_cons] at length; omega), first]
      rfl

/-- The variables at the first split. -/
theorem splitInit_eq (divided : p.Divided weights canFill c early late)
    (front : early = (slice weights c).takeWhile
      (fun w => p.location w < p.indexStart c + p.splitMin canFill c))
    (inside : c.weightsStart + c.weightsLength ≤ weights.length) :
    p.splitInit weights canFill c = some ({
      sumLeft := sumCounts early
      sumRight := sumCounts late
      nextIndex := if late = [] then 0 else c.weightsStart + early.length
      nextPtr := late.head?.map fun w => p.location w + 1
      optvalue := p.imbalance.value (sumCounts early) (sumCounts late)
        (p.capacityChildren c.height - p.splitMin canFill c)
        (max 1 (p.capacityChildren c.height - (c.cardinality - p.splitMin canFill c)))
      splitnum := p.splitMin canFill c
      weightsSplit := early.length }, c.weightsStart + c.weightsLength) := by
  rcases divided.late_eq inside with ⟨length, later⟩
  have first := sumWhile_eq (fun w => decide
    (p.location w < p.indexStart c + p.splitMin canFill c)) 0 inside
  rw [slice] at front
  rw [← front, Nat.zero_add] at first
  have room : c.weightsStart + c.weightsLength - (c.weightsStart + early.length) = late.length := by
    omega
  have second := sumWhile_eq (fun _ => true) 0
    (show c.weightsStart + early.length + late.length ≤ weights.length by omega)
  rw [later, List.takeWhile_eq_self_iff.mpr (fun _ _ => rfl), Nat.zero_add,
    Nat.add_assoc, length] at second
  have ends : (c.weightsStart + early.length < c.weightsStart + c.weightsLength) ↔ late ≠ [] := by
    rw [← length, ← List.length_pos_iff]
    omega
  unfold splitInit
  simp only [first, divided.pointerAt inside, room, second, Option.bind_eq_bind, Option.bind_some,
    ends, Nat.add_sub_cancel_left, ite_not]

/-! ## Turns that pass no weight -/

/-- The variables of the loop as long as it passes no weight. -/
structure Held (p : ApmaBh07) (weights : List PermutedItem) (canFill : Bool) (c : Call)
    (early late : List PermutedItem) (turns : Nat) (s : Split) : Prop where
  sumLeft : s.sumLeft = sumCounts early
  sumRight : s.sumRight = sumCounts late
  nextIndex : late ≠ [] → s.nextIndex = c.weightsStart + early.length
  nextPtr : s.nextPtr = late.head?.map fun w => p.location w + 1
  weightsSplit : s.weightsSplit = early.length
  lower : p.splitMin canFill c ≤ s.splitnum
  upper : s.splitnum ≤ p.splitMin canFill c + turns
  first : late = [] → s.splitnum = p.splitMin canFill c
  optvalue : p.splitMin canFill c < p.capacityChildren c.height →
    s.optvalue = p.curvalue c s.splitnum (sumCounts early) (sumCounts late)
  least : ∀ i, p.splitMin canFill c ≤ i → i ≤ p.splitMin canFill c + turns →
    p.curvalue c s.splitnum (sumCounts early) (sumCounts late) ≤
      p.curvalue c i (sumCounts early) (sumCounts late)

/-- With no weight on the right, the first split is the most even one. -/
theorem curvalue_le (p : ApmaBh07) (c : Call) (sumLeft : Nat) {i j : Nat} (order : i ≤ j) :
    p.curvalue c i sumLeft 0 ≤ p.curvalue c j sumLeft 0 := by
  apply p.imbalance.value_le <;> omega

/-- The loop holds its variables as long as it passes no weight. -/
theorem splitAfter_held (divided : p.Divided weights canFill c early late)
    (front : early = (slice weights c).takeWhile
      (fun w => p.location w < p.indexStart c + p.splitMin canFill c))
    (inside : c.weightsStart + c.weightsLength ≤ weights.length)
    (capacity : p.splitMax canFill c ≤ p.capacityChildren c.height) {turns : Nat}
    (within : turns ≤ p.splitMax canFill c - p.splitMin canFill c)
    (quiet : ∀ w ∈ late, p.indexStart c + (p.splitMin canFill c + turns) ≤ p.location w) :
    ∃ s, p.splitAfter weights canFill c turns = some (s, c.weightsStart + c.weightsLength) ∧
      Held p weights canFill c early late turns s := by
  induction turns with
  | zero =>
      refine ⟨_, splitInit_eq divided front inside, rfl, rfl, fun some => if_neg some, rfl, rfl,
        le_rfl, le_rfl, fun _ => rfl, ?_, ?_⟩
      · intro room
        have wide : (1 : Int) ≤ p.capacityChildren c.height - p.splitMin canFill c := by omega
        simp only [curvalue, max_eq_right wide]
      · intro i lower upper
        rw [Nat.le_antisymm upper lower]
        exact le_rfl
  | succ turns ih =>
      rcases ih (by omega) fun w member => by have := quiet w member; omega with ⟨s, after, held⟩
      have still : s.nextPtr ≠ some (p.indexStart c + (p.splitMin canFill c + turns + 1)) := by
        rw [held.nextPtr]
        cases late with
        | nil => exact nofun
        | cons w rest =>
            have far := quiet w (by simp)
            simp only [List.head?_cons, Option.map_some, ne_eq, Option.some.injEq]
            omega
      have known := held.optvalue (by omega)
      rw [splitAfter, after]
      simp only [splitTurn, if_neg still, Option.bind_eq_bind, Option.bind_some, held.sumLeft,
        held.sumRight]
      by_cases better : p.curvalue c (p.splitMin canFill c + turns + 1) (sumCounts early)
          (sumCounts late) < s.optvalue
      · rw [if_pos better, Option.bind_some]
        rw [known] at better
        have some : late ≠ [] := by
          rintro rfl
          rw [held.first rfl] at better
          exact absurd better (not_lt.mpr (curvalue_le p c _ (by omega)))
        refine ⟨_, rfl, rfl, rfl, held.nextIndex, held.nextPtr, ?_, by simp; omega,
          le_rfl, fun none => absurd none some, fun _ => rfl, ?_⟩
        · rw [held.nextIndex some, subSize, if_pos (by omega), Nat.add_sub_cancel_left]
        · intro i lower upper
          rcases Nat.lt_or_ge (p.splitMin canFill c + turns) i with last | earlier
          · rw [show i = p.splitMin canFill c + turns + 1 by omega]
          · exact better.le.trans (held.least i lower earlier)
      · rw [if_neg better, Option.bind_some]
        rw [known] at better
        refine ⟨_, rfl, held.sumLeft, held.sumRight, held.nextIndex, held.nextPtr,
          held.weightsSplit, held.lower, by have := held.upper; omega, held.first, held.optvalue, ?_⟩
        intro i lower upper
        rcases Nat.lt_or_ge (p.splitMin canFill c + turns) i with last | earlier
        · rw [show i = p.splitMin canFill c + turns + 1 by omega]
          exact not_lt.mp better
        · exact held.least i lower earlier

/-! ## One call -/

/-- The capacity of a half is a power of two, so that a density of it needs no rounding. -/
theorem share_eq (p : ApmaBh07) {density : ℚ} (float : IsDouble density) (height : Nat) :
    p.share density height = density * p.capacityChildren height := by
  rcases p.capacity_power with ⟨q, -, power⟩
  have capacity : (p.capacityChildren height : ℚ) = 2 ^ (q + (height - 1 - 1)) := by
    rw [capacityChildren, segmentsChildren, power, ← pow_add]
    push_cast
    rfl
  rw [share, capacity]
  exact p.densityBounds.rounding.round_of_isFloat (float.mul_pow _)

theorem share_theta (p : ApmaBh07) (k height : Nat) :
    p.share (p.thresholds k).2 height = (p.thresholds k).2 * p.capacityChildren height :=
  p.share_eq (p.densityBounds.thresholds_isDouble _ _).2 height

theorem share_rho (p : ApmaBh07) (k height : Nat) :
    p.share (p.thresholds k).1 height = (p.thresholds k).1 * p.capacityChildren height :=
  p.share_eq (p.densityBounds.thresholds_isDouble _ _).1 height

/-- A half does not hold more than its capacity. -/
theorem splitMax_le (p : ApmaBh07) (canFill : Bool) {c : Call} (tall : 2 ≤ c.height)
    (low : c.height ≤ p.height) : p.splitMax canFill c ≤ p.capacityChildren c.height := by
  have theta := p.densityBounds.theta_le_one (show 1 ≤ c.height - 1 by omega)
    (show c.height - 1 ≤ p.height by omega)
  have full : ⌊p.share (p.thresholds (c.height - 1)).2 c.height⌋₊ ≤
      p.capacityChildren c.height := by
    rw [share_theta]
    apply Nat.floor_le_of_le
    exact mul_le_of_le_one_left (Nat.cast_nonneg _) theta
  refine (min_le_left _ _).trans ?_
  rw [sizeMax]
  split
  · exact full
  · exact (min_le_left _ _).trans full

/-- The slice of the right half continues that of the left one when it is empty, or when the
slice of the window starts the vector. -/
theorem positions_children {s : Split} (within : s.weightsSplit ≤ c.weightsLength) :
    positions (c.left s) ++ positions (c.right s) = positions c ↔
      c.weightsStart = 0 ∨ s.weightsSplit = c.weightsLength := by
  have right : positions (c.right s) =
      List.range' s.weightsSplit (c.weightsLength - s.weightsSplit) := by
    simp [positions, Call.right, subSize, within]
  have split : positions c = List.range' c.weightsStart s.weightsSplit ++
      List.range' (c.weightsStart + s.weightsSplit) (c.weightsLength - s.weightsSplit) := by
    rw [List.range'_append_1, positions]
    congr 1
    omega
  rw [right, split]
  change List.range' c.weightsStart s.weightsSplit ++ _ = _ ↔ _
  rw [List.append_cancel_left_eq]
  rcases Nat.eq_zero_or_pos (c.weightsLength - s.weightsSplit) with none | some
  · rw [none]
    simp only [List.range'_zero, true_iff]
    omega
  · rcases Nat.exists_eq_succ_of_ne_zero (Nat.ne_of_gt some) with ⟨rest, eq⟩
    rw [eq, List.range'_succ, List.range'_succ]
    constructor
    · intro same
      have heads := (List.cons.inj same).1
      omega
    · rintro (start | all)
      · rw [start, Nat.zero_add]
      · omega

/-- The slices of the halves are no longer than that of the window. -/
theorem SplitSound.weightsSplit_le {s : Split} (sound : p.SplitSound weights canFill c)
    (found : p.findSplit weights canFill c = some s) : s.weightsSplit ≤ c.weightsLength := by
  have lengths := congrArg List.length (sound.children s found)
  simp only [positions, Call.left, Call.right, List.length_append, List.length_range', subSize]
    at lengths
  split at lengths <;> omega

/-- The loop meets a weight in the range of the split. -/
theorem exists_met (divided : p.Divided weights canFill c early late)
    (front : early = (slice weights c).takeWhile
      (fun w => p.location w < p.indexStart c + p.splitMin canFill c))
    (sorted : late.Pairwise fun w1 w2 => w1.pointer ≤ w2.pointer)
    (inside : c.weightsStart + c.weightsLength ≤ weights.length)
    (capacity : p.splitMax canFill c ≤ p.capacityChildren c.height) {w : PermutedItem}
    (member : w ∈ late) (near : p.location w < p.indexStart c + p.splitMax canFill c) :
    ∃ turns s, turns < p.splitMax canFill c - p.splitMin canFill c ∧
      p.splitAfter weights canFill c turns = some (s, c.weightsStart + c.weightsLength) ∧
      s.nextPtr = some (p.indexStart c + (p.splitMin canFill c + turns + 1)) := by
  obtain ⟨first, rest, rfl⟩ := List.exists_cons_of_ne_nil (List.ne_nil_of_mem member)
  have least : ∀ v ∈ first :: rest, p.location first ≤ p.location v := by
    intro v later
    rcases List.mem_cons.mp later with rfl | later
    · exact le_rfl
    · exact Nat.mul_le_mul_right _ ((List.pairwise_cons.mp sorted).1 v later)
  have lower := divided.after first (by simp)
  have upper := least w member
  -- the turn whose split is just after the weight
  obtain ⟨turns, turn⟩ : ∃ turns, p.location first =
      p.indexStart c + (p.splitMin canFill c + turns) :=
    ⟨p.location first - (p.indexStart c + p.splitMin canFill c), by omega⟩
  have before : turns < p.splitMax canFill c - p.splitMin canFill c := by omega
  rcases splitAfter_held divided front inside capacity before.le
    (fun v later => turn ▸ least v later) with ⟨s, after, held⟩
  refine ⟨turns, s, before, after, ?_⟩
  rw [held.nextPtr, List.head?_cons, Option.map_some, turn]
  congr 1

/-- A weight in the range of the split makes the loop read past the end of the slice. -/
theorem SplitSound.quiet (sound : p.SplitSound weights canFill c)
    (divided : p.Divided weights canFill c early late)
    (front : early = (slice weights c).takeWhile
      (fun w => p.location w < p.indexStart c + p.splitMin canFill c))
    (sorted : late.Pairwise fun w1 w2 => w1.pointer ≤ w2.pointer)
    (inside : c.weightsStart + c.weightsLength ≤ weights.length)
    (capacity : p.splitMax canFill c ≤ p.capacityChildren c.height) :
    ∀ w ∈ late, p.indexStart c + p.splitMax canFill c ≤ p.location w := by
  by_contra some
  simp only [not_forall, not_le] at some
  obtain ⟨w, member, near⟩ := some
  rcases exists_met divided front sorted inside capacity member near with
    ⟨turns, s, before, after, met⟩
  rcases sound.turns turns before.le with ⟨s', weightsPos, after', _, _, reads⟩
  rw [after, Option.some.injEq, Prod.mk.injEq] at after'
  rcases after' with ⟨rfl, rfl⟩
  have read := reads before (c.weightsStart + c.weightsLength) (by
    rw [turnReads, if_pos met]
    exact List.mem_cons_self)
  rw [positions, List.mem_range'_1] at read
  omega

/-- The search of a call is sound exactly when the call is undisturbed. -/
theorem splitSound_iff (sorted : weights.Pairwise fun w1 w2 => w1.pointer ≤ w2.pointer)
    (inside : c.weightsStart + c.weightsLength ≤ weights.length)
    (capacity : p.splitMax canFill c ≤ p.capacityChildren c.height) :
    p.SplitSound weights canFill c ↔
      (∀ w ∈ slice weights c, p.location w < p.indexStart c + p.splitMin canFill c ∨
        p.indexStart c + p.splitMax canFill c ≤ p.location w) ∧
      (c.weightsStart = 0 ∨
        ∀ w ∈ slice weights c, p.location w < p.indexStart c + p.splitMin canFill c) := by
  rcases p.exists_divided sorted canFill c with ⟨early, late, divided, front⟩
  rcases divided.late_eq inside with ⟨length, -⟩
  have sortedLate := divided.sorted_late sorted
  have early_or_late : ∀ w ∈ slice weights c, w ∈ early ∨ w ∈ late := by
    intro w member
    rwa [divided.slice, List.mem_append] at member
  -- when no weight is in the range of the split, the loop holds its variables to its end
  have run : (∀ w ∈ late, p.indexStart c + p.splitMax canFill c ≤ p.location w) → ∀ turns,
      turns ≤ p.splitMax canFill c - p.splitMin canFill c →
      ∃ s, p.splitAfter weights canFill c turns = some (s, c.weightsStart + c.weightsLength) ∧
        Held p weights canFill c early late turns s := by
    intro quiet turns within
    apply splitAfter_held divided front inside capacity within
    intro w member
    have lower := divided.after w member
    have far := quiet w member
    omega
  constructor
  · intro sound
    have quiet := sound.quiet divided front sortedLate inside capacity
    refine ⟨?_, ?_⟩
    · intro w member
      exact (early_or_late w member).imp (divided.before w) (quiet w)
    · rcases run quiet _ le_rfl with ⟨s, after, held⟩
      have found : p.findSplit weights canFill c = some s := by rw [findSplit, after]; rfl
      have whole := held.weightsSplit
      rcases (positions_children (by omega)).mp (sound.children s found) with start | all
      · exact .inl start
      · refine .inr fun w member => (early_or_late w member).elim (divided.before w) ?_
        have none : late = [] := List.eq_nil_of_length_eq_zero (by omega)
        rw [none]
        exact fun h => nomatch h
  · rintro ⟨apart, start⟩
    have quiet : ∀ w ∈ late, p.indexStart c + p.splitMax canFill c ≤ p.location w := by
      intro w member
      have lower := divided.after w member
      rcases apart w (by rw [divided.slice]; exact List.mem_append_right _ member) with h | h
      · omega
      · exact h
    have counts : ∀ i, p.splitMin canFill c ≤ i → i ≤ p.splitMax canFill c →
        p.countBefore weights c i = sumCounts early := by
      intro i lower upper
      apply divided.countBefore lower
      intro w member
      have far := quiet w member
      omega
    refine ⟨?_, ?_, ?_⟩
    · intro turns within
      rcases run quiet turns within with ⟨s, after, held⟩
      refine ⟨s, _, after, ?_, ?_, ?_⟩
      · rw [held.sumLeft, held.sumRight, divided.total]
      · rw [held.sumLeft]
        rcases Nat.lt_or_ge (p.splitMax canFill c) (p.splitMin canFill c) with empty | range
        · have zero : turns = 0 := by omega
          subst zero
          exact (divided.countBefore le_rfl divided.after).symm
        · exact (counts _ (by omega) (by omega)).symm
      · intro more r read
        rw [turnReads, held.nextPtr] at read
        cases late with
        | nil => cases read
        | cons w rest =>
            have far := quiet w (by simp)
            rw [List.head?_cons, Option.map_some, if_neg (by
              rw [Option.some.injEq]
              omega)] at read
            cases read
    · intro s found
      rcases run quiet _ le_rfl with ⟨s', after, held⟩
      rw [findSplit, after, Option.map_some, Option.some.injEq] at found
      subst found
      have whole := held.weightsSplit
      rw [positions_children (by simp only; omega)]
      refine start.imp_right fun all => ?_
      have none : late = [] := by
        cases late with
        | nil => rfl
        | cons w rest =>
            have before := all w (by simp [divided.slice])
            have after := divided.after w (by simp)
            omega
      rw [none, List.length_nil] at length
      simp only
      omega
    · intro s found i lower upper
      rcases run quiet _ le_rfl with ⟨s', after, held⟩
      rw [findSplit, after, Option.map_some, Option.some.injEq] at found
      subst found
      have least := held.least i lower (by omega)
      have bounds : p.splitMin canFill c ≤ s'.splitnum ∧ s'.splitnum ≤ p.splitMax canFill c :=
        ⟨held.lower, by have := held.upper; omega⟩
      refine ⟨bounds.1, bounds.2, ?_⟩
      rw [measure, measure, counts _ bounds.1 bounds.2, counts i lower upper, divided.total,
        Nat.add_sub_cancel_left]
      exact least

end Search

/-! ## All the calls -/

section Run

variable {p : ApmaBh07} {weights : List PermutedItem} {resize canFill : Bool}

/-- What holds of the windows of all the calls. -/
structure Window (p : ApmaBh07) (c : Call) : Prop where
  height_pos : 1 ≤ c.height
  height_le : c.height ≤ p.height
  numSegments : c.numSegments = 2 ^ (c.height - 1)

/-- An uneven window has two halves of half its length. -/
theorem Window.halves {c : Call} (window : p.Window c) (uneven : Uneven resize c) :
    2 ≤ c.height ∧ c.numSegments / 2 = 2 ^ (c.height - 1 - 1) ∧
      c.numSegments - c.numSegments / 2 = 2 ^ (c.height - 1 - 1) := by
  have several := uneven.1
  have size := window.numSegments
  have tall : 2 ≤ c.height := by
    rcases Nat.eq_or_lt_of_le window.height_pos with one | more
    · rw [← one] at size
      exact absurd size several
    · exact more
  rw [show c.height - 1 = c.height - 1 - 1 + 1 by omega, Nat.pow_succ] at size
  omega

theorem Window.left {c : Call} (window : p.Window c) (uneven : Uneven resize c) (s : Split) :
    p.Window (c.left s) := by
  rcases window.halves uneven with ⟨tall, left, _⟩
  have low := window.height_le
  exact ⟨show 1 ≤ c.height - 1 by omega, show c.height - 1 ≤ _ by omega, left⟩

theorem Window.right {c : Call} (window : p.Window c) (uneven : Uneven resize c) (s : Split) :
    p.Window (c.right s) := by
  rcases window.halves uneven with ⟨tall, _, right⟩
  have low := window.height_le
  exact ⟨show 1 ≤ c.height - 1 by omega, show c.height - 1 ≤ _ by omega, right⟩

/-- The windows of all the calls are those of the calibrator tree. -/
theorem Reaches.window {c d : Call} (reached : p.Reaches weights resize canFill c d)
    (window : p.Window c) : p.Window d := by
  induction reached with
  | refl => exact window
  | tail _ call ih =>
      cases call with
      | left uneven _ => exact ih.left uneven _
      | right uneven _ => exact ih.right uneven _

/-- **The partitioning uses the weights of each window exactly when no call is disturbed.**
For every content of the predictor, every window of the calibrator tree and every number of
elements, without a resize: all the recursive calls are sound if and only if all of them are
undisturbed. -/
theorem partitions_weights (p : ApmaBh07) (predictor : Predictor) (canFill : Bool)
    {height : Nat} (positive : 1 ≤ height) (low : height ≤ p.height)
    (cardinality windowStart : Nat) :
    let weights := predictor.items windowStart (windowStart + 2 ^ (height - 1) - 1)
    let first := firstCall weights height cardinality windowStart (2 ^ (height - 1))
    (∀ c, p.Reaches weights false canFill first c → p.Sound weights false canFill c) ↔
      ∀ c, p.Reaches weights false canFill first c → p.Undisturbed weights false canFill c := by
  intro weights first
  have sorted := predictor.sorted_items windowStart (windowStart + 2 ^ (height - 1) - 1)
  have window : p.Window first := ⟨positive, low, rfl⟩
  have call : ∀ c, p.Reaches weights false canFill first c →
      c.weightsStart + c.weightsLength ≤ weights.length → Uneven false c →
      (p.SplitSound weights canFill c ↔ _) := fun c reached inside uneven =>
    have windowC := reached.window window
    splitSound_iff sorted inside
      (splitMax_le p canFill (windowC.halves uneven).1 windowC.height_le)
  constructor
  · intro sound c reached uneven
    exact (call c reached (sound c reached).slice uneven).mp ((sound c reached).split uneven)
  · intro quiet
    have inside : ∀ c, p.Reaches weights false canFill first c →
        c.weightsStart + c.weightsLength ≤ weights.length := by
      intro c reached
      induction reached with
      | refl => exact (Nat.zero_add _).le
      | @tail c d reachedC next ih =>
          cases next with
          | left uneven found =>
              have sound := (call c reachedC ih uneven).mpr (quiet c reachedC uneven)
              have within := sound.weightsSplit_le found
              exact (Nat.add_le_add_left within _).trans ih
          | right uneven found =>
              have sound := (call c reachedC ih uneven).mpr (quiet c reachedC uneven)
              have within := sound.weightsSplit_le found
              simp only [Call.right, subSize, if_pos within]
              omega
    intro c reached
    exact ⟨inside c reached, fun uneven =>
      (call c reached (inside c reached) uneven).mpr (quiet c reached uneven)⟩

/-- In a window of two segments only the first call is uneven. -/
theorem Reaches.of_two {c d : Call} (reached : p.Reaches weights resize canFill c d)
    (two : c.numSegments = 2) (uneven : Uneven resize d) : d = c := by
  have leaf : d = c ∨ d.numSegments = 1 := by
    induction reached with
    | refl => exact .inl rfl
    | tail _ call ih =>
        cases call with
        | left above _ =>
            rcases ih above with rfl | one
            · exact .inr (by simp [Call.left, two])
            · exact absurd one above.1
        | right above _ =>
            rcases ih above with rfl | one
            · exact .inr (by simp [Call.right, two])
            · exact absurd one above.1
  exact leaf.resolve_right uneven.1

end Run

/-! ## Four segments -/

/-- Segments of 32 elements below a tree of height 3. -/
def threeLevels : ApmaBh07 where
  segmentCapacity := 32
  capacity_power := ⟨5, by decide, rfl⟩
  densityBounds := DensityBounds.wide
  height := 3
  imbalance := Imbalance.exact

/-- A predictor with an item for each of these segments. -/
def hammering (segments : List Nat) : Predictor where
  buffer := segments.map fun segment => ⟨segment, 1⟩
  capacity := segments.length + 1
  capacityMax := segments.length + 1
  tail := 0
  head := segments.length
  countMax := 1
  isEmpty := false

theorem partitions_weights_two : 2 ≤ threeLevels.height ∧
    ∀ c, threeLevels.Reaches ((hammering [0]).items 0 1) false true
      (firstCall ((hammering [0]).items 0 1) 2 40 0 2) c →
        threeLevels.Sound ((hammering [0]).items 0 1) false true c := by
  refine ⟨by decide, ?_⟩
  have weights : (hammering [0]).items 0 1 = [⟨0, 1, 0⟩] := by
    simp [Predictor.items, Predictor.weightedElements, Predictor.empty, Predictor.positions,
      hammering]
  have all := (partitions_weights threeLevels (hammering [0]) true (show 1 ≤ 2 by decide)
    (show 2 ≤ 3 by decide) 40 0).mpr
  have window : 0 + 2 ^ (2 - 1) - 1 = 1 := rfl
  simp only [window, weights] at all ⊢
  apply all
  intro c reached uneven
  rw [reached.of_two rfl uneven]
  decide +kernel

/-- With the second one of four segments hammered and 80 elements, the loop reads past the
weights. With the first and the last one hammered and 126 elements, the right half of the
right half is given the weight of the first segment. -/
theorem partitions_weights_fails :
    (¬∀ c, threeLevels.Reaches ((hammering [1]).items 0 3) false true
      (firstCall ((hammering [1]).items 0 3) 3 80 0 4) c →
        threeLevels.Sound ((hammering [1]).items 0 3) false true c) ∧
    ¬∀ c, threeLevels.Reaches ((hammering [0, 3]).items 0 3) false true
      (firstCall ((hammering [0, 3]).items 0 3) 3 126 0 4) c →
        threeLevels.Sound ((hammering [0, 3]).items 0 3) false true c := by
  have one : (hammering [1]).items 0 3 = [⟨1, 1, 0⟩] := by
    simp [Predictor.items, Predictor.weightedElements, Predictor.empty, Predictor.positions,
      hammering]
  have two : (hammering [0, 3]).items 0 3 = [⟨0, 1, 0⟩, ⟨3, 1, 1⟩] := by
    simp [Predictor.items, Predictor.weightedElements, Predictor.empty, Predictor.positions,
      hammering, List.range', List.mergeSort]
  rw [one, two]
  constructor
  · intro sound
    have search := (sound _ .refl).split (by decide)
    rcases search.turns 16 (by decide +kernel) with ⟨s, weightsPos, after, -⟩
    have undefined : (threeLevels.splitAfter [⟨1, 1, 0⟩] true
        (firstCall [⟨1, 1, 0⟩] 3 80 0 4) 16).isNone = true := by decide +kernel
    rw [after] at undefined
    cases undefined
  · intro sound
    have divided : (threeLevels.findSplit [⟨0, 1, 0⟩, ⟨3, 1, 1⟩] true
        (firstCall [⟨0, 1, 0⟩, ⟨3, 1, 1⟩] 3 126 0 4)).map (fun s =>
          (firstCall [⟨0, 1, 0⟩, ⟨3, 1, 1⟩] 3 126 0 4).right s) = some ⟨2, 63, 2, 2, 1, 1⟩ := by
      decide +kernel
    obtain ⟨s, found, right⟩ := Option.map_eq_some_iff.mp divided
    have half := (sound _ (.single (.right (by decide) found))).split
    rw [right] at half
    have positions := (half (by decide)).children
    have divided' : (threeLevels.findSplit [⟨0, 1, 0⟩, ⟨3, 1, 1⟩] true ⟨2, 63, 2, 2, 1, 1⟩).map
        (fun s => (ApmaBh07.positions ((⟨2, 63, 2, 2, 1, 1⟩ : Call).left s),
          ApmaBh07.positions ((⟨2, 63, 2, 2, 1, 1⟩ : Call).right s))) = some ([], [0]) := by
      decide +kernel
    obtain ⟨s', found', slices⟩ := Option.map_eq_some_iff.mp divided'
    have whole := positions s' found'
    rw [(Prod.mk.inj slices).1, (Prod.mk.inj slices).2] at whole
    exact absurd whole (by decide)

end ApmaBh07

end Rma
