import Rma.Base.Swap

/-!
# The rank of the timestamps

`Weights::rank` selects the element of a given rank among the timestamps of the detector. The
array is narrowed from either side around the position of a pivot, which `partition` finds with
a single pass: the elements before `i_lt` are smaller than the pivot, those from `i_lt` to `i_eq`
are equal to it, and those from `i_eq` to `i_gt` are greater.
-/

namespace Rma

open Base

namespace Weights

/-! ## Selection -/

/-- The array and the two boundaries of `partition`. -/
structure Boundaries where
  array : List Int
  iLt : Nat
  iEq : Nat

/-- The body of the loop of `partition` on the array from `base` on. -/
def partitionTurn (base : Nat) (pivot : Int) (iGt : Nat) (b : Boundaries) : Option Boundaries := do
  let x ← b.array[base + iGt]?
  if x = pivot then do
    let array ← swapAt b.array (base + b.iEq) (base + iGt)
    some ⟨array, b.iLt, b.iEq + 1⟩
  else if x < pivot then do
    let array ← swapAt b.array (base + b.iLt) (base + iGt)
    let array ← swapAt array (base + b.iEq) (base + iGt)
    some ⟨array, b.iLt + 1, b.iEq + 1⟩
  else some b

/-- The last `count` turns of the loop, from `i_gt` on. -/
def partitionLoop (base : Nat) (pivot : Int) : (count iGt : Nat) → Boundaries → Option Boundaries
  | 0, _, b => some b
  | count + 1, iGt, b =>
    (partitionTurn base pivot iGt b).bind (partitionLoop base pivot count (iGt + 1))

/-- `partition(A, length)` on the array from `base` on. -/
def partition (array : List Int) (base length : Nat) : Option (List Int × Nat) := do
  let array ← swapAt array base (base + length / 2)
  let pivot ← array[base]?
  let b ← partitionLoop base pivot (length - 1) 1 ⟨array, 0, 1⟩
  some (b.array, b.iLt)

/-- The loop of `rank`, with a bound on the number of its turns: the element, and the array. -/
def rankLoop : (turns : Nat) → List Int → (base length rank : Nat) → Option (Int × List Int)
  | 0, _, _, _, _ => none
  | turns + 1, array, base, length, rank =>
    if length > 1 then do
      let (array, p) ← partition array base length
      if p = rank then do
        let x ← array[base + p]?
        some (x, array)
      else if rank < p then rankLoop turns array base p rank
      else rankLoop turns array (base + (p + 1)) (length - (p + 1)) (rank - (p + 1))
    else do
      let x ← array[base]?
      some (x, array)

/-- `rank(A, length, rank)` -/
def rank (array : List Int) (length rank : Nat) : Option (Int × List Int) :=
  rankLoop length array 0 length rank

/-! ## Partition -/

/-- The part of the array from `base` on that has been partitioned, and what follows it. -/
structure Partitioned (pre : List Int) (pivot : Int) (rest : List Int) (b : Boundaries)
    (lt : List Int) (equal : Nat) (gt : List Int) : Prop where
  array : b.array = pre ++ (lt ++ List.replicate (equal + 1) pivot ++ gt ++ rest)
  iLt : b.iLt = lt.length
  iEq : b.iEq = lt.length + (equal + 1)
  smaller : ∀ y ∈ lt, y < pivot
  greater : ∀ y ∈ gt, pivot < y

section Partition

variable {pre rest post lt gt : List Int} {pivot x : Int} {b : Boundaries} {equal base : Nat}

/-- An element that equals the pivot is put after the equal ones, in place of a greater one. -/
theorem swap_equal {a : List Int} {i j : Nat} (first : a.length = i)
    (second : i + gt.length = j) : ∃ gt' : List Int, gt'.Perm gt ∧
      swapAt (a ++ gt ++ x :: rest) i j = some (a ++ [x] ++ gt' ++ rest) := by
  cases gt with
  | nil =>
      obtain rfl : i = j := second
      exact ⟨[], .refl _, by simpa using swapAt_self first⟩
  | cons g gs =>
      refine ⟨gs ++ [g], List.perm_append_singleton g gs, ?_⟩
      have swapped := @swapAt_middle _ i j g x a gs rest first
        (by simp only [List.length_append, List.length_cons] at second ⊢; omega)
      simpa using swapped

/-- The turn of the loop for the next element. -/
theorem Partitioned.turn (parted : Partitioned pre pivot (x :: rest) b lt equal gt)
    (start : pre.length = base) : ∃ b' lt' equal' gt',
      partitionTurn base pivot (lt.length + (equal + 1) + gt.length) b = some b' ∧
      Partitioned pre pivot rest b' lt' equal' gt' ∧
      lt'.length + (equal' + 1) + gt'.length = lt.length + (equal + 1) + gt.length + 1 ∧
      b'.array.Perm b.array := by
  obtain ⟨array, iLt, iEq, smaller, greater⟩ := parted
  have front : (pre ++ (lt ++ List.replicate (equal + 1) pivot ++ gt)).length =
      base + (lt.length + (equal + 1) + gt.length) := by
    simp only [List.length_append, List.length_replicate, start]
  have read : b.array[base + (lt.length + (equal + 1) + gt.length)]? = some x := by
    rw [array, ← List.append_assoc]
    exact getElem?_middle front
  have ends : (pre ++ (lt ++ List.replicate (equal + 1) pivot)).length = base + b.iEq := by
    simp only [List.length_append, List.length_replicate, start, iEq]
  have reaches : base + b.iEq + gt.length = base + (lt.length + (equal + 1) + gt.length) := by
    rw [iEq]
    omega
  rw [partitionTurn, read, Option.bind_eq_bind, Option.bind_some]
  by_cases same : x = pivot
  · rw [if_pos same]
    subst same
    obtain ⟨gt', perm, swapped⟩ := @swap_equal rest gt x _ _ _ ends reaches
    have whole : b.array = pre ++ (lt ++ List.replicate (equal + 1) x) ++ gt ++ x :: rest := by
      rw [array]
      simp only [List.append_assoc]
    rw [← whole] at swapped
    rw [swapped]
    refine ⟨_, lt, equal + 1, gt', rfl, ⟨?_, iLt, by simp only [iEq]; omega, smaller,
      fun y member => greater y (perm.subset member)⟩, by rw [perm.length_eq]; omega,
      swapAt_perm swapped⟩
    rw [List.replicate_succ' (n := equal + 1)]
    simp only [List.append_assoc]
  · rw [if_neg same]
    by_cases less : x < pivot
    · rw [if_pos less]
      -- the element goes after the smaller ones, and the pivot that was there to its place
      have whole : b.array =
          pre ++ lt ++ pivot :: (List.replicate equal pivot ++ gt) ++ x :: rest := by
        rw [array, List.replicate_succ]
        simp
      have first := @swapAt_middle _ (base + b.iLt) (base + (lt.length + (equal + 1) + gt.length))
        pivot x (pre ++ lt) (List.replicate equal pivot ++ gt) rest
        (by simp only [List.length_append, start, iLt])
        (by simp only [List.length_append, List.length_cons, List.length_replicate, start]; omega)
      rw [← whole] at first
      rw [first, Option.bind_eq_bind, Option.bind_some]
      have ends' : (pre ++ lt ++ [x] ++ List.replicate equal pivot).length = base + b.iEq := by
        simp only [List.length_append, List.length_replicate, List.length_singleton, start, iEq]
        omega
      obtain ⟨gt', perm, second⟩ := @swap_equal rest gt pivot _ _ _ ends' reaches
      have between : pre ++ lt ++ x :: (List.replicate equal pivot ++ gt) ++ pivot :: rest =
          pre ++ lt ++ [x] ++ List.replicate equal pivot ++ gt ++ pivot :: rest := by
        simp
      rw [between] at first ⊢
      rw [second]
      refine ⟨_, lt ++ [x], equal, gt', rfl, ⟨?_, ?_, ?_, ?_, fun y member =>
        greater y (perm.subset member)⟩, ?_, (swapAt_perm second).trans (swapAt_perm first)⟩
      · rw [List.replicate_succ']
        simp only [List.append_assoc]
      · simp only [iLt, List.length_append, List.length_singleton]
      · simp only [iEq, List.length_append, List.length_singleton]
        omega
      · intro y member
        rcases List.mem_append.mp member with before | here
        · exact smaller y before
        · rw [List.mem_singleton.mp here]
          exact less
      · rw [perm.length_eq, List.length_append, List.length_singleton]
        omega
    · rw [if_neg less]
      refine ⟨b, lt, equal, gt ++ [x], rfl, ⟨?_, iLt, iEq, smaller, ?_⟩, ?_, .refl _⟩
      · rw [array]
        simp only [List.append_assoc, List.singleton_append]
      · intro y member
        rcases List.mem_append.mp member with before | here
        · exact greater y before
        · rw [List.mem_singleton.mp here]
          omega
      · rw [List.length_append, List.length_singleton]
        omega

/-- The loop over the remaining elements. -/
theorem Partitioned.loop (parted : Partitioned pre pivot (rest ++ post) b lt equal gt)
    (start : pre.length = base) : ∃ b' lt' equal' gt',
      partitionLoop base pivot rest.length (lt.length + (equal + 1) + gt.length) b = some b' ∧
      Partitioned pre pivot post b' lt' equal' gt' ∧
      lt'.length + (equal' + 1) + gt'.length = lt.length + (equal + 1) + gt.length + rest.length ∧
      b'.array.Perm b.array := by
  induction rest generalizing b lt equal gt with
  | nil => exact ⟨b, lt, equal, gt, rfl, parted, rfl, .refl _⟩
  | cons x rest ih =>
      obtain ⟨b', lt', equal', gt', turn, parted', size, perm⟩ := Partitioned.turn parted start
      obtain ⟨b'', lt'', equal'', gt'', loop, parted'', size', perm'⟩ := ih parted'
      refine ⟨b'', lt'', equal'', gt'', ?_, parted'', ?_, perm'.trans perm⟩
      · rw [List.length_cons, partitionLoop, turn, Option.bind_some, ← size]
        exact loop
      · rw [size', size, List.length_cons]
        omega

/-- The part of an array around a position: smaller elements, and others. -/
theorem partition_spec {part : List Int} (start : pre.length = base) (nonempty : part ≠ [])
    (post : List Int) : ∃ lt x ge, partition (pre ++ part ++ post) base part.length =
        some (pre ++ (lt ++ x :: ge) ++ post, lt.length) ∧
      (lt ++ x :: ge).Perm part ∧ (∀ y ∈ lt, y < x) ∧ ∀ y ∈ ge, x ≤ y := by
  have positive := List.length_pos_iff.mpr nonempty
  obtain ⟨part', swapped⟩ := exists_swapAt positive (Nat.div_lt_self positive Nat.one_lt_two)
  have perm := swapAt_perm swapped
  have placed := swapAt_append swapped pre post
  rw [start, Nat.add_zero] at placed
  have size := perm.length_eq
  cases part' with
  | nil => exact absurd size.symm positive.ne'
  | cons pivot rest =>
      have read : (pre ++ pivot :: rest ++ post)[base]? = some pivot := by
        rw [List.append_assoc, List.cons_append]
        exact getElem?_middle start
      have parted : Partitioned pre pivot (rest ++ post) ⟨pre ++ pivot :: rest ++ post, 0, 1⟩ []
          0 [] := by
        refine ⟨by simp, rfl, rfl, ?_, ?_⟩ <;> simp
      obtain ⟨b, lt, equal, gt, loop, done, -, perm'⟩ := parted.loop start
      obtain ⟨array, iLt, -, smaller, greater⟩ := done
      have whole : b.array = pre ++ (lt ++ pivot :: (List.replicate equal pivot ++ gt)) ++ post := by
        rw [array, List.replicate_succ]
        simp
      refine ⟨lt, pivot, List.replicate equal pivot ++ gt, ?_, ?_, smaller, fun y member => ?_⟩
      · have turns : part.length - 1 = rest.length := by rw [← size, List.length_cons]; rfl
        rw [partition, placed, Option.bind_eq_bind, Option.bind_some, read, Option.bind_eq_bind,
          Option.bind_some, turns]
        rw [List.length_nil] at loop
        rw [loop, Option.bind_eq_bind, Option.bind_some, iLt, whole]
      · rw [whole, List.perm_append_right_iff, List.perm_append_left_iff] at perm'
        exact perm'.trans perm
      · rcases List.mem_append.mp member with equals | more
        · rw [List.eq_of_mem_replicate equals]
        · exact (greater y more).le

end Partition

/-! ## Rank -/

/-- The elements in order. -/
def sorted (l : List Int) : List Int := l.mergeSort fun x y => decide (x ≤ y)

section Rank

variable {pre part post lt ge l : List Int} {x : Int} {base r turns : Nat}

theorem sorted_perm (l : List Int) : (sorted l).Perm l := List.mergeSort_perm l _

theorem sorted_pairwise (l : List Int) : (sorted l).Pairwise (· ≤ ·) := by
  have ordered := @List.pairwise_mergeSort Int (fun x y : Int => decide (x ≤ y))
    (fun x y z xy yz => by simp only [decide_eq_true_eq] at *; omega)
    (fun x y => by simp only [Bool.or_eq_true, decide_eq_true_eq]; omega) l
  exact ordered.imp of_decide_eq_true

theorem sorted_eq {m : List Int} (perm : m.Perm l) (ordered : m.Pairwise (· ≤ ·)) : sorted l = m :=
  ((sorted_perm l).trans perm.symm).eq_of_pairwise (fun _ _ _ _ => le_antisymm) (sorted_pairwise l)
    ordered

/-- The elements in order around a pivot. -/
theorem sorted_around (smaller : ∀ y ∈ lt, y < x) (others : ∀ y ∈ ge, x ≤ y) :
    sorted (lt ++ x :: ge) = sorted lt ++ x :: sorted ge := by
  apply sorted_eq
  · exact (sorted_perm lt).append ((sorted_perm ge).cons x)
  · refine List.pairwise_append.mpr ⟨sorted_pairwise lt, List.pairwise_cons.mpr
      ⟨fun y member => others y ((sorted_perm ge).subset member), sorted_pairwise ge⟩, ?_⟩
    intro y first z second
    have less := smaller y ((sorted_perm lt).subset first)
    rcases List.mem_cons.mp second with rfl | later
    · exact less.le
    · exact less.le.trans (others z ((sorted_perm ge).subset later))

theorem sorted_congr {m : List Int} (perm : m.Perm l) : sorted m = sorted l :=
  sorted_eq ((sorted_perm l).trans perm.symm) (sorted_pairwise l)

/-- The loop of `rank` on a part of the array. -/
theorem rankLoop_spec (start : pre.length = base) (inside : r < part.length)
    (enough : part.length ≤ turns) : ∃ v part',
      rankLoop turns (pre ++ part ++ post) base part.length r = some (v, pre ++ part' ++ post) ∧
      (sorted part)[r]? = some v ∧ part'.Perm part := by
  induction turns generalizing pre part post base r with
  | zero => omega
  | succ turns ih =>
      rw [rankLoop]
      by_cases several : part.length > 1
      · rw [if_pos several]
        have nonempty : part ≠ [] := List.ne_nil_of_length_pos (by omega)
        obtain ⟨lt, x, ge, run, perm, smaller, others⟩ := partition_spec start nonempty post
        have size := perm.length_eq
        simp only [List.length_append, List.length_cons] at size
        have around := (sorted_congr perm).symm.trans (sorted_around smaller others)
        have sizeLt := (sorted_perm lt).length_eq
        rw [run, Option.bind_eq_bind, Option.bind_some]
        dsimp only
        rcases Nat.lt_trichotomy lt.length r with above | same | below
        · -- the rank is on the right of the pivot
          rw [if_neg above.ne, if_neg (by omega)]
          have length : part.length - (lt.length + 1) = ge.length := by omega
          have whole : pre ++ (lt ++ x :: ge) ++ post = (pre ++ lt ++ [x]) ++ ge ++ post := by simp
          obtain ⟨v, ge', loop, found, perm'⟩ := @ih (pre ++ lt ++ [x]) ge post
            (base + (lt.length + 1)) (r - (lt.length + 1))
            (by simp only [List.length_append, List.length_singleton, start]; omega)
            (by omega) (by omega)
          rw [length, whole, loop]
          refine ⟨v, lt ++ x :: ge', by simp, ?_,
            ((perm'.cons x).append_left lt).trans perm⟩
          rw [around, List.getElem?_append_right (by omega), sizeLt,
            show r - lt.length = r - (lt.length + 1) + 1 by omega, List.getElem?_cons_succ]
          exact found
        · -- the pivot has the rank
          rw [if_pos same]
          have read : (pre ++ (lt ++ x :: ge) ++ post)[base + lt.length]? = some x := by
            have whole : pre ++ (lt ++ x :: ge) ++ post = (pre ++ lt) ++ x :: (ge ++ post) := by
              simp
            rw [whole]
            exact getElem?_middle (by rw [List.length_append, start])
          rw [read]
          refine ⟨x, lt ++ x :: ge, rfl, ?_, perm⟩
          rw [around]
          exact getElem?_middle (sizeLt.trans same)
        · -- the rank is on the left of the pivot
          rw [if_neg below.ne', if_pos below]
          have whole : pre ++ (lt ++ x :: ge) ++ post = pre ++ lt ++ (x :: ge ++ post) := by simp
          obtain ⟨v, lt', loop, found, perm'⟩ := @ih pre lt (x :: ge ++ post) base r start below
            (by omega)
          rw [whole, loop]
          refine ⟨v, lt' ++ x :: ge, by simp, ?_, (perm'.append_right _).trans perm⟩
          rw [around, List.getElem?_append_left (by omega)]
          exact found
      · rw [if_neg several]
        obtain ⟨x, rfl⟩ := List.length_eq_one_iff.mp (show part.length = 1 by omega)
        obtain rfl : r = 0 := by simpa using inside
        have read : (pre ++ [x] ++ post)[base]? = some x := by
          rw [List.append_assoc, List.singleton_append]
          exact getElem?_middle start
        rw [read]
        exact ⟨x, [x], rfl, by simp [sorted], .refl _⟩

end Rank

/-- **Quickselect.** For every rank `rank` returns the element at that position of the sorted
array, and leaves a permutation of the array; `partition` of any part of an array permutes it and
returns a position such that the elements of the part before it are smaller and the others are
not. -/
theorem rank_selects (array : List Int) :
    (∀ r < array.length, ∃ v array', rank array array.length r = some (v, array') ∧
      (sorted array)[r]? = some v ∧ array'.Perm array) ∧
    ∀ pre part post, array = pre ++ part ++ post → part ≠ [] → ∃ part' p x,
      partition array pre.length part.length = some (pre ++ part' ++ post, p) ∧
        part'.Perm part ∧ part'[p]? = some x ∧
        (∀ i < p, ∀ y, part'[i]? = some y → y < x) ∧
        ∀ i > p, ∀ y, part'[i]? = some y → x ≤ y := by
  refine ⟨fun r inside => ?_, fun pre part post whole nonempty => ?_⟩
  · obtain ⟨v, array', run, found, perm⟩ := @rankLoop_spec [] array [] 0 r array.length rfl inside
      le_rfl
    simp only [List.nil_append, List.append_nil] at run
    exact ⟨v, array', run, found, perm⟩
  · subst whole
    obtain ⟨lt, x, ge, run, perm, smaller, others⟩ := partition_spec rfl nonempty post
    refine ⟨lt ++ x :: ge, lt.length, x, run, perm, getElem?_middle rfl, fun i before y here => ?_,
      fun i after y here => ?_⟩
    · rw [List.getElem?_append_left before] at here
      exact smaller y (List.mem_of_getElem? here)
    · obtain ⟨k, rfl⟩ := Nat.exists_eq_add_of_lt after
      rw [List.getElem?_append_right (by omega), show lt.length + k + 1 - lt.length = k + 1 by omega,
        List.getElem?_cons_succ] at here
      exact others y (List.mem_of_getElem? here)

theorem rank_selects_five : ∃ v array', rank [5, 3, 3, 9, 1] 5 2 = some (v, array') ∧
    (sorted [5, 3, 3, 9, 1])[2]? = some v ∧ array'.Perm [5, 3, 3, 9, 1] :=
  (rank_selects [5, 3, 3, 9, 1]).1 2 (by decide)

end Weights

end Rma
