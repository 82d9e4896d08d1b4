import Mathlib.Tactic

/-!
# Segments of cells, filled from the left

`layout S sizes` says which cells are occupied in an array of segments of `S` cells each,
where a segment has its elements at its left end. A cell belongs to the segment that its
position divided by `S` gives.
-/

namespace Rma.Base

/-- The cells of the segments, true where they are occupied. -/
def layout (S : Nat) (sizes : List Nat) : List Bool :=
  sizes.flatMap fun n => List.replicate n true ++ List.replicate (S - n) false

variable {S i k n : Nat} {sizes : List Nat}

@[simp] theorem layout_nil : layout S [] = [] := rfl

theorem layout_cons (n : Nat) (sizes : List Nat) : layout S (n :: sizes) =
    (List.replicate n true ++ List.replicate (S - n) false) ++ layout S sizes := rfl

theorem layout_append (a b : List Nat) : layout S (a ++ b) = layout S a ++ layout S b :=
  List.flatMap_append

theorem length_layout (fits : ∀ n ∈ sizes, n ≤ S) :
    (layout S sizes).length = sizes.length * S := by
  induction sizes with
  | nil => simp
  | cons n sizes ih =>
      have first := fits n List.mem_cons_self
      rw [layout_cons, List.length_append, ih fun m member => fits m (List.mem_cons_of_mem n member)]
      simp only [List.length_append, List.length_replicate, List.length_cons, Nat.succ_mul]
      omega

theorem count_layout (S : Nat) (sizes : List Nat) : (layout S sizes).count true = sizes.sum := by
  induction sizes with
  | nil => rfl
  | cons n sizes ih =>
      rw [layout_cons, List.count_append, ih, List.count_append, List.count_replicate_self,
        List.count_replicate, List.sum_cons]
      rfl

/-- The segments before one, and those from it on. -/
theorem layout_split (fits : ∀ n ∈ sizes, n ≤ S) (inside : i ≤ sizes.length) :
    layout S sizes = layout S (sizes.take i) ++ layout S (sizes.drop i) ∧
      (layout S (sizes.take i)).length = i * S := by
  have front : ∀ n ∈ sizes.take i, n ≤ S := fun n member => fits n (List.mem_of_mem_take member)
  have length := length_layout front
  rw [List.length_take, Nat.min_eq_left inside] at length
  exact ⟨by rw [← layout_append, List.take_append_drop], length⟩

theorem layout_take (fits : ∀ n ∈ sizes, n ≤ S) (inside : i ≤ sizes.length) :
    (layout S sizes).take (i * S) = layout S (sizes.take i) := by
  obtain ⟨split, length⟩ := layout_split fits inside
  rw [split, ← length, List.take_left]

theorem layout_drop (fits : ∀ n ∈ sizes, n ≤ S) (inside : i ≤ sizes.length) :
    (layout S sizes).drop (i * S) = layout S (sizes.drop i) := by
  obtain ⟨split, length⟩ := layout_split fits inside
  rw [split, ← length, List.drop_left]

/-- The cells of one segment, between those before and after it. -/
theorem layout_segment (fits : ∀ n ∈ sizes, n ≤ S) (read : sizes[i]? = some n) :
    ∃ before after, layout S sizes =
        before ++ ((List.replicate n true ++ List.replicate (S - n) false) ++ after) ∧
      before.length = i * S ∧ ∀ m, m ≤ S → layout S (sizes.set i m) =
        before ++ ((List.replicate m true ++ List.replicate (S - m) false) ++ after) := by
  obtain ⟨inside, same⟩ := List.getElem?_eq_some_iff.mp read
  obtain ⟨split, length⟩ := layout_split fits inside.le
  refine ⟨layout S (sizes.take i), layout S (sizes.drop (i + 1)), ?_, length, fun m _ => ?_⟩
  · rw [split, List.drop_eq_getElem_cons inside, same, layout_cons]
  · rw [List.set_eq_take_append_cons_drop, if_pos inside, layout_append, layout_cons]

theorem layout_getElem? (fits : ∀ n ∈ sizes, n ≤ S) (read : sizes[i]? = some n) (inside : k < S) :
    (layout S sizes)[i * S + k]? = some (decide (k < n)) := by
  obtain ⟨before, after, split, length, -⟩ := layout_segment fits read
  have bound := fits n (List.mem_of_getElem? read)
  rw [split, ← length, List.getElem?_append_right (Nat.le_add_right _ _), Nat.add_sub_cancel_left,
    List.getElem?_append_left (by simp; omega)]
  by_cases occupied : k < n
  · rw [List.getElem?_append_left (by simpa using occupied), List.getElem?_replicate,
      if_pos occupied, decide_eq_true occupied]
  · rw [List.getElem?_append_right (by simpa using Nat.le_of_not_lt occupied), List.length_replicate,
      List.getElem?_replicate, if_pos (by omega), decide_eq_false occupied]

/-- The first free cell of a segment is taken. -/
theorem layout_set (fits : ∀ n ∈ sizes, n ≤ S) (read : sizes[i]? = some n) (room : n < S) :
    (layout S sizes).set (i * S + n) true = layout S (sizes.set i (n + 1)) := by
  obtain ⟨before, after, split, length, change⟩ := layout_segment fits read
  obtain ⟨free, rest⟩ : ∃ free, S - n = free + 1 := ⟨S - n - 1, by omega⟩
  have rest' : S - (n + 1) = free := by omega
  rw [split, change (n + 1) room, ← length, List.set_append_right _ _ (Nat.le_add_right _ _),
    Nat.add_sub_cancel_left, List.append_assoc, List.set_append_right _ _ (by simp),
    List.length_replicate, Nat.sub_self, rest, rest', List.replicate_succ, List.cons_append,
    List.set_cons_zero, List.replicate_succ']
  simp

end Rma.Base
