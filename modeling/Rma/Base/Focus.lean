import Mathlib.Tactic
import Mathlib.Data.List.GetD
import Mathlib.Data.List.TakeWhile

/-!
# Lists at a position

An array edit at position `i` of a list is described by the context of that
position: `l = pre ++ x :: post` with `pre.length = i`. The lemmas compute the
edits of a node of a search tree in this form. `separators f l` is the sequence
of keys a node keeps for the children `l`, one for each child but the first.
-/

namespace Rma.Base

variable {α β : Type*}

/-- Every position of a list has a context. -/
theorem exists_focus {l : List α} {i : Nat} (inside : i < l.length) :
    ∃ pre x post, l = pre ++ x :: post ∧ pre.length = i := by
  refine ⟨l.take i, l[i], l.drop (i + 1), ?_, by simp; omega⟩
  rw [List.getElem_cons_drop, List.take_append_drop]

/-- A position that is not the first one has a left neighbour. -/
theorem exists_left {pre : List α} (positive : pre.length > 0) :
    ∃ before x, pre = before ++ [x] := by
  rcases List.eq_nil_or_concat pre with rfl | ⟨before, x, rfl⟩
  · exact absurd positive (lt_irrefl 0)
  · exact ⟨before, x, List.concat_eq_append⟩

/-- A position that is not the last one has a right neighbour. -/
theorem exists_right {pre post : List α} {x : α} (more : pre.length < (pre ++ x :: post).length - 1) :
    ∃ y after, post = y :: after := by
  apply List.exists_cons_of_ne_nil
  rintro rfl
  simp at more

@[simp] theorem getD_focus (pre post : List α) (x d : α) :
    (pre ++ x :: post).getD pre.length d = x := by
  simp

@[simp] theorem getD_focus_succ (pre post : List α) (x y d : α) :
    (pre ++ x :: y :: post).getD (pre.length + 1) d = y := by
  induction pre with
  | nil => simp
  | cons a pre ih => simp

@[simp] theorem set_focus (pre post : List α) (x y : α) :
    (pre ++ x :: post).set pre.length y = pre ++ y :: post := by
  rw [List.set_append_right _ _ le_rfl]
  simp

@[simp] theorem set_focus_succ (pre post : List α) (x y z : α) :
    (pre ++ x :: y :: post).set (pre.length + 1) z = pre ++ x :: z :: post := by
  rw [List.set_append_right _ _ (by omega)]
  simp

@[simp] theorem modify_focus (pre post : List α) (x : α) (f : α → α) :
    (pre ++ x :: post).modify pre.length f = pre ++ f x :: post := by
  induction pre with
  | nil => rfl
  | cons a pre ih => simpa using ih

@[simp] theorem insertIdx_focus_succ (pre post : List α) (x y : α) :
    (pre ++ x :: post).insertIdx (pre.length + 1) y = pre ++ x :: y :: post := by
  induction pre with
  | nil => simp
  | cons a pre ih => simpa using ih

@[simp] theorem insertIdx_focus (pre post : List α) (y : α) :
    (pre ++ post).insertIdx pre.length y = pre ++ y :: post := by
  induction pre with
  | nil => simp
  | cons a pre ih => simpa using ih

@[simp] theorem eraseIdx_focus (pre post : List α) (x : α) :
    (pre ++ x :: post).eraseIdx pre.length = pre ++ post := by
  induction pre with
  | nil => simp
  | cons a pre ih => simpa using ih

@[simp] theorem eraseIdx_focus_succ (pre post : List α) (x y : α) :
    (pre ++ x :: y :: post).eraseIdx (pre.length + 1) = pre ++ x :: post := by
  induction pre with
  | nil => simp
  | cons a pre ih => simpa using ih

/-! ## Separators -/

/-- The keys between the children of a node: the key of every child but the first. -/
def separators (f : α → β) (l : List α) : List β := l.tail.map f

variable {f : α → β} {pre post : List α} {x x' y y' : α}

theorem length_separators : (separators f (pre ++ [x])).length = pre.length := by
  simp [separators]

/-- The separators before and after a child. -/
theorem separators_focus (f : α → β) (pre : List α) (x : α) (post : List α) :
    separators f (pre ++ x :: post) = separators f (pre ++ [x]) ++ post.map f := by
  cases pre <;> simp [separators]

theorem separators_append (f : α → β) {l₁ : List α} (nonempty : l₁ ≠ []) (l₂ : List α) :
    separators f (l₁ ++ l₂) = separators f l₁ ++ l₂.map f := by
  cases l₁ with
  | nil => exact absurd rfl nonempty
  | cons x l₁ => simp [separators]

/-- The key of a child matters only when there is a child before it. -/
theorem separators_congr (same : pre = [] ∨ f x = f x') :
    separators f (pre ++ [x]) = separators f (pre ++ [x']) := by
  rcases same with rfl | same
  · rfl
  · cases pre <;> simp [separators, same]

/-- The key of the second of two neighbours can be kept while it changes. -/
theorem separators_focus_right (same : f y' = f y) :
    separators f (pre ++ x :: y' :: post) = separators f (pre ++ x :: y :: post) := by
  rw [separators_focus f pre x (y' :: post), separators_focus f pre x (y :: post), List.map_cons,
    List.map_cons, same]

theorem separators_getD (d : β) :
    (separators f (pre ++ x :: y :: post)).getD pre.length d = f y := by
  rw [separators_focus f pre x (y :: post), List.map_cons,
    ← length_separators (f := f) (x := x), getD_focus]

/-- Changing two neighbours changes the separator between them. -/
theorem separators_set (same : pre = [] ∨ f x = f x') :
    (separators f (pre ++ x :: y :: post)).set pre.length (f y') =
      separators f (pre ++ x' :: y' :: post) := by
  rw [separators_focus f pre x (y :: post), separators_focus f pre x' (y' :: post),
    separators_congr same, List.map_cons, List.map_cons, ← length_separators (f := f) (x := x'),
    set_focus]

/-- Splitting a child in two adds the separator between the halves. -/
theorem separators_insertIdx (same : pre = [] ∨ f x = f x') :
    (separators f (pre ++ x :: post)).insertIdx pre.length (f y) =
      separators f (pre ++ x' :: y :: post) := by
  rw [separators_focus f pre x post, separators_focus f pre x' (y :: post), separators_congr same,
    List.map_cons, ← length_separators (f := f) (x := x'), insertIdx_focus]

/-- Merging two neighbours removes the separator between them. -/
theorem separators_eraseIdx (same : pre = [] ∨ f x = f x') :
    (separators f (pre ++ x :: y :: post)).eraseIdx pre.length =
      separators f (pre ++ x' :: post) := by
  rw [separators_focus f pre x (y :: post), separators_focus f pre x' post,
    separators_congr same, List.map_cons, ← length_separators (f := f) (x := x'), eraseIdx_focus]

end Rma.Base
