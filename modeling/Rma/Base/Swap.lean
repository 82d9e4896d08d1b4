import Mathlib.Tactic

/-!
# Swaps in an array

`swapAt l i j` exchanges two entries of a list; it is undefined where one of the positions is
outside. A swap permutes the list, and `swapAt_middle` says what it does to a list of which the
parts around the two positions are known.
-/

namespace Rma.Base

variable {α : Type*} {l l' : List α} {i j : Nat} {x y : α}

/-- `swap(l[i], l[j])` -/
def swapAt (l : List α) (i j : Nat) : Option (List α) := do
  let x ← l[i]?
  let y ← l[j]?
  some ((l.set i y).set j x)

theorem swapAt_eq (first : l[i]? = some x) (second : l[j]? = some y) :
    swapAt l i j = some ((l.set i y).set j x) := by
  rw [swapAt, first, second]
  rfl

/-- Two entries of the list can be swapped. -/
theorem exists_swapAt (insideI : i < l.length) (insideJ : j < l.length) :
    ∃ l', swapAt l i j = some l' :=
  ⟨_, swapAt_eq (List.getElem?_eq_getElem insideI) (List.getElem?_eq_getElem insideJ)⟩

/-- The entry at a known position. -/
theorem getElem?_middle {a b : List α} (position : a.length = i) : (a ++ x :: b)[i]? = some x := by
  rw [← position, List.getElem?_append_right le_rfl, Nat.sub_self, List.getElem?_cons_zero]

theorem set_middle {a b : List α} (position : a.length = i) :
    (a ++ x :: b).set i y = a ++ y :: b := by
  rw [← position, List.set_append_right _ _ le_rfl, Nat.sub_self, List.set_cons_zero]

/-- An entry is swapped with itself. -/
theorem swapAt_self {a b : List α} (position : a.length = i) :
    swapAt (a ++ x :: b) i i = some (a ++ x :: b) := by
  rw [swapAt_eq (getElem?_middle position) (getElem?_middle position), set_middle position,
    set_middle position]

/-- Two entries are swapped. -/
theorem swapAt_middle {a b c : List α} (first : a.length = i) (second : (a ++ x :: b).length = j) :
    swapAt (a ++ x :: b ++ y :: c) i j = some (a ++ y :: b ++ x :: c) := by
  have left : (a ++ x :: b ++ y :: c)[i]? = some x := by
    rw [List.append_assoc, List.cons_append, getElem?_middle first]
  have changed : (a ++ x :: b ++ y :: c).set i y = a ++ y :: b ++ y :: c := by
    rw [List.append_assoc, List.cons_append, set_middle first, List.append_assoc, List.cons_append]
  have second' : (a ++ y :: b).length = j := by simpa using second
  rw [swapAt_eq left (getElem?_middle second), changed, set_middle second']

/-- A swap in a part of the list. -/
theorem swapAt_append (run : swapAt l i j = some l') (a c : List α) :
    swapAt (a ++ l ++ c) (a.length + i) (a.length + j) = some (a ++ l' ++ c) := by
  obtain ⟨x, first, rest⟩ := Option.bind_eq_some_iff.mp run
  obtain ⟨y, second, same⟩ := Option.bind_eq_some_iff.mp rest
  have insideI := (List.getElem?_eq_some_iff.mp first).1
  have insideJ := (List.getElem?_eq_some_iff.mp second).1
  have read : ∀ {k : Nat}, k < l.length → (a ++ l ++ c)[a.length + k]? = l[k]? := by
    intro k inside
    rw [List.append_assoc, List.getElem?_append_right (Nat.le_add_right _ _),
      Nat.add_sub_cancel_left, List.getElem?_append_left inside]
  have write : ∀ {m : List α} {k : Nat} {z : α}, k < m.length →
      (a ++ m ++ c).set (a.length + k) z = a ++ m.set k z ++ c := by
    intro m k z inside
    rw [List.append_assoc, List.set_append_right _ _ (Nat.le_add_right _ _),
      Nat.add_sub_cancel_left, List.set_append_left _ _ inside, List.append_assoc]
  rw [swapAt_eq ((read insideI).trans first) ((read insideJ).trans second), write insideI,
    write (by rwa [List.length_set]), Option.some.inj same]

/-- A swap is a permutation. -/
theorem swapAt_perm (run : swapAt l i j = some l') : l'.Perm l := by
  obtain ⟨x, first, rest⟩ := Option.bind_eq_some_iff.mp run
  obtain ⟨y, second, same⟩ := Option.bind_eq_some_iff.mp rest
  obtain ⟨insideI, rfl⟩ := List.getElem?_eq_some_iff.mp first
  obtain ⟨insideJ, rfl⟩ := List.getElem?_eq_some_iff.mp second
  rw [← Option.some.inj same]
  exact List.set_set_perm insideI insideJ

end Rma.Base
