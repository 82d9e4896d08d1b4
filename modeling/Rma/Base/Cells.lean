import Mathlib.Tactic
import Mathlib.Data.List.GetD

/-!
# Arrays of cells

An array is a function from positions. `readCells a p n` lists the `n` cells from
position `p` on, and `writeCells a p l` stores a list there, so that a `memcpy` is
a write of what was read. A read after a write is one of three: of the same
cells, of other cells, or of a write together with the cells after it.
-/

namespace Rma.Base

variable {α : Type*}

/-- The `n` cells from position `p` on. -/
def readCells (a : Nat → α) (p n : Nat) : List α := (List.range' p n).map a

/-- The array with a list stored from position `p` on. -/
def writeCells (a : Nat → α) (p : Nat) (l : List α) : Nat → α := fun q =>
  if h : p ≤ q ∧ q < p + l.length then l.get ⟨q - p, by omega⟩ else a q

variable {a b : Nat → α} {p q n m : Nat} {l : List α}

@[simp] theorem length_readCells : (readCells a p n).length = n := by
  simp [readCells]

@[simp] theorem readCells_zero : readCells a p 0 = [] := rfl

theorem readCells_succ : readCells a p (n + 1) = a p :: readCells a (p + 1) n := by
  rw [readCells, List.range'_succ]
  rfl

theorem readCells_add : readCells a p (n + m) = readCells a p n ++ readCells a (p + n) m := by
  induction n generalizing p with
  | zero => simp
  | succ n ih =>
      rw [Nat.add_right_comm, readCells_succ, readCells_succ, ih, Nat.add_right_comm p 1 n]
      rfl

/-- A read does not depend on the other cells. -/
theorem readCells_congr (same : ∀ q, p ≤ q → q < p + n → a q = b q) :
    readCells a p n = readCells b p n := by
  apply List.map_congr_left
  intro q member
  rcases List.mem_range'_1.mp member with ⟨lower, upper⟩
  exact same q lower upper

theorem getD_readCells {i : Nat} (inside : i < n) (d : α) :
    (readCells a p n).getD i d = a (p + i) := by
  rw [List.getD_eq_getElem _ _ (by simpa using inside)]
  simp [readCells]

theorem mem_readCells {x : α} : x ∈ readCells a p n ↔ ∃ q, p ≤ q ∧ q < p + n ∧ a q = x := by
  simp [readCells, List.mem_range'_1, and_assoc]

/-- A write leaves the cells outside as they are. -/
theorem writeCells_outside (outside : q < p ∨ p + l.length ≤ q) : writeCells a p l q = a q := by
  rw [writeCells, dif_neg (by omega)]

@[simp] theorem writeCells_nil : writeCells a p [] = a := by
  funext q
  exact writeCells_outside (by simp; omega)

theorem writeCells_inside (lower : p ≤ q) (upper : q < p + l.length) :
    writeCells a p l q = l.get ⟨q - p, by omega⟩ := by
  rw [writeCells, dif_pos ⟨lower, upper⟩]

/-- What was written is read back. -/
theorem readCells_writeCells : readCells (writeCells a p l) p l.length = l := by
  apply List.ext_getElem
  · simp
  · intro i inside _
    rw [length_readCells] at inside
    simp only [readCells, List.getElem_map, List.getElem_range', Nat.one_mul]
    rw [writeCells_inside (by omega) (by omega)]
    simp

theorem readCells_writeCells_outside (outside : q + n ≤ p ∨ p + l.length ≤ q) :
    readCells (writeCells a p l) q n = readCells a q n :=
  readCells_congr fun _ _ _ => writeCells_outside (by omega)

/-- What precedes a write is not changed by it. -/
theorem readCells_append_writeCells :
    readCells (writeCells a (p + n) l) p (n + l.length) = readCells a p n ++ l := by
  rw [readCells_add, readCells_writeCells, readCells_writeCells_outside (Or.inl le_rfl)]

/-- Two writes in a row are one. -/
theorem writeCells_append (m : List α) :
    writeCells (writeCells a p l) (p + l.length) m = writeCells a p (l ++ m) := by
  funext q
  by_cases second : p + l.length ≤ q ∧ q < p + l.length + m.length
  · rw [writeCells_inside second.1 second.2, writeCells_inside (by omega) (by simp; omega)]
    simp only [List.get_eq_getElem]
    rw [List.getElem_append_right (by omega)]
    congr 1
    omega
  · rw [writeCells_outside (by omega)]
    by_cases first : p ≤ q ∧ q < p + l.length
    · rw [writeCells_inside first.1 first.2, writeCells_inside first.1 (by simp; omega)]
      simp only [List.get_eq_getElem]
      rw [List.getElem_append_left]
    · rw [writeCells_outside (by omega), writeCells_outside (by simp; omega)]

end Rma.Base
