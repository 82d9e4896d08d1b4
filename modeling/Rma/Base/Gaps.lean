import Rma.Base.Cells
import Rma.Base.Focus

/-!
# Runs with a gap beside them

A run of cells gets an element when those from its place on move by one position, towards
a gap on the right.
-/

namespace Rma.Base

variable {α : Type*} {a : Nat → α} {p n k : Nat}

/-- A write in the middle of a run. -/
theorem readCells_writeCells_middle {l : List α} {m : Nat} :
    readCells (writeCells a (p + n) l) p (n + l.length + m) =
      readCells a p n ++ l ++ readCells a (p + n + l.length) m := by
  rw [readCells_add, readCells_append_writeCells, Nat.add_assoc p n l.length,
    readCells_writeCells_outside (Or.inr (by omega))]

/-- The cells from `k` on move to the right. -/
theorem readCells_insertRight (inside : k ≤ n) (e : α) :
    readCells (writeCells (writeCells a (p + k + 1) (readCells a (p + k) (n - k))) (p + k) [e]) p
      (n + 1) = (readCells a p n).insertIdx k e := by
  obtain ⟨m, rfl⟩ := Nat.exists_eq_add_of_le inside
  rw [Nat.add_sub_cancel_left]
  have front : readCells (writeCells a (p + k + 1) (readCells a (p + k) m)) p k = readCells a p k :=
    readCells_writeCells_outside (Or.inl (by omega))
  have moved : readCells (writeCells a (p + k + 1) (readCells a (p + k) m)) (p + k + 1) m =
      readCells a (p + k) m := by
    simpa using @readCells_writeCells _ a (p + k + 1) (readCells a (p + k) m)
  have middle := @readCells_writeCells_middle _
    (writeCells a (p + k + 1) (readCells a (p + k) m)) p k [e] m
  rw [List.length_singleton, front, moved, Nat.add_right_comm k 1 m, List.append_assoc] at middle
  have focus := insertIdx_focus (readCells a p k) (readCells a (p + k) m) e
  rw [length_readCells] at focus
  rw [middle, readCells_add, focus]
  rfl

end Rma.Base
