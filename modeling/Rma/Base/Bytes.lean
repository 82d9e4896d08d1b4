import Rma.Base.Cells

/-!
# Numbers as bytes, and arrays of blocks

`toBytes n value` lists the `n` lowest bytes of a number, the least significant one first, and
`ofBytes` is the number with the given bytes; what is read back of a number is its rest modulo
`256 ^ n`.

`readBlocks a b p n` reads an array of cells as `n` blocks of `b` cells each: a block that is
written replaces one entry of the list, and a copy of the cells is a copy of the blocks.
-/

namespace Rma.Base

/-- The lowest `n` bytes of a number, the least significant one first. -/
def toBytes : (n value : Nat) → List UInt8
  | 0, _ => []
  | n + 1, value => UInt8.ofNat value :: toBytes n (value / 256)

/-- The number with the given bytes. -/
def ofBytes : List UInt8 → Nat
  | [] => 0
  | b :: bytes => b.toNat + 256 * ofBytes bytes

@[simp] theorem length_toBytes (n value : Nat) : (toBytes n value).length = n := by
  induction n generalizing value with
  | zero => rfl
  | succ n ih => rw [toBytes, List.length_cons, ih]

theorem ofBytes_toBytes (n value : Nat) : ofBytes (toBytes n value) = value % 256 ^ n := by
  induction n generalizing value with
  | zero => rw [pow_zero, Nat.mod_one, toBytes, ofBytes]
  | succ n ih =>
      rw [toBytes, ofBytes, ih, Nat.pow_succ', Nat.mod_mul, UInt8.toNat_ofNat']

theorem ofBytes_lt (bytes : List UInt8) : ofBytes bytes < 256 ^ bytes.length := by
  induction bytes with
  | nil => exact Nat.one_pos
  | cons b bytes ih =>
      have low := b.toNat_lt
      rw [ofBytes, List.length_cons, Nat.pow_succ']
      omega

variable {α : Type*} {a a' : Nat → α} {b p q n m i : Nat} {l : List α}

/-- The `n` blocks of `b` cells from position `p` on. -/
def readBlocks (a : Nat → α) (b p n : Nat) : List (List α) :=
  (List.range n).map fun i => readCells a (p + i * b) b

@[simp] theorem length_readBlocks : (readBlocks a b p n).length = n := by
  simp [readBlocks]

theorem getElem?_readBlocks (inside : i < n) :
    (readBlocks a b p n)[i]? = some (readCells a (p + i * b) b) := by
  simp [readBlocks, inside]

theorem length_of_mem_readBlocks (member : l ∈ readBlocks a b p n) : l.length = b := by
  obtain ⟨i, -, rfl⟩ := List.mem_map.mp member
  exact length_readCells

theorem readBlocks_add :
    readBlocks a b p (n + m) = readBlocks a b p n ++ readBlocks a b (p + n * b) m := by
  rw [readBlocks, List.range_add, List.map_append, List.map_map]
  refine congrArg _ (List.map_congr_left fun i _ => ?_)
  rw [Function.comp_apply, Nat.add_mul, Nat.add_assoc]

/-- The blocks do not depend on the other cells. -/
theorem readBlocks_congr (same : ∀ q, p ≤ q → q < p + n * b → a q = a' q) :
    readBlocks a b p n = readBlocks a' b p n := by
  refine List.map_congr_left fun i member => readCells_congr fun q lower upper => ?_
  have inside := List.mem_range.mp member
  have within := Nat.mul_le_mul_right b (Nat.succ_le_of_lt inside)
  rw [Nat.succ_mul] at within
  exact same q (by omega) (by omega)

/-- A block is written. -/
theorem readBlocks_write (inside : i < n) (length : l.length = b) :
    readBlocks (writeCells a (p + i * b) l) b p n = (readBlocks a b p n).set i l := by
  apply List.ext_getElem?
  intro j
  by_cases insideJ : j < n
  · rw [getElem?_readBlocks insideJ]
    by_cases same : i = j
    · rw [← same, List.getElem?_set_self (by rwa [length_readBlocks]), ← length,
        readCells_writeCells]
    · rw [List.getElem?_set_ne same, getElem?_readBlocks insideJ,
        readCells_writeCells_outside]
      rcases Nat.lt_or_gt_of_ne same with less | greater
      · have apart := Nat.mul_le_mul_right b (Nat.succ_le_of_lt less)
        rw [Nat.succ_mul] at apart
        omega
      · have apart := Nat.mul_le_mul_right b (Nat.succ_le_of_lt greater)
        rw [Nat.succ_mul] at apart
        omega
  · rw [List.getElem?_eq_none (by rw [length_readBlocks]; omega),
      List.getElem?_eq_none (by rw [List.length_set, length_readBlocks]; omega)]

/-- A cell of a copy. -/
theorem writeCells_readCells (within : i < n) :
    writeCells a q (readCells a' p n) (q + i) = a' (p + i) := by
  rw [writeCells_inside (Nat.le_add_right q i) (by rw [length_readCells]; omega)]
  simp [readCells]

/-- A copy of the cells of `n` blocks. -/
theorem readBlocks_copy :
    readBlocks (writeCells a q (readCells a' p (n * b))) b q n = readBlocks a' b p n := by
  refine List.map_congr_left fun i member => ?_
  have inside := List.mem_range.mp member
  have within := Nat.mul_le_mul_right b (Nat.succ_le_of_lt inside)
  rw [Nat.succ_mul] at within
  apply List.ext_getElem
  · rw [length_readCells, length_readCells]
  · intro k insideK _
    rw [length_readCells] at insideK
    have cell := @writeCells_readCells α a a' p q (n * b) (i * b + k) (by omega)
    simpa [readCells, Nat.add_assoc] using cell

end Rma.Base
