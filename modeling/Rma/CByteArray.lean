import Rma.Base.Bytes
import Rma.Base.MapM
import Rma.Base.Swap

/-!
# Arrays of compressed keys

`CByteArray` stores each of its values in the same number of bytes, the lowest ones of the 64-bit
integer. `Holds` says what values an array holds: a value that is stored is read back as
`stored` says, which is the value itself where it fits in the bytes, and a swap through two
references, or a concatenation of arrays, moves the values as they are.

`CByteView` is a part of an array; its keys are the values plus one.

An access outside of the array, and a constructor, a merge or a view that raises, is undefined.
What a new array holds is arbitrary.
-/

namespace Rma

open Base

/-- `ceil(log2(value))` as it is computed in doubles. The logarithm of a power of two is exact, and
those of the values between two powers are not outside of theirs. -/
structure Log2 where
  bits : Nat → Nat
  ge : ∀ value, Nat.log 2 value ≤ bits value
  le : ∀ value, bits value ≤ Nat.clog 2 value

namespace Log2

/-- No rounding. -/
def exact : Log2 where
  bits := Nat.clog 2
  ge := Nat.log_le_clog 2
  le := fun _ => le_rfl

/-- The first values after `2 ^ 56` are rounded to it. -/
def short : Log2 where
  bits := fun value => if 2 ^ 56 < value ∧ value ≤ 2 ^ 56 + 8 then 56 else Nat.clog 2 value
  ge := by
    intro value
    split
    next near =>
      have less : Nat.log 2 value < 57 := Nat.log_lt_of_lt_pow (by omega) (by omega)
      omega
    next => exact Nat.log_le_clog 2 value
  le := by
    intro value
    split
    next near =>
      have more : 56 < Nat.clog 2 value := (Nat.lt_clog_iff_pow_lt (by norm_num)).mpr near.1
      omega
    next => exact le_rfl

end Log2

/-- The fields of `CByteArray`. -/
structure CByteArray where
  bytesPerElement : Nat
  capacity : Nat
  array : Nat → UInt8

namespace CByteArray

/-- `compute_bytes_per_elements(value)` -/
def computeBytesPerElements (log : Log2) (value : Nat) : Nat := (log.bits value + 7) / 8

/-- The constructor. -/
def create (bytesPerElement capacity : Nat) (unset : Nat → UInt8) : Option CByteArray :=
  if bytesPerElement = 0 ∨ bytesPerElement > 8 then none
  else some ⟨bytesPerElement, capacity, unset⟩

/-- The first bytes of an `int64_t`. -/
def bytesOf (n : Nat) (value : Int) : List UInt8 := toBytes n (value % 2 ^ 64).toNat

/-- The `int64_t` with the given first bytes; the others are zero. -/
def keyOf (bytes : List UInt8) : Int := (ofBytes bytes : Int).bmod (2 ^ 64)

/-- `get_value_at(index)` -/
def getValueAt (c : CByteArray) (index : Nat) : Option Int :=
  if index < c.capacity then
    some (keyOf (readCells c.array (index * c.bytesPerElement) c.bytesPerElement))
  else none

/-- `set_value_at(index, value)` -/
def setValueAt (c : CByteArray) (index : Nat) (value : Int) : Option CByteArray :=
  if index < c.capacity then
    some { c with
      array := writeCells c.array (index * c.bytesPerElement) (bytesOf c.bytesPerElement value) }
  else none

/-- `swap(x, y)`, of the references to two elements. -/
def swap (c : CByteArray) (x y : Nat) : Option CByteArray := do
  let tmp ← c.getValueAt x
  let value ← c.getValueAt y
  let c ← c.setValueAt x value
  c.setValueAt y tmp

/-! ## Merge -/

/-- The first loop of `merge`: the capacity of the arrays and their bytes per element. -/
def mergeSizes : (arrays : List (Option CByteArray)) → (capacity bytesPerElement : Nat) →
    Option (Nat × Nat)
  | [], capacity, bytesPerElement => some (capacity, bytesPerElement)
  | none :: arrays, capacity, bytesPerElement => mergeSizes arrays capacity bytesPerElement
  | some ba :: arrays, capacity, bytesPerElement =>
    if bytesPerElement = 0 ∨ bytesPerElement = ba.bytesPerElement then
      mergeSizes arrays (capacity + ba.capacity) ba.bytesPerElement
    else none

/-- The second loop of `merge`: copy the arrays one after the other. -/
def copyArrays (bytesPerElement : Nat) : (arrays : List (Option CByteArray)) →
    (destination : Nat) → (Nat → UInt8) → Nat → UInt8
  | [], _, result => result
  | none :: arrays, destination, result => copyArrays bytesPerElement arrays destination result
  | some ba :: arrays, destination, result =>
    let amount := bytesPerElement * ba.capacity
    copyArrays bytesPerElement arrays (destination + amount)
      (writeCells result destination (readCells ba.array 0 amount))

/-- `merge(arrays, arrays_sz)` -/
def merge (arrays : List (Option CByteArray)) (unset : Nat → UInt8) : Option CByteArray := do
  let (capacity, bytesPerElement) ← mergeSizes arrays 0 0
  let bytesPerElement := if bytesPerElement = 0 then 1 else bytesPerElement
  let result ← create bytesPerElement capacity unset
  some { result with array := copyArrays bytesPerElement arrays 0 result.array }

/-! ## The values -/

/-- What is read back of a value. -/
def stored (n : Nat) (value : Int) : Int := keyOf (bytesOf n value)

/-- The values of the array. -/
def values (c : CByteArray) : List Int :=
  (readBlocks c.array c.bytesPerElement 0 c.capacity).map keyOf

/-- The array holds the given values, in elements of `n` bytes. -/
structure Holds (c : CByteArray) (n : Nat) (l : List Int) : Prop where
  positive : 0 < n
  small : n ≤ 8
  bytes : c.bytesPerElement = n
  capacity : c.capacity = l.length
  values : c.values = l

section Stored

variable {n : Nat} {value : Int}

theorem pow_dvd (small : n ≤ 8) : ((256 ^ n : Nat) : Int) ∣ 2 ^ 64 := by
  have whole : (2 : Int) ^ 64 = 256 ^ 8 := by norm_num
  rw [whole]
  push_cast
  exact pow_dvd_pow 256 small

theorem ofBytes_bytesOf : ofBytes (bytesOf n value) = (value % 2 ^ 64).toNat % 256 ^ n := by
  rw [bytesOf, ofBytes_toBytes]

theorem keyOf_eq (bytes : List UInt8) : keyOf bytes = (ofBytes bytes : Int).bmod (2 ^ 64) := rfl

theorem stored_eq (small : n ≤ 8) : stored n value = (value % (256 ^ n : Nat)).bmod (2 ^ 64) := by
  have rest : ((value % 2 ^ 64).toNat : Int) = value % 2 ^ 64 :=
    Int.toNat_of_nonneg (Int.emod_nonneg _ (by norm_num))
  have reduced : value % 2 ^ 64 % (256 ^ n : Nat) = value % (256 ^ n : Nat) :=
    Int.emod_emod_of_dvd value (pow_dvd small)
  rw [stored, keyOf_eq, ofBytes_bytesOf, Int.natCast_mod, rest, reduced]

/-- A value that fits in the bytes is read back. -/
theorem stored_of_lt (small : n ≤ 8) (lower : 0 ≤ value) (upper : value < 256 ^ n)
    (bound : value < 2 ^ 63) : stored n value = value := by
  rw [stored_eq small, Int.emod_eq_of_lt lower (by exact_mod_cast upper)]
  norm_num at bound
  exact Int.bmod_eq_of_le (by norm_num; omega) (by norm_num; omega)

/-- A value below zero is read back as one past the values that fit, unless all the bytes are
stored. -/
theorem stored_neg_one (less : n < 8) : stored n (-1) = 256 ^ n - 1 := by
  have bound : (256 : Int) ^ n ≤ 256 ^ 7 := pow_le_pow_right₀ (by norm_num) (by omega)
  have positive : (0 : Int) < 256 ^ n := by positivity
  have rest : (-1 : Int) % (256 ^ n : Nat) = 256 ^ n - 1 := by
    push_cast
    rw [← Int.add_emod_right, Int.emod_eq_of_lt (by omega) (by omega)]
    ring
  rw [stored_eq less.le, rest]
  norm_num at bound
  exact Int.bmod_eq_of_le (by norm_num; omega) (by norm_num; omega)

theorem stored_neg_one_whole : stored 8 (-1) = -1 := by
  rw [stored_eq le_rfl]
  decide +kernel

/-- What was read back is read back as it is. -/
theorem stored_keyOf {bytes : List UInt8} (length : bytes.length = n) (small : n ≤ 8) :
    stored n (keyOf bytes) = keyOf bytes := by
  have bound := ofBytes_lt bytes
  rw [length] at bound
  have whole : (ofBytes bytes : Int).bmod (2 ^ 64) % 2 ^ 64 = ofBytes bytes % 2 ^ 64 := by
    have cast : ((2 ^ 64 : Nat) : Int) = 2 ^ 64 := by norm_cast
    rw [← cast]
    exact Int.bmod_emod
  have reduced := Int.emod_emod_of_dvd ((ofBytes bytes : Int).bmod (2 ^ 64)) (pow_dvd small)
  rw [whole, Int.emod_emod_of_dvd _ (pow_dvd small),
    Int.emod_eq_of_lt (Int.natCast_nonneg _) (Int.ofNat_lt.mpr bound)] at reduced
  rw [stored_eq small, keyOf_eq, ← reduced]

end Stored

section Access

variable {c : CByteArray} {n i j : Nat} {l : List Int} {value : Int}

@[simp] theorem length_values : c.values.length = c.capacity := by
  simp [CByteArray.values]

theorem getValueAt_eq (i : Nat) : c.getValueAt i = c.values[i]? := by
  rw [getValueAt, CByteArray.values, List.getElem?_map]
  by_cases inside : i < c.capacity
  · rw [if_pos inside, getElem?_readBlocks inside, Nat.zero_add]
    rfl
  · rw [if_neg inside, List.getElem?_eq_none (by rw [length_readBlocks]; omega)]
    rfl

/-- A store replaces one value by what is read back of the new one. -/
theorem setValueAt_spec (inside : i < c.capacity) (value : Int) :
    ∃ c', c.setValueAt i value = some c' ∧ c'.bytesPerElement = c.bytesPerElement ∧
      c'.capacity = c.capacity ∧
      c'.values = c.values.set i (stored c.bytesPerElement value) := by
  refine ⟨_, if_pos inside, rfl, rfl, ?_⟩
  have write := readBlocks_write (a := c.array) (p := 0) inside
    (length_toBytes c.bytesPerElement (value % 2 ^ 64).toNat)
  rw [Nat.zero_add] at write
  have mapped := congrArg (List.map keyOf) write
  rwa [List.map_set] at mapped

theorem Holds.get (holds : c.Holds n l) (i : Nat) : c.getValueAt i = l[i]? := by
  rw [getValueAt_eq, holds.values]

theorem Holds.set (holds : c.Holds n l) (inside : i < l.length) (value : Int) :
    ∃ c', c.setValueAt i value = some c' ∧ c'.Holds n (l.set i (stored n value)) := by
  obtain ⟨c', result, bytes, capacity, values⟩ := setValueAt_spec (holds.capacity ▸ inside) value
  refine ⟨c', result, holds.positive, holds.small, bytes.trans holds.bytes, ?_, ?_⟩
  · rw [capacity, holds.capacity, List.length_set]
  · rw [values, holds.values, holds.bytes]

/-- The values of an array are stored as they are. -/
theorem Holds.stored_eq (holds : c.Holds n l) (member : value ∈ l) : stored n value = value := by
  rw [← holds.values, CByteArray.values] at member
  obtain ⟨bytes, block, rfl⟩ := List.mem_map.mp member
  exact stored_keyOf ((length_of_mem_readBlocks block).trans holds.bytes) holds.small

/-- A swap through two references is one of the values. -/
theorem Holds.swap (holds : c.Holds n l) {l' : List Int} (swapped : swapAt l i j = some l') :
    ∃ c', c.swap i j = some c' ∧ c'.Holds n l' := by
  obtain ⟨x, first, rest⟩ := Option.bind_eq_some_iff.mp swapped
  obtain ⟨y, second, same⟩ := Option.bind_eq_some_iff.mp rest
  obtain ⟨insideI, rfl⟩ := List.getElem?_eq_some_iff.mp first
  obtain ⟨insideJ, rfl⟩ := List.getElem?_eq_some_iff.mp second
  obtain ⟨c₁, store, holds₁⟩ := holds.set insideI l[j]
  obtain ⟨c₂, store', holds₂⟩ := holds₁.set (i := j) (by rwa [List.length_set]) l[i]
  rw [holds.stored_eq (List.getElem_mem _)] at holds₁ holds₂
  rw [holds.stored_eq (List.getElem_mem _)] at holds₂
  refine ⟨c₂, ?_, Option.some.inj same ▸ holds₂⟩
  simp only [CByteArray.swap, holds.get, first, second, store, Option.bind_eq_bind,
    Option.bind_some]
  exact store'

/-- The first values of the array have been stored. -/
structure Filled (c : CByteArray) (n capacity : Nat) (l : List Int) : Prop where
  positive : 0 < n
  small : n ≤ 8
  bytes : c.bytesPerElement = n
  capacity_eq : c.capacity = capacity
  first : l <+: c.values

theorem create_filled (capacity : Nat) (positive : 0 < n) (small : n ≤ 8)
    (unset : Nat → UInt8) : ∃ c, create n capacity unset = some c ∧ c.Filled n capacity [] :=
  ⟨_, if_neg (by omega), positive, small, rfl, rfl, List.nil_prefix⟩

/-- The next value is stored. -/
theorem Filled.push {capacity : Nat} (filled : c.Filled n capacity l)
    (room : l.length < capacity) (value : Int) : ∃ c', c.setValueAt l.length value = some c' ∧
      c'.Filled n capacity (l ++ [stored n value]) := by
  obtain ⟨c', result, bytes, capacity', values⟩ :=
    setValueAt_spec (filled.capacity_eq ▸ room) value
  refine ⟨c', result, filled.positive, filled.small, bytes.trans filled.bytes,
    capacity'.trans filled.capacity_eq, ?_⟩
  obtain ⟨rest, split⟩ := filled.first
  have length := congrArg List.length split
  rw [List.length_append, length_values, filled.capacity_eq] at length
  obtain ⟨old, rest, rfl⟩ := List.exists_cons_of_length_pos (show 0 < rest.length by omega)
  refine ⟨rest, ?_⟩
  rw [values, ← split, set_middle rfl, filled.bytes, List.append_assoc]
  rfl

theorem Filled.holds {capacity : Nat} (filled : c.Filled n capacity l)
    (whole : l.length = capacity) : c.Holds n l := by
  refine ⟨filled.positive, filled.small, filled.bytes, filled.capacity_eq.trans whole.symm, ?_⟩
  exact (filled.first.eq_of_length (by rw [length_values, filled.capacity_eq, whole])).symm

end Access

/-! ## The concatenation of arrays -/

section Merge

variable {n : Nat}

theorem mergeSizes_spec {arrays : List CByteArray}
    (same : ∀ c ∈ arrays, c.bytesPerElement = n) (capacity bytes : Nat)
    (start : bytes = 0 ∨ bytes = n) :
    mergeSizes (arrays.map some) capacity bytes =
      some (capacity + (arrays.map CByteArray.capacity).sum,
        if arrays = [] then bytes else n) := by
  induction arrays generalizing capacity bytes with
  | nil => rfl
  | cons c arrays ih =>
      have here := same c List.mem_cons_self
      rw [List.map_cons, mergeSizes, if_pos (by rwa [here]), here,
        ih (fun c member => same c (List.mem_cons_of_mem _ member)) _ _ (Or.inr rfl),
        List.map_cons, List.sum_cons, Nat.add_assoc, if_neg (List.cons_ne_nil c arrays)]
      simp

/-- The arrays are copied one after the other, and nothing before them is changed. -/
theorem copyArrays_spec {arrays : List CByteArray} (same : ∀ c ∈ arrays, c.bytesPerElement = n)
    (destination : Nat) (result : Nat → UInt8) :
    (∀ q < destination, copyArrays n (arrays.map some) destination result q = result q) ∧
      (readBlocks (copyArrays n (arrays.map some) destination result) n destination
        (arrays.map CByteArray.capacity).sum).map keyOf = arrays.flatMap values := by
  induction arrays generalizing destination result with
  | nil => exact ⟨fun _ _ => rfl, rfl⟩
  | cons c arrays ih =>
      have here := same c List.mem_cons_self
      obtain ⟨kept, rest⟩ := ih (fun c member => same c (List.mem_cons_of_mem _ member))
        (destination + n * c.capacity)
        (writeCells result destination (readCells c.array 0 (n * c.capacity)))
      rw [List.map_cons, copyArrays]
      refine ⟨fun q before => ?_, ?_⟩
      · rw [kept q (by omega), writeCells_outside (Or.inl before)]
      · rw [List.map_cons, List.sum_cons, readBlocks_add, List.map_append, Nat.mul_comm c.capacity,
          rest, List.flatMap_cons, CByteArray.values, here]
        congr 2
        rw [← @readBlocks_copy _ result c.array n 0 destination c.capacity,
          Nat.mul_comm c.capacity]
        refine readBlocks_congr fun q _ inside => ?_
        rw [kept q (by rwa [Nat.mul_comm] at inside)]

/-- The merged array holds the values of the arrays, one after the other. -/
theorem merge_spec (arrays : List CByteArray) (nonempty : arrays ≠ [])
    (holds : ∀ c ∈ arrays, ∃ l, c.Holds n l) (unset : Nat → UInt8) :
    ∃ c, merge (arrays.map some) unset = some c ∧ c.Holds n (arrays.flatMap values) := by
  have same : ∀ c ∈ arrays, c.bytesPerElement = n := fun c member =>
    (holds c member).choose_spec.bytes
  obtain ⟨first, rest, rfl⟩ := List.exists_cons_of_ne_nil nonempty
  obtain ⟨l, holdsFirst⟩ := holds first List.mem_cons_self
  have positive := holdsFirst.positive
  have small := holdsFirst.small
  have sizes := mergeSizes_spec same 0 0 (Or.inl rfl)
  rw [if_neg nonempty, Nat.zero_add] at sizes
  have blocks := (copyArrays_spec same 0 unset).2
  rw [merge, sizes]
  simp only [Option.bind_eq_bind, Option.bind_some, if_neg positive.ne']
  rw [create, if_neg (by omega), Option.bind_some]
  refine ⟨_, rfl, positive, small, rfl, ?_, blocks⟩
  simp only [List.length_flatMap, length_values]

end Merge

end CByteArray

/-! ## Views of an array -/

/-- A `size_t`, modulo `2 ^ 64`. -/
def sizeT (x : Int) : Nat := (x % 2 ^ 64).toNat

theorem sizeT_of_lt {n : Nat} (small : n < 2 ^ 64) : sizeT n = n := by
  rw [sizeT, Int.emod_eq_of_lt (by omega) (by norm_num; omega), Int.toNat_natCast]

theorem sizeT_lt (x : Int) : sizeT x < 2 ^ 64 := by
  have bound := Int.emod_lt_of_pos x (show (0 : Int) < 2 ^ 64 by norm_num)
  have nonneg := Int.emod_nonneg x (show (2 : Int) ^ 64 ≠ 0 by norm_num)
  rw [sizeT]
  omega

/-- The fields of `CByteView`: the elements of the container from `start` to `stop`. -/
structure CByteView where
  container : CByteArray
  start : Nat
  stop : Nat

namespace CByteView

/-- The view of the whole container. -/
def create (container : CByteArray) : CByteView := ⟨container, 0, container.capacity⟩

/-- `size()` -/
def size (v : CByteView) : Nat := sizeT (v.stop - v.start)

/-- `key(index)`; undefined where the index is out of bound. -/
def key (v : CByteView) (index : Nat) : Option Int :=
  if index < v.size then
    -- 0 -> 1, ... 1G -> 1G +1
    (v.container.getValueAt (sizeT (v.start + index))).map (· + 1)
  else none

/-- `view(start, length)` -/
def view (v : CByteView) (start length : Nat) : Option CByteView :=
  let start := sizeT (start + v.start)
  if start ≥ v.container.capacity then none
  else
    let stop := sizeT (start + length)
    if stop > v.container.capacity then none
    else some { v with start := start, stop := stop }

variable {c : CByteArray} {n : Nat} {l : List Int}

/-- The keys of the view of a whole array. -/
theorem create_keys (holds : c.Holds n l) (small : l.length < 2 ^ 64) :
    (create c).size = l.length ∧
      (List.range l.length).mapM (create c).key = some (l.map (· + 1)) := by
  have size : (create c).size = l.length := by
    rw [CByteView.size, create, Nat.cast_zero, sub_zero, holds.capacity, sizeT_of_lt small]
  refine ⟨size, ?_⟩
  rw [← List.length_map (· + 1)]
  refine mapM_range fun i x read => ?_
  have inside := (List.getElem?_eq_some_iff.mp read).1
  rw [List.length_map] at inside
  rw [List.getElem?_map] at read
  have position : ((create c).start : Int) + i = (i : Nat) := by simp [create]
  rw [key, size, if_pos inside, position, sizeT_of_lt (by omega)]
  exact (congrArg (Option.map (· + 1)) (holds.get i)).trans read

end CByteView

end Rma
