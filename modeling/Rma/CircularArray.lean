import Rma.Base.MapM
import Rma.Base.Slice

/-!
# The circular array

`CircularArray` is a queue in a buffer that wraps around: the elements lie from `m_start` on, up
to `m_end`, and the two are the same both when it is empty and when it is full. The buffer grows
when it is full and never shrinks on its own.

A cell of a new buffer holds nothing until it is written; every access is undefined outside the
buffer, and so is the value of a cell that holds nothing. `Holds` says where the elements of a
list are, and each operation has one lemma that gives the list afterwards.
-/

namespace Rma

open Base

/-- The fields of `CircularArray`; its capacity is kept beside the buffer. -/
structure CircularArray (α : Type) where
  array : List (Option α)
  start : Nat
  last : Nat -- `m_end`
  capacity : Nat
  isEmpty : Bool

/-- The exceptions, by their texts. -/
inductive CircularArrayException where
  | outOfBounds -- "Index out of bounds"
  | emptyQueue -- "The queue is empty"
  deriving DecidableEq, Repr

namespace CircularArray

variable {α : Type}

/-! ## Operations -/

/-- `new T[capacity]` -/
def newArray (capacity : Nat) : List (Option α) := List.replicate capacity none

/-- `CircularArray(capacity)` -/
def create (capacity : Nat) : CircularArray α := ⟨newArray capacity, 0, 0, capacity, true⟩

/-- A `memcpy` to a buffer. -/
def copyTo (array : List (Option α)) (p : Nat) (l : List (Option α)) : Option (List (Option α)) :=
  if p + l.length ≤ array.length then some (array.take p ++ l ++ array.drop (p + l.length)) else none

/-- The write of a cell. -/
def store (array : List (Option α)) (p : Nat) (x : α) : Option (List (Option α)) :=
  if p < array.length then some (array.set p (some x)) else none

/-- The read of a cell. -/
def load (array : List (Option α)) (p : Nat) : Option α := (array[p]?).join

/-- `full()` -/
def full (q : CircularArray α) : Bool := !q.isEmpty && q.start == q.last

/-- `size()` -/
def size (q : CircularArray α) : Nat :=
  if q.isEmpty then 0
  else if q.last > q.start then q.last - q.start
  else q.last + (q.capacity - q.start)

/-- `resize(capacity)` -/
def resize (q : CircularArray α) (capacity : Nat) : Option (CircularArray α) := do
  let array := newArray capacity
  let array ←
    if q.isEmpty then some array
    else if q.last > q.start then do
      let l ← slice q.array q.start (q.last - q.start)
      copyTo array 0 l
    else do
      let l ← slice q.array q.start (q.capacity - q.start)
      let array ← copyTo array 0 l
      let l ← slice q.array 0 q.last
      copyTo array (q.capacity - q.start) l
  some { array := array, start := 0, last := q.size, capacity := capacity, isEmpty := q.isEmpty }

/-- `to_array_index(index)` -/
def toArrayIndex (q : CircularArray α) (index : Int) : Except CircularArrayException Nat :=
  if index ≥ q.size ∨ index < 0 then .error .outOfBounds
  else if q.last > q.start then .ok (q.start + index.toNat)
  else if index.toNat < q.capacity - q.start then .ok (q.start + index.toNat)
  else .ok (index.toNat - (q.capacity - q.start))

/-- `if(full()){ resize(m_capacity << 1); }` -/
def grow (q : CircularArray α) : Option (CircularArray α) :=
  if q.full then q.resize (q.capacity * 2) else some q

/-- `append(item)` -/
def append (q : CircularArray α) (item : α) : Option (CircularArray α) := do
  let q ← q.grow
  let array ← store q.array q.last item
  let last := q.last + 1
  let last := if last = q.capacity then 0 else last
  some { q with array := array, last := last, isEmpty := false }

/-- `prepend(item)` -/
def prepend (q : CircularArray α) (item : α) : Option (CircularArray α) := do
  let q ← q.grow
  let start := if q.start = 0 then q.capacity - 1 else q.start - 1
  let array ← store q.array start item
  some { q with array := array, start := start, isEmpty := false }

/-- `pop()` -/
def pop (q : CircularArray α) : Except CircularArrayException (CircularArray α) :=
  if q.isEmpty then .error .emptyQueue
  else
    let start := q.start + 1
    let start := if start ≥ q.capacity then 0 else start
    .ok { q with start := start, isEmpty := start = q.last }

/-- `clear(capacity)` -/
def clear (q : CircularArray α) (capacity : Nat) : CircularArray α :=
  let q := { q with start := 0, last := 0, isEmpty := true }
  if capacity > 0 ∧ capacity ≠ q.capacity then
    { q with array := newArray capacity, capacity := capacity }
  else q

/-! ## Runs -/

/-- A call. -/
inductive Call (α : Type) where
  | append (item : α)
  | prepend (item : α)
  | pop
  | clear (capacity : Nat)
  | read (i : Int)
  | write (i : Int) (item : α)

/-- What a call gives. -/
inductive Answer (α : Type) where
  | done
  | value (item : α)
  | raised (e : CircularArrayException)

/-- A call on the circular array, undefined where it accesses a cell that is not there or, for a
read, holds nothing. -/
def call (q : CircularArray α) : Call α → Option (Answer α × CircularArray α)
  | .append item => (q.append item).map fun q => (.done, q)
  | .prepend item => (q.prepend item).map fun q => (.done, q)
  | .pop =>
    match q.pop with
    | .ok q => some (.done, q)
    | .error e => some (.raised e, q)
  | .clear capacity => some (.done, q.clear capacity)
  | .read i =>
    match q.toArrayIndex i with
    | .ok p => (load q.array p).map fun item => (.value item, q)
    | .error e => some (.raised e, q)
  | .write i item =>
    match q.toArrayIndex i with
    | .ok p => (store q.array p item).map fun array => (.done, { q with array := array })
    | .error e => some (.raised e, q)

/-- The calls one after the other. -/
def calls : CircularArray α → List (Call α) → Option (List (Answer α) × CircularArray α)
  | q, [] => some ([], q)
  | q, c :: cs => do
    let (answer, q) ← q.call c
    let (answers, q) ← q.calls cs
    some (answer :: answers, q)

/-- `A[0], ..., A[size() - 1]` -/
def contents (q : CircularArray α) : Option (List α) :=
  (List.range q.size).mapM fun i : Nat =>
    match q.toArrayIndex i with
    | .ok p => load q.array p
    | .error _ => none

/-! ## The double-ended list -/

/-- A call on the list that the circular array stands for. -/
def listCall (l : List α) : Call α → Answer α × List α
  | .append item => (.done, l ++ [item])
  | .prepend item => (.done, item :: l)
  | .pop =>
    match l with
    | [] => (.raised .emptyQueue, [])
    | _ :: l => (.done, l)
  | .clear _ => (.done, [])
  | .read i =>
    if 0 ≤ i then
      match l[i.toNat]? with
      | some item => (.value item, l)
      | none => (.raised .outOfBounds, l)
    else (.raised .outOfBounds, l)
  | .write i item =>
    if 0 ≤ i ∧ i < l.length then (.done, l.set i.toNat item) else (.raised .outOfBounds, l)

def listCalls : List α → List (Call α) → List (Answer α) × List α
  | l, [] => ([], l)
  | l, c :: cs =>
    let (answer, l) := listCall l c
    let (answers, l) := listCalls l cs
    (answer :: answers, l)

/-! ## Refinement -/

/-- The position `k` of a buffer that wraps around once. -/
def wrap (capacity k : Nat) : Nat := if k < capacity then k else k - capacity

/-- The elements of the list are in their cells, and the fields agree with them. -/
structure Holds (q : CircularArray α) (l : List α) : Prop where
  length : q.array.length = q.capacity
  start : q.start < q.capacity
  fits : l.length ≤ q.capacity
  last : q.last = wrap q.capacity (q.start + l.length)
  isEmpty : q.isEmpty = true ↔ l = []
  cells : ∀ i x, l[i]? = some x → q.array[wrap q.capacity (q.start + i)]? = some (some x)

section Refinement

variable {q : CircularArray α} {l : List α}

theorem load_eq (array : List (Option α)) (p : Nat) : load array p = (array[p]?).join := rfl

theorem Holds.size (holds : q.Holds l) : q.size = l.length := by
  have start := holds.start
  have fits := holds.fits
  have last := holds.last
  unfold CircularArray.size
  by_cases none : q.isEmpty
  · rw [if_pos none, holds.isEmpty.mp none]
    rfl
  · have positive := List.length_pos_iff.mpr (mt holds.isEmpty.mpr none)
    rw [if_neg none, last, wrap]
    split_ifs <;> omega

/-- The queue is full when it has as many elements as cells. -/
theorem Holds.full_iff (holds : q.Holds l) : q.full = true ↔ l.length = q.capacity := by
  have start := holds.start
  have fits := holds.fits
  have last := holds.last
  unfold full
  by_cases none : q.isEmpty
  · rw [holds.isEmpty.mp none] at *
    simp only [none, Bool.not_true, Bool.false_and, Bool.false_eq_true, List.length_nil, false_iff]
    omega
  · have positive := List.length_pos_iff.mpr (mt holds.isEmpty.mpr none)
    simp only [Bool.not_eq_true] at none
    simp only [none, Bool.not_false, Bool.true_and, beq_iff_eq, last, wrap]
    split_ifs <;> omega

/-- A position of the list is a cell of the buffer. -/
theorem Holds.toArrayIndex (holds : q.Holds l) (i : Int) : q.toArrayIndex i =
    if 0 ≤ i ∧ i < l.length then .ok (wrap q.capacity (q.start + i.toNat))
    else .error .outOfBounds := by
  have start := holds.start
  have fits := holds.fits
  have last := holds.last
  unfold CircularArray.toArrayIndex
  rw [holds.size]
  by_cases inside : 0 ≤ i ∧ i < l.length
  · have positive : 0 < l.length := by omega
    rw [if_neg (by omega), if_pos inside]
    rw [last]
    unfold wrap
    split_ifs <;> first | rfl | omega | (congr 1; omega)
  · rw [if_pos (by omega), if_neg inside]

/-- A run of cells that hold a part of the list. -/
theorem slice_cells (array : List (Option α)) {p n k : Nat} (within : p + n ≤ array.length)
    (fits : k + n ≤ l.length)
    (cells : ∀ i x, i < n → l[k + i]? = some x → array[p + i]? = some (some x)) :
    slice array p n = some (((l.drop k).take n).map some) := by
  unfold slice
  rw [if_pos within]
  congr 1
  refine List.ext_getElem? fun i => ?_
  rw [List.getElem?_map, List.getElem?_take, List.getElem?_take, List.getElem?_drop,
    List.getElem?_drop]
  by_cases inside : i < n
  · obtain ⟨x, read⟩ : ∃ x, l[k + i]? = some x :=
      ⟨_, List.getElem?_eq_getElem (by omega)⟩
    rw [if_pos inside, if_pos inside, cells i x inside read, read]
    rfl
  · rw [if_neg inside, if_neg inside]
    rfl

/-- What is copied after the cells that are filled comes after them. -/
theorem copyTo_filled (filled rest cells : List (Option α)) {p : Nat} (ends : filled.length = p)
    (room : cells.length ≤ rest.length) :
    copyTo (filled ++ rest) p cells = some (filled ++ cells ++ rest.drop cells.length) := by
  unfold copyTo
  rw [if_pos (by rw [List.length_append]; omega), ← ends, List.take_left, List.drop_append,
    List.drop_eq_nil_of_le (by omega), List.nil_append, Nat.add_sub_cancel_left]

/-- A buffer with the list at its start. -/
theorem holds_of_prefix {array rest : List (Option α)} {capacity last : Nat} {isEmpty : Bool}
    (cells : array = l.map some ++ rest) (length : array.length = capacity)
    (room : l.length < capacity) (ends : last = l.length) (empty : isEmpty = true ↔ l = []) :
    Holds ⟨array, 0, last, capacity, isEmpty⟩ l where
  length := length
  start := by dsimp only; omega
  fits := room.le
  last := by
    dsimp only
    rw [wrap, if_pos (by omega), ends, Nat.zero_add]
  isEmpty := empty
  cells i x read := by
    have inside : i < l.length := (List.getElem?_eq_some_iff.mp read).1
    dsimp only
    rw [wrap, if_pos (by omega), Nat.zero_add, cells,
      List.getElem?_append_left (by simpa using inside), List.getElem?_map, read]
    rfl

/-- The held cells in front of a wrap, or all of them. -/
theorem Holds.slice_front (holds : q.Holds l) {n : Nat} (fits : n ≤ l.length)
    (within : q.start + n ≤ q.capacity) :
    slice q.array q.start n = some ((l.take n).map some) := by
  have cells := slice_cells q.array (l := l) (p := q.start) (n := n) (k := 0)
    (by rw [holds.length]; exact within) (by omega) fun i x inside read => by
      have cell := holds.cells (0 + i) x read
      rwa [wrap, if_pos (by omega), Nat.zero_add] at cell
  rwa [List.drop_zero] at cells

/-- The held cells behind a wrap. -/
theorem Holds.slice_back (holds : q.Holds l) (wrapped : q.capacity ≤ q.start + l.length) :
    slice q.array 0 q.last = some ((l.drop (q.capacity - q.start)).map some) := by
  have start := holds.start
  have fits := holds.fits
  have last : q.last = q.start + l.length - q.capacity := by
    rw [holds.last, wrap, if_neg (by omega)]
  have cells := slice_cells q.array (l := l) (p := 0) (n := q.last)
    (k := q.capacity - q.start) (by rw [holds.length]; omega) (by omega) fun i x inside read => by
      have cell := holds.cells (q.capacity - q.start + i) x read
      rw [wrap, if_neg (by omega)] at cell
      rwa [show q.start + (q.capacity - q.start + i) - q.capacity = 0 + i by omega] at cell
  rwa [List.take_of_length_le (by rw [List.length_drop]; omega)] at cells

/-- A larger buffer gets the elements in their order. -/
theorem Holds.resize (holds : q.Holds l) (capacity : Nat) (room : l.length < capacity) :
    ∃ r, q.resize capacity = some r ∧ r.Holds l ∧ r.capacity = capacity := by
  have start := holds.start
  have fits := holds.fits
  have last := holds.last
  have size := holds.size
  have fresh : (newArray capacity : List (Option α)).length = capacity := List.length_replicate
  unfold CircularArray.resize
  by_cases none : q.isEmpty
  · have nil := holds.isEmpty.mp none
    refine ⟨⟨newArray capacity, 0, q.size, capacity, q.isEmpty⟩, by simp [none], ?_, rfl⟩
    exact holds_of_prefix
      (show newArray capacity = l.map some ++ newArray capacity by simp [nil])
      fresh room size holds.isEmpty
  · have positive := List.length_pos_iff.mpr (mt holds.isEmpty.mpr none)
    rw [if_neg none]
    by_cases unwrapped : q.last > q.start
    · -- the elements are one run of cells
      have ends : q.last - q.start = l.length := by
        unfold wrap at last
        split_ifs at last <;> omega
      have within : q.start + l.length ≤ q.capacity := by
        unfold wrap at last
        split_ifs at last <;> omega
      have whole := holds.slice_front le_rfl within
      have copied := copyTo_filled [] (newArray capacity)
        ((l.take l.length).map some) (p := 0) rfl (by simp [fresh]; omega)
      rw [List.nil_append, List.nil_append] at copied
      rw [if_pos unwrapped, ends, whole, Option.bind_eq_bind, Option.bind_some, copied,
        Option.bind_some]
      refine ⟨_, rfl, ?_, rfl⟩
      rw [List.take_length]
      exact holds_of_prefix rfl (by simp [fresh]; omega) room size holds.isEmpty
    · -- the elements are the cells in front of the end of the buffer and those at its start
      have wrapped : q.capacity ≤ q.start + l.length := by
        unfold wrap at last
        split_ifs at last <;> omega
      have front := holds.slice_front (n := q.capacity - q.start) (by omega) (by omega)
      have back := holds.slice_back wrapped
      have first := copyTo_filled [] (newArray capacity)
        ((l.take (q.capacity - q.start)).map some) (p := 0) rfl
        (by rw [List.length_map, List.length_take, fresh]; omega)
      have second := copyTo_filled
        ((l.take (q.capacity - q.start)).map some)
        ((newArray capacity).drop ((l.take (q.capacity - q.start)).map some).length)
        ((l.drop (q.capacity - q.start)).map some) (p := q.capacity - q.start)
        (by rw [List.length_map, List.length_take]; omega)
        (by simp only [List.length_map, List.length_take, List.length_drop, fresh]; omega)
      rw [List.nil_append, List.nil_append] at first
      rw [← List.map_append, List.take_append_drop] at second
      rw [if_neg unwrapped, front, Option.bind_eq_bind, Option.bind_some, first, Option.bind_some,
        back, Option.bind_some, second, Option.bind_some]
      refine ⟨_, rfl, ?_, rfl⟩
      refine holds_of_prefix rfl ?_ room size holds.isEmpty
      simp only [List.length_append, List.length_map, List.length_take, List.length_drop, fresh]
      omega

/-- A full buffer is replaced by one of double the size. -/
theorem Holds.grow (holds : q.Holds l) :
    ∃ r, q.grow = some r ∧ r.Holds l ∧ l.length < r.capacity := by
  have start := holds.start
  have fits := holds.fits
  unfold CircularArray.grow
  by_cases full : q.full
  · have same := holds.full_iff.mp full
    obtain ⟨r, resized, holds, capacity⟩ := holds.resize (q.capacity * 2) (by omega)
    exact ⟨r, by rw [if_pos full, resized], holds, by omega⟩
  · have same := mt holds.full_iff.mpr full
    exact ⟨q, by rw [if_neg full], holds, by omega⟩

/-- The write of a cell of the list. -/
theorem Holds.store (holds : q.Holds l) {i : Nat} (inside : i < l.length) (item : α) :
    ∃ array, store q.array (wrap q.capacity (q.start + i)) item = some array ∧
      Holds { q with array := array } (l.set i item) := by
  have start := holds.start
  have fits := holds.fits
  have cell : wrap q.capacity (q.start + i) < q.array.length := by
    rw [holds.length, wrap]
    split_ifs <;> omega
  refine ⟨_, if_pos cell, ?_⟩
  refine ⟨by rw [List.length_set]; exact holds.length, start, by rwa [List.length_set],
    by rw [List.length_set]; exact holds.last, ?_, fun j x read => ?_⟩
  · have empty := holds.isEmpty
    simp only [← List.length_eq_zero_iff, List.length_set] at empty ⊢
    exact empty
  · have bound : j < l.length := by
      simpa using (List.getElem?_eq_some_iff.mp read).1
    by_cases same : i = j
    · subst same
      rw [List.getElem?_set_self inside] at read
      obtain rfl := Option.some.inj read
      exact List.getElem?_set_self cell
    · rw [List.getElem?_set_ne same] at read
      have differ : wrap q.capacity (q.start + i) ≠ wrap q.capacity (q.start + j) := by
        unfold wrap
        split_ifs <;> omega
      dsimp only
      rw [List.getElem?_set_ne differ]
      exact holds.cells j x read

theorem Holds.append (holds : q.Holds l) (item : α) :
    ∃ r, q.append item = some r ∧ r.Holds (l ++ [item]) := by
  obtain ⟨g, grown, holds, room⟩ := holds.grow
  have start := holds.start
  have last := holds.last
  have free : g.last < g.array.length := by
    rw [holds.length, last, wrap]
    split_ifs <;> omega
  unfold CircularArray.append
  rw [grown, Option.bind_eq_bind, Option.bind_some, CircularArray.store, if_pos free]
  refine ⟨_, rfl, ?_⟩
  refine ⟨by rw [List.length_set]; exact holds.length, start, ?_, ?_, by simp, fun i x read => ?_⟩
  · rw [List.length_append, List.length_singleton]
    exact room
  · dsimp only
    rw [List.length_append, List.length_singleton, last]
    unfold wrap
    split_ifs <;> omega
  · dsimp only
    rcases Nat.lt_trichotomy i l.length with before | rfl | after
    · rw [List.getElem?_append_left before] at read
      have differ : g.last ≠ wrap g.capacity (g.start + i) := by
        rw [last]
        unfold wrap
        split_ifs <;> omega
      rw [List.getElem?_set_ne differ]
      exact holds.cells i x read
    · rw [List.getElem?_append_right le_rfl, Nat.sub_self, List.getElem?_cons_zero] at read
      rw [← last, List.getElem?_set_self free, Option.some.inj read]
    · rw [List.getElem?_eq_none (by rw [List.length_append, List.length_singleton]; omega)] at read
      cases read

theorem Holds.prepend (holds : q.Holds l) (item : α) :
    ∃ r, q.prepend item = some r ∧ r.Holds (item :: l) := by
  obtain ⟨g, grown, holds, room⟩ := holds.grow
  have start := holds.start
  have last := holds.last
  obtain ⟨p, position⟩ : ∃ p, p = if g.start = 0 then g.capacity - 1 else g.start - 1 := ⟨_, rfl⟩
  have free : p < g.array.length := by
    rw [holds.length, position]
    split_ifs <;> omega
  unfold CircularArray.prepend
  rw [grown, Option.bind_eq_bind, Option.bind_some]
  dsimp only
  rw [← position, CircularArray.store, if_pos free]
  refine ⟨_, rfl, ?_⟩
  refine ⟨by rw [List.length_set]; exact holds.length, by rw [← holds.length]; exact free, ?_, ?_,
    by simp, fun i x read => ?_⟩
  · rw [List.length_cons]
    exact room
  · dsimp only
    rw [List.length_cons, last, position]
    unfold wrap
    split_ifs <;> omega
  · dsimp only
    cases i with
    | zero =>
      rw [List.getElem?_cons_zero] at read
      have same : wrap g.capacity (p + 0) = p := by
        rw [wrap, if_pos (by rw [← holds.length]; exact free), Nat.add_zero]
      rw [same, List.getElem?_set_self free, Option.some.inj read]
    | succ i =>
      rw [List.getElem?_cons_succ] at read
      have bound : i < l.length := (List.getElem?_eq_some_iff.mp read).1
      have same : wrap g.capacity (p + (i + 1)) = wrap g.capacity (g.start + i) := by
        rw [position]
        unfold wrap
        split_ifs <;> omega
      have differ : p ≠ wrap g.capacity (g.start + i) := by
        rw [position]
        unfold wrap
        split_ifs <;> omega
      rw [same, List.getElem?_set_ne differ]
      exact holds.cells i x read

theorem Holds.pop {x : α} (holds : q.Holds (x :: l)) : ∃ r, q.pop = .ok r ∧ r.Holds l := by
  have start := holds.start
  have last := holds.last
  have fits := holds.fits
  rw [List.length_cons] at last fits
  have none : ¬q.isEmpty := mt holds.isEmpty.mp (by simp)
  unfold CircularArray.pop
  rw [if_neg none]
  obtain ⟨p, position⟩ : ∃ p, p = if q.start + 1 ≥ q.capacity then 0 else q.start + 1 := ⟨_, rfl⟩
  dsimp only
  rw [← position]
  refine ⟨_, rfl, holds.length, ?_, by dsimp only; omega, ?_, ?_, fun i y read => ?_⟩
  · dsimp only
    rw [position]
    split_ifs <;> omega
  · dsimp only
    rw [last, position]
    unfold wrap
    split_ifs <;> omega
  · rw [decide_eq_true_iff, ← List.length_eq_zero_iff, last, position]
    unfold wrap
    split_ifs <;> omega
  · have bound : i < l.length := (List.getElem?_eq_some_iff.mp read).1
    have cell := holds.cells (i + 1) y (by rwa [List.getElem?_cons_succ])
    have same : wrap q.capacity (q.start + (i + 1)) = wrap q.capacity (p + i) := by
      rw [position]
      unfold wrap
      split_ifs <;> omega
    rwa [same] at cell

theorem pop_nil (holds : q.Holds []) : q.pop = .error .emptyQueue :=
  if_pos (holds.isEmpty.mpr rfl)

theorem holds_empty {array : List (Option α)} {capacity : Nat} (length : array.length = capacity)
    (positive : 0 < capacity) : Holds ⟨array, 0, 0, capacity, true⟩ [] :=
  ⟨length, positive, Nat.zero_le _, by simp [wrap, positive], by simp, by simp⟩

theorem Holds.clear (holds : q.Holds l) (capacity : Nat) : (q.clear capacity).Holds [] := by
  have start := holds.start
  unfold CircularArray.clear
  dsimp only
  split_ifs with renewed
  · exact holds_empty List.length_replicate renewed.1
  · exact holds_empty holds.length (by omega)

/-! ## Every run -/

theorem Holds.call (holds : q.Holds l) (c : Call α) :
    ∃ r, q.call c = some ((listCall l c).1, r) ∧ r.Holds (listCall l c).2 := by
  cases c with
  | append item =>
    obtain ⟨r, appended, holds⟩ := holds.append item
    exact ⟨r, by rw [CircularArray.call, appended]; rfl, holds⟩
  | prepend item =>
    obtain ⟨r, prepended, holds⟩ := holds.prepend item
    exact ⟨r, by rw [CircularArray.call, prepended]; rfl, holds⟩
  | pop =>
    cases l with
    | nil => exact ⟨q, by rw [CircularArray.call, pop_nil holds]; rfl, holds⟩
    | cons x l =>
      obtain ⟨r, popped, holds⟩ := holds.pop
      exact ⟨r, by rw [CircularArray.call, popped]; rfl, holds⟩
  | clear capacity => exact ⟨q.clear capacity, rfl, holds.clear capacity⟩
  | read i =>
    unfold CircularArray.call listCall
    dsimp only
    rw [holds.toArrayIndex]
    by_cases inside : 0 ≤ i ∧ i < l.length
    · have read : l[i.toNat]? = some l[i.toNat] := List.getElem?_eq_getElem (by omega)
      rw [if_pos inside, if_pos inside.1, read]
      refine ⟨q, ?_, holds⟩
      dsimp only
      rw [load_eq, holds.cells _ _ read]
      rfl
    · rw [if_neg inside]
      by_cases positive : 0 ≤ i
      · rw [if_pos positive, List.getElem?_eq_none (by omega)]
        exact ⟨q, rfl, holds⟩
      · rw [if_neg positive]
        exact ⟨q, rfl, holds⟩
  | write i item =>
    unfold CircularArray.call listCall
    dsimp only
    rw [holds.toArrayIndex]
    by_cases inside : 0 ≤ i ∧ i < l.length
    · obtain ⟨array, stored, after⟩ := holds.store (i := i.toNat) (by omega) item
      rw [if_pos inside, if_pos inside]
      exact ⟨{ q with array := array }, by dsimp only; rw [stored]; rfl, after⟩
    · rw [if_neg inside, if_neg inside]
      exact ⟨q, rfl, holds⟩

theorem Holds.calls (holds : q.Holds l) (cs : List (Call α)) :
    ∃ r, q.calls cs = some ((listCalls l cs).1, r) ∧ r.Holds (listCalls l cs).2 := by
  induction cs generalizing q l with
  | nil => exact ⟨q, rfl, holds⟩
  | cons c cs ih =>
    obtain ⟨r, called, holds⟩ := holds.call c
    obtain ⟨s, rest, holds⟩ := ih holds
    refine ⟨s, ?_, holds⟩
    rw [CircularArray.calls, called, Option.bind_eq_bind, Option.bind_some]
    dsimp only
    rw [rest]
    rfl

/-- The elements read by their positions. -/
theorem Holds.contents (holds : q.Holds l) : q.contents = some l := by
  unfold CircularArray.contents
  rw [holds.size]
  refine mapM_range fun i x read => ?_
  have bound : i < l.length := (List.getElem?_eq_some_iff.mp read).1
  rw [holds.toArrayIndex, if_pos (by omega)]
  dsimp only
  rw [Int.toNat_natCast, load_eq, holds.cells i x read]
  rfl

end Refinement

/-- For every initial capacity and every list of calls, each call gives what it gives on the
double-ended list, no cell outside the buffer and none that holds nothing is accessed, and the
elements, the size and whether the queue is empty are those of the list. -/
theorem calls_refine (capacity : Nat) (positive : 1 ≤ capacity) (cs : List (Call α)) :
    ∃ q, (create capacity).calls cs = some ((listCalls [] cs).1, q) ∧
      q.contents = some (listCalls [] cs).2 ∧ q.size = (listCalls [] cs).2.length ∧
      (q.isEmpty = true ↔ (listCalls [] cs).2 = []) := by
  have fresh : (create capacity : CircularArray α).Holds [] :=
    holds_empty List.length_replicate positive
  obtain ⟨q, run, holds⟩ := fresh.calls cs
  exact ⟨q, run, holds.contents, holds.size, holds.isEmpty⟩

theorem calls_refine_grown :
    ∃ q, (create 2).calls [.append 1, .append 2, .prepend 0, .pop, .append 3, .append 4,
        .read 3, .read 4] =
      some ([.done, .done, .done, .done, .done, .done, .value 4, .raised .outOfBounds], q) ∧
      q.contents = some [1, 2, 3, 4] ∧ q.size = 4 ∧
      (q.isEmpty = true ↔ ([1, 2, 3, 4] : List Nat) = []) :=
  calls_refine 2 (by decide) _

end CircularArray

end Rma
