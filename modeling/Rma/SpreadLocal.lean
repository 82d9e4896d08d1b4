import Rma.FindWindow
import Rma.RangeScan
import Rma.SpreadSave

/-!
# Spread of a window

`spread_local` loads the elements of a window into a scratch array, the new one among them, and
saves the partitions of the array one after the other to their segments. It tells the detector
which segment got the new key, from the position that the load found.

`load_spec` says what is in the scratch array, and `savePartitions_spec` what the partitions make
of it: their shares, except that a partition that starts at an odd segment may copy a surplus
(`SpreadSave.surplus`), and then its other segments get later elements than they should.
-/

namespace Rma

open Base Rma.Partition

namespace SpreadLocal

/-! ## The code -/

/-- What `spread_load` writes and its local variables: the array, the position of the new key, and
`do_insert`. -/
structure Load where
  output : List (Int × Int)
  position : Int
  insert : Bool
  found : Int -- `*output_position_key_inserted`
  cardinality : Nat

/-- `spread_insert_unsafe` at the end of the array. -/
def Load.insertUnsafe (x : Load) (e : Int × Int) (l : List (Int × Int)) : Load :=
  let inserted := spreadInsertUnsafe e l
  { output := x.output ++ inserted.1
    position := x.position + inserted.2
    insert := false
    found := x.position + inserted.2
    cardinality := uint32 (x.cardinality + 1 : Nat) }

/-- One turn of the loop: the pair of segments at `i - 1` of the window. -/
def loadPair (s : Storage) (a : RebalanceAction) (i : Nat) (x : Load) : Option Load := do
  let left := s.segmentSizes (a.windowStart + i - 1)
  let length := left + s.segmentSizes (a.windowStart + i)
  let offset := s.segmentCapacity * i - left
  let l ← s.readRun (a.windowStart * s.segmentCapacity + offset) length
  let newKeySegment : Int := if a.isInsert then (a.insertSegment : Int) - a.windowStart else -1
  if newKeySegment = i ∨ newKeySegment = (i : Int) - 1 then
    some (x.insertUnsafe (a.insertKey, a.insertValue) l)
  else
    some
      { x with
        output := x.output ++ l
        position := if x.insert then x.position + length else x.position }

/-- The loop of `spread_load`; `fuel` bounds the turns. -/
def loadPairs (s : Storage) (a : RebalanceAction) : (fuel i : Nat) → Load → Option Load
  | 0, _, x => some x
  | fuel + 1, i, x =>
    if i < a.windowLength then do
      let x ← loadPair s a i x
      loadPairs s a fuel (i + 2) x
    else some x

/-- `spread_load` -/
def load (s : Storage) (a : RebalanceAction) : Option Load := do
  let x ← loadPairs s a a.windowLength 1 ⟨[], 0, a.isInsert, -1, s.cardinality⟩
  some (if x.insert then x.insertUnsafe (a.insertKey, a.insertValue) [] else x)

/-- `spread_create_detector_record` -/
def createDetectorRecord (keys : List (Int × Int)) (size position : Int) :
    Option SpreadDetectorRecord :=
  if position < 0 then some ⟨-1, -2 ^ 63, 2 ^ 63 - 1⟩
  else
    (if position > 0 then keys[(position - 1).toNat]?.map Prod.fst else some (-2 ^ 63)).bind
      fun predecessor =>
        (if position < size - 1 then keys[(position + 1).toNat]?.map Prod.fst
          else some (2 ^ 63 - 1)).map fun successor => ⟨position, predecessor, successor⟩

/-- The copy of a partition to its segments. -/
def savePartition (p : PackedMemoryArray) (q : Partition) (segment : Nat)
    (input : List (Int × Int)) (keysFrom : Nat) (record : Option SpreadDetectorRecord) :
    Option PackedMemoryArray :=
  if q.segments = 1 then p.spreadSave segment input keysFrom q.cardinality record
  else p.spreadSaveWindow segment q.segments input keysFrom q.cardinality record

/-- Adjust the starting offset of the inserted key. -/
def adjust (length : Nat) (record : Option SpreadDetectorRecord) : Option SpreadDetectorRecord :=
  match record with
  | none => none
  | some r =>
    if r.position - length < 0 then none else some { r with position := r.position - length }

/-- The loop over the partitions. -/
def savePartitions (input : List (Int × Int)) : List Partition → (segment keysFrom : Nat) →
    Option SpreadDetectorRecord → PackedMemoryArray → Option PackedMemoryArray
  | [], _, _, _, p => some p
  | q :: partitions, segment, keysFrom, record, p => do
    let p ← savePartition p q segment input keysFrom record
    savePartitions input partitions (segment + q.segments) (keysFrom + q.cardinality)
      (adjust q.cardinality record) p

/-- The record of the new key, if there is one. -/
def record (a : RebalanceAction) (x : Load) : Option (Option SpreadDetectorRecord) :=
  if a.isInsert then (createDetectorRecord x.output a.cardinalityAfter x.found).map some
  else some none

/-- A spread of the whole array clears the detector. -/
def clearWhole (a : RebalanceAction) (p : PackedMemoryArray) : PackedMemoryArray :=
  if a.windowLength = p.storage.numberSegments then
    { p with detector := p.detector ++ [.clear] }
  else p

end SpreadLocal

open SpreadLocal

/-- `spread_local`; the scratch array has `get_cardinality_after()` elements. -/
def PackedMemoryArray.spreadLocal (p : PackedMemoryArray) (a : RebalanceAction) :
    Option PackedMemoryArray := do
  let x ← load p.storage a
  if a.cardinalityAfter < x.output.length then none
  else do
    let record ← record a x
    let p ← savePartitions x.output a.partitions a.windowStart 0 record
      { p with storage := p.storage.withCardinality x.cardinality }
    some (clearWhole a p)

namespace SpreadLocal

open PackedMemoryArray SpreadSave

/-! ## The load -/

section Loading

variable {p : PackedMemoryArray} {a : RebalanceAction} {t : Nat} {x : Load}

/-- An even segment and the next one are read as one run. -/
theorem readRun_pair {s : Storage} {i : Nat} (even : i % 2 = 0) (inside : i + 1 < s.numberSegments)
    (left : s.segmentSizes i ≤ s.segmentCapacity)
    (right : s.segmentSizes (i + 1) ≤ s.segmentCapacity) :
    s.readRun (s.start i) (s.segmentSizes i + s.segmentSizes (i + 1)) =
      some (s.segment i ++ s.segment (i + 1)) := by
  have first := Storage.layout left
  have second := Storage.layout right
  have adjacent := Storage.stop_eq_start_succ (s := s) even
  have run : readCells s.cell (s.start i) (s.segmentSizes i + s.segmentSizes (i + 1)) =
      s.segment i ++ s.segment (i + 1) := by
    rw [readCells_add, ← first.2.1, adjacent]
    rfl
  unfold Storage.readRun
  rw [if_pos, run]
  intro q member
  have bounds := List.mem_range'_1.mp member
  by_cases before : q < s.stop i
  · exact Storage.occupied_of_segment (by omega) left bounds.1 before
  · exact Storage.occupied_of_segment inside right (by omega) (by omega)

/-- The window is made of pairs of segments that can be read. -/
structure Window (s : Storage) (a : RebalanceAction) : Prop where
  start_even : a.windowStart % 2 = 0
  length_even : a.windowLength % 2 = 0
  inside : a.windowStart + a.windowLength ≤ s.numberSegments
  sizes_le : ∀ i < s.numberSegments, s.segmentSizes i ≤ s.segmentCapacity

/-- The turn for the segments `2 * t` and `2 * t + 1` of the window. -/
theorem loadPair_eq (window : Window p.storage a) (below : 2 * t + 1 < a.windowLength) :
    loadPair p.storage a (2 * t + 1) x =
      if a.isInsert ∧ (a.insertSegment = a.windowStart + (2 * t + 1) ∨
          a.insertSegment = a.windowStart + 2 * t) then
        some (x.insertUnsafe (a.insertKey, a.insertValue) (p.block (a.windowStart + 2 * t) 2))
      else some
        { x with
          output := x.output ++ p.block (a.windowStart + 2 * t) 2
          position := if x.insert then x.position + (p.block (a.windowStart + 2 * t) 2).length
            else x.position } := by
  have aligned := window.start_even
  have inside := window.inside
  have sizes := window.sizes_le
  have even : (a.windowStart + 2 * t) % 2 = 0 := by omega
  have start : a.windowStart * p.storage.segmentCapacity +
      (p.storage.segmentCapacity * (2 * t + 1) - p.storage.segmentSizes (a.windowStart + 2 * t)) =
        p.storage.start (a.windowStart + 2 * t) := by
    have size := sizes (a.windowStart + 2 * t) (by omega)
    have split : (a.windowStart + 2 * t + 1) * p.storage.segmentCapacity =
        a.windowStart * p.storage.segmentCapacity + p.storage.segmentCapacity * (2 * t + 1) := by
      ring
    have more : p.storage.segmentCapacity ≤ p.storage.segmentCapacity * (2 * t + 1) :=
      Nat.le_mul_of_pos_right _ (by omega)
    rw [Storage.start, if_pos even, split]
    omega
  have pair : p.block (a.windowStart + 2 * t) 2 =
      p.storage.segment (a.windowStart + 2 * t) ++
        p.storage.segment (a.windowStart + (2 * t + 1)) := by
    rw [block_add p _ 1 1, block_one, block_one, Nat.add_assoc]
  have run := readRun_pair even (by omega) (sizes _ (by omega)) (sizes _ (by omega))
  rw [Nat.add_assoc] at run
  have length : (p.block (a.windowStart + 2 * t) 2).length =
      p.storage.segmentSizes (a.windowStart + 2 * t) +
        p.storage.segmentSizes (a.windowStart + (2 * t + 1)) := by
    rw [pair, List.length_append, Storage.length_segment, Storage.length_segment]
  unfold loadPair
  dsimp only
  rw [show a.windowStart + (2 * t + 1) - 1 = a.windowStart + 2 * t by omega, start, run, ← pair,
    Option.bind_eq_bind, Option.bind_some, length]
  have here : ((if a.isInsert then (a.insertSegment : Int) - a.windowStart else -1) =
        ((2 * t + 1 : Nat) : Int) ∨
      (if a.isInsert then (a.insertSegment : Int) - a.windowStart else -1) =
        ((2 * t + 1 : Nat) : Int) - 1) ↔
      a.isInsert ∧ (a.insertSegment = a.windowStart + (2 * t + 1) ∨
        a.insertSegment = a.windowStart + 2 * t) := by
    by_cases inserting : a.isInsert
    · simp only [inserting, if_true, true_and]
      omega
    · simp only [inserting, if_false, false_and, iff_false, Bool.false_eq_true]
      omega
  exact if_congr here rfl rfl

/-- What is loaded while no element is to be inserted. -/
theorem loadPairs_rest (fuel : Nat) (window : Window p.storage a) (le : 2 * t ≤ a.windowLength)
    (turns : a.windowLength - 2 * t ≤ fuel) (done : x.insert = false)
    (passed : a.isInsert = true → a.insertSegment < a.windowStart + 2 * t) :
    loadPairs p.storage a fuel (2 * t + 1) x = some
      { x with
        output := x.output ++ p.block (a.windowStart + 2 * t) (a.windowLength - 2 * t) } := by
  induction fuel generalizing t x with
  | zero =>
      have none : a.windowLength - 2 * t = 0 := by omega
      rw [none, block_zero, List.append_nil]
      rfl
  | succ fuel ih =>
      have even := window.length_even
      by_cases more : 2 * t + 1 < a.windowLength
      · have split : a.windowLength - 2 * t = 2 + (a.windowLength - 2 * (t + 1)) := by omega
        have other : ¬(a.isInsert ∧ (a.insertSegment = a.windowStart + (2 * t + 1) ∨
            a.insertSegment = a.windowStart + 2 * t)) := by
          intro ⟨inserting, _⟩
          have := passed inserting
          omega
        rw [loadPairs, if_pos more, loadPair_eq window more, if_neg other, done,
          if_neg Bool.false_ne_true, split, block_add]
        refine (ih (t := t + 1) (by omega) (by omega) rfl fun inserting => ?_).trans ?_
        · have := passed inserting
          omega
        · rw [List.append_assoc]
          rfl
      · have none : a.windowLength - 2 * t = 0 := by omega
        rw [loadPairs, if_neg more, none, block_zero, List.append_nil]

/-- The new element belongs in its segment. -/
structure Located (p : PackedMemoryArray) (a : RebalanceAction) : Prop where
  inside : a.windowStart ≤ a.insertSegment ∧ a.insertSegment < a.windowStart + a.windowLength
  below : ∀ i < a.insertSegment, ∀ x ∈ p.storage.segment i, x.1 ≤ a.insertKey
  above : ∀ i, a.insertSegment < i → i < p.storage.numberSegments →
    ∀ x ∈ p.storage.segment i, a.insertKey ≤ x.1
  sorted : ∀ i n, i + n ≤ p.storage.numberSegments → SortedPairs (p.block i n)

/-- What is loaded from a part of the window with the segment of the new key: the elements, with
the new one between those that are not greater and those that are not smaller. -/
theorem loadPairs_insert (fuel : Nat) (window : Window p.storage a)
    (located : Located p a) (inserting : a.isInsert = true)
    (le : 2 * t ≤ a.windowLength) (turns : a.windowLength - 2 * t ≤ fuel) (pending : x.insert = true)
    (ahead : a.windowStart + 2 * t ≤ a.insertSegment) :
    ∃ l₁ l₂, p.block (a.windowStart + 2 * t) (a.windowLength - 2 * t) = l₁ ++ l₂ ∧
      (∀ y ∈ l₁, y.1 ≤ a.insertKey) ∧ (∀ y ∈ l₂, a.insertKey ≤ y.1) ∧
      loadPairs p.storage a fuel (2 * t + 1) x = some
        { output := x.output ++ (l₁ ++ (a.insertKey, a.insertValue) :: l₂)
          position := x.position + l₁.length
          insert := false
          found := x.position + l₁.length
          cardinality := uint32 (x.cardinality + 1 : Nat) } := by
  have even := window.length_even
  have bounds := located.inside
  have inside := window.inside
  induction fuel generalizing t x with
  | zero => omega
  | succ fuel ih =>
      have more : 2 * t + 1 < a.windowLength := by omega
      have split : a.windowLength - 2 * t = 2 + (a.windowLength - 2 * (t + 1)) := by omega
      have member : ∀ i n, ∀ y ∈ p.block i n, ∃ j, i ≤ j ∧ j < i + n ∧ y ∈ p.storage.segment j := by
        intro i n y member
        obtain ⟨k, inside, here⟩ := List.mem_flatMap.mp member
        have below := List.mem_range.mp inside
        exact ⟨i + k, by omega, by omega, here⟩
      rw [loadPairs, if_pos more, loadPair_eq window more, split, block_add]
      by_cases here : a.insertSegment = a.windowStart + (2 * t + 1) ∨
          a.insertSegment = a.windowStart + 2 * t
      · -- the pair of the new key
        rw [if_pos ⟨inserting, here⟩]
        have sorted : SortedPairs (p.block (a.windowStart + 2 * t) 2) :=
          located.sorted _ _ (by omega)
        obtain ⟨l₁, l₂, whole, less, first⟩ := exists_insertUp_split (a.insertKey, a.insertValue)
          (p.block (a.windowStart + 2 * t) 2)
        have place := insertUp_split less first
        rw [← whole] at place
        have inserted : spreadInsertUnsafe (a.insertKey, a.insertValue)
            (p.block (a.windowStart + 2 * t) 2) =
              (l₁ ++ (a.insertKey, a.insertValue) :: l₂, l₁.length) := by
          rw [← place.2, ← place.1]
          rfl
        refine ⟨l₁, l₂ ++ p.block (a.windowStart + 2 * t + 2) (a.windowLength - 2 * (t + 1)),
          by rw [whole, List.append_assoc], fun y inside => (less y inside).le, ?_, ?_⟩
        · intro y inside
          rcases List.mem_append.mp inside with near | later
          · rw [whole, SortedPairs.append_iff] at sorted
            cases l₂ with
            | nil => cases near
            | cons z l₂ => exact (first z rfl).trans (sorted.2.1.head_le y near)
          · obtain ⟨i, lower, upper, here⟩ := member _ _ y later
            exact located.above i (by omega) (by omega) y here
        · unfold Load.insertUnsafe
          rw [inserted]
          refine (loadPairs_rest (t := t + 1) fuel window (by omega) (by omega) rfl
            fun _ => ?_).trans ?_
          · omega
          · rw [List.append_assoc, List.append_assoc]
            rfl
      · -- the new key comes later
        rw [if_neg fun both => here both.2, pending, if_pos rfl]
        obtain ⟨l₁, l₂, rest, below, above, loaded⟩ := ih (t := t + 1)
          (x :=
            { x with
              output := x.output ++ p.block (a.windowStart + 2 * t) 2
              position := x.position + (p.block (a.windowStart + 2 * t) 2).length
              insert := true })
          (by omega) (by omega) rfl (by omega)
        have next : a.windowStart + 2 * (t + 1) = a.windowStart + 2 * t + 2 := by ring
        rw [next] at rest
        refine ⟨p.block (a.windowStart + 2 * t) 2 ++ l₁, l₂, by rw [rest, List.append_assoc], ?_,
          above, ?_⟩
        · intro y inside
          rcases List.mem_append.mp inside with before | near
          · obtain ⟨i, lower, upper, here⟩ := member _ _ y before
            exact located.below i (by omega) y here
          · exact below y near
        · refine loaded.trans ?_
          rw [List.length_append]
          push_cast
          rw [List.append_assoc, List.append_assoc, Int.add_assoc]

/-- The whole load of a window that the new element belongs in. -/
theorem load_insert (window : Window p.storage a) (located : Located p a)
    (inserting : a.isInsert = true) :
    ∃ l₁ l₂, p.block a.windowStart a.windowLength = l₁ ++ l₂ ∧
      (∀ y ∈ l₁, y.1 ≤ a.insertKey) ∧ (∀ y ∈ l₂, a.insertKey ≤ y.1) ∧
      load p.storage a = some
        { output := l₁ ++ (a.insertKey, a.insertValue) :: l₂
          position := l₁.length
          insert := false
          found := l₁.length
          cardinality := uint32 (p.storage.cardinality + 1 : Nat) } := by
  obtain ⟨l₁, l₂, whole, below, above, loaded⟩ := loadPairs_insert (t := 0)
    (x := ⟨[], 0, a.isInsert, -1, p.storage.cardinality⟩) a.windowLength window located
    inserting (Nat.zero_le _) (Nat.sub_le _ _) inserting (located.inside.1)
  refine ⟨l₁, l₂, whole, below, above, ?_⟩
  unfold load
  rw [loaded]
  simp

theorem load_delete (window : Window p.storage a) (deleting : a.isInsert = false) :
    load p.storage a = some
      { output := p.block a.windowStart a.windowLength
        position := 0
        insert := false
        found := -1
        cardinality := p.storage.cardinality } := by
  have loaded := loadPairs_rest (t := 0) (x := ⟨[], 0, a.isInsert, -1, p.storage.cardinality⟩)
    a.windowLength window (Nat.zero_le _) (Nat.sub_le _ _) deleting
    fun inserting => absurd inserting (by rw [deleting]; exact Bool.false_ne_true)
  unfold load
  rw [loaded]
  simp [deleting]

/-- The record has the position and the neighbours of the new key. -/
theorem createDetectorRecord_eq (l₁ l₂ : List (Int × Int)) (e : Int × Int) :
    createDetectorRecord (l₁ ++ e :: l₂) (l₁ ++ e :: l₂).length l₁.length =
      some ⟨l₁.length, (l₁.getLast?.map Prod.fst).getD (-2 ^ 63),
        (l₂.head?.map Prod.fst).getD (2 ^ 63 - 1)⟩ := by
  have length : (l₁ ++ e :: l₂).length = l₁.length + (l₂.length + 1) := by
    rw [List.length_append, List.length_cons]
  have before : (if (l₁.length : Int) > 0 then
      (l₁ ++ e :: l₂)[((l₁.length : Int) - 1).toNat]?.map Prod.fst else some (-2 ^ 63)) =
        some ((l₁.getLast?.map Prod.fst).getD (-2 ^ 63)) := by
    rcases List.eq_nil_or_concat l₁ with rfl | ⟨l, x, rfl⟩
    · rfl
    · rw [List.concat_eq_append]
      have place : (((l ++ [x]).length : Int) - 1).toNat = l.length := by
        rw [List.length_append, List.length_singleton]
        omega
      have positive : ((l ++ [x]).length : Int) > 0 := by
        rw [List.length_append, List.length_singleton]
        omega
      rw [if_pos positive, place, List.append_assoc, List.getElem?_append_right le_rfl,
        Nat.sub_self, List.getLast?_concat]
      rfl
  have after : (if (l₁.length : Int) < ((l₁ ++ e :: l₂).length : Int) - 1 then
      (l₁ ++ e :: l₂)[((l₁.length : Int) + 1).toNat]?.map Prod.fst else some (2 ^ 63 - 1)) =
        some ((l₂.head?.map Prod.fst).getD (2 ^ 63 - 1)) := by
    have place : ((l₁.length : Int) + 1).toNat = l₁.length + 1 := by omega
    rw [length, place, List.getElem?_append_right (Nat.le_add_right _ _), Nat.add_sub_cancel_left]
    cases l₂ with
    | nil => exact if_neg (by simp)
    | cons y l₂ =>
        rw [if_pos (by push_cast [List.length_cons]; omega)]
        rfl
  unfold createDetectorRecord
  rw [if_neg (by omega), before, after]
  rfl

end Loading

/-! ## The partitions -/

/-- The element at a position belongs to a segment, by the sizes of the segments from `first` on. -/
def Receives (sizes : List Nat) (first position segment : Nat) : Prop :=
  ∃ i < sizes.length, segment = first + i ∧ (sizes.take i).sum ≤ position ∧
    position < (sizes.take (i + 1)).sum

section Records

variable {sizes : List Nat} {first position segment n : Nat} {q : Partition}

theorem Receives.append_left (receives : Receives sizes first position segment) (rest : List Nat) :
    Receives (sizes ++ rest) first position segment := by
  obtain ⟨i, inside, same, lower, upper⟩ := receives
  refine ⟨i, by rw [List.length_append]; omega, same, ?_, ?_⟩
  · rwa [List.take_append_of_le_length inside.le]
  · rwa [List.take_append_of_le_length inside]

theorem Receives.append_right (pre : List Nat)
    (receives : Receives sizes (first + pre.length) position segment) :
    Receives (pre ++ sizes) first (pre.sum + position) segment := by
  obtain ⟨i, inside, same, lower, upper⟩ := receives
  refine ⟨pre.length + i, by rw [List.length_append]; omega, by omega, ?_, ?_⟩
  · rw [List.take_length_add_append, List.sum_append]
    omega
  · rw [Nat.add_assoc, List.take_length_add_append, List.sum_append]
    omega

/-- The elements before a segment of a partition. -/
theorem sum_take_sizes (le : n ≤ q.segments) :
    (q.sizes.take n).sum = evenStart q.cardinality q.segments n := by
  have first : q.sizes.take n = (List.range n).map q.size := by
    rw [Partition.sizes, ← List.map_take, List.take_range, min_eq_left le]
  rw [first]
  clear first
  induction n with
  | zero => simp
  | succ n ih =>
      rw [List.range_succ, List.map_append, List.sum_append, ih (by omega), evenStart_succ]
      simp [Partition.size, evenSize]

/-- The segment that `spread_save` computes for a position. -/
theorem receives_segmentOf (some : 0 < q.segments) (least : q.segments ≤ q.cardinality)
    (below : position < q.cardinality) : Receives q.sizes first position
      (first + segmentOf (q.cardinality / q.segments) (q.cardinality % q.segments) position) := by
  have share : 0 < q.cardinality / q.segments := Nat.div_pos least some
  have whole := Nat.div_add_mod q.cardinality q.segments
  have rest := Nat.mod_lt q.cardinality some
  have bounds : ∃ i, segmentOf (q.cardinality / q.segments) (q.cardinality % q.segments) position =
        i ∧ i < q.segments ∧ evenStart q.cardinality q.segments i ≤ position ∧
      position < evenStart q.cardinality q.segments (i + 1) := by
    unfold segmentOf evenStart
    generalize q.cardinality / q.segments = k at *
    generalize q.cardinality % q.segments = r at *
    dsimp only
    by_cases larger : position < r * (k + 1)
    · rw [if_pos larger]
      have inside : position / (k + 1) < r := Nat.div_lt_of_lt_mul (by rwa [Nat.mul_comm])
      have lower := Nat.div_mul_le_self position (k + 1)
      have upper := Nat.lt_mul_div_succ position (show 0 < k + 1 by omega)
      generalize position / (k + 1) = i at *
      have expand : i * (k + 1) = i * k + i := Nat.mul_succ i k
      have next : (k + 1) * (i + 1) = (i + 1) * k + (i + 1) := by ring
      exact ⟨i, rfl, by omega, by omega, by omega⟩
    · rw [if_neg larger]
      have lower := Nat.div_mul_le_self (position - r * (k + 1)) k
      have upper := Nat.lt_mul_div_succ (position - r * (k + 1)) share
      have room : position - r * (k + 1) < (q.segments - r) * k := by
        have split : q.segments * k = r * k + (q.segments - r) * k := by
          rw [← Nat.add_mul, Nat.add_sub_cancel' rest.le]
        have expand : r * (k + 1) = r * k + r := Nat.mul_succ r k
        have same : k * q.segments = q.segments * k := Nat.mul_comm _ _
        omega
      have inside : (position - r * (k + 1)) / k < q.segments - r :=
        Nat.div_lt_of_lt_mul (by rwa [Nat.mul_comm k])
      generalize (position - r * (k + 1)) / k = d at *
      have expand : (r + d) * k = r * k + d * k := Nat.add_mul r d k
      have next : (r + d + 1) * k = r * k + k * (d + 1) := by ring
      have whole : r * (k + 1) = r * k + r := Nat.mul_succ r k
      exact ⟨r + d, rfl, by omega, by omega, by omega⟩
  obtain ⟨i, same, inside, lower, upper⟩ := bounds
  refine ⟨i, by rwa [length_sizes], by rw [same], ?_, ?_⟩
  · rwa [sum_take_sizes inside.le]
  · rwa [sum_take_sizes inside]

end Records

/-! ## Saving the partitions -/

/-- The partition has an element at least for each segment, and no more than there are cells. -/
structure Fits (capacity : Nat) (q : Partition) : Prop where
  some : 0 < q.segments
  least : q.segments ≤ q.cardinality
  most : q.cardinality ≤ q.segments * capacity

/-- The elements that the partitions give to the segments. -/
def copiedAll (input : List (Int × Int)) : List Partition → (segment keysFrom : Nat) →
    List (Int × Int)
  | [], _, _ => []
  | q :: partitions, segment, keysFrom =>
    copied segment q.segments input keysFrom q.cardinality ++
      copiedAll input partitions (segment + q.segments) (keysFrom + q.cardinality)

/-- The input has all the elements that are copied. -/
def HasInput (length : Nat) : List Partition → (segment keysFrom : Nat) → Prop
  | [], _, _ => True
  | q :: partitions, segment, keysFrom =>
    keysFrom + q.cardinality + surplus segment q.segments q.cardinality ≤ length ∧
      HasInput length partitions (segment + q.segments) (keysFrom + q.cardinality)

/-- The calls of the detector. -/
def calls : List Partition → (segment : Nat) → Option SpreadDetectorRecord → List Detector.Call
  | [], _, _ => []
  | q :: partitions, segment, record =>
    notify [] record q.cardinality (fun position =>
        segment + segmentOf (q.cardinality / q.segments) (q.cardinality % q.segments) position) ++
      calls partitions (segment + q.segments) (adjust q.cardinality record)

section Saving

variable {N segment keysFrom : Nat} {p : PackedMemoryArray} {q : Partition}
  {partitions : List Partition} {input : List (Int × Int)}

theorem notify_append (detector : List Detector.Call) (record : Option SpreadDetectorRecord)
    (cardinality : Nat) (f : Nat → Nat) :
    notify detector record cardinality f = detector ++ notify [] record cardinality f := by
  unfold notify
  cases record with
  | none => rw [List.append_nil]
  | some r =>
      dsimp only
      split_ifs
      · rfl
      · rw [List.append_nil]

theorem notify_congr (detector : List Detector.Call) (record : Option SpreadDetectorRecord)
    {cardinality : Nat} {f g : Nat → Nat} (same : ∀ i < cardinality, f i = g i) :
    notify detector record cardinality f = notify detector record cardinality g := by
  unfold notify
  cases record with
  | none => rfl
  | some r =>
      dsimp only
      by_cases inside : 0 ≤ r.position ∧ r.position < cardinality
      · rw [if_pos inside, if_pos inside, same _ (by omega)]
      · rw [if_neg inside, if_neg inside]

theorem Fits.fitting (fits : Fits p.storage.segmentCapacity q) (index : p.index.Sized N)
    (inside : segment + q.segments ≤ N) : Fitting p N segment q.segments q.cardinality :=
  ⟨index, inside, fits.some, fits.least, fits.most⟩

/-- A partition of one segment. -/
theorem spreadSave_spec (record : Option SpreadDetectorRecord)
    (fitting : Fitting p N segment 1 q.cardinality)
    (enough : keysFrom + q.cardinality ≤ input.length) :
    ∃ p', p.spreadSave segment input keysFrom q.cardinality record = some p' ∧
      p'.Packed segment [q.cardinality] ((input.drop keysFrom).take q.cardinality) ∧
      Frame N p p' segment 1 ∧ p'.storage.cardinality = p.storage.cardinality ∧
      p'.detector = notify p.detector record q.cardinality fun _ => segment := by
  have least := fitting.least
  have most := fitting.most
  have inside := fitting.inside
  rw [Nat.one_mul] at most
  obtain ⟨e, first⟩ : ∃ e, input[keysFrom]? = some e :=
    ⟨_, List.getElem?_eq_getElem (by omega)⟩
  have start : segment * p.storage.segmentCapacity +
      (if segment % 2 = 0 then p.storage.segmentCapacity - q.cardinality else 0) =
        (p.storage.setSegmentSize segment q.cardinality).start segment := by
    have whole : (segment + 1) * p.storage.segmentCapacity =
        segment * p.storage.segmentCapacity + p.storage.segmentCapacity := Nat.succ_mul _ _
    unfold Storage.start
    rw [Storage.setSegmentSize_self]
    change _ = if segment % 2 = 0 then (segment + 1) * p.storage.segmentCapacity - q.cardinality
      else segment * p.storage.segmentCapacity
    split_ifs <;> omega
  unfold spreadSave
  dsimp only
  rw [slice_eq enough, first, start]
  refine ⟨_, rfl, ?_⟩
  obtain ⟨p', result⟩ : ∃ p' : PackedMemoryArray, p' =
      ⟨(p.storage.write ((p.storage.setSegmentSize segment q.cardinality).start segment)
          ((input.drop keysFrom).take q.cardinality)).setSegmentSize segment q.cardinality,
        p.index.setSeparatorKey segment e.1,
        notify p.detector record q.cardinality fun _ => segment⟩ := ⟨_, rfl⟩
  have storage : p'.storage = ((p.storage.setSegmentSize segment q.cardinality).write
      ((p.storage.setSegmentSize segment q.cardinality).start segment)
      ((input.drop keysFrom).take q.cardinality)).withCardinality p.storage.cardinality := by
    rw [result]
    rfl
  have stored := fitting.index.stored (i := segment) (by omega) e.1
  have both := PackedMemoryArray.written (p := p) (e := e) storage (length_take_drop enough) most
    (by rw [head?_take_drop (by omega), first])
    (by rw [result]; exact stored)
  rw [result] at both
  exact ⟨both.1, both.2, rfl, rfl⟩

/-- What the segments of a partition get. -/
theorem savePartition_spec (record : Option SpreadDetectorRecord)
    (fitting : Fitting p N segment q.segments q.cardinality)
    (enough : keysFrom + q.cardinality + surplus segment q.segments q.cardinality ≤
      input.length) :
    ∃ p', savePartition p q segment input keysFrom record = some p' ∧
      p'.Packed segment q.sizes (copied segment q.segments input keysFrom q.cardinality) ∧
      Frame N p p' segment q.segments ∧ p'.storage.cardinality = p.storage.cardinality ∧
      p'.detector = p.detector ++ notify [] record q.cardinality (fun position =>
        segment + segmentOf (q.cardinality / q.segments) (q.cardinality % q.segments)
          position) := by
  unfold savePartition
  rw [← notify_append]
  by_cases one : q.segments = 1
  · rw [if_pos one]
    rw [one] at fitting
    have sizes : q.sizes = [q.cardinality] := by
      simp [Partition.sizes, Partition.size, one, Nat.mod_one]
    have all : copied segment q.segments input keysFrom q.cardinality =
        (input.drop keysFrom).take q.cardinality := by
      simp [copied, one, Nat.mod_one]
    obtain ⟨p', saved, packed, frame, kept, notified⟩ :=
      spreadSave_spec record fitting (show keysFrom + q.cardinality ≤ input.length by omega)
    refine ⟨p', saved, by rwa [sizes, all], by rwa [one], kept, ?_⟩
    rw [notified]
    apply notify_congr
    intro i below
    simp [segmentOf, one, Nat.mod_one, Nat.div_eq_of_lt below]
  · rw [if_neg one]
    obtain ⟨p', saved, packed, frame, kept, notified, -⟩ :=
      spreadSaveWindow_spec input keysFrom record fitting enough
    exact ⟨p', saved, packed, frame, kept, notified⟩

theorem savePartition_beyond (record : Option SpreadDetectorRecord)
    (fitting : Fitting p N segment q.segments q.cardinality) (start : keysFrom ≤ input.length)
    (beyond : input.length < keysFrom + q.cardinality +
      surplus segment q.segments q.cardinality) :
    savePartition p q segment input keysFrom record = none := by
  unfold savePartition
  by_cases one : q.segments = 1
  · have none : surplus segment q.segments q.cardinality = 0 := by
      unfold surplus
      rw [one, Nat.mod_one]
      split_ifs <;> rfl
    rw [if_pos one, spreadSave, slice_beyond (by omega)]
    rfl
  · rw [if_neg one]
    exact spreadSaveWindow_beyond record fitting start beyond

/-- The segments of all the partitions get what is copied to them. -/
theorem savePartitions_spec (record : Option SpreadDetectorRecord) (index : p.index.Sized N)
    (fits : ∀ q ∈ partitions, Fits p.storage.segmentCapacity q)
    (inside : segment + (partitions.map segments).sum ≤ N)
    (has : HasInput input.length partitions segment keysFrom) :
    ∃ p', savePartitions input partitions segment keysFrom record p = some p' ∧
      p'.Packed segment (quotas partitions) (copiedAll input partitions segment keysFrom) ∧
      Frame N p p' segment (partitions.map segments).sum ∧
      p'.storage.cardinality = p.storage.cardinality ∧
      p'.detector = p.detector ++ calls partitions segment record := by
  induction partitions generalizing p segment keysFrom record with
  | nil => exact ⟨p, rfl, Packed.nil p segment, Frame.refl index, rfl, (List.append_nil _).symm⟩
  | cons q partitions ih =>
      rw [List.map_cons, List.sum_cons] at inside ⊢
      have fitting : Fitting p N segment q.segments q.cardinality :=
        (fits q List.mem_cons_self).fitting index (by omega)
      obtain ⟨p₁, saved, packed, frame, kept, notified⟩ :=
        savePartition_spec record fitting has.1
      obtain ⟨p₂, saved₂, packed₂, frame₂, kept₂, notified₂⟩ := ih (adjust q.cardinality record)
        frame.sized (fun r member => by
          rw [frame.capacity]
          exact fits r (List.mem_cons_of_mem q member)) (by omega) has.2
      have sizes : ∀ k ∈ q.sizes, 0 < k ∧ k ≤ p₁.storage.segmentCapacity := by
        intro k member
        rw [frame.capacity]
        rw [← shares_eq_sizes] at member
        exact mem_shares fitting.share_pos fitting.share_le k member
      have stays := packed.frame frame₂ (by rw [length_sizes]; omega)
        (Or.inl (by rw [length_sizes])) sizes
      refine ⟨p₂, ?_, ?_, ?_, kept₂.trans kept, ?_⟩
      · rw [savePartitions, saved]
        exact saved₂
      · exact stays.append (by rw [length_sizes]; exact packed₂)
      · exact (frame.mono le_rfl (by omega)).trans (frame₂.mono (by omega) (by omega))
      · rw [notified₂, notified, List.append_assoc]
        rfl

theorem savePartitions_beyond (record : Option SpreadDetectorRecord) (index : p.index.Sized N)
    (fits : ∀ q ∈ partitions, Fits p.storage.segmentCapacity q)
    (inside : segment + (partitions.map segments).sum ≤ N)
    (total : keysFrom + (partitions.map Partition.cardinality).sum ≤ input.length)
    (lacks : ¬HasInput input.length partitions segment keysFrom) :
    savePartitions input partitions segment keysFrom record p = none := by
  induction partitions generalizing p segment keysFrom record with
  | nil => exact absurd trivial lacks
  | cons q partitions ih =>
      rw [List.map_cons, List.sum_cons] at inside total
      have fit := fits q List.mem_cons_self
      rw [savePartitions]
      by_cases has : keysFrom + q.cardinality + surplus segment q.segments q.cardinality ≤
          input.length
      · obtain ⟨p₁, saved, -, frame, -⟩ :=
          savePartition_spec record (fit.fitting index (by omega)) has
        rw [saved]
        refine ih _ frame.sized (fun r member => ?_) (by omega) (by omega) fun rest =>
          lacks ⟨has, rest⟩
        rw [frame.capacity]
        exact fits r (List.mem_cons_of_mem q member)
      · rw [savePartition_beyond record (fit.fitting index (by omega)) (by omega)
          (Nat.not_le.mp has)]
        rfl

theorem calls_none (partitions : List Partition) (segment : Nat) :
    calls partitions segment none = [] := by
  induction partitions generalizing segment with
  | nil => rfl
  | cons q partitions ih => exact ih (segment + q.segments)

/-- The detector gets one call, for the segment with the position of the record. -/
theorem calls_spec {capacity : Nat} (fits : ∀ q ∈ partitions, Fits capacity q)
    (position : Nat) (predecessor successor : Int)
    (below : position < (partitions.map Partition.cardinality).sum) :
    ∃ s, Receives (quotas partitions) segment position s ∧
      calls partitions segment (some ⟨position, predecessor, successor⟩) =
        [.insert s predecessor successor] := by
  induction partitions generalizing segment position with
  | nil => exact absurd below (Nat.not_lt_zero _)
  | cons q partitions ih =>
      rw [List.map_cons, List.sum_cons] at below
      have fit := fits q List.mem_cons_self
      by_cases here : position < q.cardinality
      · refine ⟨_, (receives_segmentOf fit.some fit.least here).append_left (quotas partitions), ?_⟩
        have inside : (0 : Int) ≤ position ∧ (position : Int) < q.cardinality := by omega
        rw [calls, adjust, notify]
        dsimp only
        rw [if_pos inside, if_pos (by omega), calls_none, List.append_nil]
        rfl
      · obtain ⟨s, receives, called⟩ := @ih (segment + q.segments)
          (fun r member => fits r (List.mem_cons_of_mem q member)) (position - q.cardinality)
          (by omega)
        have outside : ¬((0 : Int) ≤ position ∧ (position : Int) < q.cardinality) := by omega
        have shifted : (position : Int) - q.cardinality = ((position - q.cardinality : Nat) : Int) :=
          by omega
        refine ⟨s, ?_, ?_⟩
        · rw [← length_sizes q] at receives
          have moved := receives.append_right q.sizes
          rw [sum_sizes fit.some, Nat.add_sub_cancel' (Nat.not_lt.mp here)] at moved
          exact moved
        · rw [calls, adjust, notify]
          dsimp only
          rw [if_neg outside, if_neg (by omega), shifted]
          exact called

/-! ## Alignment -/

/-- Where a partition starts at an odd segment, at most one of its segments is larger. -/
def Aligned : List Partition → (segment : Nat) → Prop
  | [], _ => True
  | q :: partitions, segment =>
    (segment % 2 = 0 ∨ q.cardinality % q.segments ≤ 1) ∧ Aligned partitions (segment + q.segments)

theorem surplus_eq_zero (segment : Nat) (q : Partition) :
    surplus segment q.segments q.cardinality = 0 ↔
      segment % 2 = 0 ∨ q.cardinality % q.segments ≤ 1 := by
  unfold surplus
  split_ifs <;> omega

/-- The first segment gets no more than there is. -/
theorem Fits.first_le {capacity : Nat} (fits : Fits capacity q) :
    q.cardinality / q.segments + min (q.cardinality % q.segments) 1 ≤ q.cardinality := by
  have whole := Nat.div_add_mod q.cardinality q.segments
  have more : q.cardinality / q.segments ≤ q.segments * (q.cardinality / q.segments) :=
    Nat.le_mul_of_pos_left _ fits.some
  omega

/-- Aligned partitions get the elements one after the other. -/
theorem Aligned.copied {capacity : Nat} (aligned : Aligned partitions segment)
    (fits : ∀ q ∈ partitions, Fits capacity q)
    (total : keysFrom + (partitions.map Partition.cardinality).sum ≤ input.length) :
    HasInput input.length partitions segment keysFrom ∧
      copiedAll input partitions segment keysFrom =
        (input.drop keysFrom).take (partitions.map Partition.cardinality).sum := by
  induction partitions generalizing segment keysFrom with
  | nil => exact ⟨trivial, List.take_zero.symm⟩
  | cons q partitions ih =>
      rw [List.map_cons, List.sum_cons] at total ⊢
      have none := (surplus_eq_zero segment q).mpr aligned.1
      have rest := @ih (segment + q.segments) (keysFrom + q.cardinality) aligned.2
        (fun r member => fits r (List.mem_cons_of_mem q member)) (by omega)
      have all : SpreadSave.copied segment q.segments input keysFrom q.cardinality =
          (input.drop keysFrom).take q.cardinality := by
        unfold SpreadSave.copied
        dsimp only
        rw [none, Nat.add_zero, ← take_drop_add,
          Nat.add_sub_cancel' (fits q List.mem_cons_self).first_le]
      refine ⟨⟨by rw [none]; omega, rest.1⟩, ?_⟩
      rw [copiedAll, rest.2, all, take_drop_add]

/-- Partitions that are not aligned copy an element twice, if the input has what they copy. -/
theorem aligned_of_nodup {capacity : Nat} (fits : ∀ q ∈ partitions, Fits capacity q)
    (total : keysFrom + (partitions.map Partition.cardinality).sum = input.length)
    (has : HasInput input.length partitions segment keysFrom)
    (nodup : (copiedAll input partitions segment keysFrom).Nodup) :
    Aligned partitions segment := by
  induction partitions generalizing segment keysFrom with
  | nil => trivial
  | cons q partitions ih =>
      rw [List.map_cons, List.sum_cons] at total
      have fit := fits q List.mem_cons_self
      have apart := List.nodup_append.mp nodup
      refine ⟨?_, ih (fun r member => fits r (List.mem_cons_of_mem q member)) (by omega) has.2
        apart.2.1⟩
      rw [← surplus_eq_zero]
      by_contra some
      have reads := has.1
      have bound : q.cardinality / q.segments + min (q.cardinality % q.segments) 1 +
          surplus segment q.segments q.cardinality ≤ q.cardinality := by
        have whole := Nat.div_add_mod q.cardinality q.segments
        have more : q.cardinality / q.segments ≤ q.segments * (q.cardinality / q.segments) :=
          Nat.le_mul_of_pos_left _ fit.some
        unfold surplus
        split_ifs <;> omega
      obtain ⟨x, next⟩ : ∃ x, input[keysFrom + q.cardinality]? = Option.some x :=
        ⟨_, List.getElem?_eq_getElem (by omega)⟩
      -- the first element of the next partition is copied with the surplus
      have early : x ∈ copied segment q.segments input keysFrom q.cardinality := by
        refine List.mem_append_right _ (List.mem_iff_getElem?.mpr
          ⟨q.cardinality - (q.cardinality / q.segments + min (q.cardinality % q.segments) 1) -
            surplus segment q.segments q.cardinality, ?_⟩)
        rw [List.getElem?_take, if_pos (by omega), List.getElem?_drop, ← next]
        congr 1
        omega
      have again : x ∈ copiedAll input partitions (segment + q.segments)
          (keysFrom + q.cardinality) := by
        cases partitions with
        | nil =>
            rw [List.map_nil, List.sum_nil] at total
            omega
        | cons r partitions =>
            have share : 0 < r.cardinality / r.segments :=
              Nat.div_pos (fits r (by simp)).least (fits r (by simp)).some
            refine List.mem_append_left _ (List.mem_append_left _ ?_)
            refine List.mem_of_mem_head? ?_
            rw [head?_take_drop (by omega), next]
            rfl
      exact apart.2.2 x early x again rfl

end Saving

/-! ## The spread -/

/-- What a spread is asked for. -/
structure Request (p : PackedMemoryArray) (a : RebalanceAction) : Prop where
  window : Window p.storage a
  index : p.index.Sized p.storage.numberSegments
  counted : p.storage.cardinality = p.storage.elements.length
  located : a.isInsert = true → Located p a
  fits : ∀ q ∈ a.partitions, Fits p.storage.segmentCapacity q
  segments : (a.partitions.map segments).sum = a.windowLength
  cardinality : (a.partitions.map Partition.cardinality).sum = a.cardinalityAfter
  after : a.cardinalityAfter =
    (p.block a.windowStart a.windowLength).length + a.toInsert.toList.length

/-- What a spread of the whole array adds to the calls of the detector. -/
def clears (p : PackedMemoryArray) (a : RebalanceAction) : List Detector.Call :=
  if a.windowLength = p.storage.numberSegments then [.clear] else []

/-- What is expected of a spread: the elements of the window with the new one at a sorted position,
each segment with its quota and its minimum in the index, nothing else changed, and one call of the
detector for the segment that gets the new key. -/
structure Repacked (p : PackedMemoryArray) (a : RebalanceAction) (p' : PackedMemoryArray) :
    Prop where
  frame : Frame p.storage.numberSegments p p' a.windowStart a.windowLength
  cardinality : p'.storage.cardinality = p'.storage.elements.length
  kept : a.isInsert = false →
    p'.Packed a.windowStart (quotas a.partitions) (p.block a.windowStart a.windowLength) ∧
      p'.detector = p.detector ++ clears p a
  inserted : a.isInsert = true → ∃ l₁ l₂ segment,
    p.block a.windowStart a.windowLength = l₁ ++ l₂ ∧
      (∀ x ∈ l₁, x.1 ≤ a.insertKey) ∧ (∀ x ∈ l₂, a.insertKey ≤ x.1) ∧
      p'.Packed a.windowStart (quotas a.partitions)
        (l₁ ++ (a.insertKey, a.insertValue) :: l₂) ∧
      Receives (quotas a.partitions) a.windowStart l₁.length segment ∧
      p'.detector = p.detector ++ [.insert segment ((l₁.getLast?.map Prod.fst).getD (-2 ^ 63))
        ((l₂.head?.map Prod.fst).getD (2 ^ 63 - 1))] ++ clears p a

section Spread

variable {p p' : PackedMemoryArray} {a : RebalanceAction}

/-- The elements of the array, when those of a window are exchanged. -/
theorem length_elements_frame {first n : Nat}
    (frame : Frame p.storage.numberSegments p p' first n)
    (inside : first + n ≤ p.storage.numberSegments)
    (sizes : ∀ i < p.storage.numberSegments, p.storage.segmentSizes i ≤ p.storage.segmentCapacity) :
    p'.storage.elements.length + (p.block first n).length =
      p.storage.elements.length + (p'.block first n).length := by
  obtain ⟨m, rest⟩ := Nat.exists_eq_add_of_le inside
  have before : p'.block 0 first = p.block 0 first := block_congr fun i below =>
    frame.segment (by omega) (sizes _ (by omega))
  have after : p'.block (first + n) m = p.block (first + n) m := block_congr fun i below =>
    frame.segment (by omega) (sizes _ (by omega))
  have split : ∀ r : PackedMemoryArray,
      r.block 0 (first + n + m) = r.block 0 first ++ r.block first n ++ r.block (first + n) m := by
    intro r
    rw [block_add, block_add, Nat.zero_add, Nat.zero_add]
  rw [elements_eq_block, elements_eq_block, frame.numberSegments, rest, split, split, before, after]
  simp only [List.length_append]
  omega

theorem Request.length_quotas (request : Request p a) :
    (quotas a.partitions).length = a.windowLength :=
  (Partition.length_quotas _).trans request.segments

/-- The spread after the load. -/
theorem spreadLocal_eq {x : Load} {r : Option SpreadDetectorRecord}
    (loaded : load p.storage a = some x) (length : x.output.length = a.cardinalityAfter)
    (recorded : record a x = some r) : p.spreadLocal a =
      (savePartitions x.output a.partitions a.windowStart 0 r
        { p with storage := p.storage.withCardinality x.cardinality }).map (clearWhole a) := by
  unfold spreadLocal
  rw [loaded, Option.bind_eq_bind, Option.bind_some, if_neg (by omega), recorded]
  simp only [Option.bind_eq_bind, Option.bind_some]
  cases savePartitions x.output a.partitions a.windowStart 0 r
    { p with storage := p.storage.withCardinality x.cardinality } <;> rfl

/-- A loaded window: the scratch array, and the record of the new key. -/
structure Loaded (p : PackedMemoryArray) (a : RebalanceAction) (x : Load)
    (r : Option SpreadDetectorRecord) : Prop where
  load : load p.storage a = some x
  length : x.output.length = a.cardinalityAfter
  recorded : record a x = some r
  cardinality : x.cardinality = counterAfter a.toInsert p.storage.cardinality
  perm : x.output.Perm (a.toInsert.toList ++ p.block a.windowStart a.windowLength)
  kept : a.isInsert = false → x.output = p.block a.windowStart a.windowLength ∧ r = none
  inserted : a.isInsert = true → ∃ l₁ l₂, p.block a.windowStart a.windowLength = l₁ ++ l₂ ∧
    (∀ x ∈ l₁, x.1 ≤ a.insertKey) ∧ (∀ x ∈ l₂, a.insertKey ≤ x.1) ∧
    x.output = l₁ ++ (a.insertKey, a.insertValue) :: l₂ ∧
    r = some ⟨l₁.length, (l₁.getLast?.map Prod.fst).getD (-2 ^ 63),
      (l₂.head?.map Prod.fst).getD (2 ^ 63 - 1)⟩

theorem Request.loaded (request : Request p a) : ∃ x r, Loaded p a x r := by
  have after := request.after
  cases inserting : a.isInsert with
  | false =>
      have none : a.toInsert = none := by
        rw [RebalanceAction.toInsert, if_neg (by rw [inserting]; exact Bool.false_ne_true)]
      rw [none] at after
      refine ⟨_, Option.none, load_delete request.window inserting, after.symm, ?_, ?_, ?_,
        fun _ => ⟨rfl, rfl⟩, fun inserts => ?_⟩
      · rw [record, if_neg (by rw [inserting]; exact Bool.false_ne_true)]
      · rw [none]
        rfl
      · rw [none]
        exact List.Perm.refl _
      · rw [inserting] at inserts
        cases inserts
  | true =>
      have some : a.toInsert = some (a.insertKey, a.insertValue) := by
        rw [RebalanceAction.toInsert, if_pos inserting]
      obtain ⟨l₁, l₂, whole, below, above, loaded⟩ :=
        load_insert request.window (request.located inserting) inserting
      have size : a.cardinalityAfter = (l₁ ++ (a.insertKey, a.insertValue) :: l₂).length := by
        rw [after, some, whole]
        simp only [List.length_append, List.length_cons, Option.toList_some, List.length_nil]
        omega
      refine ⟨_, _, loaded, size.symm, ?_, ?_, ?_, fun deletes => ?_,
        fun _ => ⟨l₁, l₂, whole, below, above, rfl, rfl⟩⟩
      · rw [record, if_pos inserting, size, createDetectorRecord_eq]
        rfl
      · rw [some]
        rfl
      · rw [some, whole]
        exact List.perm_middle
      · rw [inserting] at deletes
        cases deletes

@[simp] theorem clearWhole_storage : (clearWhole a p).storage = p.storage := by
  unfold clearWhole
  split_ifs <;> rfl

@[simp] theorem clearWhole_index : (clearWhole a p).index = p.index := by
  unfold clearWhole
  split_ifs <;> rfl

@[simp] theorem clearWhole_block (first n : Nat) :
    (clearWhole a p).block first n = p.block first n := by
  unfold block
  rw [clearWhole_storage]

/-- What is left of a spread whose copies are the elements in order. -/
theorem Request.repacked {x : Load} {r : Option SpreadDetectorRecord} (request : Request p a)
    (loaded : Loaded p a x r)
    (counter : a.isInsert = true → p.storage.cardinality + 1 < 2 ^ 32)
    (packed : p'.Packed a.windowStart (quotas a.partitions) x.output)
    (frame : Frame p.storage.numberSegments p p' a.windowStart a.windowLength)
    (kept : p'.storage.cardinality = x.cardinality)
    (notified : p'.detector = p.detector ++ calls a.partitions a.windowStart r) :
    Repacked p a (clearWhole a p') := by
  have elements := packed.elements
  rw [request.length_quotas] at elements
  have after := request.after
  have counted := request.counted
  have lengths := length_elements_frame frame request.window.inside request.window.sizes_le
  rw [elements, loaded.length] at lengths
  have detector : (clearWhole a p').detector = p'.detector ++ clears p a := by
    unfold clearWhole clears
    rw [frame.numberSegments]
    split_ifs
    · rfl
    · exact (List.append_nil _).symm
  have cleared : ∀ l, p'.Packed a.windowStart (quotas a.partitions) l →
      (clearWhole a p').Packed a.windowStart (quotas a.partitions) l := by
    intro l packed
    refine ⟨?_, ?_, ?_⟩
    · rw [clearWhole_storage]
      exact packed.sizes_eq
    · rw [clearWhole_block]
      exact packed.elements
    · rw [clearWhole_storage, clearWhole_index]
      exact packed.separators
  have total : x.output.length = (a.partitions.map Partition.cardinality).sum := by
    rw [request.cardinality, loaded.length]
  refine ⟨?_, ?_, ?_, ?_⟩
  · constructor
    · rw [clearWhole_storage]
      exact frame.cells
    · rw [clearWhole_storage]
      exact frame.sizes
    · rw [clearWhole_index]
      exact frame.separators
    · rw [clearWhole_index]
      exact frame.sized
    · rw [clearWhole_storage]
      exact frame.capacity
    · rw [clearWhole_storage]
      exact frame.numberSegments
  · rw [clearWhole_storage, kept, loaded.cardinality, counterAfter_toInsert_iff.mpr counter,
      ← a.length_toInsert]
    omega
  · intro deleting
    obtain ⟨same, none⟩ := loaded.kept deleting
    rw [same] at packed
    refine ⟨cleared _ packed, ?_⟩
    rw [detector, notified, none, calls_none, List.append_nil]
  · intro inserting
    obtain ⟨l₁, l₂, whole, below, above, same, record⟩ := loaded.inserted inserting
    rw [same] at packed
    obtain ⟨segment, receives, called⟩ := @calls_spec a.windowStart a.partitions
      p.storage.segmentCapacity request.fits l₁.length
      ((l₁.getLast?.map Prod.fst).getD (-2 ^ 63)) ((l₂.head?.map Prod.fst).getD (2 ^ 63 - 1))
      (by rw [← total, same, List.length_append, List.length_cons]; omega)
    refine ⟨l₁, l₂, segment, whole, below, above, cleared _ packed, receives, ?_⟩
    rw [detector, notified, record, called]

/-- An aligned spread is right. -/
theorem Request.spreads (request : Request p a) (aligned : Aligned a.partitions a.windowStart)
    (counter : a.isInsert = true → p.storage.cardinality + 1 < 2 ^ 32) :
    ∃ p', p.spreadLocal a = some p' ∧ Repacked p a p' := by
  obtain ⟨x, r, loaded⟩ := request.loaded
  have total : 0 + (a.partitions.map Partition.cardinality).sum = x.output.length := by
    rw [Nat.zero_add, request.cardinality, loaded.length]
  have inputs := aligned.copied request.fits total.le
  have all : copiedAll x.output a.partitions a.windowStart 0 = x.output := by
    rw [inputs.2, List.drop_zero, request.cardinality, ← loaded.length, List.take_length]
  obtain ⟨p', saved, packed, frame, kept, notified⟩ := savePartitions_spec
    (p := { p with storage := p.storage.withCardinality x.cardinality }) r request.index
    request.fits (by rw [request.segments]; exact request.window.inside) inputs.1
  rw [all] at packed
  rw [request.segments] at frame
  refine ⟨clearWhole a p', ?_, request.repacked loaded counter packed ?_ kept notified⟩
  · rw [spreadLocal_eq loaded.load loaded.length loaded.recorded, saved]
    rfl
  · exact ⟨frame.cells, frame.sizes, frame.separators, frame.sized, frame.capacity,
      frame.numberSegments⟩

/-- A spread that is right keeps the counter exact. -/
theorem Request.counter (request : Request p a) (spread : p.spreadLocal a = some p')
    (right : Repacked p a p') : a.isInsert = true → p.storage.cardinality + 1 < 2 ^ 32 := by
  obtain ⟨x, r, loaded⟩ := request.loaded
  rw [← counterAfter_toInsert_iff, ← loaded.cardinality, ← a.length_toInsert]
  have total : 0 + (a.partitions.map Partition.cardinality).sum = x.output.length := by
    rw [Nat.zero_add, request.cardinality, loaded.length]
  rw [spreadLocal_eq loaded.load loaded.length loaded.recorded] at spread
  by_cases has : HasInput x.output.length a.partitions a.windowStart 0
  · obtain ⟨p₁, saved, -, -, kept, -⟩ := savePartitions_spec
      (p := { p with storage := p.storage.withCardinality x.cardinality }) r request.index
      request.fits (by rw [request.segments]; exact request.window.inside) has
    rw [saved] at spread
    obtain rfl := Option.some.inj spread
    have block : ((clearWhole a p₁).block a.windowStart a.windowLength).length =
        (p.block a.windowStart a.windowLength).length + a.toInsert.toList.length := by
      rw [← request.length_quotas]
      cases inserting : a.isInsert with
      | false =>
          rw [(right.kept inserting).1.elements, a.length_toInsert, inserting, request.length_quotas]
          rfl
      | true =>
          obtain ⟨l₁, l₂, segment, whole, -, -, packed, -⟩ := right.inserted inserting
          rw [packed.elements, request.length_quotas, whole, a.length_toInsert, inserting]
          simp only [List.length_append, List.length_cons, if_true]
          omega
    have lengths := length_elements_frame right.frame request.window.inside request.window.sizes_le
    have counted := request.counted
    have exact := right.cardinality
    rw [clearWhole_storage, kept] at exact
    rw [clearWhole_storage] at lengths
    change x.cardinality = _ at exact
    omega
  · rw [savePartitions_beyond (p := { p with storage := p.storage.withCardinality x.cardinality })
      r request.index request.fits (by rw [request.segments]; exact request.window.inside) total.le
      has] at spread
    cases spread

/-- Where the keys are distinct, a spread that is right is aligned. -/
theorem Request.aligned (request : Request p a)
    (distinct : ((a.toInsert.toList ++ p.block a.windowStart a.windowLength).map Prod.fst).Nodup)
    (spread : p.spreadLocal a = some p') (right : Repacked p a p') :
    Aligned a.partitions a.windowStart := by
  obtain ⟨x, r, loaded⟩ := request.loaded
  have total : 0 + (a.partitions.map Partition.cardinality).sum = x.output.length := by
    rw [Nat.zero_add, request.cardinality, loaded.length]
  rw [spreadLocal_eq loaded.load loaded.length loaded.recorded] at spread
  by_cases has : HasInput x.output.length a.partitions a.windowStart 0
  · obtain ⟨p₁, saved, packed, -⟩ := savePartitions_spec
      (p := { p with storage := p.storage.withCardinality x.cardinality }) r request.index
      request.fits (by rw [request.segments]; exact request.window.inside) has
    refine aligned_of_nodup request.fits total has ?_
    rw [saved] at spread
    obtain rfl := Option.some.inj spread
    have elements : copiedAll x.output a.partitions a.windowStart 0 =
        (clearWhole a p₁).block a.windowStart (quotas a.partitions).length := by
      rw [clearWhole_block, packed.elements]
    have same : (copiedAll x.output a.partitions a.windowStart 0).Perm
        (a.toInsert.toList ++ p.block a.windowStart a.windowLength) := by
      rw [elements]
      cases inserting : a.isInsert with
      | false =>
          rw [(right.kept inserting).1.elements, RebalanceAction.toInsert, if_neg (by simp [inserting])]
          exact List.Perm.refl _
      | true =>
          obtain ⟨l₁, l₂, segment, whole, -, -, packed, -⟩ := right.inserted inserting
          rw [packed.elements, whole, RebalanceAction.toInsert, if_pos inserting]
          exact List.perm_middle
    exact (same.nodup_iff).mpr (List.Nodup.of_map _ distinct)
  · rw [savePartitions_beyond (p := { p with storage := p.storage.withCardinality x.cardinality })
      r request.index request.fits (by rw [request.segments]; exact request.window.inside) total.le
      has] at spread
    cases spread

end Spread

/-! ## What the callers promise -/

/-- An array that `rebalance` is called on: it satisfies its invariant, but for the segment that
may have become empty with a deletion. The number of segments is a power of two up to the size of
an extent, and a multiple of it from there on. -/
structure Rebalanceable (p : PackedMemoryArray) (a : RebalanceAction)
    (segmentId segmentsPerExtent : Nat) : Prop where
  several : 2 ≤ p.storage.numberSegments
  small : p.storage.numberSegments < 2 ^ 32
  extents : (∃ k, p.storage.numberSegments = 2 ^ k) ∨ segmentsPerExtent ∣ p.storage.numberSegments
  extent : ∃ k, segmentsPerExtent = 2 ^ k
  sizes_le : ∀ i < p.storage.numberSegments, p.storage.segmentSizes i ≤ p.storage.segmentCapacity
  sizes_pos : ∀ i < p.storage.numberSegments, (a.isInsert = true ∨ i ≠ segmentId) →
    0 < p.storage.segmentSizes i
  capacity_pos : 0 < p.storage.segmentCapacity
  cardinality_eq : p.storage.cardinality =
    ((List.range p.storage.numberSegments).map p.storage.segmentSizes).sum
  sorted : p.storage.Sorted
  separators : ∃ separators, p.index.Separators p.storage.numberSegments separators ∧
    ∀ i < p.storage.numberSegments, 0 < p.storage.segmentSizes i →
      separators i = p.storage.getMinimum i
  inside : segmentId < p.storage.numberSegments

/-- The window is the one that `rebalance_find_window` returns for the segment, and it is shorter
than an extent. An insertion is into the segment that the index finds, which is full. -/
structure WindowFound (p : PackedMemoryArray) (a : RebalanceAction)
    (thresholds : Nat → ℚ × ℚ) (segmentId segmentsPerExtent : Nat) : Prop where
  found : ∃ r, p.storage.rebalanceFindWindow thresholds segmentId a.isInsert = some r ∧
    r.resize = false ∧ (a.windowStart : Int) = r.windowStart ∧
    (a.windowLength : Int) = r.windowLength ∧ (a.cardinalityAfter : Int) = r.cardinalityAfter
  short : a.windowLength < segmentsPerExtent
  insertSegment : a.isInsert = true → a.insertSegment = segmentId ∧
    p.index.find a.insertKey = segmentId ∧
    p.storage.segmentSizes segmentId = p.storage.segmentCapacity

/-- The partitions have as many segments as the window and as many elements as there are, and each
segment gets between one element and its capacity. -/
structure PartitionsFit (p : PackedMemoryArray) (a : RebalanceAction) : Prop where
  nonempty : ∀ q ∈ a.partitions, 0 < q.segments
  segments : (a.partitions.map segments).sum = a.windowLength
  cardinality : (a.partitions.map Partition.cardinality).sum = a.cardinalityAfter
  quotas : ∀ n ∈ quotas a.partitions, 1 ≤ n ∧ n ≤ p.storage.segmentCapacity

section Promises

variable {p : PackedMemoryArray} {a : RebalanceAction} {thresholds : Nat → ℚ × ℚ}
  {segmentId segmentsPerExtent : Nat}

theorem PartitionsFit.fits (partitions : PartitionsFit p a) :
    ∀ q ∈ a.partitions, Fits p.storage.segmentCapacity q := by
  intro q member
  have some := partitions.nonempty q member
  have sizes : ∀ i < q.segments, 1 ≤ q.size i ∧ q.size i ≤ p.storage.segmentCapacity := by
    intro i inside
    apply partitions.quotas
    exact List.mem_flatMap.mpr ⟨q, member, List.mem_map.mpr ⟨i, List.mem_range.mpr inside, rfl⟩⟩
  have whole := Nat.div_add_mod q.cardinality q.segments
  have rest := Nat.mod_lt q.cardinality some
  have first := (sizes 0 some).2
  have last := (sizes (q.segments - 1) (by omega)).1
  unfold Partition.size at first last
  rw [if_neg (by omega), Nat.add_zero] at last
  refine ⟨some, ?_, ?_⟩
  · have least := Nat.mul_le_mul_left q.segments last
    omega
  · by_cases even : 0 < q.cardinality % q.segments
    · rw [if_pos even] at first
      have most := Nat.mul_le_mul_left q.segments first
      rw [Nat.mul_add] at most
      omega
    · rw [if_neg even] at first
      have most := Nat.mul_le_mul_left q.segments first
      rw [Nat.mul_add] at most
      omega

theorem Rebalanceable.length_elements (array : Rebalanceable p a segmentId segmentsPerExtent) :
    p.storage.cardinality = p.storage.elements.length := by
  rw [array.cardinality_eq, elements_eq_block, block, List.length_flatMap]
  simp only [Nat.zero_add, Storage.length_segment]

/-- The number of elements of a block of segments. -/
theorem countOf_block (first n : Nat) :
    p.storage.countOf first ((first : Int) + n) = (p.block first n).length := by
  induction n with
  | zero => simp [Storage.countOf_self]
  | succ n ih =>
      have next := p.storage.countOf_add (a := first) (b := (first : Int) + n)
        (c := (first : Int) + n + 1) (by omega) (by omega)
      have single := p.storage.countOf_single (first + n)
      push_cast at single ⊢
      rw [block_add, block_one, List.length_append, Storage.length_segment, ← Int.add_assoc,
        ← next, ih, single]
      push_cast
      rfl

/-- The window starts at an even segment and has an even number of them. -/
theorem WindowFound.window (array : Rebalanceable p a segmentId segmentsPerExtent)
    (found : WindowFound p a thresholds segmentId segmentsPerExtent) :
    Window p.storage a ∧ a.windowStart ≤ segmentId ∧
      segmentId < a.windowStart + a.windowLength ∧
      a.cardinalityAfter =
        (p.block a.windowStart a.windowLength).length + a.toInsert.toList.length := by
  have full : a.isInsert = true → p.storage.segmentSizes segmentId = p.storage.segmentCapacity :=
    fun inserting => (found.insertSegment inserting).2.2
  have counted : (p.storage.cardinality : Int) = p.storage.countOf 0 p.storage.numberSegments := by
    have whole := countOf_block (p := p) 0 p.storage.numberSegments
    rw [← elements_eq_block, ← array.length_elements] at whole
    rw [← whole, Nat.cast_zero, Int.zero_add]
  obtain ⟨r, returned, fits, start, length, after⟩ := found.found
  obtain ⟨chain, windows, lengths⟩ := @Storage.windows_exist p.storage thresholds a.isInsert
    segmentId array.inside array.small full
  obtain ⟨r', returned', smallest⟩ := windows.chosen lengths array.several
  rw [returned] at returned'
  obtain rfl := Option.some.inj returned'
  obtain ⟨k, positive, le, start', length', after', -⟩ := smallest.found fits
  have power : 2 ^ k ≤ p.storage.numberSegments :=
    Nat.pow_le_of_le_log (by have := array.several; omega) le
  obtain ⟨w, reached, around⟩ := @Storage.windowAt_around p.storage thresholds a.isInsert
    segmentId k array.inside
    array.small full le
  have same : chain k = w := by
    have reached' := windows.reached k le
    rw [reached] at reached'
    exact (Option.some.inj reached').symm
  rw [same, around.start] at start'
  have bounds := Storage.aligned_bounds array.inside power
  have size : a.windowLength = 2 ^ k := by exact_mod_cast length.trans length'
  have sizeInt : (a.windowLength : Int) = 2 ^ k := length.trans length'
  have first : (a.windowStart : Int) = p.storage.aligned segmentId k := start.trans start'
  have counts : (a.cardinalityAfter : Int) =
      (p.block a.windowStart a.windowLength).length + if a.isInsert then 1 else 0 := by
    rw [after, after', ← start, ← length, countOf_block]
  obtain ⟨m, rfl⟩ : ∃ m, k = m + 1 := ⟨k - 1, by omega⟩
  have double : (2 : Nat) ^ (m + 1) = 2 * 2 ^ m := by ring
  have segments_even : p.storage.numberSegments % 2 = 0 := by
    rcases array.extents with ⟨j, whole⟩ | divides
    · obtain ⟨i, rfl⟩ : ∃ i, j = i + 1 := by
        cases j with
        | zero =>
            have := array.several
            omega
        | succ i => exact ⟨i, rfl⟩
      rw [whole, pow_succ]
      omega
    · obtain ⟨e, extent⟩ := array.extent
      have short := found.short
      rw [size, extent] at short
      obtain ⟨i, rfl⟩ : ∃ i, e = i + 1 := by
        cases e with
        | zero =>
            have := Nat.one_le_two_pow (n := m + 1)
            omega
        | succ i => exact ⟨i, rfl⟩
      rw [extent, pow_succ] at divides
      exact Nat.mod_eq_zero_of_dvd ((Nat.dvd_mul_left 2 (2 ^ i)).trans divides)
  have start_even : a.windowStart % 2 = 0 := by
    unfold Storage.aligned at first
    have expand : (segmentId : Int) / 2 ^ (m + 1) * 2 ^ (m + 1) =
        2 * ((segmentId : Int) / 2 ^ (m + 1) * 2 ^ m) := by
      rw [pow_succ 2 m]
      ring
    have doubleInt : (2 : Int) ^ (m + 1) = 2 * 2 ^ m := by ring
    split_ifs at first
    · rw [expand] at first
      omega
    · rw [doubleInt] at first
      omega
  refine ⟨⟨start_even, by omega, ?_, array.sizes_le⟩, by omega, by omega, ?_⟩
  · omega
  · unfold RebalanceAction.toInsert
    cases inserting : a.isInsert with
    | false =>
        rw [inserting, if_neg Bool.false_ne_true] at counts
        simpa using counts
    | true =>
        rw [inserting, if_pos rfl] at counts
        rw [if_pos rfl, Option.toList_some, List.length_singleton]
        exact_mod_cast counts

/-- The elements of a block are sorted. -/
theorem Rebalanceable.sorted_block (array : Rebalanceable p a segmentId segmentsPerExtent)
    {first n : Nat} (inside : first + n ≤ p.storage.numberSegments) :
    SortedPairs (p.block first n) := by
  obtain ⟨m, rest⟩ := Nat.exists_eq_add_of_le inside
  have sorted := array.sorted
  rw [Storage.Sorted, List.pairwise_map, elements_eq_block, rest, block_add, block_add] at sorted
  have left := (SortedPairs.append_iff.mp sorted).1
  have right := (SortedPairs.append_iff.mp left).2.1
  rwa [Nat.zero_add] at right

/-- The new key belongs in the segment that the index finds. -/
theorem WindowFound.located (array : Rebalanceable p a segmentId segmentsPerExtent)
    (found : WindowFound p a thresholds segmentId segmentsPerExtent)
    (inserting : a.isInsert = true) : Located p a := by
  obtain ⟨window, lower, upper, -⟩ := found.window array
  obtain ⟨same, finds, -⟩ := found.insertSegment inserting
  obtain ⟨seps, separators, minima⟩ := array.separators
  have shape : p.storage.Shape := ⟨array.capacity_pos, array.sizes_le,
    fun _ i inside => array.sizes_pos i inside (Or.inl inserting), array.cardinality_eq⟩
  have sepEq : ∀ i < p.storage.numberSegments, seps i = p.storage.keys (p.storage.start i) :=
    fun i inside => minima i inside (array.sizes_pos i inside (Or.inl inserting))
  have startMem : ∀ i < p.storage.numberSegments, p.storage.start i ∈ p.storage.positions := by
    intro i inside
    have size := array.sizes_pos i inside (Or.inl inserting)
    have bounds := Storage.layout (array.sizes_le i inside)
    exact shape.mem_positions.mpr ⟨i, inside, le_rfl, by omega⟩
  have cellMem : ∀ i < p.storage.numberSegments, ∀ x ∈ p.storage.segment i,
      ∃ c ∈ p.storage.positions, p.storage.start i ≤ c ∧ c < p.storage.stop i ∧
        p.storage.keys c = x.1 := by
    intro i inside x member
    obtain ⟨c, here, rfl⟩ := List.mem_map.mp member
    have bounds := (Storage.mem_segmentPositions (array.sizes_le i inside)).mp here
    exact ⟨c, shape.mem_positions.mpr ⟨i, inside, bounds⟩, bounds.1, bounds.2, rfl⟩
  have apart : ∀ i j, i < j → j < p.storage.numberSegments →
      p.storage.stop i ≤ p.storage.start j := fun i j before inside =>
    Storage.stop_le_start (array.sizes_le i (by omega)) (array.sizes_le j inside) before
  have ordered : ∀ i j, i ≤ j → j < p.storage.numberSegments → seps i ≤ seps j := by
    intro i j before inside
    rw [sepEq i (by omega), sepEq j inside]
    apply shape.keys_le array.sorted (startMem i (by omega)) (startMem j inside)
    rcases Nat.eq_or_lt_of_le before with rfl | lower
    · exact le_rfl
    · have bounds := Storage.layout (array.sizes_le i (by omega))
      have := apart i j lower inside
      omega
  have place := (separators.find_spec ordered a.insertKey).1
  rw [finds, ← same] at place
  have inside : a.insertSegment < p.storage.numberSegments := same ▸ array.inside
  refine ⟨⟨by omega, by omega⟩, ?_, ?_, fun i n fits => array.sorted_block fits⟩
  · intro i before x member
    have reached : seps a.insertSegment ≤ a.insertKey := by
      by_cases easy : a.insertKey ≤ seps 0
      · rw [if_pos easy] at place
        omega
      · rw [if_neg easy] at place
        rw [place]
        exact Nat.findGreatest_of_ne_zero (P := fun i => seps i ≤ a.insertKey) rfl (by omega)
    obtain ⟨c, here, -, below, key⟩ := cellMem i (by omega) x member
    have le := shape.keys_le array.sorted here (startMem a.insertSegment inside)
      (by have := apart i a.insertSegment before inside; omega)
    rw [← key]
    rw [sepEq _ inside] at reached
    exact le.trans reached
  · intro i after bound x member
    have beyond : a.insertKey ≤ seps i := by
      by_cases easy : a.insertKey ≤ seps 0
      · exact easy.trans (ordered 0 i (Nat.zero_le i) bound)
      · rw [if_neg easy] at place
        have greater := Nat.findGreatest_is_greatest (P := fun i => seps i ≤ a.insertKey)
          (n := p.storage.numberSegments - 1) (k := i) (by omega) (by omega)
        exact (not_le.mp greater).le
    obtain ⟨c, here, above, -, key⟩ := cellMem i bound x member
    have le := shape.keys_le array.sorted (startMem i bound) here above
    rw [← key]
    rw [sepEq _ bound] at beyond
    exact beyond.trans le

theorem Rebalanceable.request (array : Rebalanceable p a segmentId segmentsPerExtent)
    (found : WindowFound p a thresholds segmentId segmentsPerExtent)
    (partitions : PartitionsFit p a) : Request p a := by
  obtain ⟨window, -, -, after⟩ := found.window array
  obtain ⟨seps, separators, -⟩ := array.separators
  exact ⟨window, separators.sized, array.length_elements, found.located array, partitions.fits,
    partitions.segments, partitions.cardinality, after⟩

/-- **When a spread is a sorted repack.** It is one when the partitions are aligned (where one
starts at an odd segment, at most one of its segments is larger than the others) and the counter
does not overflow. Where the keys are distinct, it is one only then. -/
theorem spreadLocal_repacks (array : Rebalanceable p a segmentId segmentsPerExtent)
    (found : WindowFound p a thresholds segmentId segmentsPerExtent)
    (partitions : PartitionsFit p a) :
    (Aligned a.partitions a.windowStart ∧
        (a.isInsert = true → p.storage.cardinality + 1 < 2 ^ 32) →
      ∃ p', p.spreadLocal a = some p' ∧ Repacked p a p') ∧
      (((a.toInsert.toList ++ p.block a.windowStart a.windowLength).map Prod.fst).Nodup →
        ((∃ p', p.spreadLocal a = some p' ∧ Repacked p a p') ↔
          Aligned a.partitions a.windowStart ∧
            (a.isInsert = true → p.storage.cardinality + 1 < 2 ^ 32))) := by
  have request := array.request found partitions
  have enough : Aligned a.partitions a.windowStart ∧
      (a.isInsert = true → p.storage.cardinality + 1 < 2 ^ 32) →
      ∃ p', p.spreadLocal a = some p' ∧ Repacked p a p' := by
    rintro ⟨aligned, counter⟩
    exact request.spreads aligned counter
  refine ⟨enough, fun distinct => ⟨?_, enough⟩⟩
  rintro ⟨p', spread, right⟩
  exact ⟨request.aligned distinct spread right, request.counter spread right⟩

end Promises

/-! ## Four segments -/

section FourSegments

open Storage

/-- Four segments of 32 cells, the second one full. -/
def fourStorage : Storage :=
  ⟨fun c => c, fun c => c, fun i => if i = 1 then 32 else 2, 32, 38, 4, 1⟩

/-- The array with the minima in its index. -/
def fourArray (index : StaticIndex) : PackedMemoryArray :=
  ⟨fourStorage, index.storeAll [(0, 30), (1, 32), (2, 94), (3, 96)], []⟩

/-- The insertion of a key in the second segment, with the whole array for its window. -/
def fourAction (partitions : List Partition) : RebalanceAction :=
  ⟨true, 33, 330, 1, 0, 4, 39, partitions⟩

/-- No element is too much in two segments, and none too few in four. -/
def fourThresholds : Nat → ℚ × ℚ := fun height => if height = 2 then (0, 0) else (0, 1)

theorem fourStorage_window : fourStorage.rebalanceFindWindow fourThresholds 1 true =
    some ⟨0, 4, 39, false⟩ := by
  have segments : fourStorage.numberSegments = 4 := rfl
  have capacity : fourStorage.segmentCapacity = 32 := rfl
  have height : fourStorage.height = 3 := by
    rw [Storage.height, segments]
    decide
  have first : fourStorage.readSize 0 = some 2 := rfl
  have third : fourStorage.readSize 2 = some 2 := rfl
  have fourth : fourStorage.readSize 3 = some 2 := rfl
  have left : fourStorage.countLeft 0 0 33 = some (-1, 35) := by
    rw [countLeft, if_pos (by decide), first, Option.bind_some, countLeft, if_neg (by decide)]
    rfl
  have right : fourStorage.countRight 2 2 35 = some (2, 35) := by
    rw [countRight, if_neg (by decide)]
  have left' : fourStorage.countLeft 0 (-1) 35 = some (-1, 35) := by
    rw [countLeft, if_neg (by decide)]
  have right' : fourStorage.countRight 4 2 35 = some (4, 39) := by
    rw [countRight, if_pos (by decide), third, Option.bind_some, countRight, if_pos (by decide),
      show (2 : Int) + 1 = 3 from rfl, fourth, Option.bind_some, countRight, if_neg (by decide)]
    rfl
  rw [rebalanceFindWindow, if_pos (by rw [height]; decide), height]
  norm_num [search, turn, Search.first, offset, Search.result, Search.Violates, segments, capacity,
    left, right, left', right', fourThresholds, height]

theorem fourArray_rebalanceable {u : Unit} {index : StaticIndex} (partitions : List Partition)
    (construction :
      StaticIndex.create 3 4 (some fun _ => 0) (StaticIndex.blank 3) = .ok u index) :
    Rebalanceable (fourArray index) (fourAction partitions) 1 8 := by
  have within : ∀ e ∈ ([(0, 30), (1, 32), (2, 94), (3, 96)] : List (Nat × Int)), e.1 < 4 := by decide
  have stored := StaticIndex.storeAll_separators (StaticIndex.create_ok (by decide) construction)
    within
  have sizes : ∀ i < 4, 0 < fourStorage.segmentSizes i ∧ fourStorage.segmentSizes i ≤ 32 := by
    decide
  refine ⟨(by decide : 2 ≤ 4), (by decide : 4 < 2 ^ 32), Or.inl ⟨2, rfl⟩, ⟨3, rfl⟩,
    fun i inside => (sizes i inside).2, fun i inside _ => (sizes i inside).1, (by decide : 0 < 32),
    rfl, ?_, ⟨_, stored, ?_⟩, (by decide : 1 < 4)⟩
  · have sorted : fourStorage.Sorted := by
      unfold Sorted
      decide
    exact sorted
  · intro i inside _
    change i < 4 at inside
    interval_cases i <;> rfl

theorem fourArray_found {index : StaticIndex} (partitions : List Partition)
    (finds : (fourArray index).index.find 33 = 1) :
    WindowFound (fourArray index) (fourAction partitions) fourThresholds 1 8 :=
  ⟨⟨_, fourStorage_window, rfl, rfl, rfl, rfl⟩, (by decide : 4 < 8), fun _ => ⟨rfl, finds, rfl⟩⟩

/-- In the three segments from an odd one on, 37 elements. -/
theorem spreadLocal_repacks_four :
    ∃ u index, StaticIndex.create 3 4 (some fun _ => 0) (StaticIndex.blank 3) = .ok u index ∧
      ∃ p', (fourArray index).spreadLocal (fourAction [⟨2, 1⟩, ⟨37, 3⟩]) = some p' ∧
        Repacked (fourArray index) (fourAction [⟨2, 1⟩, ⟨37, 3⟩]) p' := by
  have ⟨u, index, construction, finds⟩ : ∃ u index,
      StaticIndex.create 3 4 (some fun _ => 0) (StaticIndex.blank 3) = .ok u index ∧
      (fourArray index).index.find 33 = 1 := ⟨_, _, rfl, by decide⟩
  have partitions : PartitionsFit (fourArray index) (fourAction [⟨2, 1⟩, ⟨37, 3⟩]) :=
    ⟨by simp [fourAction], rfl, rfl, by simp +decide [fourAction, fourArray, fourStorage]⟩
  exact ⟨u, index, construction, (spreadLocal_repacks
    (fourArray_rebalanceable _ construction) (fourArray_found _ finds) partitions).1
      ⟨⟨Or.inl rfl, Or.inr (by decide), trivial⟩, fun _ => (by decide : 38 + 1 < 2 ^ 32)⟩⟩

/-- There are 38 elements there: the copies would need another one. -/
theorem spreadLocal_reads_beyond :
    ∃ u index, StaticIndex.create 3 4 (some fun _ => 0) (StaticIndex.blank 3) = .ok u index ∧
      Rebalanceable (fourArray index) (fourAction [⟨1, 1⟩, ⟨38, 3⟩]) 1 8 ∧
      WindowFound (fourArray index) (fourAction [⟨1, 1⟩, ⟨38, 3⟩]) fourThresholds 1 8 ∧
      PartitionsFit (fourArray index) (fourAction [⟨1, 1⟩, ⟨38, 3⟩]) ∧
      ¬∃ p', (fourArray index).spreadLocal (fourAction [⟨1, 1⟩, ⟨38, 3⟩]) = some p' ∧
        Repacked (fourArray index) (fourAction [⟨1, 1⟩, ⟨38, 3⟩]) p' := by
  have ⟨u, index, construction, finds, undefined⟩ : ∃ u index,
      StaticIndex.create 3 4 (some fun _ => 0) (StaticIndex.blank 3) = .ok u index ∧
      (fourArray index).index.find 33 = 1 ∧
      (fourArray index).spreadLocal (fourAction [⟨1, 1⟩, ⟨38, 3⟩]) = none :=
    ⟨_, _, rfl, by decide, rfl⟩
  have partitions : PartitionsFit (fourArray index) (fourAction [⟨1, 1⟩, ⟨38, 3⟩]) :=
    ⟨by simp [fourAction], rfl, rfl, by simp +decide [fourAction, fourArray, fourStorage]⟩
  refine ⟨u, index, construction, fourArray_rebalanceable _ construction, fourArray_found _ finds,
    partitions, ?_⟩
  rintro ⟨p', spread, -⟩
  rw [undefined] at spread
  cases spread

end FourSegments

end SpreadLocal

end Rma
