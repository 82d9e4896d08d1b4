import Rma.Base.Cells
import Rma.Base.Multimap
import Rma.Base.Words
import Rma.Detector
import Rma.Partition
import Rma.StaticIndex
import Rma.Storage

/-!
# Writing segments anew

A spread and a resize give some segments new contents. `Packed` says what a block of
consecutive segments holds: the sizes of a vector, a list of elements in the layout of the
segments, and separators that are the minima. `Frame` says that a step changes nothing outside
a block, so that the blocks before it stay as they are and the block it writes is added to them.
-/

namespace Rma

open Base

/-- The array and its index. Of the detector only the calls are kept, in order. -/
structure PackedMemoryArray where
  storage : Storage
  index : StaticIndex
  detector : List Detector.Call

/-- The fields of `RebalanceMetadata` that a spread or a resize reads. -/
structure RebalanceAction where
  isInsert : Bool
  insertKey : Int
  insertValue : Int
  insertSegment : Nat
  windowStart : Nat
  windowLength : Nat
  cardinalityAfter : Nat
  partitions : List Partition

namespace RebalanceAction

/-- The element to insert. -/
def toInsert (a : RebalanceAction) : Option (Int × Int) :=
  if a.isInsert then some (a.insertKey, a.insertValue) else none

theorem length_toInsert (a : RebalanceAction) :
    a.toInsert.toList.length = if a.isInsert then 1 else 0 := by
  unfold toInsert
  split <;> rfl

end RebalanceAction

/-- The loop of `spread_insert_unsafe`: the copied elements with the new one before the first
one that is not smaller, and its position. -/
def spreadInsertUnsafe (e : Int × Int) (l : List (Int × Int)) : List (Int × Int) × Nat :=
  let i := scanUp (fun i => decide ((l.getD i default).1 < e.1)) 0 l.length
  (l.insertIdx i e, i)

/-- `m_cardinality`, an integer of 32 bits, after an element was inserted, if there is one. -/
def counterAfter (insert : Option (Int × Int)) (cardinality : Nat) : Nat :=
  match insert with
  | none => cardinality
  | some _ => uint32 (cardinality + 1 : Nat)

/-- The counter is exact as long as it does not overflow. -/
theorem counterAfter_of_fits {insert : Option (Int × Int)} {cardinality : Nat}
    (fits : insert ≠ none → cardinality + 1 < 2 ^ 32) :
    counterAfter insert cardinality = cardinality + insert.toList.length := by
  cases insert with
  | none => rfl
  | some e => exact uint32_natCast (fits (Option.some_ne_none e))

@[simp] theorem counterAfter_none (cardinality : Nat) :
    counterAfter none cardinality = cardinality := rfl

/-- The counter is exact as long as it does not overflow, and only then. -/
theorem counterAfter_toInsert_iff {a : RebalanceAction} {cardinality : Nat} :
    counterAfter a.toInsert cardinality = cardinality + (if a.isInsert then 1 else 0) ↔
      (a.isInsert = true → cardinality + 1 < 2 ^ 32) := by
  cases inserting : a.isInsert with
  | true =>
      simp only [RebalanceAction.toInsert, inserting, if_true, counterAfter, true_imp_iff]
      constructor
      · intro same
        have below := uint32_lt (cardinality + 1 : Nat)
        omega
      · exact uint32_natCast
  | false => simp [RebalanceAction.toInsert, inserting]

namespace Storage

/-! ## Reading and writing runs -/

/-- The elements from a position on, undefined where one of the cells holds no element. -/
def readRun (s : Storage) (p n : Nat) : Option (List (Int × Int)) :=
  if ∀ q ∈ List.range' p n, s.Occupied q then some (readCells s.cell p n) else none

/-- A `memcpy` of elements to a position. -/
def write (s : Storage) (p : Nat) (l : List (Int × Int)) : Storage :=
  s.withCells (writeCells s.cell p l)

def setSegmentSize (s : Storage) (i n : Nat) : Storage :=
  { s with segmentSizes := Function.update s.segmentSizes i n }

def withCardinality (s : Storage) (cardinality : Nat) : Storage :=
  { s with cardinality := cardinality }

/-- `insert(segment_id, key, value, &predecessor, &successor)`: whether the key is the minimum of
the segment now, and its neighbours. -/
def insert (s : Storage) (segmentId : Nat) (key value : Int) : Storage × Bool × Int × Int :=
  let l := s.segment segmentId
  let sz := s.segmentSizes segmentId
  let even := segmentId % 2 = 0
  -- an even segment is searched from the left, and its smaller elements move to the left
  let i := if even then scanUp (fun i => decide ((l.getD i default).1 < key)) 0 sz
    else scanDown (fun i => decide ((l.getD i default).1 > key)) sz
  let start := if even then s.start segmentId - 1 else s.start segmentId
  let l := l.insertIdx i (key, value)
  let predecessor := if i = 0 then -2 ^ 63 else (l.getD (i - 1) default).1
  let successor := if i = sz then 2 ^ 63 - 1 else (l.getD (i + 1) default).1
  let s := (s.setSegmentSize segmentId (sz + 1)).write start l
  (s.withCardinality (uint32 (s.cardinality + 1 : Nat)), decide (i = 0), predecessor, successor)

section Runs

variable (s : Storage) {p i n : Nat} {l : List (Int × Int)}

@[simp] theorem cell_write : (s.write p l).cell = writeCells s.cell p l := rfl

@[simp] theorem setSegmentSize_self : (s.setSegmentSize i n).segmentSizes i = n := by
  simp [setSegmentSize]

theorem write_withCardinality (c : Nat) :
    (s.withCardinality c).write p l = (s.write p l).withCardinality c := rfl

/-- Two writes in a row are one. -/
theorem write_append (m : List (Int × Int)) :
    (s.write p l).write (p + l.length) m = s.write p (l ++ m) := by
  change s.withCells (writeCells (writeCells s.cell p l) (p + l.length) m) = _
  rw [writeCells_append]
  rfl

/-- A run within the elements of a segment can be read. -/
theorem readRun_eq (inside : i < s.numberSegments) (size : s.segmentSizes i ≤ s.segmentCapacity)
    (lower : s.start i ≤ p) (upper : p + n ≤ s.stop i) :
    s.readRun p n = some (readCells s.cell p n) := by
  apply if_pos
  intro q member
  have bounds := List.mem_range'_1.mp member
  exact occupied_of_segment inside size (by omega) (by omega)

end Runs

end Storage

namespace StaticIndex

/-- Only the separator of the segment `i` is stored anew. -/
structure Stored (N : Nat) (index index' : StaticIndex) (i : Nat) (key : Int) : Prop where
  sized : index'.Sized N
  separator : index'.getSeparatorKey i = key
  others : ∀ j < N, j ≠ i → index'.getSeparatorKey j = index.getSeparatorKey j

variable {index index' : StaticIndex} {N i : Nat} {key : Int}

theorem Sized.stored (sized : index.Sized N) (inside : i < N) (key : Int) :
    Stored N index (index.setSeparatorKey i key) i key := by
  refine ⟨sized.setSeparatorKey i key, ?_, fun j below other => ?_⟩
  · rw [getSeparatorKey_setSeparatorKey sized inside inside, if_pos rfl]
  · rw [getSeparatorKey_setSeparatorKey sized inside below, if_neg other]

/-- The last store counts. -/
theorem Stored.again (stored : Stored N index index' i key) (inside : i < N) (key' : Int) :
    Stored N index (index'.setSeparatorKey i key') i key' := by
  have last := stored.sized.stored inside key'
  exact ⟨last.sized, last.separator, fun j below other =>
    (last.others j below other).trans (stored.others j below other)⟩

end StaticIndex

namespace PackedMemoryArray

/-! ## Blocks of segments -/

/-- The elements of the segments from `first` on, `n` in number. -/
def block (p : PackedMemoryArray) (first n : Nat) : List (Int × Int) :=
  (List.range n).flatMap fun i => p.storage.segment (first + i)

/-- The segments from `first` on have the given sizes, hold the elements `l`, and their minima
are in the index. -/
structure Packed (p : PackedMemoryArray) (first : Nat) (sizes : List Nat) (l : List (Int × Int)) :
    Prop where
  sizes_eq : ∀ i < sizes.length, p.storage.segmentSizes (first + i) = sizes.getD i 0
  elements : p.block first sizes.length = l
  separators : ∀ i < sizes.length,
    p.index.getSeparatorKey (first + i) = p.storage.getMinimum (first + i)

/-- From one state to the other only the segments from `first` on change, `n` in number. The
index is built for `N` segments. -/
structure Frame (N : Nat) (p p' : PackedMemoryArray) (first n : Nat) : Prop where
  cells : ∀ q, q < first * p.storage.segmentCapacity ∨
    (first + n) * p.storage.segmentCapacity ≤ q → p'.storage.cell q = p.storage.cell q
  sizes : ∀ i, i < first ∨ first + n ≤ i → p'.storage.segmentSizes i = p.storage.segmentSizes i
  separators : ∀ i < N, i < first ∨ first + n ≤ i →
    p'.index.getSeparatorKey i = p.index.getSeparatorKey i
  sized : p'.index.Sized N
  capacity : p'.storage.segmentCapacity = p.storage.segmentCapacity
  numberSegments : p'.storage.numberSegments = p.storage.numberSegments

section Blocks

variable {p p' p'' : PackedMemoryArray} {N first first' n n' m i : Nat} {sizes sizes' : List Nat}
  {l l' : List (Int × Int)}

theorem block_add (p : PackedMemoryArray) (first n m : Nat) :
    p.block first (n + m) = p.block first n ++ p.block (first + n) m := by
  unfold block
  rw [List.range_add, List.flatMap_append, List.flatMap_map]
  simp only [Nat.add_assoc]

@[simp] theorem block_zero : p.block first 0 = [] := rfl

@[simp] theorem block_one : p.block first 1 = p.storage.segment first := by
  simp [block]

theorem elements_eq_block (p : PackedMemoryArray) :
    p.storage.elements = p.block 0 p.storage.numberSegments := by
  rw [Storage.elements, Storage.positions, List.map_flatMap]
  simp only [block, Nat.zero_add]
  rfl

theorem block_congr
    (same : ∀ i < n, p'.storage.segment (first + i) = p.storage.segment (first + i)) :
    p'.block first n = p.block first n := by
  unfold block
  rw [List.flatMap_def, List.flatMap_def]
  congr 1
  apply List.map_congr_left
  intro i member
  exact same i (List.mem_range.mp member)

theorem Packed.nil (p : PackedMemoryArray) (first : Nat) : p.Packed first [] [] :=
  ⟨fun _ below => absurd below (Nat.not_lt_zero _), rfl,
    fun _ below => absurd below (Nat.not_lt_zero _)⟩

/-- Two neighbouring blocks are one. -/
theorem Packed.append (left : p.Packed first sizes l)
    (right : p.Packed (first + sizes.length) sizes' l') :
    p.Packed first (sizes ++ sizes') (l ++ l') := by
  constructor
  · intro i inside
    rw [List.length_append] at inside
    by_cases before : i < sizes.length
    · rw [left.sizes_eq i before, List.getD_append _ _ _ _ before]
    · have second := right.sizes_eq (i - sizes.length) (by omega)
      have place : first + sizes.length + (i - sizes.length) = first + i := by omega
      rw [place] at second
      rw [second, List.getD_append_right _ _ _ _ (by omega)]
  · rw [List.length_append, block_add, left.elements, right.elements]
  · intro i inside
    rw [List.length_append] at inside
    by_cases before : i < sizes.length
    · exact left.separators i before
    · have second := right.separators (i - sizes.length) (by omega)
      have place : first + sizes.length + (i - sizes.length) = first + i := by omega
      rwa [place] at second

/-- A block of one segment. -/
theorem Packed.single (size : p.storage.segmentSizes i = n) (elements : p.storage.segment i = l)
    (separator : p.index.getSeparatorKey i = p.storage.getMinimum i) : p.Packed i [n] l := by
  constructor
  · intro j inside
    obtain rfl : j = 0 := by simpa using inside
    exact size
  · exact block_one.trans elements
  · intro j inside
    obtain rfl : j = 0 := by simpa using inside
    exact separator

theorem Frame.refl (sized : p.index.Sized N) : Frame N p p first n :=
  ⟨fun _ _ => rfl, fun _ _ => rfl, fun _ _ _ => rfl, sized, rfl, rfl⟩

theorem Frame.trans (one : Frame N p p' first n) (two : Frame N p' p'' first n) :
    Frame N p p'' first n := by
  refine ⟨?_, ?_, ?_, two.sized, two.capacity.trans one.capacity,
    two.numberSegments.trans one.numberSegments⟩
  · intro q outside
    exact (two.cells q (by rw [one.capacity]; exact outside)).trans (one.cells q outside)
  · exact fun i outside => (two.sizes i outside).trans (one.sizes i outside)
  · exact fun i inside outside => (two.separators i inside outside).trans
      (one.separators i inside outside)

/-- A change within a greater block. -/
theorem Frame.mono (frame : Frame N p p' first n) (lower : first' ≤ first)
    (upper : first + n ≤ first' + n') : Frame N p p' first' n' := by
  refine ⟨?_, ?_, ?_, frame.sized, frame.capacity, frame.numberSegments⟩
  · intro q outside
    have below : first' * p.storage.segmentCapacity ≤ first * p.storage.segmentCapacity :=
      Nat.mul_le_mul_right _ lower
    have above : (first + n) * p.storage.segmentCapacity ≤
      (first' + n') * p.storage.segmentCapacity := Nat.mul_le_mul_right _ upper
    exact frame.cells q (by omega)
  · exact fun i outside => frame.sizes i (by omega)
  · exact fun i inside outside => frame.separators i inside (by omega)

/-- A segment outside the block holds what it held. -/
theorem Frame.segment (frame : Frame N p p' first n) (outside : i < first ∨ first + n ≤ i)
    (fits : p.storage.segmentSizes i ≤ p.storage.segmentCapacity) :
    p'.storage.segment i = p.storage.segment i := by
  have size := frame.sizes i outside
  have start : p'.storage.start i = p.storage.start i := by
    unfold Storage.start
    rw [size, frame.capacity]
  have bounds := Storage.layout fits
  have apart : (i + 1) * p.storage.segmentCapacity ≤ first * p.storage.segmentCapacity ∨
      (first + n) * p.storage.segmentCapacity ≤ i * p.storage.segmentCapacity :=
    outside.imp (Nat.mul_le_mul_right _) (Nat.mul_le_mul_right _)
  rw [Storage.segment_eq_readCells, Storage.segment_eq_readCells, start, size]
  apply readCells_congr
  intro q lower upper
  exact frame.cells q (by omega)

/-- The minimum is the key of the first element. -/
theorem head?_segment (s : Storage) (some : 0 < s.segmentSizes i) :
    (s.segment i).head?.map Prod.fst = Option.some (s.getMinimum i) := by
  obtain ⟨k, size⟩ := Nat.exists_eq_add_one_of_ne_zero some.ne'
  rw [Storage.segment_eq_readCells, size, readCells_succ]
  rfl

/-- A block that is not written stays as it is. -/
theorem Packed.frame (packed : p.Packed first sizes l) (frame : Frame N p p' first' n)
    (inside : first + sizes.length ≤ N)
    (outside : first + sizes.length ≤ first' ∨ first' + n ≤ first)
    (fits : ∀ n ∈ sizes, 0 < n ∧ n ≤ p.storage.segmentCapacity) : p'.Packed first sizes l := by
  have size : ∀ i < sizes.length, 0 < p.storage.segmentSizes (first + i) ∧
      p.storage.segmentSizes (first + i) ≤ p.storage.segmentCapacity := by
    intro i inside
    rw [packed.sizes_eq i inside, List.getD_eq_getElem _ _ inside]
    exact fits _ (List.getElem_mem inside)
  have apart : ∀ i < sizes.length, first + i < first' ∨ first' + n ≤ first + i := by
    intro i inside
    omega
  have segments : ∀ i < sizes.length,
      p'.storage.segment (first + i) = p.storage.segment (first + i) := fun i inside =>
    frame.segment (apart i inside) (size i inside).2
  refine ⟨?_, (block_congr segments).trans packed.elements, ?_⟩
  · intro i inside
    rw [frame.sizes _ (apart i inside), packed.sizes_eq i inside]
  · intro i below
    have same := frame.sizes _ (apart i below)
    have minimum := head?_segment p.storage (size i below).1
    rw [← segments i below, head?_segment p'.storage (same ▸ (size i below).1)] at minimum
    rw [frame.separators _ (by omega) (apart i below), packed.separators i below,
      Option.some.inj minimum]

/-- A segment is written: its size, its elements at the place that the layout gives them, and
its separator. -/
theorem written {k c : Nat} {e : Int × Int} {out : List (Int × Int)}
    (storage : p'.storage = ((p.storage.setSegmentSize i k).write
      ((p.storage.setSegmentSize i k).start i) out).withCardinality c)
    (length : out.length = k) (fits : k ≤ p.storage.segmentCapacity)
    (head : out.head? = some e) (stored : StaticIndex.Stored N p.index p'.index i e.1) :
    p'.Packed i [k] out ∧ Frame N p p' i 1 := by
  have small : (p.storage.setSegmentSize i k).segmentSizes i ≤
      (p.storage.setSegmentSize i k).segmentCapacity := by
    rw [Storage.setSegmentSize_self]
    exact fits
  have bounds := Storage.layout small
  rw [Storage.setSegmentSize_self] at bounds
  have cells : p'.storage.cell =
      writeCells p.storage.cell ((p.storage.setSegmentSize i k).start i) out := by
    rw [storage]
    rfl
  have sizes : p'.storage.segmentSizes = Function.update p.storage.segmentSizes i k := by
    rw [storage]
    rfl
  have start : p'.storage.start i = (p.storage.setSegmentSize i k).start i := by
    rw [storage]
    rfl
  generalize (p.storage.setSegmentSize i k).start i = first at *
  have elements : p'.storage.segment i = out := by
    rw [Storage.segment_eq_readCells, start, sizes, Function.update_self, cells, ← length]
    exact readCells_writeCells
  constructor
  · apply Packed.single _ elements
    · have positive : 0 < p'.storage.segmentSizes i := by
        rw [← Storage.length_segment, elements]
        exact List.length_pos_iff.mpr fun none => by simp [none] at head
      have minimum := head?_segment p'.storage positive
      rw [elements, head] at minimum
      rw [stored.separator]
      exact Option.some.inj minimum
    · rw [sizes, Function.update_self]
  · refine ⟨?_, ?_, ?_, stored.sized, by rw [storage]; rfl, by rw [storage]; rfl⟩
    · intro q outside
      rw [cells, writeCells_outside]
      change i * p.storage.segmentCapacity ≤ first ∧ _ ∧
        _ ≤ (i + 1) * p.storage.segmentCapacity at bounds
      omega
    · intro j outside
      rw [sizes, Function.update_of_ne (by omega)]
    · exact fun j below outside => stored.others j below (by omega)

end Blocks

end PackedMemoryArray

end Rma
