import Rma.Base.Cells
import Rma.Base.Scan

/-!
# Storage

`Storage` is the sparse array of the packed memory array: `m_number_segments`
segments of `m_segment_capacity` cells each. The elements of an even segment lie
at its right end and those of an odd segment at its left end, so that two
neighbouring segments, an even one and the next, hold one contiguous run.

The arrays are functions from positions; what they hold outside the occupied
cells is arbitrary. A scan reads them with `readKey` and `readValue`, which are
undefined at a position that holds no element.
-/

namespace Rma

open Base

/-- The fields of `Storage`. -/
structure Storage where
  keys : Nat → Int
  values : Nat → Int
  segmentSizes : Nat → Nat
  segmentCapacity : Nat
  cardinality : Nat
  numberSegments : Nat
  pagesPerExtent : Nat

namespace Storage

/-! ## Layout -/

/-- The first occupied position of a segment. -/
def start (s : Storage) (i : Nat) : Nat :=
  if i % 2 = 0 then (i + 1) * s.segmentCapacity - s.segmentSizes i
  else i * s.segmentCapacity

/-- The position after the last occupied one of a segment. -/
def stop (s : Storage) (i : Nat) : Nat :=
  if i % 2 = 0 then (i + 1) * s.segmentCapacity
  else i * s.segmentCapacity + s.segmentSizes i

/-- The positions of the elements of a segment. -/
def segmentPositions (s : Storage) (i : Nat) : List Nat :=
  List.range' (s.start i) (s.segmentSizes i)

/-- The positions of all the elements, segment by segment. -/
def positions (s : Storage) : List Nat :=
  (List.range s.numberSegments).flatMap s.segmentPositions

/-- The pair of key and value at a position. -/
def cell (s : Storage) (p : Nat) : Int × Int := (s.keys p, s.values p)

/-- The storage with other arrays. -/
def withCells (s : Storage) (cells : Nat → Int × Int) : Storage :=
  { s with keys := fun p => (cells p).1, values := fun p => (cells p).2 }

/-- The elements of a segment. -/
def segment (s : Storage) (i : Nat) : List (Int × Int) := (s.segmentPositions i).map s.cell

/-- The elements of the array, segment by segment. -/
def elements (s : Storage) : List (Int × Int) := s.positions.map s.cell

/-- A position that holds an element. -/
def Occupied (s : Storage) (p : Nat) : Prop :=
  p / s.segmentCapacity < s.numberSegments ∧ s.start (p / s.segmentCapacity) ≤ p ∧
    p < s.stop (p / s.segmentCapacity)

instance (s : Storage) : DecidablePred s.Occupied := fun _ =>
  inferInstanceAs (Decidable (_ ∧ _ ∧ _))

/-- `m_keys[p]`, where an element is. -/
def readKey (s : Storage) (p : Nat) : Option Int :=
  if s.Occupied p then some (s.keys p) else none

/-- `m_values[p]`, where an element is. -/
def readValue (s : Storage) (p : Nat) : Option Int :=
  if s.Occupied p then some (s.values p) else none

/-- The minimum of a segment that is not empty. -/
def getMinimum (s : Storage) (i : Nat) : Int := s.keys (s.start i)

/-! ## Invariant -/

/-- The shape of the array: no segment overflows, none is empty when there are
several, and the sizes add up to the cardinality. -/
structure Shape (s : Storage) : Prop where
  capacity_pos : 0 < s.segmentCapacity
  sizes_le : ∀ i, i < s.numberSegments → s.segmentSizes i ≤ s.segmentCapacity
  sizes_pos : 1 < s.numberSegments → ∀ i, i < s.numberSegments → 0 < s.segmentSizes i
  cardinality_eq : s.cardinality = ((List.range s.numberSegments).map s.segmentSizes).sum

/-- The keys read segment by segment do not decrease. -/
def Sorted (s : Storage) : Prop := (s.elements.map Prod.fst).Pairwise (· ≤ ·)

section Layout

variable {s : Storage} {i j p : Nat}

theorem segment_eq_readCells (s : Storage) (i : Nat) :
    s.segment i = readCells s.cell (s.start i) (s.segmentSizes i) := rfl

@[simp] theorem length_segment (s : Storage) (i : Nat) :
    (s.segment i).length = s.segmentSizes i := by
  rw [segment_eq_readCells, length_readCells]

/-- A segment occupies as many positions as it has elements, within its cells. -/
theorem layout (size : s.segmentSizes i ≤ s.segmentCapacity) :
    i * s.segmentCapacity ≤ s.start i ∧ s.stop i = s.start i + s.segmentSizes i ∧
      s.stop i ≤ (i + 1) * s.segmentCapacity := by
  have whole : (i + 1) * s.segmentCapacity = i * s.segmentCapacity + s.segmentCapacity :=
    Nat.succ_mul i s.segmentCapacity
  unfold start stop
  split <;> omega

/-- The elements of a segment come before those of every later segment. -/
theorem stop_le_start (sizeI : s.segmentSizes i ≤ s.segmentCapacity)
    (sizeJ : s.segmentSizes j ≤ s.segmentCapacity) (before : i < j) : s.stop i ≤ s.start j := by
  have cells : (i + 1) * s.segmentCapacity ≤ j * s.segmentCapacity := Nat.mul_le_mul_right _ before
  have first := (layout sizeI).2.2
  have second := (layout sizeJ).1
  omega

/-- An even segment and the next one are adjacent. -/
theorem stop_eq_start_succ (even : i % 2 = 0) : s.stop i = s.start (i + 1) := by
  rw [stop, start, if_pos even, if_neg (by omega)]

theorem mem_segmentPositions (size : s.segmentSizes i ≤ s.segmentCapacity) :
    p ∈ s.segmentPositions i ↔ s.start i ≤ p ∧ p < s.stop i := by
  rw [segmentPositions, List.mem_range'_1, (layout size).2.1]

/-- The positions of a segment are occupied. -/
theorem occupied_of_segment (inside : i < s.numberSegments)
    (size : s.segmentSizes i ≤ s.segmentCapacity) (lower : s.start i ≤ p) (upper : p < s.stop i) :
    s.Occupied p := by
  have bounds := layout size
  have segment : p / s.segmentCapacity = i := by
    apply Nat.div_eq_of_lt_le
    · omega
    · omega
  rw [Occupied, segment]
  exact ⟨inside, lower, upper⟩

namespace Shape

theorem mem_positions (shape : s.Shape) :
    p ∈ s.positions ↔ ∃ i, i < s.numberSegments ∧ s.start i ≤ p ∧ p < s.stop i := by
  rw [positions, List.mem_flatMap]
  constructor
  · intro ⟨i, inside, member⟩
    have inside := List.mem_range.mp inside
    exact ⟨i, inside, (mem_segmentPositions (shape.sizes_le i inside)).mp member⟩
  · intro ⟨i, inside, bounds⟩
    exact ⟨i, List.mem_range.mpr inside,
      (mem_segmentPositions (shape.sizes_le i inside)).mpr bounds⟩

theorem readKey_eq (shape : s.Shape) (inside : i < s.numberSegments) (lower : s.start i ≤ p)
    (upper : p < s.stop i) : s.readKey p = some (s.keys p) :=
  if_pos (occupied_of_segment inside (shape.sizes_le i inside) lower upper)

theorem readValue_eq (shape : s.Shape) (inside : i < s.numberSegments) (lower : s.start i ≤ p)
    (upper : p < s.stop i) : s.readValue p = some (s.values p) :=
  if_pos (occupied_of_segment inside (shape.sizes_le i inside) lower upper)

/-- The occupied positions are listed in increasing order. -/
theorem positions_increasing (shape : s.Shape) : s.positions.Pairwise (· < ·) := by
  rw [positions, List.flatMap_def, List.pairwise_flatten]
  constructor
  · intro run member
    rcases List.mem_map.mp member with ⟨i, _, rfl⟩
    exact List.pairwise_lt_range'
  · rw [List.pairwise_map]
    apply List.Pairwise.imp_of_mem _ List.pairwise_lt_range
    intro i j memI memJ before p memP q memQ
    have sizeI := shape.sizes_le i (List.mem_range.mp memI)
    have sizeJ := shape.sizes_le j (List.mem_range.mp memJ)
    have upper := ((mem_segmentPositions sizeI).mp memP).2
    have lower := ((mem_segmentPositions sizeJ).mp memQ).1
    have apart := stop_le_start sizeI sizeJ before
    omega

/-- In a sorted array a later position holds a key that is no smaller. -/
theorem keys_le (shape : s.Shape) (sorted : s.Sorted) {p q : Nat} (memP : p ∈ s.positions)
    (memQ : q ∈ s.positions) (order : p ≤ q) : s.keys p ≤ s.keys q := by
  have ordered : s.positions.Pairwise fun p q => p < q ∧ s.keys p ≤ s.keys q := by
    apply shape.positions_increasing.and
    simpa [Sorted, elements, List.pairwise_map, cell] using sorted
  have forward : s.positions.Pairwise fun p q => p ≤ q → s.keys p ≤ s.keys q :=
    ordered.imp fun h _ => h.2
  have backward : s.positions.Pairwise (flip fun p q => p ≤ q → s.keys p ≤ s.keys q) :=
    ordered.imp fun h back => absurd h.1 (not_lt.mpr back)
  exact forward.forall_of_forall_of_flip (fun _ _ _ => le_rfl) backward memP memQ order

end Shape

end Layout

end Storage

end Rma
