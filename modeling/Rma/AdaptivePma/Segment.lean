import Rma.AdaptivePma.Basic

/-!
# One segment of a sorted array

`Ordered` is the invariant of the array but for the sizes of its segments: the elements are sorted,
and the separator of a segment that is not empty is its minimum. From it the index leads a key to
the one segment where it belongs (`Ordered.place`), and an edit of that segment is an edit of the
array.
-/

namespace Rma

open Base

namespace PackedMemoryArray

/-- The elements are sorted and counted, and the separators of the segments that are not empty are
their minima. -/
structure Ordered (p : PackedMemoryArray) : Prop where
  sizes_le : ∀ i < p.storage.numberSegments, p.storage.segmentSizes i ≤ p.storage.segmentCapacity
  counted : p.storage.cardinality = p.storage.elements.length
  sorted : SortedPairs p.storage.elements
  sized : p.index.Sized p.storage.numberSegments
  separators : ∀ i < p.storage.numberSegments, 0 < p.storage.segmentSizes i →
    p.index.getSeparatorKey i = p.storage.getMinimum i

/-- No segment is empty, unless it is the only one. -/
def Filled (p : PackedMemoryArray) : Prop :=
  1 < p.storage.numberSegments → ∀ i < p.storage.numberSegments, 0 < p.storage.segmentSizes i

section Blocks

variable {p p' : PackedMemoryArray} {first n i j : Nat} {x y : Int × Int}

theorem mem_block : x ∈ p.block first n ↔ ∃ i < n, x ∈ p.storage.segment (first + i) := by
  rw [block, List.mem_flatMap]
  exact exists_congr fun i => and_congr_left fun _ => List.mem_range

/-- The elements before, of and after a block. -/
theorem elements_split (inside : first + n ≤ p.storage.numberSegments) :
    p.storage.elements = p.block 0 first ++ p.block first n ++
      p.block (first + n) (p.storage.numberSegments - (first + n)) := by
  obtain ⟨m, rest⟩ := Nat.exists_eq_add_of_le inside
  rw [elements_eq_block, rest, Nat.add_sub_cancel_left, block_add, block_add, Nat.zero_add,
    Nat.zero_add]

/-- What changes in a block changes there in the array. -/
theorem Frame.elements {N : Nat} (frame : Frame N p p' first n)
    (inside : first + n ≤ p.storage.numberSegments)
    (sizes_le : ∀ i < p.storage.numberSegments,
      p.storage.segmentSizes i ≤ p.storage.segmentCapacity) :
    p'.storage.elements = p.block 0 first ++ p'.block first n ++
      p.block (first + n) (p.storage.numberSegments - (first + n)) := by
  have before : p'.block 0 first = p.block 0 first := block_congr fun i below =>
    frame.segment (by omega) (sizes_le _ (by omega))
  have after : p'.block (first + n) (p.storage.numberSegments - (first + n)) =
      p.block (first + n) (p.storage.numberSegments - (first + n)) := block_congr fun i below =>
    frame.segment (by omega) (sizes_le _ (by omega))
  have whole := @elements_split p' first n (by rw [frame.numberSegments]; exact inside)
  rwa [frame.numberSegments, before, after] at whole

/-- A segment outside a block keeps its minimum. -/
theorem Frame.minimum {N : Nat} (frame : Frame N p p' first n)
    (outside : i < first ∨ first + n ≤ i)
    (fits : p.storage.segmentSizes i ≤ p.storage.segmentCapacity)
    (some : 0 < p.storage.segmentSizes i) : p'.storage.getMinimum i = p.storage.getMinimum i := by
  have before := head?_segment p.storage some
  have after := head?_segment p'.storage (frame.sizes i outside ▸ some)
  rw [frame.segment outside fits, before] at after
  exact (Option.some.inj after).symm

namespace Ordered

theorem segments_pos (ordered : p.Ordered) : 0 < p.storage.numberSegments :=
  (ordered.sized.root.bounds ordered.sized.base).1

/-- The elements of a segment come before those of a later one. -/
theorem segment_le (ordered : p.Ordered) (before : i < j) (inside : j < p.storage.numberSegments)
    (memX : x ∈ p.storage.segment i) (memY : y ∈ p.storage.segment j) : x.1 ≤ y.1 := by
  have sorted := ordered.sorted
  rw [elements_eq_block, block, SortedPairs, List.pairwise_flatMap] at sorted
  have apart := List.pairwise_iff_getElem.mp sorted.2 i j (by simp; omega) (by simpa) before
  simp only [List.getElem_range, Nat.zero_add] at apart
  exact apart x memX y memY

/-- The separator of a segment that is not empty is the key of one of its elements, and at most
those of the others. -/
theorem minimum (ordered : p.Ordered) (inside : i < p.storage.numberSegments)
    (some : 0 < p.storage.segmentSizes i) :
    (∃ x ∈ p.storage.segment i, x.1 = p.index.getSeparatorKey i) ∧
      ∀ x ∈ p.storage.segment i, p.index.getSeparatorKey i ≤ x.1 := by
  have head := head?_segment p.storage some
  rw [← ordered.separators i inside some] at head
  obtain ⟨x, first, key⟩ := Option.map_eq_some_iff.mp head
  refine ⟨⟨x, List.mem_of_mem_head? first, key⟩, fun y member => ?_⟩
  have sorted := ordered.sorted
  rw [@elements_split p i 1 inside, block_one] at sorted
  have own := (SortedPairs.append_iff.mp (SortedPairs.append_iff.mp sorted).1).2.1
  cases elements : p.storage.segment i with
  | nil =>
      rw [elements] at member
      cases member
  | cons z l =>
      rw [elements] at first member own
      obtain rfl := Option.some.inj first
      rw [← key]
      exact own.head_le y member

/-- Where the index leads a key: the elements of the segments before it are not greater, those of
the segments after it are not smaller, and an element with the key, if there is one, is there. -/
theorem place (ordered : p.Ordered) (filled : p.Filled) (stored : p.storage.cardinality ≠ 0)
    (key : Int) :
    p.index.find key < p.storage.numberSegments ∧
      (∀ i < p.index.find key, ∀ x ∈ p.storage.segment i, x.1 ≤ key) ∧
      (∀ i < p.storage.numberSegments, p.index.find key < i →
        ∀ x ∈ p.storage.segment i, key ≤ x.1) ∧
      ((∃ x ∈ p.storage.elements, x.1 = key) →
        ∃ x ∈ p.storage.segment (p.index.find key), x.1 = key) := by
  have positive := ordered.segments_pos
  have some : ∀ i < p.storage.numberSegments, 0 < p.storage.segmentSizes i := by
    intro i inside
    by_cases several : 1 < p.storage.numberSegments
    · exact filled several i inside
    · have one : p.storage.numberSegments = 1 := by omega
      obtain rfl : i = 0 := by omega
      have total := ordered.counted
      rw [elements_eq_block, one, block_one, Storage.length_segment] at total
      omega
  have minimum := fun i inside => ordered.minimum inside (some i inside)
  have increasing : ∀ i j, i ≤ j → j < p.storage.numberSegments →
      p.index.getSeparatorKey i ≤ p.index.getSeparatorKey j := by
    intro i j le inside
    rcases Nat.eq_or_lt_of_le le with rfl | before
    · exact le_rfl
    · obtain ⟨x, memX, keyX⟩ := (minimum i (by omega)).1
      obtain ⟨y, memY, keyY⟩ := (minimum j inside).1
      rw [← keyX, ← keyY]
      exact ordered.segment_le before inside memX memY
  have separators : p.index.Separators p.storage.numberSegments p.index.getSeparatorKey :=
    ⟨ordered.sized, fun _ _ => rfl⟩
  have found := (separators.find_spec increasing key).1
  generalize p.index.find key = segment at *
  have spec : segment < p.storage.numberSegments ∧
      (0 < segment → p.index.getSeparatorKey segment ≤ key) ∧
      (∀ i < p.storage.numberSegments, segment < i → key ≤ p.index.getSeparatorKey i) ∧
      ∀ i < p.storage.numberSegments, segment < i →
        p.index.getSeparatorKey i = key → p.index.getSeparatorKey segment = key := by
    by_cases easy : key ≤ p.index.getSeparatorKey 0
    · rw [if_pos easy] at found
      subst found
      have upper := fun i (inside : i < p.storage.numberSegments) =>
        easy.trans (increasing 0 i (Nat.zero_le i) inside)
      refine ⟨positive, fun none => absurd none (lt_irrefl 0), fun i inside _ => upper i inside,
        fun i inside _ same => le_antisymm ?_ easy⟩
      rw [← same]
      exact increasing 0 i (Nat.zero_le i) inside
    · rw [if_neg easy] at found
      have le := Nat.findGreatest_le (P := fun i => p.index.getSeparatorKey i ≤ key)
        (p.storage.numberSegments - 1)
      have greater := fun i (inside : i < p.storage.numberSegments) (after : segment < i) =>
        not_le.mp (Nat.findGreatest_is_greatest
          (P := fun i => p.index.getSeparatorKey i ≤ key) (found ▸ after) (by omega))
      rw [← found] at le
      refine ⟨by omega, fun some => ?_, fun i inside after => (greater i inside after).le,
        fun i inside after same => absurd same (greater i inside after).ne'⟩
      rw [found] at some ⊢
      exact Nat.findGreatest_of_ne_zero (P := fun i => p.index.getSeparatorKey i ≤ key) rfl some.ne'
  rcases spec with ⟨inside, reached, beyond, again⟩
  have before : ∀ i < segment, ∀ x ∈ p.storage.segment i, x.1 ≤ key := by
    intro i less x member
    obtain ⟨y, memY, keyY⟩ := (minimum segment inside).1
    have le := ordered.segment_le less inside member memY
    exact le.trans (keyY ▸ reached (by omega))
  have after : ∀ i < p.storage.numberSegments, segment < i →
      ∀ x ∈ p.storage.segment i, key ≤ x.1 := fun i below greater x member =>
    (beyond i below greater).trans ((minimum i below).2 x member)
  refine ⟨inside, before, after, fun ⟨x, member, same⟩ => ?_⟩
  rw [elements_eq_block, mem_block] at member
  obtain ⟨i, below, member⟩ := member
  rw [Nat.zero_add] at member
  rcases Nat.lt_trichotomy i segment with less | rfl | greater
  · -- the minimum of the segment is not smaller than the element, and not greater than the key
    obtain ⟨y, memY, keyY⟩ := (minimum segment inside).1
    have le := ordered.segment_le less inside member memY
    refine ⟨y, memY, le_antisymm ?_ (same ▸ le)⟩
    rw [keyY]
    exact reached (by omega)
  · exact ⟨x, member, same⟩
  · obtain ⟨y, memY, keyY⟩ := (minimum segment inside).1
    refine ⟨y, memY, keyY.trans (again i below greater (le_antisymm ?_ (beyond i below greater)))⟩
    rw [← same]
    exact (minimum i below).2 x member

/-- An array in which a block was changed is in order, if what is written there is. -/
theorem change (ordered : p.Ordered) (frame : Frame p.storage.numberSegments p p' first n)
    (sizes_le : ∀ i < n, p'.storage.segmentSizes (first + i) ≤ p.storage.segmentCapacity)
    (counted : p'.storage.cardinality = p'.storage.elements.length)
    (sorted : SortedPairs p'.storage.elements)
    (separators : ∀ i < n, 0 < p'.storage.segmentSizes (first + i) →
      p'.index.getSeparatorKey (first + i) = p'.storage.getMinimum (first + i)) : p'.Ordered := by
  have cases : ∀ i, (i < first ∨ first + n ≤ i) ∨ ∃ j < n, i = first + j := by
    intro i
    by_cases outside : i < first ∨ first + n ≤ i
    · exact Or.inl outside
    · exact Or.inr ⟨i - first, by omega, by omega⟩
  refine ⟨?_, counted, sorted, frame.numberSegments ▸ frame.sized, ?_⟩
  · intro i below
    rw [frame.numberSegments] at below
    rw [frame.capacity]
    rcases cases i with outside | ⟨j, within, rfl⟩
    · rw [frame.sizes i outside]
      exact ordered.sizes_le i below
    · exact sizes_le j within
  · intro i below some
    rw [frame.numberSegments] at below
    rcases cases i with outside | ⟨j, within, rfl⟩
    · rw [frame.sizes i outside] at some
      rw [frame.separators i below outside, ordered.separators i below some,
        frame.minimum outside (ordered.sizes_le i below) some]
    · exact separators j within some

/-- An array in order whose segments are not empty satisfies the representation invariant. -/
theorem repInv (ordered : p.Ordered) (filled : p.Filled)
    (positive : 0 < p.storage.segmentCapacity) : RepInv p.index p.storage := by
  refine ⟨⟨positive, ordered.sizes_le, filled, ?_⟩, ordered.segments_pos, ?_,
    p.index.getSeparatorKey, ⟨ordered.sized, fun _ _ => rfl⟩, ordered.separators⟩
  · rw [ordered.counted, elements_eq_block, block, List.length_flatMap]
    simp only [Nat.zero_add, Storage.length_segment]
  · exact List.pairwise_map.mpr ordered.sorted

end Ordered

end Blocks

/-! ## Edits of a segment -/

section Edits

variable {p p' : PackedMemoryArray} {N i k c : Nat} {key value : Int} {out : List (Int × Int)}

/-- A segment is written, and at most its separator is stored. -/
theorem rewritten (storage : p'.storage = ((p.storage.setSegmentSize i k).write
      ((p.storage.setSegmentSize i k).start i) out).withCardinality c)
    (length : out.length = k) (fits : k ≤ p.storage.segmentCapacity) (sized : p'.index.Sized N)
    (others : ∀ j < N, j ≠ i → p'.index.getSeparatorKey j = p.index.getSeparatorKey j) :
    p'.storage.segment i = out ∧ Frame N p p' i 1 := by
  have small : (p.storage.setSegmentSize i k).segmentSizes i ≤
      (p.storage.setSegmentSize i k).segmentCapacity := by
    rw [Storage.setSegmentSize_self]
    exact fits
  have bounds := Storage.layout small
  rw [Storage.setSegmentSize_self] at bounds
  have cells : p'.storage.cell =
      writeCells p.storage.cell ((p.storage.setSegmentSize i k).start i) out := by
    rw [storage]
    rfl
  have sizes : p'.storage.segmentSizes = Function.update p.storage.segmentSizes i k := by
    rw [storage]
    rfl
  have start : p'.storage.start i = (p.storage.setSegmentSize i k).start i := by
    rw [storage]
    rfl
  generalize (p.storage.setSegmentSize i k).start i = first at *
  constructor
  · rw [Storage.segment_eq_readCells, start, sizes, Function.update_self, cells, ← length]
    exact readCells_writeCells
  · refine ⟨?_, ?_, fun j below outside => others j below (by omega), sized,
      by rw [storage]; rfl, by rw [storage]; rfl⟩
    · intro q outside
      rw [cells, writeCells_outside]
      change i * p.storage.segmentCapacity ≤ first ∧ _ ∧
        _ ≤ (i + 1) * p.storage.segmentCapacity at bounds
      omega
    · intro j outside
      rw [sizes, Function.update_of_ne (by omega)]

/-- What `Storage::insert` writes. -/
theorem insert_eq (s : Storage) (i : Nat) (key value : Int) (sorted : SortedPairs (s.segment i)) :
    ∃ out k, Inserted (key, value) (s.segment i) out ∧ k ≤ s.segmentSizes i ∧
      out = (s.segment i).insertIdx k (key, value) ∧
      (s.insert i key value).1 = ((s.setSegmentSize i (s.segmentSizes i + 1)).write
        ((s.setSegmentSize i (s.segmentSizes i + 1)).start i) out).withCardinality
          (uint32 (s.cardinality + 1 : Nat)) ∧
      (s.insert i key value).2.1 = decide (k = 0) := by
  have length := s.length_segment (i := i)
  have whole : (i + 1) * s.segmentCapacity = i * s.segmentCapacity + s.segmentCapacity :=
    Nat.succ_mul i _
  by_cases even : i % 2 = 0
  · have start : (s.setSegmentSize i (s.segmentSizes i + 1)).start i = s.start i - 1 := by
      unfold Storage.start
      rw [if_pos even, if_pos even, Storage.setSegmentSize_self]
      change (i + 1) * s.segmentCapacity - _ = _
      omega
    have inserted := insertUp_inserted (e := (key, value)) sorted
    have upper := (scanUp_spec (fun j => decide (((s.segment i).getD j default).1 < key)) 0
      (s.segment i).length).2.1
    unfold insertUp at inserted
    rw [length] at inserted upper
    rw [Nat.zero_add] at upper
    refine ⟨_, _, inserted, upper, rfl, ?_, ?_⟩
    · unfold Storage.insert
      simp only [if_pos even]
      rw [start]
      rfl
    · unfold Storage.insert
      simp only [if_pos even]
  · have start : (s.setSegmentSize i (s.segmentSizes i + 1)).start i = s.start i := by
      unfold Storage.start
      rw [if_neg even, if_neg even]
      rfl
    have inserted := insertDown_inserted (e := (key, value)) sorted
    have upper := (scanDown_spec (fun j => decide (((s.segment i).getD j default).1 > key))
      (s.segment i).length).1
    unfold insertDown at inserted
    rw [length] at inserted upper
    refine ⟨_, _, inserted, upper, rfl, ?_, ?_⟩
    · unfold Storage.insert
      simp only [if_neg even]
      rw [start]
      rfl
    · unfold Storage.insert
      simp only [if_neg even]

/-- The elements of a segment are in order. -/
theorem Ordered.sorted_block (ordered : p.Ordered) {first n : Nat}
    (inside : first + n ≤ p.storage.numberSegments) : SortedPairs (p.block first n) := by
  have sorted := ordered.sorted
  rw [elements_split inside] at sorted
  exact (SortedPairs.append_iff.mp (SortedPairs.append_iff.mp sorted).1).2.1

/-- An insertion in a segment that is not full, where the key belongs. -/
theorem Ordered.insertInto (ordered : p.Ordered) (inside : i < p.storage.numberSegments)
    (small : p.storage.cardinality + 1 < 2 ^ 32)
    (room : p.storage.segmentSizes i < p.storage.segmentCapacity)
    (below : ∀ j < i, ∀ x ∈ p.storage.segment j, x.1 ≤ key)
    (above : ∀ j < p.storage.numberSegments, i < j → ∀ x ∈ p.storage.segment j, key ≤ x.1) :
    (p.insertInto i key value).Ordered ∧
      Inserted (key, value) p.storage.elements (p.insertInto i key value).storage.elements ∧
      (p.insertInto i key value).storage.segmentSizes =
        Function.update p.storage.segmentSizes i (p.storage.segmentSizes i + 1) ∧
      (p.insertInto i key value).storage.numberSegments = p.storage.numberSegments ∧
      (p.insertInto i key value).storage.segmentCapacity = p.storage.segmentCapacity := by
  have own := ordered.sorted_block (show i + 1 ≤ p.storage.numberSegments from inside)
  rw [block_one] at own
  obtain ⟨out, k, inserted, le, result, stored, minimum⟩ :=
    insert_eq p.storage i key value own
  rw [uint32_natCast small] at stored
  have length : out.length = p.storage.segmentSizes i + 1 := by
    rw [inserted.length_eq, Storage.length_segment]
  set p' := p.insertInto i key value with p'_eq
  have storage : p'.storage = ((p.storage.setSegmentSize i (p.storage.segmentSizes i + 1)).write
      ((p.storage.setSegmentSize i (p.storage.segmentSizes i + 1)).start i) out).withCardinality
        (p.storage.cardinality + 1) := stored
  have index : p'.index = if k = 0 then p.index.setSeparatorKey i key else p.index := by
    change (if (p.storage.insert i key value).2.1 = true then p.index.setSeparatorKey i key
      else p.index) = _
    rw [minimum]
    exact if_congr decide_eq_true_iff rfl rfl
  have store := ordered.sized.stored inside key
  obtain ⟨elements, frame⟩ := @rewritten p p' p.storage.numberSegments i _ _ out storage length room
    (by rw [index]; split; exacts [store.sized, ordered.sized]) (fun j below other => by
      rw [index]
      split
      · exact store.others j below other
      · rfl)
  have whole := frame.elements inside ordered.sizes_le
  rw [block_one, elements] at whole
  have split := @elements_split p i 1 inside
  rw [block_one] at split
  have gained : Inserted (key, value) p.storage.elements p'.storage.elements := by
    rw [whole, split]
    apply inserted.context
    · intro x member
      obtain ⟨j, less, member⟩ := mem_block.mp member
      exact below _ (by omega) x member
    · intro x member
      obtain ⟨j, less, member⟩ := mem_block.mp member
      exact above _ (by omega) (by omega) x member
  have size : p'.storage.segmentSizes i = p.storage.segmentSizes i + 1 := by
    rw [← length, ← elements, Storage.length_segment]
  refine ⟨?_, gained, by rw [storage]; rfl, frame.numberSegments, frame.capacity⟩
  apply ordered.change frame
  · intro j within
    obtain rfl : j = 0 := by omega
    rw [Nat.add_zero, size]
    exact room
  · rw [gained.length_eq, ← ordered.counted, storage]
    rfl
  · exact gained.sorted ordered.sorted
  · intro j within some
    obtain rfl : j = 0 := by omega
    have head := head?_segment p'.storage (i := i) some
    rw [elements, result] at head
    rw [Nat.add_zero, index]
    by_cases first : k = 0
    · rw [if_pos first, store.separator]
      rw [first, List.insertIdx_zero] at head
      exact Option.some.inj head
    · -- the first element is the one that was there
      have positive : 0 < p.storage.segmentSizes i := by omega
      have old := head?_segment p.storage positive
      rw [if_neg first, ordered.separators i inside positive]
      cases l : p.storage.segment i with
      | nil =>
          rw [l] at old
          cases old
      | cons y l' =>
          obtain ⟨m, rfl⟩ := Nat.exists_eq_add_one_of_ne_zero first
          rw [l] at old head
          rw [List.insertIdx_succ_cons] at head
          exact Option.some.inj (old.symm.trans head)

/-- The scan for a key in a segment: it stops at the first element with the key, or at the end. -/
theorem offsetOf_spec (s : Storage) (i : Nat) (key : Int) :
    (offsetOf s i key < s.segmentSizes i → ∃ l₁ v l₂, s.segment i = l₁ ++ (key, v) :: l₂ ∧
      l₁.length = offsetOf s i key ∧ (s.segment i).getD (offsetOf s i key) default = (key, v)) ∧
      (¬offsetOf s i key < s.segmentSizes i → ∀ x ∈ s.segment i, x.1 ≠ key) := by
  have length := s.length_segment (i := i)
  rcases scanUp_spec (fun j => decide (((s.segment i).getD j default).1 ≠ key)) 0
    (s.segmentSizes i) with ⟨-, upper, passed, stopped⟩
  change offsetOf s i key ≤ _ at upper
  change ∀ j, _ → j < offsetOf s i key → _ at passed
  change offsetOf s i key < _ → decide (((s.segment i).getD (offsetOf s i key) default).1 ≠ key) =
    false at stopped
  generalize offsetOf s i key = k at *
  rw [Nat.zero_add] at upper stopped
  constructor
  · intro inside
    obtain ⟨l₁, x, l₂, split, place⟩ := exists_focus (l := s.segment i) (by rwa [length])
    have found := of_decide_eq_false (stopped inside)
    rw [split, ← place, getD_focus, not_not] at found
    refine ⟨l₁, x.2, l₂, by rw [split, ← found], place, ?_⟩
    rw [split, ← place, getD_focus, ← found]
  · intro outside x member same
    obtain ⟨j, inside, rfl⟩ := List.mem_iff_getElem.mp member
    have other := of_decide_eq_true (passed j (Nat.zero_le j) (by omega))
    rw [List.getD_eq_getElem _ _ inside] at other
    exact other same

/-- What the array is after an element was taken out of a segment. -/
structure TakenOut (p : PackedMemoryArray) (i : Nat) (key : Int) (p' : PackedMemoryArray)
    (value : Int) : Prop where
  ordered : p'.Ordered
  removed : Removed key value p.storage.elements p'.storage.elements
  some : 0 < p.storage.segmentSizes i
  sizes : p'.storage.segmentSizes =
    Function.update p.storage.segmentSizes i (p.storage.segmentSizes i - 1)
  cardinality : p'.storage.cardinality = p.storage.cardinality - 1
  numberSegments : p'.storage.numberSegments = p.storage.numberSegments
  capacity : p'.storage.segmentCapacity = p.storage.segmentCapacity
  detector : p'.detector = p.detector

/-- A segment does not have more elements than the array. -/
theorem Ordered.size_le_cardinality (ordered : p.Ordered) (inside : i < p.storage.numberSegments) :
    p.storage.segmentSizes i ≤ p.storage.cardinality := by
  have total := congrArg List.length (@elements_split p i 1 inside)
  rw [← ordered.counted, block_one] at total
  simp only [List.length_append, Storage.length_segment] at total
  omega

/-- An array of at most one element has only one segment. -/
theorem Filled.numberSegments_eq_one (filled : p.Filled) (ordered : p.Ordered)
    (few : p.storage.cardinality ≤ 1) : p.storage.numberSegments = 1 := by
  by_contra several
  have positive := ordered.segments_pos
  have some := filled (by omega)
  have total := congrArg List.length (@elements_split p 0 2 (by omega))
  rw [← ordered.counted, block_add p 0 1 1, block_one, block_one] at total
  simp only [List.length_append, Storage.length_segment, Nat.zero_add, block_zero,
    List.length_nil] at total
  have left := some 0 (by omega)
  have right := some 1 (by omega)
  omega

/-- What `takeOut` writes, and the separator that it stores. -/
theorem takeOut_eq {removal : Removal} (filled : p.Filled) (ordered : p.Ordered)
    (inside : i < p.storage.numberSegments) (taken : p.takeOut i key = some (p', removal)) :
    ∃ l₁ l₂, p.storage.segment i = l₁ ++ (key, removal.value) :: l₂ ∧
      p'.storage = ((p.storage.setSegmentSize i (p.storage.segmentSizes i - 1)).write
        ((p.storage.setSegmentSize i (p.storage.segmentSizes i - 1)).start i)
        (l₁ ++ l₂)).withCardinality (p.storage.cardinality - 1) ∧
      p'.index.Sized p.storage.numberSegments ∧
      (∀ j < p.storage.numberSegments, j ≠ i →
        p'.index.getSeparatorKey j = p.index.getSeparatorKey j) ∧
      (l₁ ++ l₂ ≠ [] → p'.index.getSeparatorKey i =
        if l₁ = [] then p'.storage.getMinimum i else p.index.getSeparatorKey i) ∧
      p'.detector = p.detector := by
  have size := ordered.sizes_le i inside
  have whole : (i + 1) * p.storage.segmentCapacity =
      i * p.storage.segmentCapacity + p.storage.segmentCapacity := Nat.succ_mul i _
  have length := p.storage.length_segment (i := i)
  unfold takeOut at taken
  simp only at taken
  rcases offsetOf_spec p.storage i key with ⟨spec, -⟩
  by_cases found : offsetOf p.storage i key < p.storage.segmentSizes i
  swap
  · rw [if_neg found] at taken
    cases taken
  rw [if_pos found] at taken
  obtain ⟨l₁, v, l₂, split, place, element⟩ := spec found
  have first : offsetOf p.storage i key = 0 ↔ l₁ = [] := by
    rw [← place, List.length_eq_zero_iff]
  have erased : (p.storage.segment i).eraseIdx (offsetOf p.storage i key) = l₁ ++ l₂ := by
    rw [split, ← place, eraseIdx_focus]
  have count : p.storage.segmentSizes i - 1 = (l₁ ++ l₂).length := by
    rw [← length, split]
    simp
  have own := ordered.size_le_cardinality inside
  rw [element, erased, predUint32_of_pos (show p.storage.cardinality ≠ 0 by omega)] at taken
  by_cases even : i % 2 = 0
  · have start : (p.storage.setSegmentSize i (p.storage.segmentSizes i - 1)).start i =
        p.storage.start i + 1 := by
      unfold Storage.start
      rw [if_pos even, if_pos even, Storage.setSegmentSize_self]
      change (i + 1) * p.storage.segmentCapacity - _ = _
      omega
    rw [if_pos even] at taken
    rw [start]
    obtain ⟨rfl, rfl⟩ := Prod.mk.inj (Option.some.inj taken)
    refine ⟨l₁, l₂, split, rfl, ?_, ?_, ?_, rfl⟩
    · dsimp only
      split_ifs
      · exact ordered.sized.setSeparatorKey _ _
      · exact ordered.sized.setSeparatorKey _ _
      · exact ordered.sized
    · intro j below other
      split_ifs with zero last
      · -- the array is empty, so that this is its only segment
        have one := filled.numberSegments_eq_one ordered (by omega)
        omega
      · exact (ordered.sized.stored inside _).others j below other
      · rfl
    · intro nonempty
      have remains := List.length_pos_iff.mpr nonempty
      rw [if_neg (by omega : ¬p.storage.cardinality - 1 = 0)]
      by_cases zero : offsetOf p.storage i key = 0
      · rw [if_pos zero, if_pos (first.mp zero), (ordered.sized.stored inside _).separator]
        rw [← start]
        rfl
      · rw [if_neg zero, if_neg fun none => zero (first.mpr none)]
  · have start : (p.storage.setSegmentSize i (p.storage.segmentSizes i - 1)).start i =
        p.storage.start i := by
      unfold Storage.start
      rw [if_neg even, if_neg even]
      rfl
    rw [if_neg even] at taken
    rw [start]
    obtain ⟨rfl, rfl⟩ := Prod.mk.inj (Option.some.inj taken)
    refine ⟨l₁, l₂, split, rfl, ?_, ?_, ?_, rfl⟩
    · dsimp only
      split_ifs
      · exact ordered.sized.setSeparatorKey _ _
      · exact ordered.sized
    · intro j below other
      split_ifs
      · exact (ordered.sized.stored inside _).others j below other
      · rfl
    · intro nonempty
      have remains := List.length_pos_iff.mpr nonempty
      by_cases zero : offsetOf p.storage i key = 0
      · rw [if_pos ⟨zero, by omega⟩, if_pos (first.mp zero),
          (ordered.sized.stored inside _).separator]
        rw [← start]
        rfl
      · rw [if_neg fun both => zero both.1, if_neg fun none => zero (first.mpr none)]

/-- An element is taken out of its segment, which may become empty. -/
theorem Ordered.takeOut {removal : Removal} (ordered : p.Ordered) (filled : p.Filled)
    (inside : i < p.storage.numberSegments) (taken : p.takeOut i key = some (p', removal)) :
    TakenOut p i key p' removal.value := by
  obtain ⟨l₁, l₂, split, storage, sized, others, separator, detector⟩ :=
    takeOut_eq filled ordered inside taken
  have length := p.storage.length_segment (i := i)
  have count : (l₁ ++ l₂).length = p.storage.segmentSizes i - 1 := by
    rw [← length, split]
    simp
  have some : 0 < p.storage.segmentSizes i := by
    rw [← length, split]
    simp
  have fits := ordered.sizes_le i inside
  obtain ⟨elements, frame⟩ := rewritten storage count (by omega) sized others
  have whole := frame.elements inside ordered.sizes_le
  have before := @elements_split p i 1 inside
  rw [block_one, elements] at whole
  rw [block_one] at before
  have removed : Removed key removal.value p.storage.elements p'.storage.elements := by
    rw [whole, before]
    exact Removed.context ⟨l₁, l₂, split, rfl⟩ _ _
  have size : p'.storage.segmentSizes i = p.storage.segmentSizes i - 1 := by
    rw [← count, ← elements, Storage.length_segment]
  have cardinality : p'.storage.cardinality = p.storage.cardinality - 1 := by
    rw [storage]
    rfl
  refine ⟨?_, removed, some, by rw [storage]; rfl, cardinality, frame.numberSegments,
    frame.capacity, detector⟩
  apply ordered.change frame
  · intro j within
    obtain rfl : j = 0 := by omega
    rw [Nat.add_zero, size]
    omega
  · have lengths := removed.length_eq
    rw [← ordered.counted] at lengths
    omega
  · exact removed.sorted ordered.sorted
  · intro j within positive
    obtain rfl : j = 0 := by omega
    rw [Nat.add_zero] at positive ⊢
    have nonempty : l₁ ++ l₂ ≠ [] := by
      rw [← List.length_pos_iff]
      omega
    rw [separator nonempty]
    cases l₁ with
    | nil => rw [if_pos rfl]
    | cons y l₁ =>
        -- the first element is the one that was there
        have old := head?_segment p.storage some
        have new := head?_segment p'.storage positive
        rw [if_neg (List.cons_ne_nil _ _), ordered.separators i inside some]
        rw [split] at old
        rw [elements] at new
        exact Option.some.inj (old.symm.trans new)

/-- A key that is not taken out of the segment where the index leads is not in the array. -/
theorem Ordered.missed (ordered : p.Ordered) (filled : p.Filled)
    (stored : p.storage.cardinality ≠ 0)
    (missing : p.takeOut (p.index.find key) key = none) : ∀ x ∈ p.storage.elements, x.1 ≠ key := by
  intro x member same
  obtain ⟨y, here, key_eq⟩ := (ordered.place filled stored key).2.2.2 ⟨x, member, same⟩
  refine (offsetOf_spec p.storage (p.index.find key) key).2 (fun found => ?_) y here key_eq
  unfold PackedMemoryArray.takeOut at missing
  simp only at missing
  rw [if_pos found] at missing
  split at missing <;> cases missing

/-- A point lookup answers a value that is stored with the key, or -1 if there is none. -/
theorem Ordered.find_eq (ordered : p.Ordered) (filled : p.Filled) (key : Int) :
    (∃ x ∈ p.storage.elements, x.1 = key ∧ p.find key = x.2) ∨
      (∀ x ∈ p.storage.elements, x.1 ≠ key) ∧ p.find key = -1 := by
  unfold find
  by_cases stored : p.storage.cardinality = 0
  · right
    rw [if_pos stored]
    have none := ordered.counted
    rw [stored] at none
    rw [List.eq_nil_of_length_eq_zero none.symm]
    exact ⟨fun x member => absurd member List.not_mem_nil, rfl⟩
  · rw [if_neg stored]
    obtain ⟨inside, -, -, here⟩ := ordered.place filled stored key
    simp only
    by_cases found : offsetOf p.storage (p.index.find key) key <
        p.storage.segmentSizes (p.index.find key)
    · left
      obtain ⟨l₁, v, l₂, split, -, element⟩ :=
        (offsetOf_spec p.storage (p.index.find key) key).1 found
      rw [if_pos found, element]
      refine ⟨(key, v), ?_, rfl, rfl⟩
      rw [elements_eq_block, mem_block]
      refine ⟨_, inside, ?_⟩
      rw [Nat.zero_add, split]
      simp
    · right
      rw [if_neg found]
      refine ⟨fun x member same => ?_, rfl⟩
      obtain ⟨y, mem, key_eq⟩ := here ⟨x, member, same⟩
      exact (offsetOf_spec p.storage (p.index.find key) key).2 found y mem key_eq

/-- The first element of an empty array. -/
theorem Ordered.insertEmpty (ordered : p.Ordered) (one : p.storage.numberSegments = 1)
    (positive : 0 < p.storage.segmentCapacity) :
    (p.insertEmpty key value).Ordered ∧
      (p.insertEmpty key value).storage.elements = [(key, value)] := by
  have stored := ordered.sized.stored ordered.segments_pos key
  have start : (p.storage.setSegmentSize 0 1).start 0 = p.storage.segmentCapacity - 1 := by
    unfold Storage.start
    rw [if_pos (Nat.zero_mod 2), Storage.setSegmentSize_self, Nat.zero_add, Nat.one_mul]
    rfl
  have storage : (p.insertEmpty key value).storage = ((p.storage.setSegmentSize 0 1).write
      ((p.storage.setSegmentSize 0 1).start 0) [(key, value)]).withCardinality 1 := by
    rw [start]
    rfl
  obtain ⟨elements, frame⟩ := @rewritten p (p.insertEmpty key value) p.storage.numberSegments 0 1 1
    _ storage rfl positive stored.sized stored.others
  have whole := elements_eq_block (p.insertEmpty key value)
  rw [frame.numberSegments, one, block_one, elements] at whole
  refine ⟨?_, whole⟩
  apply ordered.change frame
  · intro j within
    obtain rfl : j = 0 := by omega
    rw [storage]
    exact positive
  · rw [whole]
    rfl
  · rw [whole]
    exact List.pairwise_singleton _ _
  · intro j within some
    obtain rfl : j = 0 := by omega
    have head := head?_segment (p.insertEmpty key value).storage some
    rw [elements] at head
    exact stored.separator.trans (Option.some.inj head)

end Edits

end PackedMemoryArray

end Rma
