import Rma.ApmaBaseline.Basic
import Rma.Base.Layout

/-!
# The cells of the array

What the operations do to the sizes of the segments and to the elements in them: an insertion
takes the free slot of a segment, and a spread or a resize copies the elements, in their order, to
as many cells of each segment as it is told to.
-/

namespace Rma

open Base

namespace ApmaBaseline

/-- The cells that are occupied. -/
def occupied (elements : List (Int × Int)) : List Bool := elements.map fun e => decide (0 ≤ e.1)

/-- The elements, in the order of their cells. -/
def contents (elements : List (Int × Int)) : List (Int × Int) :=
  elements.filter fun e => decide (0 ≤ e.1)

/-- The segments of the array are filled from the left, as many cells of each as its size. -/
structure Laid (t : ApmaBaseline) (sizes : List Nat) : Prop where
  cells : occupied t.elements = layout t.segmentCapacity sizes
  fits : ∀ n ∈ sizes, n ≤ t.segmentCapacity
  capacity : t.capacity = sizes.length * t.segmentCapacity

theorem contents_append (l l' : List (Int × Int)) :
    contents (l ++ l') = contents l ++ contents l' := List.filter_append l l'

theorem contents_cons {e : Int × Int} (valid : 0 ≤ e.1) (l : List (Int × Int)) :
    contents (e :: l) = e :: contents l := List.filter_cons_of_pos (decide_eq_true valid)

theorem contents_split (l : List (Int × Int)) (i : Nat) :
    contents (l.take i) ++ contents (l.drop i) = contents l := by
  rw [← contents_append, List.take_append_drop]

theorem length_contents (l : List (Int × Int)) : (contents l).length = (occupied l).count true := by
  induction l with
  | nil => rfl
  | cons e l ih =>
      rw [contents, List.filter_cons, occupied, List.map_cons, List.count_cons]
      change (contents l).length = (l.map _).count true at ih
      rcases Int.lt_or_le e.1 0 with empty | valid
      · simpa [not_le.mpr empty, contents] using ih
      · simpa [valid, contents] using ih

/-- Cells that are all empty hold nothing. -/
theorem contents_of_empty {l : List (Int × Int)} (empty : true ∉ occupied l) : contents l = [] := by
  rw [← List.length_eq_zero_iff, length_contents, List.count_eq_zero]
  exact empty

/-- Elements that are all valid. -/
theorem contents_of_valid {l : List (Int × Int)} (valid : ∀ e ∈ l, 0 ≤ e.1) : contents l = l :=
  List.filter_eq_self.mpr fun e member => decide_eq_true (valid e member)

theorem valid_of_mem {e : Int × Int} {l : List (Int × Int)} (member : e ∈ contents l) : 0 ≤ e.1 :=
  of_decide_eq_true (List.mem_filter.mp member).2

theorem occupied_of_valid {l : List (Int × Int)} (valid : ∀ e ∈ l, 0 ≤ e.1) :
    occupied l = List.replicate l.length true := by
  refine List.eq_replicate_iff.mpr ⟨List.length_map _, fun b member => ?_⟩
  obtain ⟨e, inside, rfl⟩ := List.mem_map.mp member
  exact decide_eq_true (valid e inside)

variable {t : ApmaBaseline} {sizes : List Nat} {i k n pos : Nat}

/-! ## Reading -/

theorem Laid.length (laid : t.Laid sizes) : (occupied t.elements).length = t.capacity := by
  rw [laid.cells, length_layout laid.fits, laid.capacity]

/-- A segment lies in the array. -/
theorem Laid.segment_le (laid : t.Laid sizes) (read : sizes[i]? = some n) :
    i * t.segmentCapacity + t.segmentCapacity ≤ t.capacity := by
  obtain ⟨inside, -⟩ := List.getElem?_eq_some_iff.mp read
  rw [laid.capacity, ← Nat.succ_mul]
  exact Nat.mul_le_mul_right _ inside

theorem isCellEmpty_eq (t : ApmaBaseline) (pos : Nat) :
    t.storageIsCellEmpty pos = ((occupied t.elements)[pos]?).map not := by
  rw [storageIsCellEmpty, occupied, List.getElem?_map, Option.map_map]
  congr 1
  funext e
  rw [Function.comp_apply, ← decide_not]
  exact decide_eq_decide.mpr (by omega)

theorem Laid.isCellEmpty (laid : t.Laid sizes) (read : sizes[i]? = some n)
    (inside : k < t.segmentCapacity) :
    t.storageIsCellEmpty (i * t.segmentCapacity + k) = some (decide (n ≤ k)) := by
  rw [isCellEmpty_eq, laid.cells, layout_getElem? laid.fits read inside, Option.map_some,
    ← decide_not]
  congr 1
  exact decide_eq_decide.mpr (by omega)

theorem Laid.isSegmentFull (laid : t.Laid sizes) (read : sizes[i]? = some n)
    (positive : 0 < t.segmentCapacity) :
    t.storageIsSegmentFull i = some (decide (n = t.segmentCapacity)) := by
  have last : (1 + i) * t.segmentCapacity - 1 = i * t.segmentCapacity + (t.segmentCapacity - 1) := by
    rw [Nat.add_mul, Nat.one_mul]
    omega
  have fits := laid.fits n (List.mem_of_getElem? read)
  rw [storageIsSegmentFull, last, laid.isCellEmpty read (by omega), Option.map_some,
    ← decide_not]
  congr 1
  exact decide_eq_decide.mpr (by omega)

/-- The cardinality of a segment that is not empty is read from its cells. -/
theorem Laid.getSegmentCardinality (laid : t.Laid sizes) (several : 2 ≤ t.segmentCapacity)
    (filled : ∀ n ∈ sizes, 1 ≤ n) (i : Nat) :
    t.storageGetSegmentCardinality i = sizes[i]? := by
  rw [storageGetSegmentCardinality]
  cases read : sizes[i]? with
  | none =>
      have beyond := List.getElem?_eq_none_iff.mp read
      have outside : t.storageIsCellEmpty
          (i * t.segmentCapacity + (t.segmentCapacity - 2 + 1)) = none := by
        have := Nat.mul_le_mul_right t.segmentCapacity beyond
        rw [isCellEmpty_eq, List.getElem?_eq_none (by rw [laid.length, laid.capacity]; omega)]
        rfl
      rw [show t.segmentCapacity - 1 = t.segmentCapacity - 2 + 1 by omega]
      simp only [scanDownO, outside]
      rfl
  | some n =>
      have fits := laid.fits n (List.mem_of_getElem? read)
      have least := filled n (List.mem_of_getElem? read)
      have scan := scanDownO_eq
        (fun j => t.storageIsCellEmpty (i * t.segmentCapacity + (j + 1))) (fun j => decide (n ≤ j + 1))
        (t.segmentCapacity - 1) fun j below => laid.isCellEmpty read (by omega)
      obtain ⟨upper, passed, stopped⟩ :=
        scanDown_spec (fun j => decide (n ≤ j + 1)) (t.segmentCapacity - 1)
      have last : scanDown (fun j => decide (n ≤ j + 1)) (t.segmentCapacity - 1) = n - 1 := by
        generalize scanDown (fun j => decide (n ≤ j + 1)) (t.segmentCapacity - 1) = r at *
        rcases Nat.lt_trichotomy r (n - 1) with less | same | more
        · have := of_decide_eq_true (passed r le_rfl (by omega))
          omega
        · exact same
        · have := of_decide_eq_false (stopped (by omega))
          omega
      rw [scan, last]
      simp only [Option.bind_eq_bind, Option.bind_some]
      congr 1
      omega

/-! ## Copying -/

/-- The next element after a position, or the end of the array. -/
theorem Laid.nextElement (laid : t.Laid sizes) (inside : pos < t.capacity) :
    ∃ next, t.nextElement pos = some next ∧ pos < next ∧ next ≤ t.capacity ∧
      contents (t.elements.drop next) = contents (t.elements.drop (pos + 1)) ∧
      (next < t.capacity → (occupied t.elements)[next]? = some true) := by
  have length := laid.length
  have scan := scanUpM_eq t.storageIsCellEmpty (fun j => !((occupied t.elements).getD j false))
    (pos + 1) (t.capacity - (pos + 1)) fun j _ below => by
      rw [isCellEmpty_eq, List.getD_eq_getElem?_getD, List.getElem?_eq_getElem (by omega)]
      rfl
  obtain ⟨lower, upper, passed, stopped⟩ := scanUp_spec
    (fun j => !((occupied t.elements).getD j false)) (pos + 1) (t.capacity - (pos + 1))
  rw [ApmaBaseline.nextElement, scan]
  generalize scanUp (fun j => !((occupied t.elements).getD j false)) (pos + 1)
    (t.capacity - (pos + 1)) = next at *
  refine ⟨next, rfl, by omega, by omega, ?_, fun more => ?_⟩
  · -- the cells between are empty
    obtain ⟨gap, rfl⟩ := Nat.exists_eq_add_of_le lower
    have none : contents ((t.elements.drop (pos + 1)).take gap) = [] := by
      refine contents_of_empty fun member => ?_
      rw [occupied, List.map_take, List.map_drop] at member
      obtain ⟨j, within, same⟩ := List.mem_iff_getElem.mp member
      rw [List.length_take, List.length_drop] at within
      change _ < min gap ((occupied t.elements).length - (pos + 1)) at within
      have empty := passed (pos + 1 + j) (by omega) (by omega)
      rw [List.getElem_take, List.getElem_drop] at same
      rw [List.getD_eq_getElem _ _ (by omega)] at empty
      change (occupied t.elements)[pos + 1 + j] = true at same
      rw [same] at empty
      exact absurd empty (by decide)
    rw [← contents_split (t.elements.drop (pos + 1)) gap, none, List.nil_append, List.drop_drop]
  · have here := stopped (by omega)
    rw [List.getD_eq_getElem _ _ (by omega)] at here
    rw [List.getElem?_eq_getElem (by omega)]
    simpa using here

/-- The elements from a position on, which is that of an element or the end of the array. -/
structure At (t : ApmaBaseline) (pos : Nat) (rest : List (Int × Int)) : Prop where
  inside : pos ≤ t.capacity
  here : pos < t.capacity → (occupied t.elements)[pos]? = some true
  rest : contents (t.elements.drop pos) = rest

theorem At.lt {rest : List (Int × Int)} (at_ : t.At pos rest) (laid : t.Laid sizes)
    (more : rest ≠ []) : pos < t.capacity := by
  rcases Nat.lt_or_ge pos t.capacity with less | beyond
  · exact less
  · have length := laid.length
    rw [occupied, List.length_map] at length
    have none := at_.rest
    rw [List.drop_eq_nil_of_le (by omega)] at none
    exact absurd none.symm more

/-- The element at a position, and the next one. -/
theorem At.next {e : Int × Int} {rest : List (Int × Int)} (at_ : t.At pos (e :: rest))
    (laid : t.Laid sizes) :
    t.elements[pos]? = some e ∧ ∃ next, t.nextElement pos = some next ∧ t.At next rest := by
  have inside := at_.lt laid (List.cons_ne_nil e rest)
  have here := at_.here inside
  obtain ⟨next, moved, after, within, same, reached⟩ := laid.nextElement inside
  rw [occupied, List.getElem?_map, Option.map_eq_some_iff] at here
  obtain ⟨e', read, valid⟩ := here
  obtain ⟨bound, value⟩ := List.getElem?_eq_some_iff.mp read
  have whole := at_.rest
  rw [List.drop_eq_getElem_cons bound, value, contents_cons (of_decide_eq_true valid),
    List.cons.injEq] at whole
  exact ⟨whole.1 ▸ read, next, moved, within, reached, same.trans whole.2⟩

section Copy

variable {move : Nat → Nat → Option Nat} {I : Nat → Nat → Prop} {all : List (Int × Int)}
  {copied : Nat}

/-- What the position that is copied from keeps: while there are elements to copy, it is that of
the next one, and can be moved. -/
def Keeps (t : ApmaBaseline) (move : Nat → Nat → Option Nat) (all : List (Int × Int))
    (I : Nat → Nat → Prop) : Prop :=
  ∀ copied pos e, all[copied]? = some e → I copied pos → t.elements[pos]? = some e ∧
    ∃ next, move (copied + 1) pos = some next ∧ I (copied + 1) next

theorem Keeps.copyElements (keeps : t.Keeps move all I) (n : Nat)
    (enough : copied + n ≤ all.length) (start : I copied pos) :
    ∃ next, t.copyElements move n copied pos = some ((all.drop copied).take n, next) ∧
      I (copied + n) next := by
  induction n generalizing copied pos with
  | zero => exact ⟨pos, rfl, start⟩
  | succ n ih =>
      have value : all[copied]? = some all[copied] := List.getElem?_eq_getElem (by omega)
      obtain ⟨read, next, moved, kept⟩ := keeps copied pos _ value start
      obtain ⟨last, done, kept⟩ := ih (by omega) kept
      refine ⟨last, ?_, ?_⟩
      · rw [List.drop_eq_getElem_cons (show copied < all.length by omega), List.take_succ_cons]
        simp only [ApmaBaseline.copyElements, read, moved, done, Option.bind_eq_bind,
          Option.bind_some]
      · rwa [Nat.add_right_comm] at kept

/-- The segments are filled with as many elements as they are given. -/
theorem Keeps.copySegments (keeps : t.Keeps move all I) (valid : ∀ e ∈ all, 0 ≤ e.1)
    {capacity : Nat} {free : Int × Int} (empty : free.1 < 0) (copied pos : Nat)
    (fits : ∀ n ∈ sizes, n ≤ capacity) (enough : copied + sizes.sum ≤ all.length)
    (start : I copied pos) :
    ∃ elements, t.copySegments move capacity free sizes copied pos = some elements ∧
      occupied elements = layout capacity sizes ∧
      contents elements = (all.drop copied).take sizes.sum := by
  induction sizes generalizing copied pos with
  | nil => exact ⟨[], rfl, rfl, rfl⟩
  | cons size sizes ih =>
      rw [List.sum_cons] at enough
      obtain ⟨next, copy, kept⟩ := keeps.copyElements size (by omega) start
      obtain ⟨rest, done, values, order⟩ := ih (copied + size) next
        (fun n member => fits n (List.mem_cons_of_mem size member)) (by omega) kept
      have frees : occupied (List.replicate (capacity - size) free) =
          List.replicate (capacity - size) false := by
        rw [occupied, List.map_replicate, decide_eq_false (by omega)]
      have copies : ∀ e ∈ (all.drop copied).take size, 0 ≤ e.1 := fun e member =>
        valid e (List.mem_of_mem_drop (List.mem_of_mem_take member))
      have full : occupied ((all.drop copied).take size) = List.replicate size true := by
        rw [occupied_of_valid copies, List.length_take, List.length_drop,
          Nat.min_eq_left (by omega)]
      refine ⟨((all.drop copied).take size ++ List.replicate (capacity - size) free) ++ rest, ?_,
        ?_, ?_⟩
      · rw [ApmaBaseline.copySegments, if_pos (fits size List.mem_cons_self)]
        simp only [copy, done, Option.bind_eq_bind, Option.bind_some]
      · rw [layout_cons, ← full, ← frees, ← values, occupied, List.map_append, List.map_append]
        rfl
      · have none : contents (List.replicate (capacity - size) free) = [] :=
          contents_of_empty (by rw [frees]; simp)
        rw [contents_append, contents_append, contents_of_valid copies, none, List.append_nil,
          order, List.sum_cons, ← List.drop_drop, ← List.take_add]

end Copy

/-- The first segment from which elements are copied. -/
theorem Laid.at_ (laid : t.Laid sizes) (filled : ∀ n ∈ sizes, 1 ≤ n)
    (several : 0 < t.segmentCapacity) (inside : i ≤ sizes.length) :
    t.At (i * t.segmentCapacity) (contents (t.elements.drop (i * t.segmentCapacity))) := by
  refine ⟨?_, fun within => ?_, rfl⟩
  · rw [laid.capacity]
    exact Nat.mul_le_mul_right _ inside
  · have segment : i < sizes.length := by
      rw [laid.capacity] at within
      exact Nat.lt_of_mul_lt_mul_right within
    have read : sizes[i]? = some sizes[i] := List.getElem?_eq_getElem segment
    have least := filled _ (List.getElem_mem segment)
    have first := layout_getElem? laid.fits read several
    rw [laid.cells]
    rwa [Nat.add_zero, decide_eq_true (by omega)] at first

/-- How many elements there are from a segment on. -/
theorem Laid.length_drop (laid : t.Laid sizes) (inside : i ≤ sizes.length) :
    (contents (t.elements.drop (i * t.segmentCapacity))).length = (sizes.drop i).sum := by
  rw [length_contents, occupied, List.map_drop]
  change ((occupied t.elements).drop _).count true = _
  rw [laid.cells, layout_drop laid.fits inside, count_layout]

/-- A spread gives the segments of the window as many elements as the partitions say, in the same
order. -/
theorem Laid.spread (laid : t.Laid sizes) (filled : ∀ n ∈ sizes, 1 ≤ n)
    (several : 0 < t.segmentCapacity) {partitions : List Nat} (inside : i + n ≤ sizes.length)
    (length : partitions.length = n) (fits : ∀ q ∈ partitions, q ≤ t.segmentCapacity)
    (sum : partitions.sum = ((sizes.drop i).take n).sum) :
    ∃ u, t.storageSpread partitions i n = some u ∧
      u.Laid (sizes.take i ++ partitions ++ sizes.drop (i + n)) ∧
      contents u.elements = contents t.elements ∧ u.capacity = t.capacity ∧
      u.segmentCapacity = t.segmentCapacity ∧ u.height = t.height ∧
      u.cardinality = t.cardinality := by
  have start := laid.at_ filled several (Nat.le_of_add_right_le inside)
  have count := laid.length_drop (Nat.le_of_add_right_le inside)
  have count' := laid.length_drop inside
  have split := contents_split (t.elements.drop (i * t.segmentCapacity)) (n * t.segmentCapacity)
  rw [List.drop_drop, ← Nat.add_mul] at split
  have sums := congrArg List.sum (List.take_append_drop n (sizes.drop i))
  rw [List.sum_append, List.drop_drop] at sums
  have lengths := congrArg List.length split
  rw [List.length_append] at lengths
  have keeps : t.Keeps (fun _ => t.nextElement)
      (contents (t.elements.drop (i * t.segmentCapacity))) fun copied pos =>
        t.At pos ((contents (t.elements.drop (i * t.segmentCapacity))).drop copied) := by
    intro copied pos e value here
    obtain ⟨bound, rfl⟩ := List.getElem?_eq_some_iff.mp value
    rw [List.drop_eq_getElem_cons bound] at here
    exact here.next laid
  obtain ⟨workspace, copy, values, order⟩ := keeps.copySegments (fun e => valid_of_mem)
    (show ((-1, 0) : Int × Int).1 < 0 by decide) 0 (i * t.segmentCapacity) fits (by omega)
    (by simpa using start)
  have done : t.storageSpread partitions i n = some { t with
      elements := t.elements.take (i * t.segmentCapacity) ++ workspace ++
        t.elements.drop (i * t.segmentCapacity + n * t.segmentCapacity) } := by
    rw [storageSpread]
    simp only [if_pos length, copy, Option.bind_eq_bind, Option.bind_some]
  refine ⟨_, done, ⟨?_, ?_, ?_⟩, ?_, rfl, rfl, rfl, rfl⟩
  · have before := layout_take laid.fits (i := i) (by omega)
    have after := layout_drop laid.fits inside
    rw [← laid.cells, occupied] at before after
    simp only [layout_append, ← before, ← after, ← values, occupied, List.map_append,
      List.map_take, List.map_drop, Nat.add_mul]
  · intro q member
    rw [List.append_assoc, List.mem_append, List.mem_append] at member
    rcases member with front | part | back
    · exact laid.fits q (List.mem_of_mem_take front)
    · exact fits q part
    · exact laid.fits q (List.mem_of_mem_drop back)
  · simp only [List.length_append, List.length_take, List.length_drop, length]
    rw [laid.capacity]
    congr 1
    omega
  · -- as many elements are copied as the window has
    rw [List.drop_zero, ← split, List.take_left' (by omega)] at order
    rw [contents_append, contents_append, order, ← Nat.add_mul, List.append_assoc, split,
      contents_split]

/-- A resize copies all the elements to segments of another capacity. -/
theorem Laid.resize (laid : t.Laid sizes) (filled : ∀ n ∈ sizes, 1 ≤ n)
    (several : 0 < t.segmentCapacity) (cardinality : t.cardinality = sizes.sum)
    (small : t.capacity * 2 ≤ maxElements) {segmentCapacity numSegments : Nat}
    (capacity : hyperceil (Nat.log 2 (t.capacity * 2)) = segmentCapacity)
    (segments : t.capacity * 2 = numSegments * segmentCapacity) (positive : 0 < segmentCapacity)
    (nonempty : 0 < numSegments) (room : t.cardinality ≤ numSegments * segmentCapacity) :
    ∃ u, t.storageResize = some u ∧
      u.Laid ((List.range numSegments).map (evenSize t.cardinality numSegments)) ∧
      contents u.elements = contents t.elements ∧
      u.capacity = t.capacity * 2 ∧ u.segmentCapacity = segmentCapacity ∧
      u.height = Nat.log 2 numSegments + 1 ∧ u.cardinality = t.cardinality := by
  have start := laid.at_ (i := 0) filled several (Nat.zero_le _)
  have count := laid.length_drop (i := 0) (Nat.zero_le _)
  rw [Nat.zero_mul, List.drop_zero] at start count
  rw [List.drop_zero, ← cardinality] at count
  have keeps : t.Keeps t.nextInserted (contents t.elements) fun copied pos =>
      copied < t.cardinality → t.At pos ((contents t.elements).drop copied) := by
    intro copied pos e value here
    obtain ⟨bound, rfl⟩ := List.getElem?_eq_some_iff.mp value
    have here := here (by omega)
    rw [List.drop_eq_getElem_cons bound] at here
    obtain ⟨read, next, moved, there⟩ := here.next laid
    refine ⟨read, ?_⟩
    rcases Nat.lt_or_ge (copied + 1) t.cardinality with more | last
    · have inside := there.lt laid (List.ne_nil_of_length_pos (by rw [List.length_drop]; omega))
      exact ⟨next, by simp [nextInserted, more, moved, inside], fun _ => there⟩
    · exact ⟨pos, by simp [nextInserted, not_lt.mpr last], fun more => absurd more (by omega)⟩
  have fits : ∀ q ∈ (List.range numSegments).map (evenSize t.cardinality numSegments),
      q ≤ segmentCapacity := by
    intro q member
    obtain ⟨j, -, rfl⟩ := List.mem_map.mp member
    exact evenSize_le room nonempty
  obtain ⟨elements, copy, values, order⟩ := keeps.copySegments (fun e => valid_of_mem)
    (show erasedCell.1 < 0 by decide) 0 0 fits (by rw [sum_evenSize nonempty]; omega)
    (fun _ => by simpa using start)
  have division : t.capacity * 2 / segmentCapacity = numSegments := by
    rw [segments, Nat.mul_div_cancel _ positive]
  have done : t.storageResize = some
      { elements := elements
        capacity := t.capacity * 2
        segmentCapacity := segmentCapacity
        height := Nat.log 2 numSegments + 1
        cardinality := t.cardinality } := by
    rw [storageResize]
    simp only [capacity, division, if_neg (not_lt.mpr small), copy, Option.bind_eq_bind,
      Option.bind_some]
  refine ⟨_, done, ⟨values, fits, ?_⟩, ?_, rfl, rfl, rfl, rfl⟩
  · simp only [List.length_map, List.length_range]
    exact segments
  · rw [order, sum_evenSize nonempty, List.drop_zero, ← count, List.take_length]

/-! ## Insertion -/

/-- The position of a key is that of the first element from the pointer on that is not less, or the
end of the array. -/
theorem Laid.findPosition (laid : t.Laid sizes) {key : Int} (valid : 0 ≤ key) (fuel : Nat)
    (inside : pos ≤ t.capacity) (enough : t.capacity - pos < fuel) :
    ∃ found, t.findPosition key fuel pos = some found ∧ found ≤ t.capacity ∧
      (found < t.capacity → (occupied t.elements)[found]? = some true) ∧
      contents (t.elements.drop found) =
        (contents (t.elements.drop pos)).dropWhile fun e => decide (e.1 < key) := by
  have length := laid.length
  rw [occupied, List.length_map] at length
  induction fuel generalizing pos with
  | zero => omega
  | succ fuel ih =>
      rw [ApmaBaseline.findPosition]
      by_cases within : pos < t.capacity
      · have bound : pos < t.elements.length := by omega
        have read : t.elements[pos]? = some t.elements[pos] := List.getElem?_eq_getElem bound
        have rest := List.drop_eq_getElem_cons bound
        rw [if_pos within, read]
        simp only [Option.bind_eq_bind, Option.bind_some]
        by_cases greater : key > t.elements[pos].1
        · obtain ⟨next, moved, after, bound', same, -⟩ := laid.nextElement within
          obtain ⟨found, done, upper, here, order⟩ := ih bound' (by omega)
          rw [if_pos greater, moved, Option.bind_some]
          refine ⟨found, done, upper, here, ?_⟩
          -- the element is less than the key, or the cell is empty
          rw [order, same, rest]
          rcases Int.lt_or_le t.elements[pos].1 0 with empty | valid
          · rw [contents, contents, List.filter_cons_of_neg (by simpa using empty)]
          · rw [contents_cons valid, List.dropWhile_cons_of_pos (by simpa using greater)]
        · rw [if_neg greater]
          refine ⟨pos, rfl, inside, fun _ => ?_, ?_⟩
          · rw [occupied, List.getElem?_map, read, Option.map_some, decide_eq_true (by omega)]
          · rw [rest, contents_cons (by omega),
              List.dropWhile_cons_of_neg (by simpa using Int.not_lt.mp greater)]
      · rw [if_neg within]
        refine ⟨pos, rfl, inside, fun less => absurd less within, ?_⟩
        rw [List.drop_eq_nil_of_le (by omega)]
        rfl

/-- The cells of a segment after its elements are empty. -/
theorem Laid.free (laid : t.Laid sizes) (read : sizes[i]? = some n) (lower : n ≤ k)
    (inside : k < t.segmentCapacity) :
    contents (t.elements.drop (i * t.segmentCapacity + k)) =
      contents (t.elements.drop (i * t.segmentCapacity + k + 1)) := by
  have bound := laid.segment_le read
  have length := laid.length
  rw [occupied, List.length_map] at length
  have cell := layout_getElem? laid.fits read inside
  rw [← laid.cells, occupied, List.getElem?_map, decide_eq_false (not_lt.mpr lower),
    Option.map_eq_some_iff] at cell
  obtain ⟨e, here, empty⟩ := cell
  obtain ⟨within, rfl⟩ := List.getElem?_eq_some_iff.mp here
  rw [List.drop_eq_getElem_cons within, contents, contents,
    List.filter_cons_of_neg (by simpa using empty)]

/-- What an insertion finds: a position, and the free slot after the elements of its segment. -/
structure Slot (t : ApmaBaseline) (sizes : List Nat) (key : Int) (pointer i n k : Nat) : Prop where
  read : sizes[i]? = some n
  order : k ≤ n
  found : t.findSlot key pointer = some (i * t.segmentCapacity + k, i * t.segmentCapacity + n)
  after : contents (t.elements.drop (i * t.segmentCapacity + k)) =
    (contents (t.elements.drop pointer)).dropWhile fun e => decide (e.1 < key)

theorem Laid.findSlot (laid : t.Laid sizes) (filled : ∀ n ∈ sizes, 1 ≤ n)
    (free : ∀ n ∈ sizes, n < t.segmentCapacity) (several : 2 ≤ t.segmentCapacity)
    (nonempty : sizes ≠ []) {key : Int} (valid : 0 ≤ key) {pointer : Nat}
    (inside : pointer < t.capacity) : ∃ i n k, t.Slot sizes key pointer i n k := by
  obtain ⟨found, search, bound, here, order⟩ :=
    laid.findPosition valid (t.capacity + 1) inside.le (by omega)
  have positive : 0 < t.segmentCapacity := by omega
  have length := laid.length
  rw [occupied, List.length_map] at length
  by_cases last : found = t.capacity
  · have some_ := List.length_pos_of_ne_nil nonempty
    have read : sizes[sizes.length - 1]? = some sizes[sizes.length - 1] :=
      List.getElem?_eq_getElem (by omega)
    have segments : t.storageGetNumSegments = sizes.length := by
      rw [storageGetNumSegments, laid.capacity, Nat.mul_div_cancel _ positive]
    have room := free _ (List.mem_of_getElem? read)
    have cardinality := laid.getSegmentCardinality several filled (sizes.length - 1)
    have empty := laid.isCellEmpty read room
    rw [decide_eq_true le_rfl] at empty
    rw [read] at cardinality
    have done : t.findSlot key pointer = some
        ((sizes.length - 1) * t.segmentCapacity + sizes[sizes.length - 1],
          (sizes.length - 1) * t.segmentCapacity + sizes[sizes.length - 1]) := by
      rw [ApmaBaseline.findSlot, search]
      simp only [Option.bind_eq_bind, Option.bind_some]
      rw [if_pos last, segments, cardinality, Option.bind_some, empty, Option.bind_some]
      rfl
    refine ⟨_, _, _, read, le_rfl, done, ?_⟩
    -- the cells after the last segment's elements are empty
    have none : t.elements.drop t.capacity = [] := List.drop_eq_nil_of_le (by omega)
    rw [← order, last, none]
    refine contents_of_empty fun member => ?_
    rw [occupied, List.map_drop] at member
    change true ∈ (occupied t.elements).drop _ at member
    obtain ⟨j, cell⟩ := List.mem_iff_getElem?.mp member
    have limit := (List.getElem?_eq_some_iff.mp cell).1
    have whole := laid.capacity
    have cells := Nat.succ_mul (sizes.length - 1) t.segmentCapacity
    rw [Nat.succ_eq_add_one, Nat.sub_add_cancel some_, ← whole] at cells
    rw [List.length_drop, laid.length] at limit
    rw [List.getElem?_drop, laid.cells, Nat.add_assoc,
      layout_getElem? laid.fits read (by omega)] at cell
    simp at cell
  · have within : found < t.capacity := by omega
    have here := here within
    rw [laid.cells] at here
    have segment : found / t.segmentCapacity < sizes.length := by
      rw [laid.capacity] at within
      exact Nat.div_lt_of_lt_mul (by rwa [Nat.mul_comm] at within)
    have read : sizes[found / t.segmentCapacity]? = some sizes[found / t.segmentCapacity] :=
      List.getElem?_eq_getElem segment
    have split := Nat.div_add_mod' found t.segmentCapacity
    have offset := Nat.mod_lt found positive
    have room := free _ (List.mem_of_getElem? read)
    generalize sizes[found / t.segmentCapacity] = n at *
    generalize found / t.segmentCapacity = i at *
    generalize found % t.segmentCapacity = k at *
    subst split
    rw [layout_getElem? laid.fits read offset, Option.some.injEq, decide_eq_true_eq] at here
    have cell : ∀ j, i * t.segmentCapacity ≤ j → j < i * t.segmentCapacity + t.segmentCapacity →
        (t.storageIsCellEmpty j).map not = some (decide (j < i * t.segmentCapacity + n)) := by
      intro j lower upper
      obtain ⟨m, rfl⟩ := Nat.exists_eq_add_of_le lower
      rw [laid.isCellEmpty read (by omega), Option.map_some, ← decide_not]
      congr 1
      exact decide_eq_decide.mpr (by omega)
    have slot := scanUpM_stop (fun j => (t.storageIsCellEmpty j).map not)
      (i * t.segmentCapacity + k) (t.capacity - (i * t.segmentCapacity + k)) (n - k)
      (by have := laid.segment_le read; omega)
      (fun j below => by rw [cell _ (by omega) (by omega), decide_eq_true (by omega)])
      (by rw [cell _ (by omega) (by omega), decide_eq_false (by omega)])
    have stop : i * t.segmentCapacity + k + (n - k) = i * t.segmentCapacity + n := by omega
    have same : (i * t.segmentCapacity + k) / t.segmentCapacity =
        (i * t.segmentCapacity + n) / t.segmentCapacity := by
      rw [Nat.mul_comm, Nat.mul_add_div positive, Nat.mul_add_div positive, Nat.div_eq_of_lt room,
        Nat.div_eq_of_lt offset]
    refine ⟨i, n, k, read, here.le, ?_, order⟩
    rw [ApmaBaseline.findSlot, search]
    simp only [Option.bind_eq_bind, Option.bind_some]
    rw [if_neg last, slot, stop, Option.bind_some,
      if_pos ⟨by have := laid.segment_le read; omega, same⟩]

/-- The elements between the position and the free slot are moved by one. -/
theorem shiftRight_eq {start : Nat} (e : Int × Int) (n : Nat) (elements : List (Int × Int))
    (inside : start + n < elements.length) :
    ∃ shifted, shiftRight start n elements = some shifted ∧
      shifted.set start e = elements.take start ++ e :: (elements.drop start).take n ++
        elements.drop (start + n + 1) := by
  induction n generalizing elements with
  | zero =>
      refine ⟨elements, rfl, ?_⟩
      rw [List.set_eq_take_append_cons_drop, if_pos (show start < elements.length from inside)]
      simp
  | succ n ih =>
      have bound : start + n < elements.length := by omega
      have read : elements[start + n]? = some elements[start + n] := List.getElem?_eq_getElem bound
      obtain ⟨shifted, done, values⟩ := ih (elements.set (start + n + 1) elements[start + n])
        (by rw [List.length_set]; omega)
      refine ⟨shifted, ?_, ?_⟩
      · rw [shiftRight, read]
        exact done
      · have last : (elements.drop start).take (n + 1) =
            (elements.drop start).take n ++ [elements[start + n]] := by
          rw [List.take_add_one, List.getElem?_drop, read]
          rfl
        have back : (elements.set (start + n + 1) elements[start + n]).drop (start + n + 1) =
            elements[start + n] :: elements.drop (start + (n + 1) + 1) := by
          rw [List.drop_set, if_neg (by omega), Nat.sub_self,
            List.drop_eq_getElem_cons (show start + n + 1 < elements.length by omega)]
          rfl
        rw [values, last, back, List.take_set_of_le (by omega), List.drop_set, if_neg (by omega),
          List.take_set_of_le (by omega)]
        simp

/-- An insertion takes the free slot of a segment, and puts the element at its position. -/
theorem Slot.storeElement {key : Int} {pointer : Nat} (slot : t.Slot sizes key pointer i n k)
    (laid : t.Laid sizes) (valid : 0 ≤ key) (value : Int) (room : n < t.segmentCapacity) :
    ∃ u, t.storeElement key value pointer = some (u, i * t.segmentCapacity + k) ∧
      u.Laid (sizes.set i (n + 1)) ∧
      contents u.elements = contents (t.elements.take (i * t.segmentCapacity + k)) ++
        (key, value) :: contents (t.elements.drop (i * t.segmentCapacity + k)) ∧
      u.capacity = t.capacity ∧ u.segmentCapacity = t.segmentCapacity ∧ u.height = t.height ∧
      u.cardinality = t.cardinality + 1 := by
  have bound := laid.segment_le slot.read
  have order := slot.order
  have length := laid.length
  have elements : t.elements.length = t.capacity := by rwa [occupied, List.length_map] at length
  obtain ⟨shifted, done, values⟩ := shiftRight_eq (key, value) (n - k) t.elements
    (show i * t.segmentCapacity + k + (n - k) < t.elements.length by omega)
  rw [show i * t.segmentCapacity + k + (n - k) = i * t.segmentCapacity + n by omega] at values
  have stored : t.storeElement key value pointer = some
      ({ t with
          elements := shifted.set (i * t.segmentCapacity + k) (key, value)
          cardinality := t.cardinality + 1 }, i * t.segmentCapacity + k) := by
    rw [ApmaBaseline.storeElement, slot.found]
    simp only [Option.bind_eq_bind, Option.bind_some]
    rw [show i * t.segmentCapacity + n - (i * t.segmentCapacity + k) = n - k by omega, done]
    rfl
  -- the elements that are moved
  have run : occupied ((t.elements.drop (i * t.segmentCapacity + k)).take (n - k)) =
      List.replicate (n - k) true := by
    refine List.ext_getElem? fun j => ?_
    rw [occupied, List.map_take, List.map_drop]
    change (((occupied t.elements).drop _).take _)[j]? = _
    rw [List.getElem?_take, List.getElem?_replicate, List.getElem?_drop, laid.cells]
    split
    · rw [Nat.add_assoc, layout_getElem? laid.fits slot.read (by omega), decide_eq_true (by omega)]
    · rfl
  refine ⟨_, stored, ⟨?_, ?_, ?_⟩, ?_, rfl, rfl, rfl, rfl⟩
  · have front : (occupied t.elements).take (i * t.segmentCapacity + n) =
        occupied (t.elements.take (i * t.segmentCapacity + k)) ++ List.replicate (n - k) true := by
      rw [← run, occupied, occupied, occupied, ← List.map_append, ← List.map_take, ← List.take_add]
      congr 2
      omega
    have marked : (occupied t.elements).set (i * t.segmentCapacity + n) true =
        (occupied t.elements).take (i * t.segmentCapacity + n) ++
          true :: (occupied t.elements).drop (i * t.segmentCapacity + n + 1) := by
      rw [List.set_eq_take_append_cons_drop, if_pos (by omega)]
    have back : occupied (t.elements.drop (i * t.segmentCapacity + n + 1)) =
        (occupied t.elements).drop (i * t.segmentCapacity + n + 1) := List.map_drop
    have moved : occupied (shifted.set (i * t.segmentCapacity + k) (key, value)) =
        occupied (t.elements.take (i * t.segmentCapacity + k)) ++
          true :: List.replicate (n - k) true ++
            (occupied t.elements).drop (i * t.segmentCapacity + n + 1) := by
      rw [values, ← run, ← back, ← decide_eq_true valid, occupied, List.map_append,
        List.map_append, List.map_cons]
      rfl
    rw [← layout_set laid.fits slot.read room, ← laid.cells, marked, front, moved,
      ← List.replicate_succ, List.replicate_succ', List.append_assoc, List.append_assoc,
      List.append_assoc]
    rfl
  · intro q member
    rcases List.mem_or_eq_of_mem_set member with old | rfl
    · exact laid.fits q old
    · exact room
  · rw [List.length_set]
    exact laid.capacity
  · have after : contents (t.elements.drop (i * t.segmentCapacity + k)) =
        contents ((t.elements.drop (i * t.segmentCapacity + k)).take (n - k)) ++
          contents (t.elements.drop (i * t.segmentCapacity + n + 1)) := by
      rw [← laid.free slot.read le_rfl room,
        ← contents_split (t.elements.drop (i * t.segmentCapacity + k)) (n - k), List.drop_drop,
        show i * t.segmentCapacity + k + (n - k) = i * t.segmentCapacity + n by omega]
    rw [after]
    change contents (shifted.set _ _) = _
    rw [values, contents_append, contents_append, contents_cons valid]
    simp

end ApmaBaseline

end Rma
