import Rma.SpreadWithRewiring
import Rma.Base.Multimap

/-!
# A spread with rewiring keeps the elements

The outputs of a spread are the inputs with the new element among them, taken from
the right. At any moment the elements still to be written are those still to be
read merged with the element to insert (`merged`), so that a turn of the copying
loop takes the same chunk off both ends of that equation. `turn_spec` is the step,
and the lemmas after it carry it through the three loops.

An input element cannot be overwritten before it is read: an extent is written in
place only when the reading position is below it, and a buffer takes the place of
an extent only when the reading position has left it. `Spread` is the invariant
between two extents.
-/

namespace Rma

open Base Rma.Partition

namespace SpreadWithRewiring

/-! ## Merging the new element -/

/-- The elements with the new one after those whose keys are at most its own. -/
def merged : Option (Int × Int) → List (Int × Int) → List (Int × Int)
  | none, l => l
  | some e, l => l.takeWhile (fun x => x.1 ≤ e.1) ++ e :: l.dropWhile fun x => x.1 ≤ e.1

/-- The number of elements that the new one goes after. -/
def placeOf (e : Int × Int) (l : List (Int × Int)) : Nat :=
  (l.takeWhile fun x => x.1 ≤ e.1).length

section Merge

variable {e : Int × Int} {insert : Option (Int × Int)} {l l₁ l₂ : List (Int × Int)}

theorem length_merged : (merged insert l).length = l.length + insert.toList.length := by
  cases insert with
  | none => rfl
  | some e =>
      have split := congrArg List.length (List.takeWhile_append_dropWhile
        (p := fun x : Int × Int => decide (x.1 ≤ e.1)) (l := l))
      simp only [List.length_append] at split
      simp only [merged, List.length_append, List.length_cons, Option.toList, List.length_nil]
      omega

theorem merged_nil : merged insert [] = insert.toList := by
  cases insert <;> rfl

/-- Greater elements at the end stay there. -/
theorem merged_append_right (l₁ : List (Int × Int)) (above : ∀ x ∈ l₂, e.1 < x.1) :
    merged (some e) (l₁ ++ l₂) = merged (some e) l₁ ++ l₂ := by
  induction l₁ with
  | nil =>
      cases l₂ with
      | nil => rfl
      | cons x l₂ =>
          have greater := not_le.mpr (above x (by simp))
          simp [merged, greater]
  | cons x l₁ ih =>
      by_cases le : x.1 ≤ e.1
      · simp only [merged] at ih
        simp [merged, le, ih]
      · simp [merged, le]

/-- Elements with keys at most that of the new one stay before it. -/
theorem merged_append_left (l₂ : List (Int × Int)) (below : ∀ x ∈ l₁, x.1 ≤ e.1) :
    merged (some e) (l₁ ++ l₂) = l₁ ++ merged (some e) l₂ := by
  have holds : ∀ x ∈ l₁, decide (x.1 ≤ e.1) = true := fun x member =>
    decide_eq_true (below x member)
  rw [merged, merged, List.takeWhile_append_of_pos holds, List.dropWhile_append_of_pos holds,
    List.append_assoc]

theorem placeOf_append_left (l₂ : List (Int × Int)) (below : ∀ x ∈ l₁, x.1 ≤ e.1) :
    placeOf e (l₁ ++ l₂) = l₁.length + placeOf e l₂ := by
  rw [placeOf, List.takeWhile_append_of_pos fun x member => decide_eq_true (below x member),
    List.length_append]
  rfl

theorem placeOf_eq_zero (above : ∀ x ∈ l, e.1 < x.1) : placeOf e l = 0 := by
  cases l with
  | nil => rfl
  | cons x l =>
      have greater := not_le.mpr (above x (by simp))
      simp [placeOf, greater]

theorem placeOf_append_right (l₁ : List (Int × Int)) (above : ∀ x ∈ l₂, e.1 < x.1) :
    placeOf e (l₁ ++ l₂) = placeOf e l₁ := by
  induction l₁ with
  | nil => exact placeOf_eq_zero above
  | cons x l₁ ih =>
      by_cases le : x.1 ≤ e.1
      · simp only [placeOf] at ih
        simp [placeOf, le, ih]
      · simp [placeOf, le]

theorem merged_inserted (sorted : SortedPairs l) : Inserted e l (merged (some e) l) := by
  refine ⟨_, _, List.takeWhile_append_dropWhile.symm, rfl, ?_, ?_⟩
  · intro x member
    have holds := List.mem_takeWhile_imp member
    exact of_decide_eq_true holds
  · intro x member
    rcases after : l.dropWhile (fun x => decide (x.1 ≤ e.1)) with _ | ⟨y, rest⟩
    · rw [after] at member
      cases member
    · have greater : ¬y.1 ≤ e.1 := by
        have head := List.head_dropWhile_not (fun x : Int × Int => decide (x.1 ≤ e.1)) (l := l)
          (by rw [after]; simp)
        simpa [after] using head
      have tail : SortedPairs (y :: rest) := by
        rw [← after]
        exact List.Pairwise.sublist (List.dropWhile_sublist _) sorted
      rw [after] at member
      exact (not_le.mp greater).le.trans (tail.head_le x member)

/-- The scan of `merge_to_insert` finds the place. -/
theorem mergeToInsert_eq (sorted : SortedPairs l) :
    mergeToInsert e l = (merged (some e) l, placeOf e l) := by
  rcases scanDown_spec (fun i => decide ((l.getD i default).1 > e.1)) l.length with
    ⟨upper, passed, stopped⟩
  unfold mergeToInsert
  simp only
  generalize scanDown (fun i => decide ((l.getD i default).1 > e.1)) l.length = j at *
  have below : ∀ x ∈ l.take j, x.1 ≤ e.1 := by
    intro x member
    rcases List.mem_take_iff_getElem.mp member with ⟨i, inside, rfl⟩
    have last := of_decide_eq_false (stopped (by omega))
    rw [List.getD_eq_getElem _ _ (by omega : j - 1 < l.length)] at last
    rcases Nat.eq_or_lt_of_le (show i ≤ j - 1 by omega) with rfl | before
    · exact not_lt.mp last
    · exact (List.pairwise_iff_getElem.mp sorted i (j - 1) _ (by omega) before).trans
        (not_lt.mp last)
  have above : ∀ x ∈ l.drop j, e.1 < x.1 := by
    intro x member
    rcases List.mem_drop_iff_getElem.mp member with ⟨i, inside, rfl⟩
    have inside : j + i < l.length := by omega
    have greater := of_decide_eq_true (passed (j + i) (by omega) inside)
    rwa [List.getD_eq_getElem _ _ inside] at greater
  have context := insertIdx_focus (l.take j) (l.drop j) e
  rw [List.take_append_drop, List.length_take, min_eq_left upper] at context
  have split := merged_append_left (l.drop j) below
  have rest := merged_append_right [] above
  rw [List.nil_append, merged_nil] at rest
  rw [List.take_append_drop, rest] at split
  have place := placeOf_append_left (l.drop j) below
  rw [List.take_append_drop, placeOf_eq_zero above, List.length_take, min_eq_left upper,
    Nat.add_zero] at place
  rw [context, split, place]
  rfl

end Merge

/-! ## The input -/

/-- What a spread reads and does not change. -/
structure Geometry where
  sizes : Nat → Nat
  capacity : Nat
  numberSegments : Nat
  windowStart : Nat
  windowLength : Nat
  segmentsPerExtent : Nat
  partitions : List Partition

def geometry (s : SpreadWithRewiring) : Geometry where
  sizes := s.storage.segmentSizes
  capacity := s.storage.segmentCapacity
  numberSegments := s.storage.numberSegments
  windowStart := s.windowStart
  windowLength := s.windowLength
  segmentsPerExtent := s.segmentsPerExtent
  partitions := s.partitions

namespace Geometry

/-- Where the run of an even segment and the next one starts. -/
def pairStart (g : Geometry) (i : Nat) : Nat := i * g.capacity + g.capacity - g.sizes i

def pairSize (g : Geometry) (i : Nat) : Nat := g.sizes i + g.sizes (i + 1)

/-- The elements of the first pairs of segments of the window. -/
def pairsBefore (g : Geometry) (cells : Nat → Int × Int) (pairs : Nat) : List (Int × Int) :=
  (List.range pairs).flatMap fun t =>
    readCells cells (g.pairStart (g.windowStart + 2 * t)) (g.pairSize (g.windowStart + 2 * t))

/-- The pairs of segments to be read: none is empty, and no segment overflows. -/
def Filled (g : Geometry) (pairs : Nat) : Prop :=
  ∀ t < pairs, 0 < g.pairSize (g.windowStart + 2 * t) ∧
    g.sizes (g.windowStart + 2 * t) ≤ g.capacity ∧
    g.sizes (g.windowStart + 2 * t + 1) ≤ g.capacity

end Geometry

/-- The input stands where the elements `l` are left, in the first `pairs` pairs. -/
inductive Unread (g : Geometry) (cells : Nat → Int × Int) (pairs : Nat) :
    Input → List (Int × Int) → Prop
  | inside (t run : Nat) : t < pairs → 0 < run → run ≤ g.pairSize (g.windowStart + 2 * t) →
    Unread g cells pairs
      ⟨(g.windowStart + 2 * t : Nat), run, g.pairStart (g.windowStart + 2 * t)⟩
      (g.pairsBefore cells t ++ readCells cells (g.pairStart (g.windowStart + 2 * t)) run)
  | finished (segmentId : Int) : segmentId < g.windowStart →
    Unread g cells pairs ⟨segmentId, 0, g.windowStart * g.capacity⟩ []

/-- The position after the elements left. -/
def Input.stop (input : Input) : Nat := input.displacement + input.runSz

section Reading

variable {s : SpreadWithRewiring} {cells : Nat → Int × Int} {pairs : Nat} {r : Run}
  {l : List (Int × Int)} {copied : Nat}

theorem Geometry.pairsBefore_succ (g : Geometry) (t : Nat) : g.pairsBefore cells (t + 1) =
    g.pairsBefore cells t ++ readCells cells (g.pairStart (g.windowStart + 2 * t))
      (g.pairSize (g.windowStart + 2 * t)) := by
  simp [Geometry.pairsBefore, List.range_succ]

/-- The runs of two pairs do not overlap. -/
theorem Geometry.Filled.stop_le {g : Geometry} (filled : g.Filled pairs) {t : Nat}
    (inside : t < pairs) (next : t + 1 < pairs) :
    g.pairStart (g.windowStart + 2 * t) + g.pairSize (g.windowStart + 2 * t) ≤
      g.pairStart (g.windowStart + 2 * (t + 1)) := by
  have first := filled t inside
  have second := filled (t + 1) next
  have cellsT : (g.windowStart + 2 * (t + 1)) * g.capacity =
      (g.windowStart + 2 * t) * g.capacity + 2 * g.capacity := by ring
  unfold Geometry.pairStart Geometry.pairSize
  omega

/-- The previous pair of segments, when there is one in the window. -/
theorem previousPair_succ (s : SpreadWithRewiring) (t : Nat) :
    s.previousPair ((s.windowStart + 2 * (t + 1) : Nat) : Int) =
      ⟨(s.windowStart + 2 * t : Nat), s.geometry.pairSize (s.windowStart + 2 * t),
        s.geometry.pairStart (s.windowStart + 2 * t)⟩ := by
  have before : ((s.windowStart + 2 * (t + 1) : Nat) : Int) - 2 =
      (s.windowStart + 2 * t : Nat) := by
    push_cast
    ring
  rw [previousPair]
  simp only [before, Int.toNat_natCast]
  exact if_pos (by push_cast; omega)

theorem previousPair_before (s : SpreadWithRewiring) {segmentId : Int}
    (before : segmentId - 2 < s.windowStart) : s.previousPair segmentId =
      ⟨segmentId - 2, 0, s.windowStart * s.geometry.capacity⟩ := by
  rw [previousPair]
  exact if_neg (by omega)

/-- Taking elements from the end of the run. -/
theorem Unread.advance (unread : Unread s.geometry cells pairs r.input l)
    (filled : s.geometry.Filled pairs) (bounded : copied ≤ r.input.runSz) :
    ∃ l', l = l' ++ readCells cells (r.input.displacement + (r.input.runSz - copied)) copied ∧
      Unread s.geometry cells pairs (s.advance r copied).input l' ∧
      (s.advance r copied).input.stop ≤ r.input.stop - copied := by
  rcases r with ⟨cells', buffer, input, insert, segment, predecessor, successor⟩
  simp only [SpreadWithRewiring.advance] at unread bounded ⊢
  cases unread with
  | inside t run inside positive le =>
      simp only at bounded ⊢
      have size := filled t inside
      by_cases done : run - copied = 0
      · obtain rfl : copied = run := by omega
        rw [if_pos done]
        refine ⟨s.geometry.pairsBefore cells t, by rw [done, Nat.add_zero], ?_⟩
        cases t with
        | zero =>
            have before : ((s.geometry.windowStart + 2 * 0 : Nat) : Int) - 2 < s.windowStart := by
              have start : s.geometry.windowStart = s.windowStart := rfl
              omega
            rw [previousPair_before s before]
            refine ⟨Unread.finished _ before, ?_⟩
            simp only [Input.stop, Nat.add_zero, Nat.add_sub_cancel, Geometry.pairStart]
            exact Nat.le_sub_of_add_le (Nat.add_le_add_left size.2.1 _)
        | succ t =>
            have order := filled.stop_le (by omega) inside
            have previous := filled t (by omega)
            change Unread _ _ _ (s.previousPair ((s.windowStart + 2 * (t + 1) : Nat) : Int)) _ ∧
              (s.previousPair ((s.windowStart + 2 * (t + 1) : Nat) : Int)).stop ≤ _
            rw [previousPair_succ, Geometry.pairsBefore_succ]
            refine ⟨Unread.inside t _ (by omega) previous.1 le_rfl, ?_⟩
            simp only [Input.stop, Nat.add_sub_cancel]
            exact order
      · rw [if_neg done]
        refine ⟨_, ?_, Unread.inside t (run - copied) inside (by omega) (by omega), ?_⟩
        · rw [List.append_assoc, ← readCells_add, Nat.sub_add_cancel bounded]
        · simp only [Input.stop]
          omega
  | finished segmentId before =>
      obtain rfl : copied = 0 := Nat.le_zero.mp bounded
      have before' : segmentId - 2 < s.windowStart := by
        change segmentId < s.windowStart at before
        omega
      simp only [Nat.sub_self, if_true]
      rw [previousPair_before s before']
      exact ⟨[], rfl, Unread.finished _ before', le_rfl⟩

theorem Unread.eq_nil (unread : Unread s.geometry cells pairs r.input l)
    (empty : r.input.runSz = 0) : l = [] := by
  rcases r with ⟨_, _, _, _, _, _, _⟩
  cases unread with
  | inside t run _ positive _ => exact absurd empty positive.ne'
  | finished => rfl

end Reading

/-! ## The destination -/

section Destination

variable {r r' r'' : Run} {destination : Option Nat} {d n d' n' p : Nat} {l : List (Int × Int)}

@[simp] theorem put_input : (r.put p l destination).input = r.input := by
  cases destination <;> rfl

@[simp] theorem put_insert : (r.put p l destination).insert = r.insert := by
  cases destination <;> rfl

@[simp] theorem put_insertToSegment :
    (r.put p l destination).insertToSegment = r.insertToSegment := by
  cases destination <;> rfl

theorem view_put : (r.put p l destination).view destination =
    writeCells (r.view destination) p l := by
  cases destination with
  | none => rfl
  | some offset =>
      funext q
      simp only [Run.put, Run.view]
      by_cases inside : p ≤ q ∧ q < p + l.length
      · rw [writeCells_inside (by omega) (by omega), writeCells_inside inside.1 inside.2]
        congr 2
        omega
      · rw [writeCells_outside (by omega), writeCells_outside (by omega)]

/-- From one state to the other only `n` cells of the destination change. -/
structure Frame (destination : Option Nat) (r r' : Run) (d n : Nat) : Prop where
  view : ∀ p, p < d ∨ d + n ≤ p → r'.view destination p = r.view destination p
  cells : ∀ p, (∀ offset, destination = some offset → p < offset + d ∨ offset + d + n ≤ p) →
    r'.cells p = r.cells p

theorem Frame.refl : Frame destination r r d n := ⟨fun _ _ => rfl, fun _ _ => rfl⟩

theorem Frame.trans (first : Frame destination r r' d n) (second : Frame destination r' r'' d n) :
    Frame destination r r'' d n :=
  ⟨fun p outside => (second.view p outside).trans (first.view p outside),
    fun p outside => (second.cells p outside).trans (first.cells p outside)⟩

/-- A change of some of the cells. -/
theorem Frame.mono (frame : Frame destination r r' d n) (lower : d' ≤ d)
    (upper : d + n ≤ d' + n') : Frame destination r r' d' n' := by
  refine ⟨fun p outside => frame.view p (by omega), fun p outside => frame.cells p ?_⟩
  intro offset same
  have apart := outside offset same
  omega

theorem Frame.put : Frame destination r (r.put d l destination) d l.length := by
  constructor
  · intro q outside
    rw [view_put, writeCells_outside outside]
  · intro q outside
    cases destination with
    | none => rfl
    | some offset => exact writeCells_outside (outside offset rfl)

/-- Neither the input nor the new element is part of the frame. -/
theorem Frame.of_eq {r₁ : Run} (frame : Frame destination r r' d n) (cells : r₁.cells = r'.cells)
    (buffer : r₁.buffer = r'.buffer) : Frame destination r r₁ d n := by
  have view : r₁.view destination = r'.view destination := by
    cases destination <;> simp [Run.view, cells, buffer]
  exact ⟨by rw [view]; exact frame.view, by rw [cells]; exact frame.cells⟩

/-- The cells read in the source stay when the destination is not before them. -/
theorem Frame.readCells_view (frame : Frame destination r r' d n) {q m : Nat}
    (outside : q + m ≤ d ∨ d + n ≤ q) :
    readCells (r'.view destination) q m = readCells (r.view destination) q m :=
  readCells_congr fun p _ _ => frame.view p (by omega)

end Destination

/-! ## Copying -/

/-- The new element is counted as soon as it is written, in the segment that receives it. -/
inductive Counted (insert₀ : Option (Int × Int)) (receives : Nat → Prop) :
    Option (Int × Int) → Option Nat → Prop
  | waiting : Counted insert₀ receives insert₀ none
  | placed (e : Int × Int) (segment : Nat) : insert₀ = some e → receives segment →
    Counted insert₀ receives none (some segment)

theorem Counted.waiting_eq {insert₀ insert : Option (Int × Int)} {receives : Nat → Prop}
    {insertToSegment : Option Nat} {e : Int × Int}
    (counted : Counted insert₀ receives insert insertToSegment) (waiting : insert = some e) :
    insert₀ = some e := by
  cases counted with
  | waiting => exact waiting
  | placed => cases waiting

theorem Counted.placed_eq {insert₀ insert : Option (Int × Int)} {receives : Nat → Prop}
    {segment : Nat} (counted : Counted insert₀ receives insert (some segment)) :
    ∃ e, insert₀ = some e ∧ receives segment := by
  cases counted with
  | placed e _ inserting received => exact ⟨e, inserting, received⟩

/-- What a spread makes of its input: the element to insert, the number of elements before it,
and the segments that may receive it. -/
structure Target where
  insert : Option (Int × Int)
  place : Nat
  receives : Nat → Prop

/-- The elements `m` are left to be written. -/
structure Left (g : Geometry) (cells : Nat → Int × Int) (pairs : Nat) (target : Target) (r : Run)
    (m : List (Int × Int)) : Prop where
  input : ∃ l, Unread g cells pairs r.input l ∧ SortedPairs l ∧ merged r.insert l = m ∧
    ∀ e, r.insert = some e → placeOf e l = target.place
  intact : ∀ p < r.input.stop, r.cells p = cells p
  counted : Counted target.insert target.receives r.insert r.insertToSegment

/-- Two splits of a list, the second one to the left of the first. -/
theorem exists_split {α : Type} {a b c d : List α} (same : a ++ b = c ++ d)
    (shorter : b.length ≤ d.length) : ∃ m, d = m ++ b ∧ a = c ++ m := by
  rcases List.append_eq_append_iff.mp same with ⟨m, rfl, rfl⟩ | ⟨m, rfl, rfl⟩
  · rw [List.length_append] at shorter
    obtain rfl := List.length_eq_zero_iff.mp (show m.length = 0 by omega)
    exact ⟨[], by simp, by simp⟩
  · exact ⟨m, rfl, rfl⟩

section Copy

variable {s : SpreadWithRewiring} {cells : Nat → Int × Int} {pairs : Nat}
  {target : Target} {r : Run} {l m : List (Int × Int)} {destination : Option Nat}
  {d segment lhs rhs copied : Nat}

/-- The elements at the end of the input are those in the cells. -/
theorem Left.readCells_eq (left : Left s.geometry cells pairs target r m)
    (bounded : copied ≤ r.input.runSz) :
    readCells r.cells (r.input.displacement + (r.input.runSz - copied)) copied =
      readCells cells (r.input.displacement + (r.input.runSz - copied)) copied := by
  apply readCells_congr
  intro p _ upper
  apply left.intact
  unfold Input.stop
  omega

/-- A write past the position of the input leaves what is to be read. -/
theorem Left.put_intact (left : Left s.geometry cells pairs target r m)
    (apart : ∀ offset, destination = some offset → r.input.stop ≤ offset) {p : Nat}
    (unread : p < r.input.stop) : (r.put d l destination).cells p = cells p := by
  rw [← left.intact p unread]
  apply Frame.put.cells
  intro offset same
  have := apart offset same
  omega

theorem insertsHere_eq_some {n : Nat} {e : Int × Int} (here : insertsHere r n = some e) :
    r.insert = some e ∧ (r.input.runSz = 0 ∨
      (r.cells (r.input.displacement + (r.input.runSz - n))).1 ≤ e.1) := by
  rcases Option.filter_eq_some_iff.mp here with ⟨same, holds⟩
  exact ⟨same, of_decide_eq_true holds⟩

theorem insertsHere_eq_none {n : Nat} {e : Int × Int} (here : insertsHere r n = none)
    (same : r.insert = some e) : r.input.runSz ≠ 0 ∧
      e.1 < (r.cells (r.input.displacement + (r.input.runSz - n))).1 := by
  have fails := Option.filter_eq_none_iff.mp here e same
  simpa using fails

/-- The elements up to one whose key is at most that of the new one. -/
theorem at_most {e x : Int × Int} {l₁ l₂ : List (Int × Int)} (sorted : SortedPairs (l₁ ++ x :: l₂))
    (le : x.1 ≤ e.1) : ∀ y ∈ l₁ ++ [x], y.1 ≤ e.1 := by
  have apart := (SortedPairs.append_iff.mp sorted).2.2
  intro y member
  rcases List.mem_append.mp member with member | member
  · exact (apart y member x (by simp)).trans le
  · rw [List.mem_singleton.mp member]
    exact le

/-- What is left after a write and a move of the input. -/
theorem Left.advance {r₁ : Run} (unread : Unread s.geometry cells pairs r.input l)
    (sorted : SortedPairs l) (filled : s.geometry.Filled pairs) (input : r₁.input = r.input)
    (intact : ∀ p < r.input.stop, r₁.cells p = cells p)
    (counted : Counted target.insert target.receives r₁.insert r₁.insertToSegment)
    (placed : ∀ l' e, l = l' ++ readCells cells
      (r.input.displacement + (r.input.runSz - copied)) copied → r₁.insert = some e →
        placeOf e l' = target.place) (bounded : copied ≤ r.input.runSz) :
    ∃ l', l = l' ++ readCells cells (r.input.displacement + (r.input.runSz - copied)) copied ∧
      Left s.geometry cells pairs target (s.advance r₁ copied) (merged r₁.insert l') ∧
      (s.advance r₁ copied).input.stop ≤ r.input.stop := by
  rw [← input] at unread bounded placed
  rcases unread.advance filled bounded with ⟨l', split, unread', stop⟩
  rw [← input]
  have down : (s.advance r₁ copied).input.stop ≤ r₁.input.stop := by omega
  refine ⟨l', split, ⟨⟨l', unread', ?_, rfl, fun e => placed l' e split⟩, ?_, counted⟩, down⟩
  · rw [split] at sorted
    exact (SortedPairs.append_iff.mp sorted).1
  · intro p before
    exact intact p (by rw [← input]; omega)

/-- One turn writes the end of what is left, next to what is written. -/
theorem turn_spec (d segment lhs rhs : Nat) {M out : List (Int × Int)}
    (left : Left s.geometry cells pairs target r (M ++ out)) (filled : s.geometry.Filled pairs)
    (nonempty : out ≠ []) (apart : ∀ offset, destination = some offset → r.input.stop ≤ offset)
    (receives : ∀ i < out.length, target.place = M.length + i →
      target.receives (segment + if i ≥ lhs then 1 else 0)) :
    ∃ r' out' chunk, s.turn destination d segment lhs rhs r out.length = (r', out'.length) ∧
      out = out' ++ chunk ∧ chunk ≠ [] ∧ Left s.geometry cells pairs target r' (M ++ out') ∧
      Frame destination r r' (d + out'.length) chunk.length ∧
      readCells (r'.view destination) (d + out'.length) chunk.length = chunk ∧
      r'.input.stop ≤ r.input.stop := by
  have positive := List.length_pos_iff.mpr nonempty
  rcases left.input with ⟨l, unread, sorted, whole, waiting⟩
  have bounded : min out.length r.input.runSz ≤ r.input.runSz := min_le_right _ _
  have fits : min out.length r.input.runSz ≤ out.length := min_le_left _ _
  have turns : r.input.runSz ≠ 0 → 0 < min out.length r.input.runSz := by omega
  rcases unread.advance filled bounded with ⟨before, split, -, -⟩
  rw [turn]
  generalize min out.length r.input.runSz = n at bounded fits turns split ⊢
  rcases here : insertsHere r n with _ | e
  · -- the new element, if it is still there, goes before these
    have run : r.input.runSz ≠ 0 := by
      intro empty
      have none : r.insert = none := by
        rcases same : r.insert with _ | e
        · rfl
        · exact absurd empty (insertsHere_eq_none here same).1
      rw [unread.eq_nil empty, none] at whole
      have length := congrArg List.length whole
      simp only [merged, List.length_nil, List.length_append] at length
      omega
    have pos := turns run
    set chunk := readCells cells (r.input.displacement + (r.input.runSz - n)) n with chunk_eq
    have lengthChunk : chunk.length = n := length_readCells
    have above : ∀ e, r.insert = some e → ∀ x ∈ chunk, e.1 < x.1 := by
      intro e same x member
      have greater := (insertsHere_eq_none here same).2
      rw [left.intact _ (by unfold Input.stop; omega)] at greater
      rw [split] at sorted
      obtain ⟨n, rfl⟩ := Nat.exists_eq_succ_of_ne_zero pos.ne'
      rw [chunk_eq, readCells_succ] at sorted member
      exact lt_of_lt_of_le greater ((SortedPairs.append_iff.mp sorted).2.1.head_le x member)
    have apart' : merged r.insert l = merged r.insert before ++ chunk := by
      rcases same : r.insert with _ | e
      · exact split
      · rw [split]
        exact merged_append_right before (above e same)
    have placed : ∀ l' e, l = l' ++ chunk → r.insert = some e → placeOf e l' = target.place := by
      intro l' e split' same
      rw [← waiting e same, split', placeOf_append_right l' (above e same)]
    rw [whole] at apart'
    rcases exists_split apart'.symm (by omega) with ⟨out', rfl, leftOver⟩
    have offset : (out' ++ chunk).length - n = out'.length := by
      rw [List.length_append]
      omega
    simp only [left.readCells_eq bounded, ← chunk_eq, offset]
    have input : (r.put (d + out'.length) chunk destination).input = r.input := put_input
    rcases Left.advance unread sorted filled input (fun p => left.put_intact apart)
      (by simpa using left.counted) (by simpa using placed) bounded with
      ⟨l', split', left', stop⟩
    obtain rfl : l' = before := List.append_cancel_right (split'.symm.trans split)
    rw [put_insert, leftOver] at left'
    refine ⟨_, out', chunk, rfl, rfl, ?_, left', Frame.put.of_eq rfl rfl, ?_, stop⟩
    · exact List.ne_nil_of_length_pos (by omega)
    · change readCells ((r.put _ chunk destination).view destination) _ _ = chunk
      rw [view_put, readCells_writeCells]
  · -- the new element is among these, or there are none left
    rcases insertsHere_eq_some here with ⟨same, place⟩
    have bounded' : n - 1 ≤ r.input.runSz := by omega
    set chunkIn := readCells cells (r.input.displacement + (r.input.runSz - (n - 1))) (n - 1)
      with chunkIn_eq
    -- they follow the elements whose keys are at most that of the new one
    have behind : ∃ front, l = front ++ chunkIn ∧ ∀ x ∈ front, x.1 ≤ e.1 := by
      rcases Nat.eq_zero_or_pos n with rfl | pos
      · obtain rfl := unread.eq_nil (by omega)
        exact ⟨[], rfl, by simp⟩
      · obtain ⟨n, rfl⟩ := Nat.exists_eq_succ_of_ne_zero pos.ne'
        have next : r.input.displacement + (r.input.runSz - (n + 1)) + 1 =
            r.input.displacement + (r.input.runSz - n) := by omega
        rw [readCells_succ, next] at split
        refine ⟨before ++ [_], by rw [split, List.append_cons]; rfl, ?_⟩
        rw [split] at sorted
        apply at_most sorted
        rw [← left.intact _ (by unfold Input.stop; omega)]
        exact place.resolve_left (by omega)
    have sortedIn : SortedPairs chunkIn := by
      rcases behind with ⟨front, rfl, -⟩
      exact (SortedPairs.append_iff.mp sorted).2.1
    have lengthChunk : (merged (some e) chunkIn).length = n - 1 + 1 := by
      rw [length_merged, length_readCells]
      rfl
    rcases behind with ⟨front, split', below⟩
    have apart' := merged_append_left chunkIn below
    rw [← split', ← same, whole] at apart'
    rcases exists_split apart'.symm (by rw [same]; omega) with ⟨out', outEq, leftOver⟩
    rw [same] at outEq
    have offset : out.length - (n - 1 + 1) = out'.length := by
      rw [outEq, List.length_append]
      omega
    simp only [left.readCells_eq bounded', ← chunkIn_eq, offset, mergeToInsert_eq sortedIn]
    generalize (if out'.length + placeOf e chunkIn = 0 ∨
        out'.length + placeOf e chunkIn = lhs then (-2 ^ 63 : Int) else _) = predecessor
    generalize (if out'.length + placeOf e chunkIn + 1 = lhs ∨
        out'.length + placeOf e chunkIn + 1 = lhs + rhs then (2 ^ 63 - 1 : Int) else _) = successor
    set r₁ : Run := { r.put (d + out'.length) (merged (some e) chunkIn) destination with
      insert := none
      insertToSegment := some (segment + if out'.length + placeOf e chunkIn ≥ lhs then 1 else 0)
      insertPredecessor := predecessor
      insertSuccessor := successor } with r₁_eq
    have fresh : target.insert = some e := left.counted.waiting_eq same
    -- the place of the new element in the input says which segment receives it
    have position : target.place = M.length + (out'.length + placeOf e chunkIn) := by
      rw [← waiting e same, split', placeOf_append_left chunkIn below, leftOver,
        List.length_append, Nat.add_assoc]
    have within : placeOf e chunkIn ≤ chunkIn.length := (List.takeWhile_sublist _).length_le
    have counted : Counted target.insert target.receives r₁.insert r₁.insertToSegment := by
      apply Counted.placed e _ fresh (receives _ _ position)
      rw [outEq, List.length_append, lengthChunk]
      rw [length_readCells] at within
      omega
    have input : r₁.input = r.input := put_input
    rcases Left.advance unread sorted filled input (fun p => left.put_intact apart) counted
      (fun l' e split none => nomatch none) bounded' with ⟨l', split'', left', stop⟩
    obtain rfl : l' = front := List.append_cancel_right (split''.symm.trans split')
    refine ⟨_, out', _, rfl, outEq, ?_, ?_, Frame.put.of_eq rfl rfl, ?_, stop⟩
    · exact List.ne_nil_of_length_pos (by omega)
    · rwa [← leftOver]
    · change readCells ((r.put _ (merged (some e) chunkIn) destination).view destination) _ _ = _
      rw [view_put, readCells_writeCells]

theorem copyRun_turn {fuel outputRun : Nat} (more : 0 < outputRun) :
    s.copyRun destination d segment lhs rhs (fuel + 1) r outputRun =
      s.copyRun destination d segment lhs rhs fuel
        (s.turn destination d segment lhs rhs r outputRun).1
        (s.turn destination d segment lhs rhs r outputRun).2 := by
  cases outputRun with
  | zero => cases more
  | succ outputRun => rfl

/-- The loop writes all that is left for the two output segments. -/
theorem copyRun_spec (d segment lhs rhs : Nat) {M out : List (Int × Int)} {fuel : Nat}
    (left : Left s.geometry cells pairs target r (M ++ out)) (filled : s.geometry.Filled pairs)
    (enough : out.length ≤ fuel) (apart : ∀ offset, destination = some offset →
      r.input.stop ≤ offset) (receives : ∀ i < out.length, target.place = M.length + i →
        target.receives (segment + if i ≥ lhs then 1 else 0)) :
    ∃ r', s.copyRun destination d segment lhs rhs fuel r out.length = some r' ∧
      Left s.geometry cells pairs target r' M ∧ Frame destination r r' d out.length ∧
      readCells (r'.view destination) d out.length = out ∧ r'.input.stop ≤ r.input.stop := by
  induction fuel generalizing r out with
  | zero =>
      obtain rfl := List.length_eq_zero_iff.mp (Nat.le_zero.mp enough)
      rw [List.append_nil] at left
      exact ⟨r, rfl, left, Frame.refl, rfl, le_rfl⟩
  | succ fuel ih =>
      rcases Nat.eq_zero_or_pos out.length with empty | positive
      · obtain rfl := List.length_eq_zero_iff.mp empty
        rw [List.append_nil] at left
        exact ⟨r, rfl, left, Frame.refl, rfl, le_rfl⟩
      · have nonempty : out ≠ [] := List.ne_nil_of_length_pos positive
        rcases turn_spec d segment lhs rhs left filled nonempty apart receives with
          ⟨r₁, out', chunk, turned, rfl, some, left₁, frame₁, read₁, stop₁⟩
        have chunkPos := List.length_pos_iff.mpr some
        rw [List.length_append] at enough positive receives
        rcases ih left₁ (by omega) (fun offset same => stop₁.trans (apart offset same))
          (fun i inside => receives i (by omega)) with
          ⟨r', copied, left', frame', read', stop'⟩
        refine ⟨r', ?_, left', ?_, ?_, stop'.trans stop₁⟩
        · rw [copyRun_turn (by rwa [List.length_append]), turned]
          exact copied
        · rw [List.length_append]
          exact (frame₁.mono (by omega) (by omega)).trans (frame'.mono le_rfl (by omega))
        · rw [List.length_append, readCells_add, read',
            frame'.readCells_view (Or.inr le_rfl), read₁]

end Copy

end SpreadWithRewiring

end Rma
