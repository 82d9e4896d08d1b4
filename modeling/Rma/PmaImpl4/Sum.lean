import Rma.PmaImpl4.Multimap
import Rma.SumResult

/-!
# Range sums of the plain packed memory array

`sum(min, max)` starts in the segment that `find_segment` gives for `min` and stops in the one
that it gives for `max`. The first is scanned from `min` on; the ones in between are added up
whole, without looking at their keys; the last is scanned up to `max`. The second bound of the
interval is looked for from the start of the array again, so that the two segments are the same
where `min` and `max` are.

`Covered` is the condition under which these segments hold the whole interval: the binary search
stops at any of the segments with an equal key, and before a gap at the segment that the gap
follows, where the scan finds nothing and gives up.
-/

namespace Rma

open Base

namespace PmaImpl4

open SumResult

/-- `while(i < sz && elements[i].first <= max)`: add up the elements of the segment at `base`,
of which `room` are left from the position `i` on. -/
def sumUpTo (elements : Nat → Int × Int) (base : Nat) (max : Int) :
    (room i : Nat) → SumResult → Nat × SumResult
  | 0, i, result => (i, result)
  | room + 1, i, result =>
    if (elements (base + i)).1 ≤ max then
      sumUpTo elements base max room (i + 1)
        { result with
          sumKeys := addInt64 result.sumKeys (elements (base + i)).1
          sumValues := addInt64 result.sumValues (elements (base + i)).2
          lastKey := (elements (base + i)).1
          numElements := result.numElements + 1 }
    else (i, result)

/-- `for(size_t i = 0, sz = m_segments[segment_id]; i < sz; i++)`: add up the whole segment. -/
def sumSegment (elements : Nat → Int × Int) (base : Nat) :
    (room i : Nat) → SumResult → SumResult
  | 0, _, result => result
  | room + 1, i, result =>
    sumSegment elements base room (i + 1)
      { result with
        sumKeys := addInt64 result.sumKeys (elements (base + i)).1
        sumValues := addInt64 result.sumValues (elements (base + i)).2
        numElements := result.numElements + 1 }

/-- The `n` segments from `segmentId` on. -/
def sumSegments (t : PmaImpl4) : (n segmentId : Nat) → SumResult → SumResult
  | 0, _, result => result
  | n + 1, segmentId, result =>
    sumSegments t n (segmentId + 1)
      (sumSegment t.elements (t.segmentCapacity * segmentId) (t.segments segmentId) 0 result)

/-- `sum(min, max)` -/
def sum (t : PmaImpl4) (min max : Int) : Option SumResult :=
  if t.isEmpty ∨ min > max then some SumResult.empty
  else do
    let segmentStart ← t.findSegment min
    let segmentEnd ← t.findSegment max
    -- scan the first segment
    let base := t.segmentCapacity * segmentStart
    let sz := t.segments segmentStart
    let i := scanUp (fun i => (t.elements (base + i)).1 < min) 0 sz
    if i = sz ∨ (t.elements (base + i)).1 > max then some SumResult.empty
    else
      let (i, result) := sumUpTo t.elements base max (sz - i) i
        { SumResult.empty with firstKey := (t.elements (base + i)).1 }
      if i < sz ∨ segmentStart = segmentEnd then some result
      else
        let result := t.sumSegments (segmentEnd - (segmentStart + 1)) (segmentStart + 1) result
        some (sumUpTo t.elements (t.segmentCapacity * segmentEnd) max (t.segments segmentEnd) 0
          result).2

/-! ## The scans of the segments -/

/-- Add up the given pairs, and keep the last key. -/
def follow (result : SumResult) (l : List (Int × Int)) : SumResult :=
  { accumulate result l with lastKey := (l.getLast?.map Prod.fst).getD result.lastKey }

theorem follow_cons (result : SumResult) (e : Int × Int) (l : List (Int × Int)) :
    follow result (e :: l) =
      follow
        { result with
          sumKeys := addInt64 result.sumKeys e.1
          sumValues := addInt64 result.sumValues e.2
          lastKey := e.1
          numElements := result.numElements + 1 } l := by
  cases l using List.reverseRecOn with
  | nil => rfl
  | append_singleton l last =>
      have final : (e :: (l ++ [last])).getLast? = some last := by
        rw [← List.cons_append, List.getLast?_concat]
      simp [follow, accumulate, final, Nat.add_assoc, Nat.add_comm 1]

/-- The pairs of the first segment, those in between and those of the last segment. -/
theorem follow_accumulate (result : SumResult) (l m n : List (Int × Int)) :
    follow (accumulate (follow result l) m) n =
      { accumulate result (l ++ (m ++ n)) with
        lastKey := ((n.getLast?.or l.getLast?).map Prod.fst).getD result.lastKey } := by
  rw [accumulate_append, accumulate_append]
  simp only [follow, accumulate, SumResult.mk.injEq, and_true, true_and]
  cases n.getLast? <;> rfl

section Scans

variable {elements : Nat → Int × Int} {base : Nat}

theorem sumUpTo_eq (max : Int) (room i : Nat) (result : SumResult) :
    sumUpTo elements base max room i result =
      (i + ((readCells elements (base + i) room).takeWhile fun e => e.1 ≤ max).length,
        follow result ((readCells elements (base + i) room).takeWhile fun e => e.1 ≤ max)) := by
  induction room generalizing i result with
  | zero => rfl
  | succ room ih =>
      rw [sumUpTo, readCells_succ]
      by_cases within : (elements (base + i)).1 ≤ max
      · rw [if_pos within, ih, List.takeWhile_cons_of_pos (by simpa using within), follow_cons,
          List.length_cons, Nat.add_assoc base]
        simp only [Nat.add_assoc, Nat.add_comm 1]
      · rw [if_neg within, List.takeWhile_cons_of_neg (by simpa using within)]
        rfl

theorem sumSegment_eq (room i : Nat) (result : SumResult) :
    sumSegment elements base room i result =
      accumulate result (readCells elements (base + i) room) := by
  induction room generalizing i result with
  | zero => rfl
  | succ room ih =>
      rw [sumSegment, ih, readCells_succ, ← Nat.add_assoc base]
      simp [accumulate, Nat.add_assoc, Nat.add_comm 1]

end Scans

variable {t : PmaImpl4} {i j n a b : Nat} {x : Int × Int} {min max : Int}

theorem sumSegments_eq (n i : Nat) (result : SumResult) :
    t.sumSegments n i result = accumulate result ((List.range' i n).flatMap t.part) := by
  induction n generalizing i result with
  | zero => simp [sumSegments, accumulate]
  | succ n ih =>
      rw [sumSegments, ih, sumSegment_eq, List.range'_succ, List.flatMap_cons, accumulate_append,
        Nat.add_zero, Nat.mul_comm]
      rfl

/-! ## The interval, segment by segment -/

/-- The stored pairs with a key in `[min, max]`. -/
def inRange (t : PmaImpl4) (min max : Int) : List (Int × Int) :=
  t.contents.filter fun e => min ≤ e.1 ∧ e.1 ≤ max

/-- Those of the `n` segments from `i` on. -/
def between (t : PmaImpl4) (min max : Int) (i n : Nat) : List (Int × Int) :=
  (List.range' i n).flatMap fun j => (t.part j).filter fun e => min ≤ e.1 ∧ e.1 ≤ max

theorem inRange_eq_between : t.inRange min max = t.between min max 0 t.getNumSegments := by
  rw [inRange, contents, parts, List.filter_flatten, List.map_map, between, List.range_eq_range']
  rfl

theorem between_add (t : PmaImpl4) (min max : Int) (i n m : Nat) :
    t.between min max i (n + m) = t.between min max i n ++ t.between min max (i + n) m := by
  rw [between, ← List.range'_append_1, List.flatMap_append]
  rfl

theorem between_one :
    t.between min max i 1 = (t.part i).filter fun e => min ≤ e.1 ∧ e.1 ≤ max := by
  simp [between]

theorem mem_between : x ∈ t.between min max i n ↔
    (∃ j, i ≤ j ∧ j < i + n ∧ x ∈ t.part j) ∧ min ≤ x.1 ∧ x.1 ≤ max := by
  simp only [between, List.mem_flatMap, List.mem_range'_1, List.mem_filter, decide_eq_true_eq]
  constructor
  · rintro ⟨j, ⟨lower, upper⟩, member, inside⟩
    exact ⟨⟨j, lower, upper, member⟩, inside⟩
  · rintro ⟨⟨j, lower, upper, member⟩, inside⟩
    exact ⟨j, ⟨lower, upper⟩, member, inside⟩

/-- The scan of the first segment stops at the first pair that is not below the interval. -/
theorem first_segment (sorted : SortedPairs (t.part i)) (min max : Int) :
    let k := scanUp (fun k => decide ((t.elements (t.segmentCapacity * i + k)).1 < min)) 0
      (t.segments i)
    let rest := readCells t.elements (t.segmentCapacity * i + k) (t.segments i - k)
    k ≤ t.segments i ∧ (∃ front, t.part i = front ++ rest ∧ ∀ x ∈ front, x.1 < min) ∧
      t.between min max i 1 = rest.takeWhile fun e => e.1 ≤ max := by
  intro k rest
  obtain ⟨-, upper, passed, stopped⟩ := scanUp_spec
    (fun k => decide ((t.elements (t.segmentCapacity * i + k)).1 < min)) 0 (t.segments i)
  rw [Nat.zero_add] at upper stopped
  have split : t.part i = readCells t.elements (t.segmentCapacity * i) k ++ rest := by
    rw [← readCells_add, Nat.add_sub_cancel' upper, part, Nat.mul_comm]
  have below : ∀ x ∈ readCells t.elements (t.segmentCapacity * i) k, x.1 < min := by
    intro x member
    obtain ⟨q, lower, before, rfl⟩ := mem_readCells.mp member
    obtain ⟨d, rfl⟩ := Nat.exists_eq_add_of_le lower
    exact of_decide_eq_true (passed d (Nat.zero_le _) (by omega))
  refine ⟨upper, ⟨_, split, below⟩, ?_⟩
  rw [split] at sorted
  obtain ⟨-, sortedRest, -⟩ := SortedPairs.append_iff.mp sorted
  rw [between_one, split]
  refine sortedRest.filter_interval below (fun x member => ?_) max
  have some : k < t.segments i := by
    have length := List.length_pos_of_mem member
    rw [length_readCells] at length
    omega
  have reached := not_lt.mp (of_decide_eq_false (stopped some))
  have cells : rest = t.elements (t.segmentCapacity * i + k) ::
      readCells t.elements (t.segmentCapacity * i + k + 1) (t.segments i - k - 1) := by
    rw [← readCells_succ, Nat.sub_add_cancel (by omega)]
  rw [cells] at member sortedRest
  exact reached.trans (sortedRest.head_le x member)

/-- The scan of the first segment stops before its end where a key is beyond the interval. -/
theorem stops_iff {l : List (Int × Int)} :
    (l.takeWhile fun e => e.1 ≤ max).length < l.length ↔ ∃ x ∈ l, max < x.1 := by
  constructor
  · intro short
    by_contra none
    push Not at none
    rw [List.takeWhile_eq_self_iff.mpr fun x member => decide_eq_true (none x member)] at short
    exact lt_irrefl _ short
  · rintro ⟨x, member, beyond⟩
    by_contra long
    have all := (List.takeWhile_prefix fun e : Int × Int => decide (e.1 ≤ max)).eq_of_length_le
      (not_lt.mp long)
    have within := of_decide_eq_true (List.takeWhile_eq_self_iff.mp all x member)
    omega

/-- The pairs of the interval that the scans of the first and the last segment add up, with the
segments in between. -/
def scanned (t : PmaImpl4) (min max : Int) (a b : Nat) : List (Int × Int) :=
  t.between min max a 1 ++ ((List.range' (a + 1) (b - (a + 1))).flatMap t.part ++
    (t.part b).takeWhile fun e => e.1 ≤ max)

/-- What `sum` returns: nothing, the part of one segment, or that of several. -/
theorem sum_cases (sorted : SortedPairs (t.part a)) (filled : ¬t.isEmpty) (order : min ≤ max)
    (foundA : t.findSegment min = some a) (foundB : t.findSegment max = some b) :
    (t.between min max a 1 = [] ∧ t.sum min max = some SumResult.empty) ∨
      ∃ e l, t.between min max a 1 = e :: l ∧
        (((∃ x ∈ t.part a, max < x.1) ∨ a = b) ∧
            t.sum min max = some (follow { SumResult.empty with firstKey := e.1 } (e :: l)) ∨
          (∀ x ∈ t.part a, x.1 ≤ max) ∧ a ≠ b ∧
            t.sum min max = some
              { accumulate { SumResult.empty with firstKey := e.1 } (t.scanned min max a b) with
                lastKey := ((((t.part b).takeWhile fun e => e.1 ≤ max).getLast?.or
                  (e :: l).getLast?).map Prod.fst).getD 0 }) := by
  obtain ⟨upper, ⟨front, split, below⟩, rest⟩ := first_segment sorted min max
  rw [sum, if_neg (by simp [filled, order]), foundA, foundB]
  simp only [Option.bind_eq_bind, Option.bind_some, sumUpTo_eq, sumSegments_eq]
  generalize scanUp (fun k => decide ((t.elements (t.segmentCapacity * a + k)).1 < min)) 0
    (t.segments a) = k at *
  by_cases ends : k = t.segments a
  · refine Or.inl ⟨?_, by rw [if_pos (Or.inl ends)]⟩
    rw [rest, ends, Nat.sub_self]
    rfl
  have cells : readCells t.elements (t.segmentCapacity * a + k) (t.segments a - k) =
      t.elements (t.segmentCapacity * a + k) ::
        readCells t.elements (t.segmentCapacity * a + k + 1) (t.segments a - k - 1) := by
    rw [← readCells_succ, Nat.sub_add_cancel (by omega)]
  by_cases beyond : (t.elements (t.segmentCapacity * a + k)).1 > max
  · refine Or.inl ⟨?_, by rw [if_pos (Or.inr beyond)]⟩
    rw [rest, cells, List.takeWhile_cons_of_neg (by simpa using beyond)]
  · have first := rest
    rw [cells, List.takeWhile_cons_of_pos (by simpa using beyond)] at first
    have stops : k + (t.between min max a 1).length < t.segments a ↔ ∃ x ∈ t.part a, max < x.1 := by
      have short := @stops_iff max
        (readCells t.elements (t.segmentCapacity * a + k) (t.segments a - k))
      rw [← rest, length_readCells] at short
      rw [← Nat.lt_sub_iff_add_lt', short, split]
      constructor
      · rintro ⟨x, member, greater⟩
        exact ⟨x, List.mem_append_right _ member, greater⟩
      · rintro ⟨x, member, greater⟩
        rcases List.mem_append.mp member with before | after
        · have less := below x before
          omega
        · exact ⟨x, after, greater⟩
    refine Or.inr ⟨_, _, first, ?_⟩
    rw [if_neg (by simp [ends, beyond]), ← rest]
    by_cases one : (∃ x ∈ t.part a, max < x.1) ∨ a = b
    · exact Or.inl ⟨one, by rw [if_pos (one.imp_left stops.mpr), first]⟩
    · obtain ⟨within, several⟩ := not_or.mp one
      refine Or.inr ⟨by push Not at within; exact within, several, ?_⟩
      rw [if_neg fun one' => one (one'.imp_left stops.mp), scanned, Nat.add_zero, first,
        Nat.mul_comm _ b, follow_accumulate]
      rfl

/-! ## When the sum is exact -/

/-- `m_elements[segment_id * m_segment_capacity + m_segments[segment_id] -1].first` -/
def lastKey (t : PmaImpl4) (i : Nat) : Int :=
  (t.elements (i * t.segmentCapacity + t.segments i - 1)).1

/-- The segments from `a` to `b` hold the interval: none of it comes before `a`, which holds its
first pair, and none comes after the last segment that is scanned. The last key is taken from `b`
or, where `b` holds no part of the interval, from `a`. -/
def Covered (t : PmaImpl4) (min max : Int) (a b : Nat) : Prop :=
  t.inRange min max = [] ∨
    (∀ j < a, ∀ x ∈ t.part j, x.1 < min) ∧ (∃ x ∈ t.part a, min ≤ x.1 ∧ x.1 ≤ max) ∧
      ((∃ x ∈ t.part a, max < x.1) ∨
        (∀ j, b < j → j < t.getNumSegments → ∀ x ∈ t.part j, max < x.1) ∧
          (a = b ∨ (∃ x ∈ t.part b, x.1 ≤ max) ∨ t.lastKey a = t.lastKey (b - 1)))

/-- The last pair of a sorted list has the greatest key. -/
theorem getLast_key {l : List (Int × Int)} {y : Int × Int} (sorted : SortedPairs l)
    (final : l.getLast? = some x) (member : y ∈ l) (greatest : ∀ z ∈ l, z.1 ≤ y.1) :
    x.1 = y.1 := by
  obtain ⟨start, rfl⟩ := List.getLast?_eq_some_iff.mp final
  refine le_antisymm (greatest x (by simp)) ?_
  rcases List.mem_append.mp member with before | last
  · exact (SortedPairs.append_iff.mp sorted).2.2 y before x (by simp)
  · rw [List.mem_singleton.mp last]

/-- The number of pairs tells whether a part of the interval is missing. -/
theorem sums_iff {first e : Int × Int} {before rest after : List (Int × Int)} {last : Int}
    (head : e = first) :
    Sums (before ++ ((e :: rest) ++ after))
        { accumulate { SumResult.empty with firstKey := first.1 } (e :: rest) with
          lastKey := last } ↔
      before = [] ∧ after = [] ∧ ∀ x, (e :: rest).getLast? = some x → last = x.1 := by
  constructor
  · intro sums
    have count := sums.numElements
    simp only [accumulate, SumResult.empty, List.length_append, List.length_cons] at count
    have none₁ : before = [] := List.eq_nil_of_length_eq_zero (by omega)
    have none₂ : after = [] := List.eq_nil_of_length_eq_zero (by omega)
    refine ⟨none₁, none₂, fun x final => ?_⟩
    have lastKey := sums.lastKey x
    rw [none₁, none₂, List.nil_append, List.append_nil] at lastKey
    exact lastKey final
  · rintro ⟨rfl, rfl, final⟩
    rw [List.nil_append, List.append_nil]
    refine ⟨Nat.zero_add _, foldl_addInt64_zero _, foldl_addInt64_zero _, fun x isFirst => ?_, final⟩
    cases isFirst
    exact head ▸ rfl

section Exact

variable (sorted : SortedPairs t.contents)

include sorted

/-- The segments between those of the two bounds lie in the interval. -/
theorem scanned_eq (locatedA : t.Located min a) (locatedB : t.Located max b) (less : a < b) :
    t.scanned min max a b = t.between min max a (b + 1 - a) := by
  have middle : (List.range' (a + 1) (b - (a + 1))).flatMap t.part =
      t.between min max (a + 1) (b - (a + 1)) := by
    refine List.flatMap_congr fun j member => (List.filter_eq_self.mpr fun x stored => ?_).symm
    obtain ⟨lower, upper⟩ := List.mem_range'_1.mp member
    have inside := locatedB.inside
    have above := locatedA.above j (by omega) (by omega) x stored
    have below := locatedB.below j (by omega) x stored
    exact decide_eq_true ⟨above, below⟩
  have last : (t.part b).takeWhile (fun e => e.1 ≤ max) = t.between min max b 1 := by
    rw [between_one, ← (part_sorted sorted locatedB.inside).filter_le]
    refine List.filter_congr fun x stored => ?_
    simp [locatedA.above b less locatedB.inside x stored]
  rw [scanned, middle, last, show b + 1 - a = 1 + (b - (a + 1) + 1) by omega, between_add,
    between_add, show a + 1 + (b - (a + 1)) = b by omega]

/-- The last key of the interval, where the segment `i` ends it and `j` starts it. -/
theorem last_between (nonempty : 0 < t.segments j) (inside : j < t.getNumSegments) (order : i ≤ j)
    (later : ∀ k, j < k → k < i + n → ∀ y ∈ t.part k, max < y.1) (within : j < i + n)
    (least : min ≤ t.lastKey j) (greatest : t.lastKey j ≤ max)
    (final : (t.between min max i n).getLast? = some x) (bound : i + n ≤ t.getNumSegments) :
    x.1 = t.lastKey j := by
  have stored := last_mem nonempty
  have all := t.between_add min max 0 i (t.getNumSegments - i)
  have rest := t.between_add min max i n (t.getNumSegments - i - n)
  rw [Nat.add_sub_cancel' (by omega), ← inRange_eq_between, Nat.zero_add] at all
  rw [Nat.add_sub_cancel' (by omega)] at rest
  have sortedRange : SortedPairs (t.inRange min max) := sorted.sublist List.filter_sublist
  rw [all, rest] at sortedRange
  have sortedPart := (SortedPairs.append_iff.mp
    (SortedPairs.append_iff.mp sortedRange).2.1).1
  refine getLast_key sortedPart final (mem_between.mpr ⟨⟨j, order, within, stored⟩, least, greatest⟩)
    fun z member => ?_
  obtain ⟨⟨k, lower, upper, memberK⟩, -, atMost⟩ := mem_between.mp member
  rcases lt_trichotomy k j with before | rfl | after
  · exact part_le sorted before inside memberK stored
  · exact le_last (part_sorted sorted inside) memberK
  · exact absurd atMost (not_le.mpr (later k after upper z memberK))

/-- Where the last segment that is scanned holds a part of the interval, it gives the last key;
otherwise the first segment does. -/
theorem lastKey_iff (filled : ∀ i < t.getNumSegments, 0 < t.segments i)
    (locatedA : t.Located min a) (locatedB : t.Located max b) (less : a < b)
    (within : ∀ x ∈ t.part a, x.1 ≤ max) {e : Int × Int} {l : List (Int × Int)}
    (first : t.between min max a 1 = e :: l) :
    (∀ x, (t.between min max a (b + 1 - a)).getLast? = some x →
        ((((t.part b).takeWhile fun e => e.1 ≤ max).getLast?.or (e :: l).getLast?).map
          Prod.fst).getD 0 = x.1) ↔
      (∃ x ∈ t.part b, x.1 ≤ max) ∨ t.lastKey a = t.lastKey (b - 1) := by
  have insideB := locatedB.inside
  have takes := (part_sorted sorted insideB).filter_le max
  rw [← takes]
  by_cases holds : ∃ x ∈ t.part b, x.1 ≤ max
  · refine iff_of_true (fun x final => ?_) (Or.inl holds)
    obtain ⟨y, member, least⟩ := holds
    have some : (t.part b).filter (fun e => e.1 ≤ max) ≠ [] :=
      List.ne_nil_of_mem (List.mem_filter.mpr ⟨member, decide_eq_true least⟩)
    obtain ⟨z, last⟩ := Option.ne_none_iff_exists'.mp (mt List.getLast?_eq_none_iff.mp some)
    rw [← scanned_eq sorted locatedA locatedB less, scanned, ← takes, List.getLast?_append,
      List.getLast?_append, last, Option.some_or, Option.some_or] at final
    rw [last, Option.some_or, Option.map_some, Option.getD_some, Option.some.inj final]
  · have none : (t.part b).filter (fun e => e.1 ≤ max) = [] :=
      List.filter_eq_nil_iff.mpr fun x member least => holds ⟨x, member, of_decide_eq_true least⟩
    have beyond : ∀ x ∈ t.part b, max < x.1 := fun x member =>
      not_le.mp fun least => holds ⟨x, member, least⟩
    have member : e ∈ t.between min max a 1 := first ▸ List.mem_cons_self
    obtain ⟨⟨j, lower, upper, stored⟩, atLeast, -⟩ := mem_between.mp member
    obtain rfl : j = a := by omega
    have leastA : min ≤ t.lastKey j :=
      atLeast.trans (le_last (part_sorted sorted locatedA.inside) stored)
    have keyA : ∀ x, (e :: l).getLast? = some x → x.1 = t.lastKey j := fun x final =>
      last_between sorted (filled j locatedA.inside) locatedA.inside le_rfl
        (fun k after before => absurd before (by omega)) (Nat.lt_succ_self j) leastA
        (within _ (last_mem (filled j locatedA.inside))) (first ▸ final)
        (Nat.succ_le_of_lt locatedA.inside)
    have insideLast : b - 1 < t.getNumSegments := by omega
    have storedLast := last_mem (filled (b - 1) insideLast)
    have leastB : min ≤ t.lastKey (b - 1) ∧ t.lastKey (b - 1) ≤ max := by
      rcases Nat.eq_or_lt_of_le (show j ≤ b - 1 by omega) with same | later
      · rw [← same]
        exact ⟨leastA, within _ (last_mem (filled j locatedA.inside))⟩
      · exact ⟨locatedA.above (b - 1) later insideLast _ storedLast,
          locatedB.below (b - 1) (by omega) _ storedLast⟩
    have keyB : ∀ x, (t.between min max j (b + 1 - j)).getLast? = some x →
        x.1 = t.lastKey (b - 1) := fun x final =>
      last_between sorted (filled (b - 1) insideLast) insideLast (by omega)
        (fun k after before y stored => by
          obtain rfl : k = b := by omega
          exact beyond y stored) (by omega) leastB.1 leastB.2 final (by omega)
    obtain ⟨y, lastA⟩ := Option.ne_none_iff_exists'.mp
      (mt List.getLast?_eq_none_iff.mp (List.cons_ne_nil e l))
    have some : t.between min max j (b + 1 - j) ≠ [] := by
      rw [show b + 1 - j = 1 + (b - j) by omega, between_add, first]
      exact List.cons_ne_nil _ _
    obtain ⟨z, lastB⟩ := Option.ne_none_iff_exists'.mp (mt List.getLast?_eq_none_iff.mp some)
    rw [none, List.getLast?_nil, Option.none_or, lastA, lastB, Option.map_some, Option.getD_some,
      keyA y lastA, or_iff_right holds]
    constructor
    · exact fun same => (same z rfl).trans (keyB z lastB)
    · intro same x isLast
      rw [← Option.some.inj isLast, same, keyB z lastB]

end Exact

/-- Nothing of the interval comes before the segment, from the pairs before it. -/
theorem between_before (locatedA : t.Located min a) (order : min ≤ max) :
    t.between min max 0 a = [] ↔ ∀ j < a, ∀ x ∈ t.part j, x.1 < min := by
  constructor
  · intro none j before x stored
    have atMost := locatedA.below j before x stored
    by_contra reaches
    have member : x ∈ t.between min max 0 a :=
      mem_between.mpr ⟨⟨j, Nat.zero_le j, by omega, stored⟩, not_lt.mp reaches, atMost.trans order⟩
    rw [none] at member
    cases member
  · intro below
    refine List.eq_nil_iff_forall_not_mem.mpr fun x member => ?_
    obtain ⟨⟨j, -, upper, stored⟩, atLeast, -⟩ := mem_between.mp member
    exact absurd atLeast (not_le.mpr (below j (by omega) x stored))

/-- Nothing of the interval comes after the segment, from the pairs after it. -/
theorem between_after (locatedB : t.Located max b) (order : min ≤ max) (n : Nat)
    (whole : b + 1 + n = t.getNumSegments) : t.between min max (b + 1) n = [] ↔
      ∀ j, b < j → j < t.getNumSegments → ∀ x ∈ t.part j, max < x.1 := by
  constructor
  · intro none j after inside x stored
    have atLeast := locatedB.above j after inside x stored
    by_contra within
    have member : x ∈ t.between min max (b + 1) n :=
      mem_between.mpr ⟨⟨j, after, by omega, stored⟩, order.trans atLeast, not_lt.mp within⟩
    rw [none] at member
    cases member
  · intro above
    refine List.eq_nil_iff_forall_not_mem.mpr fun x member => ?_
    obtain ⟨⟨j, lower, upper, stored⟩, -, atMost⟩ := mem_between.mp member
    exact absurd atMost (not_le.mpr (above j lower (by omega) x stored))

/-- The segment of the lower bound does not come after the one of the upper bound, where it holds
a part of the interval and nothing beyond. -/
theorem located_order (locatedA : t.Located min a) (locatedB : t.Located max b)
    (same : min = max → a = b) (stored : x ∈ t.part a) (least : min ≤ x.1)
    (within : ∀ x ∈ t.part a, x.1 ≤ max) : a ≤ b := by
  by_contra less
  have reaches := locatedB.above a (not_le.mp less) locatedA.inside x stored
  have equal := le_antisymm (within x stored) reaches
  obtain ⟨y, storedB, sameY⟩ := locatedB.stored x
    (mem_contents.mpr ⟨a, locatedA.inside, stored⟩) equal
  have below := locatedA.below b (not_le.mp less) y storedB
  have bounds : min = max := by omega
  have := same bounds
  omega

/-- A sum within one segment: it starts the interval, and ends it. -/
theorem one_iff (sorted : SortedPairs t.contents) (locatedA : t.Located min a)
    (locatedB : t.Located max b) (order : min ≤ max) {e : Int × Int} {l : List (Int × Int)}
    (first : t.between min max a 1 = e :: l) (one : (∃ x ∈ t.part a, max < x.1) ∨ a = b) :
    Sums (t.inRange min max) (follow { SumResult.empty with firstKey := e.1 } (e :: l)) ↔
      t.Covered min max a b := by
  have insideA := locatedA.inside
  have all := t.between_add min max 0 a (1 + (t.getNumSegments - (a + 1)))
  rw [show a + (1 + (t.getNumSegments - (a + 1))) = t.getNumSegments by omega,
    ← inRange_eq_between, Nat.zero_add, between_add t min max a, first] at all
  have member : e ∈ t.between min max a 1 := first ▸ List.mem_cons_self
  obtain ⟨⟨j, lower, upper, stored⟩, least, most⟩ := mem_between.mp member
  obtain rfl : j = a := by omega
  have some : t.inRange min max ≠ [] := by simp [all]
  have here : ∃ x ∈ t.part j, min ≤ x.1 ∧ x.1 ≤ max := ⟨e, stored, least, most⟩
  rw [Covered, or_iff_right some, and_iff_right here, ← between_before locatedA order, all, follow,
    sums_iff rfl]
  refine and_congr_right fun _ => ?_
  have final : ∀ x, (e :: l).getLast? = .some x →
      (((e :: l).getLast?.map Prod.fst).getD SumResult.empty.lastKey) = x.1 := by
    intro x isLast
    rw [isLast, Option.map_some, Option.getD_some]
  rw [and_iff_left final]
  by_cases beyond : ∃ x ∈ t.part j, max < x.1
  · refine iff_of_true ?_ (Or.inl beyond)
    obtain ⟨x, storedX, greater⟩ := beyond
    refine List.eq_nil_iff_forall_not_mem.mpr fun y memberY => ?_
    obtain ⟨⟨k, lowerK, upperK, storedY⟩, -, atMost⟩ := mem_between.mp memberY
    have le := part_le sorted (show j < k by omega) (by omega) storedX storedY
    omega
  · have same : j = b := one.resolve_left beyond
    rw [or_iff_right beyond, and_iff_left (Or.inl same), ← between_after locatedB order
      (t.getNumSegments - (j + 1)) (by omega), same]

/-- A sum over several segments. -/
theorem several_iff (sorted : SortedPairs t.contents) (locatedA : t.Located min a)
    (filled : ∀ i < t.getNumSegments, 0 < t.segments i)
    (locatedB : t.Located max b) (order : min ≤ max) (less : a < b) {e : Int × Int}
    {l : List (Int × Int)} (first : t.between min max a 1 = e :: l)
    (within : ∀ x ∈ t.part a, x.1 ≤ max) :
    Sums (t.inRange min max)
        { accumulate { SumResult.empty with firstKey := e.1 } (t.scanned min max a b) with
          lastKey := ((((t.part b).takeWhile fun e => e.1 ≤ max).getLast?.or
            (e :: l).getLast?).map Prod.fst).getD 0 } ↔ t.Covered min max a b := by
  have insideB := locatedB.inside
  have all := t.between_add min max 0 a (b + 1 - a + (t.getNumSegments - (b + 1)))
  rw [show a + (b + 1 - a + (t.getNumSegments - (b + 1))) = t.getNumSegments by omega,
    ← inRange_eq_between, Nat.zero_add, between_add t min max a,
    show a + (b + 1 - a) = b + 1 by omega] at all
  have starts : t.between min max a (b + 1 - a) =
      e :: (l ++ t.between min max (a + 1) (b - a)) := by
    rw [show b + 1 - a = 1 + (b - a) by omega, between_add, first]
    rfl
  have member : e ∈ t.between min max a 1 := first ▸ List.mem_cons_self
  obtain ⟨⟨j, lower, upper, stored⟩, least, most⟩ := mem_between.mp member
  obtain rfl : j = a := by omega
  have some : t.inRange min max ≠ [] := by simp [all, starts]
  have none : ¬∃ x ∈ t.part j, max < x.1 := fun ⟨x, storedX, greater⟩ =>
    absurd (within x storedX) (not_le.mpr greater)
  have here : ∃ x ∈ t.part j, min ≤ x.1 ∧ x.1 ≤ max := ⟨e, stored, least, most⟩
  rw [Covered, or_iff_right some, and_iff_right here, or_iff_right none, or_iff_right less.ne,
    ← lastKey_iff sorted filled locatedA locatedB less within first,
    ← between_before locatedA order,
    ← between_after locatedB order (t.getNumSegments - (b + 1)) (by omega), all,
    scanned_eq sorted locatedA locatedB less, starts]
  exact sums_iff rfl

/-- The sum is exact where the two segments cover the interval. -/
theorem Valid.sum_iff (valid : t.Valid) (min max : Int) : ∃ a b r,
    t.findSegment min = some a ∧ t.findSegment max = some b ∧ t.sum min max = some r ∧
      (Sums (t.inRange min max) r ↔ t.Covered min max a b) := by
  obtain ⟨a, foundA, locatedA⟩ := valid.findSegment min
  obtain ⟨b, foundB, locatedB⟩ := valid.findSegment max
  by_cases trivial : t.isEmpty ∨ min > max
  · refine ⟨a, b, SumResult.empty, foundA, foundB, by rw [PmaImpl4.sum, if_pos trivial], ?_⟩
    have nothing : t.inRange min max = [] := by
      rcases trivial with empty | order
      · have zero : t.cardinality = 0 := of_decide_eq_true empty
        rw [inRange, List.length_eq_zero_iff.mp (valid.count.symm.trans zero)]
        rfl
      · refine List.filter_eq_nil_iff.mpr fun x _ inside => ?_
        have bounds := of_decide_eq_true inside
        omega
    rw [nothing]
    exact iff_of_true sums_empty (Or.inl nothing)
  · obtain ⟨stored, order⟩ := not_or.mp trivial
    have order : min ≤ max := not_lt.mp order
    have filled := valid.nonempty stored
    rcases sum_cases (part_sorted valid.sorted locatedA.inside) stored order foundA foundB with
      ⟨none, result⟩ | ⟨e, l, first, ⟨one, result⟩ | ⟨within, several, result⟩⟩
    · refine ⟨a, b, _, foundA, foundB, result, fun sums => ?_, fun covered => ?_⟩
      · exact Or.inl (List.eq_nil_of_length_eq_zero sums.numElements.symm)
      · rcases covered with nothing | ⟨-, ⟨x, storedX, least, most⟩, -⟩
        · rw [nothing]
          exact sums_empty
        · have member : x ∈ t.between min max a 1 :=
            mem_between.mpr ⟨⟨a, le_rfl, Nat.lt_succ_self a, storedX⟩, least, most⟩
          rw [none] at member
          cases member
    · exact ⟨a, b, _, foundA, foundB, result,
        one_iff valid.sorted locatedA locatedB order first one⟩
    · have member : e ∈ t.between min max a 1 := first ▸ List.mem_cons_self
      obtain ⟨⟨j, lower, upper, storedE⟩, least, -⟩ := mem_between.mp member
      obtain rfl : j = a := by omega
      have same : min = max → j = b := fun equal =>
        Option.some.inj (foundA.symm.trans (equal ▸ foundB))
      have le := located_order locatedA locatedB same storedE least within
      exact ⟨j, b, _, foundA, foundB, result, several_iff valid.sorted locatedA filled locatedB
        order (lt_of_le_of_ne le several) first within⟩

/-- **Range sums.** After any sequence of insertions a range sum is defined, and it reports the
number of the stored pairs in the interval, their sums and their first and last key exactly where
the segments that `find_segment` gives for its bounds cover the interval. -/
theorem insertions_sum_iff (pairs : List (Int × Int)) (min max : Int) :
    ∃ t, runFrom PmaImpl4.insert create pairs = some t ∧ t.contents.Perm pairs ∧
      SortedPairs t.contents ∧ ∃ a b r, t.findSegment min = some a ∧
        t.findSegment max = some b ∧ t.sum min max = some r ∧
        (Sums (t.contents.filter fun e => min ≤ e.1 ∧ e.1 ≤ max) r ↔ t.Covered min max a b) := by
  obtain ⟨t, run, valid, perm⟩ := create_valid.run pairs
  have empty : create.contents = [] := by decide +kernel
  rw [empty, List.append_nil] at perm
  exact ⟨t, run, perm, valid.sorted, valid.sum_iff min max⟩

/-- The first four segments hold the keys 0 and 10, 20 and 30, 40 and 50, 60 and 70: the interval
`[15, 20]` starts after the last key of the first segment, and the sum is that of nothing. -/
theorem sum_misses_next_segment :
    ∃ t, runFrom PmaImpl4.insert create ((List.range 8).map fun i => ((i : Int) * 10, (i : Int))) =
        some t ∧ t.sum 15 20 = some SumResult.empty ∧
      ¬Sums (t.contents.filter fun e => 15 ≤ e.1 ∧ e.1 ≤ 20) SumResult.empty := by
  have run : (runFrom PmaImpl4.insert create
      ((List.range 8).map fun i => ((i : Int) * 10, (i : Int)))).map (fun t =>
        (t.sum 15 20, t.contents.filter fun e => 15 ≤ e.1 ∧ e.1 ≤ 20)) =
      some (some SumResult.empty, [(20, 2)]) := by decide +kernel
  obtain ⟨t, inserted, result⟩ := Option.map_eq_some_iff.mp run
  obtain ⟨summed, stored⟩ := Prod.mk.inj result
  refine ⟨t, inserted, summed, fun sums => ?_⟩
  rw [stored] at sums
  exact absurd sums.numElements (by decide)

end PmaImpl4

end Rma
