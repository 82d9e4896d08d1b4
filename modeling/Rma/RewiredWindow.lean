import Rma.Base.Pieces
import Rma.RewiredSpread
import Rma.SpreadLocal

/-!
# A spread with rewiring, extent by extent

`Geometry.Plan` says that the sizes given to the segments of the window take the elements `m`
up. `spreadPairs_spec` writes the pairs of an extent, and `Spread` is the invariant between two
extents: what the extents after the current one will show, in their own cells or in the buffer
that is to take their place (`extentView`), is what the plan gives them.
-/

namespace Rma

open Base Rma.Partition SpreadLocal

namespace SpreadWithRewiring

/-! ## The plan -/

theorem sum_take_add_one (sizes : List Nat) (i : Nat) :
    (sizes.take (i + 1)).sum = (sizes.take i).sum + sizes.getD i 0 := by
  rw [List.take_add_one, List.sum_append, List.getD_eq_getElem?_getD]
  cases sizes[i]? <;> simp

namespace Geometry

/-- The size that a segment of the window is given. -/
def quota (g : Geometry) (i : Nat) : Nat := (quotas g.partitions).getD i 0

/-- The number of elements given to the first pairs of segments. -/
def before (g : Geometry) (j : Nat) : Nat := ((quotas g.partitions).take (2 * j)).sum

/-- The elements of a pair of segments. -/
def chunk (g : Geometry) (m : List (Int × Int)) (j : Nat) : List (Int × Int) := piece g.before m j

/-- Where the run of the `k`-th pair of an extent starts in its cells, when it is the `j`-th pair
of the window. -/
def outputStart (g : Geometry) (k j : Nat) : Nat :=
  2 * k * g.capacity + (g.capacity - g.quota (2 * j))

/-- The segments of the window are whole extents, and the partitions give each of them a size, so
that they take up the elements `m`. -/
structure Plan (g : Geometry) (half extents : Nat) (m : List (Int × Int)) : Prop where
  half_pos : 0 < half
  segmentsPerExtent : g.segmentsPerExtent = 2 * half
  windowStart : g.segmentsPerExtent ∣ g.windowStart
  windowLength : g.windowLength = extents * g.segmentsPerExtent
  segments : (quotas g.partitions).length = g.windowLength
  nonempty : ∀ p ∈ g.partitions, 0 < p.segments
  fits : ∀ n ∈ quotas g.partitions, 0 < n ∧ n ≤ g.capacity
  total : (quotas g.partitions).sum = m.length

/-- Where the new element goes, and the segments that may be told to have received it. -/
def target (g : Geometry) (insert : Option (Int × Int)) (place : Nat) : Target where
  insert := insert
  place := place
  receives := Receives (quotas g.partitions) g.windowStart place

section Plan

variable {g : Geometry} {half extents i j : Nat} {m : List (Int × Int)}

theorem before_succ (g : Geometry) (j : Nat) :
    g.before (j + 1) = g.before j + (g.quota (2 * j) + g.quota (2 * j + 1)) := by
  rw [before, Nat.mul_succ, sum_take_add_one, sum_take_add_one, Nat.add_assoc]
  rfl

theorem before_mono (g : Geometry) (j : Nat) : g.before j ≤ g.before (j + 1) := by
  rw [before_succ]
  exact Nat.le_add_right _ _

theorem take_before_succ (g : Geometry) (m : List (Int × Int)) (j : Nat) :
    m.take (g.before (j + 1)) = m.take (g.before j) ++ g.chunk m j :=
  (take_append_piece (g.before_mono j)).symm

theorem Plan.before_le (plan : g.Plan half extents m) (j : Nat) : g.before j ≤ m.length := by
  rw [← plan.total]
  exact (List.take_sublist _ _).sum_le_sum fun _ _ => Nat.zero_le _

theorem Plan.length_take (plan : g.Plan half extents m) (j : Nat) :
    (m.take (g.before j)).length = g.before j := by
  rw [List.length_take, min_eq_left (plan.before_le j)]

theorem Plan.length_chunk (plan : g.Plan half extents m) (j : Nat) :
    (g.chunk m j).length = g.quota (2 * j) + g.quota (2 * j + 1) := by
  rw [chunk, length_piece (plan.before_le (j + 1)), before_succ, Nat.add_sub_cancel_left]

theorem Plan.quota_fits (plan : g.Plan half extents m) (inside : i < g.windowLength) :
    0 < g.quota i ∧ g.quota i ≤ g.capacity := by
  rw [← plan.segments] at inside
  rw [quota, List.getD_eq_getElem _ _ inside]
  exact plan.fits _ (List.getElem_mem inside)

/-- The pairs of segments of the window. -/
theorem Plan.pairs (plan : g.Plan half extents m) : g.windowLength = 2 * (extents * half) := by
  rw [plan.windowLength, plan.segmentsPerExtent]
  ring

/-- The new element is in the segment to which its place belongs. -/
theorem receives_pair (inside : 2 * j + 1 < (quotas g.partitions).length)
    (below : i < g.quota (2 * j) + g.quota (2 * j + 1)) :
    Receives (quotas g.partitions) g.windowStart (g.before j + i)
      (g.windowStart + 2 * j + if i ≥ g.quota (2 * j) then 1 else 0) := by
  have left := sum_take_add_one (quotas g.partitions) (2 * j)
  have right := sum_take_add_one (quotas g.partitions) (2 * j + 1)
  unfold quota before at *
  by_cases later : i ≥ (quotas g.partitions).getD (2 * j) 0
  · rw [if_pos later]
    exact ⟨2 * j + 1, inside, rfl, by omega, by omega⟩
  · rw [if_neg later]
    exact ⟨2 * j, by omega, rfl, by omega, by omega⟩

end Plan

/-! ## Pairs of segments -/

/-- The separators of a pair of segments are the minima of its elements. -/
def Minima (g : Geometry) (m : List (Int × Int)) (index : StaticIndex) (j : Nat) : Prop :=
  index.getSeparatorKey (g.windowStart + 2 * j) = ((g.chunk m j).getD 0 default).1 ∧
    index.getSeparatorKey (g.windowStart + 2 * j + 1) =
      ((g.chunk m j).getD (g.quota (2 * j)) default).1

/-- From one index to the other the pairs from `first` to `last` get their minima. -/
structure Separated (g : Geometry) (m : List (Int × Int)) (N : Nat) (index index' : StaticIndex)
    (first last : Nat) : Prop where
  sized : index'.Sized N
  minima : ∀ j, first ≤ j → j < last → g.Minima m index' j
  others : ∀ i < N, i < g.windowStart + 2 * first ∨ g.windowStart + 2 * last ≤ i →
    index'.getSeparatorKey i = index.getSeparatorKey i

/-- The first `k` pairs of some cells hold the elements of the pairs from `first` on. -/
def Holds (g : Geometry) (m : List (Int × Int)) (view : Nat → Int × Int) (first k : Nat) : Prop :=
  ∀ i < k, readCells view (g.outputStart i (first + i)) (g.chunk m (first + i)).length =
    g.chunk m (first + i)

section Pairs

variable {g : Geometry} {half extents first last j k N : Nat} {m : List (Int × Int)}
  {index index' : StaticIndex} {view view' : Nat → Int × Int}

theorem Separated.refl (sized : index.Sized N) : g.Separated m N index index first first :=
  ⟨sized, fun _ lower upper => absurd upper (by omega), fun _ _ _ => rfl⟩

/-- The stores for a pair. -/
theorem Separated.pair (sized : index.Sized N) (within : g.windowStart + 2 * j + 1 < N) :
    g.Separated m N index ((index.setSeparatorKey (g.windowStart + 2 * j)
      ((g.chunk m j).getD 0 default).1).setSeparatorKey (g.windowStart + 2 * j + 1)
        ((g.chunk m j).getD (g.quota (2 * j)) default).1) j (j + 1) := by
  have one := sized.stored (show g.windowStart + 2 * j < N by omega)
    ((g.chunk m j).getD 0 default).1
  have two := one.sized.stored within ((g.chunk m j).getD (g.quota (2 * j)) default).1
  refine ⟨two.sized, ?_, ?_⟩
  · intro i lower upper
    obtain rfl : i = j := by omega
    exact ⟨by rw [two.others _ (by omega) (by omega), one.separator], two.separator⟩
  · intro i inside outside
    rw [two.others i inside (by omega), one.others i inside (by omega)]

theorem Separated.trans {index'' : StaticIndex} {middle : Nat}
    (upper : g.Separated m N index index' middle last)
    (lower : g.Separated m N index' index'' first middle) (le : first ≤ middle)
    (le' : middle ≤ last) (within : g.windowStart + 2 * last ≤ N) :
    g.Separated m N index index'' first last := by
  refine ⟨lower.sized, ?_, ?_⟩
  · intro j reached below
    by_cases early : j < middle
    · exact lower.minima j reached early
    · have kept := upper.minima j (by omega) below
      unfold Minima at kept ⊢
      rw [lower.others _ (by omega) (Or.inr (by omega)),
        lower.others _ (by omega) (Or.inr (by omega))]
      exact kept
  · intro i inside outside
    rw [lower.others i inside (by omega), upper.others i inside (by omega)]

/-- The run of a pair lies in its cells. -/
theorem Plan.outputStart_bounds (plan : g.Plan half extents m) (inside : 2 * j + 1 < g.windowLength)
    (k : Nat) : 2 * k * g.capacity ≤ g.outputStart k j ∧
      g.outputStart k j + (g.chunk m j).length ≤ 2 * (k + 1) * g.capacity := by
  have left := plan.quota_fits (show 2 * j < g.windowLength by omega)
  have right := plan.quota_fits inside
  have cells : 2 * (k + 1) * g.capacity = 2 * k * g.capacity + (g.capacity + g.capacity) := by ring
  rw [plan.length_chunk, outputStart]
  omega

/-- The cells of the pairs say what they hold. -/
theorem Plan.holds_congr (plan : g.Plan half extents m)
    (inside : 2 * (first + k) ≤ g.windowLength)
    (same : ∀ p < 2 * k * g.capacity, view' p = view p) (holds : g.Holds m view first k) :
    g.Holds m view' first k := by
  intro i below
  have bounds := plan.outputStart_bounds (j := first + i) (by omega) i
  have cells : 2 * (i + 1) * g.capacity ≤ 2 * k * g.capacity := by
    apply Nat.mul_le_mul_right
    omega
  rw [← holds i below, length_readCells]
  exact readCells_congr fun p _ upper => same p (by omega)

end Pairs

end Geometry

section Extent

variable {s : SpreadWithRewiring} {cells : Nat → Int × Int} {pairs half extents place N e : Nat}
  {insert₀ : Option (Int × Int)} {m : List (Int × Int)} {destination : Option Nat}

/-- What the loop over the first `k` pairs of an extent does. -/
structure PairsWritten (g : Geometry) (cells : Nat → Int × Int) (pairs : Nat) (target : Target)
    (m : List (Int × Int)) (N : Nat) (destination : Option Nat) (first k : Nat) (t t' : Progress) :
    Prop where
  left : Left g cells pairs target t'.run (m.take (g.before first))
  cursor : At g.partitions t'.partitionId t'.partitionOffset (2 * first - 2)
  separated : g.Separated m N t.index t'.index first (first + k)
  frame : Frame destination t.run t'.run 0 (2 * k * g.capacity)
  holds : g.Holds m (t'.run.view destination) first k
  stop : t'.run.input.stop ≤ t.run.input.stop

theorem spreadPairs_spec {t : Progress} (k : Nat) (plan : s.geometry.Plan half extents m)
    (filled : s.geometry.Filled pairs) (inside : e < extents) (le : k ≤ half)
    (within : s.windowStart + s.windowLength ≤ N) (sized : t.index.Sized N)
    (left : Left s.geometry cells pairs (s.geometry.target insert₀ place) t.run
      (m.take (s.geometry.before (e * half + k))))
    (cursor : At s.partitions t.partitionId t.partitionOffset (2 * (e * half + k) - 2))
    (apart : ∀ offset, destination = some offset → t.run.input.stop ≤ offset) :
    ∃ t', s.spreadPairs destination e k t = some t' ∧
      PairsWritten s.geometry cells pairs (s.geometry.target insert₀ place) m N destination
        (e * half) k t t' := by
  induction k generalizing t with
  | zero =>
      exact ⟨t, rfl, left, cursor, Geometry.Separated.refl sized, Frame.refl,
        fun _ below => absurd below (Nat.not_lt_zero _), le_rfl⟩
  | succ k ih =>
      have j_eq : e * half + (k + 1) = e * half + k + 1 := rfl
      rw [j_eq] at left cursor
      generalize same : e * half + k = j at left cursor
      have window : 2 * j + 1 < s.geometry.windowLength := by
        have := Nat.mul_le_mul_right half (Nat.succ_le_of_lt inside)
        rw [Nat.succ_mul] at this
        rw [plan.pairs]
        omega
      have segment : s.extent2segment e + 2 * k = s.geometry.windowStart + 2 * j := by
        rw [← same]
        change s.windowStart + e * s.geometry.segmentsPerExtent + 2 * k = _
        rw [plan.segmentsPerExtent]
        change _ = s.windowStart + _
        ring
      have lhs : getCurrent s.partitions t.partitionId t.partitionOffset =
          s.geometry.quota (2 * j) := cursor.getCurrent_eq
      have rhs : getNext s.partitions t.partitionId t.partitionOffset =
          s.geometry.quota (2 * j + 1) := cursor.getNext_eq plan.nonempty
      have start : 2 * k * s.getSegmentCapacity +
          (s.getSegmentCapacity - s.geometry.quota (2 * j)) = s.geometry.outputStart k j := rfl
      have length := plan.length_chunk j
      have quotas := plan.quota_fits (show 2 * j < s.geometry.windowLength by omega)
      have bounds := plan.outputStart_bounds window k
      rw [Geometry.take_before_succ] at left
      rcases copyRun_spec (s.geometry.outputStart k j) (s.geometry.windowStart + 2 * j)
        (s.geometry.quota (2 * j)) (s.geometry.quota (2 * j + 1)) left filled
        (Nat.le_add_right _ s.storage.numberSegments) apart (by
          intro i below here
          rw [plan.length_take] at here
          change Receives _ _ (s.geometry.target insert₀ place).place _
          rw [here]
          exact Geometry.receives_pair (by rw [plan.segments]; exact window) (by omega)) with
        ⟨r, copied, left', frame, read, stop⟩
      rw [length] at copied
      rw [spreadPairs, lhs, rhs, start, segment]
      simp only
      rw [copied, Option.bind_some]
      -- the stored separators are the first elements of the two segments
      have first := getD_readCells (a := r.view destination) (p := s.geometry.outputStart k j)
        (show 0 < (s.geometry.chunk m j).length by omega) default
      have second := getD_readCells (a := r.view destination) (p := s.geometry.outputStart k j)
        (show s.geometry.quota (2 * j) < (s.geometry.chunk m j).length by
          have := plan.quota_fits window
          omega) default
      rw [read, Nat.add_zero] at first
      rw [read] at second
      rw [← first, ← second]
      have pair := Geometry.Separated.pair (m := m) sized
        (show s.geometry.windowStart + 2 * j + 1 < N by
          change 2 * j + 1 < s.windowLength at window
          change s.windowStart + 2 * j + 1 < N
          omega)
      have back : 2 * (j + 1) - 2 - 2 = 2 * j - 2 := rfl
      have moved := cursor.moveBackwards plan.nonempty le_rfl (n := 2)
      rw [back] at moved
      rw [← same] at left' moved
      rcases @ih ⟨r, _, _, _⟩ (by omega) pair.sized left' moved
        (fun offset same => stop.trans (apart offset same)) with ⟨t', rest, written⟩
      refine ⟨t', rest, written.left, written.cursor, ?_, ?_, ?_, written.stop.trans stop⟩
      · have rest := written.separated
        rw [same] at rest
        rw [j_eq, same]
        apply pair.trans rest (by omega) (Nat.le_succ _)
        change 2 * j + 1 < s.windowLength at window
        change s.windowStart + 2 * (j + 1) ≤ N
        omega
      · rw [length] at frame bounds
        have cells : 2 * (k + 1) * s.geometry.capacity =
          2 * k * s.geometry.capacity + 2 * s.geometry.capacity := by ring
        exact (frame.mono (Nat.zero_le _) (by omega)).trans
          (written.frame.mono le_rfl (by omega))
      · intro i below
        rcases Nat.eq_or_lt_of_le (Nat.le_of_lt_succ below) with rfl | below
        · rw [same, written.frame.readCells_view (Or.inr (by omega)), read]
        · exact written.holds i below

/-- Where the object stands, as the state of the copying loops. -/
def runAt (s : SpreadWithRewiring) (buffer : Nat → Int × Int) (input : Input) : Run where
  cells := s.storage.cell
  buffer := buffer
  input := input
  insert := s.insert
  insertToSegment := s.insertToSegment
  insertPredecessor := s.insertPredecessor
  insertSuccessor := s.insertSuccessor

/-- The object after an extent. -/
def resume (s : SpreadWithRewiring) (t : Progress) : SpreadWithRewiring :=
  { s with
    storage := s.storage.withCells t.run.cells
    index := t.index
    partitionId := t.partitionId
    partitionOffset := t.partitionOffset
    insert := t.run.insert
    insertToSegment := t.run.insertToSegment
    insertPredecessor := t.run.insertPredecessor
    insertSuccessor := t.run.insertSuccessor
    position := t.run.input.stop }

/-- The position says where the input stands, as long as there are elements to read. -/
theorem Unread.rebuilt {g : Geometry} {input : Input} {l : List (Int × Int)}
    (unread : Unread g cells pairs input l) (filled : g.Filled pairs) (even : 2 ∣ g.windowStart)
    (nonempty : l ≠ []) :
    (⟨((input.stop - 1) / (2 * g.capacity) * 2 : Nat),
      input.stop - g.pairStart ((input.stop - 1) / (2 * g.capacity) * 2),
      g.pairStart ((input.stop - 1) / (2 * g.capacity) * 2)⟩ : Input) = input := by
  cases unread with
  | finished => exact absurd rfl nonempty
  | inside t run inside positive le =>
      obtain ⟨w, start⟩ := even
      have size := filled t inside
      have cell : g.windowStart + 2 * t = 2 * (w + t) := by omega
      have first : (g.windowStart + 2 * t) * g.capacity = (w + t) * (2 * g.capacity) := by
        rw [cell]
        ring
      have segment : (g.pairStart (g.windowStart + 2 * t) + run - 1) / (2 * g.capacity) * 2 =
          g.windowStart + 2 * t := by
        have quotient : (g.pairStart (g.windowStart + 2 * t) + run - 1) / (2 * g.capacity) =
            w + t := by
          have next : (w + t + 1) * (2 * g.capacity) =
              (w + t) * (2 * g.capacity) + 2 * g.capacity := Nat.succ_mul _ _
          unfold Geometry.pairSize at le
          unfold Geometry.pairStart
          apply Nat.div_eq_of_lt_le
          · omega
          · omega
        rw [quotient]
        omega
      simp only [Input.stop, segment, Nat.add_sub_cancel_left]

theorem spreadElements_spec {input : Input} {buffer : Nat → Int × Int}
    (plan : s.geometry.Plan half extents m) (filled : s.geometry.Filled pairs)
    (inside : e < extents) (within : s.windowStart + s.windowLength ≤ N)
    (sized : s.index.Sized N) (position : s.position = input.stop)
    (left : Left s.geometry cells pairs (s.geometry.target insert₀ place) (s.runAt buffer input)
      (m.take (s.geometry.before ((e + 1) * half))))
    (cursor : At s.partitions s.partitionId s.partitionOffset (2 * ((e + 1) * half) - 2))
    (apart : ∀ offset, destination = some offset → input.stop ≤ offset) :
    ∃ t', s.spreadElements destination buffer e = some (s.resume t', t'.run.buffer) ∧
      PairsWritten s.geometry cells pairs (s.geometry.target insert₀ place) m N destination
        (e * half) half ⟨s.runAt buffer input, s.index, s.partitionId, s.partitionOffset⟩ t' := by
  have all : (e + 1) * half = e * half + half := Nat.succ_mul e half
  rcases left.input with ⟨l, unread, sorted, whole, waiting⟩
  change Unread _ _ _ input l at unread
  have nonempty : l ≠ [] := by
    rintro rfl
    obtain ⟨k, rfl⟩ := Nat.exists_eq_add_one_of_ne_zero plan.half_pos.ne'
    have below := Nat.mul_le_mul_right (k + 1) (Nat.succ_le_of_lt inside)
    rw [Nat.succ_mul] at below
    have length := congrArg List.length whole
    rw [all, plan.length_take, ← Nat.add_assoc, Geometry.before_succ, length_merged] at length
    have one := plan.quota_fits (show 2 * (e * (k + 1) + k) < _ by rw [plan.pairs]; omega)
    have two := plan.quota_fits (show 2 * (e * (k + 1) + k) + 1 < _ by rw [plan.pairs]; omega)
    have most : (s.runAt buffer input).insert.toList.length ≤ 1 := by
      cases (s.runAt buffer input).insert <;> simp
    simp only [List.length_nil] at length
    omega
  have even : 2 ∣ s.geometry.windowStart :=
    (Dvd.intro half plan.segmentsPerExtent.symm).trans plan.windowStart
  have rebuilt := unread.rebuilt filled even nonempty
  rw [all] at left cursor
  rcases spreadPairs_spec (t := ⟨s.runAt buffer input, s.index, s.partitionId, s.partitionOffset⟩)
    half plan filled inside le_rfl within sized left cursor apart with ⟨t', spread, written⟩
  have halves : s.segmentsPerExtent / 2 = half := by
    have same : s.segmentsPerExtent = 2 * half := plan.segmentsPerExtent
    omega
  refine ⟨t', ?_, written⟩
  rw [spreadElements, position, halves]
  change (s.spreadPairs destination e half ⟨s.runAt buffer ⟨_, _, _⟩, _, _, _⟩).map _ = _
  rw [← rebuilt] at spread
  exact congrArg (Option.map _) spread

end Extent

/-! ## Between two extents -/

theorem withCells_eq {a b : Storage} (same : a = b.withCells a.cell) (cells : Nat → Int × Int) :
    a.withCells cells = b.withCells cells := by
  rw [same]
  rfl

/-- What an extent of the window is to show: the buffer that will take its place, or its cells. -/
def extentView (s : SpreadWithRewiring) (x : Nat) : Nat → Int × Int :=
  match s.extentsToRewire.find? fun b => b.extentId = x with
  | some b => b.cells
  | none => fun p => s.storage.cell (s.getOffset x + p)

/-- The extents from `e` on are spread: each of them shows the elements that the plan gives it, the
others are still to be written, and nothing else has changed since `s₀`. -/
structure Spread (s₀ : SpreadWithRewiring) (g : Geometry) (pairs half extents place N : Nat)
    (m : List (Int × Int)) (e : Nat) (s : SpreadWithRewiring) : Prop where
  geometry : s.geometry = g
  stored : s.storage = s₀.storage.withCells s.storage.cell
  detector : s.detector = s₀.detector
  left : ∃ input, s.position = input.stop ∧ ∀ buffer, Left g s₀.storage.cell pairs
    (g.target s₀.insert place) (s.runAt buffer input) (m.take (g.before (e * half)))
  cursor : At g.partitions s.partitionId s.partitionOffset (2 * (e * half) - 2)
  separated : g.Separated m N s₀.index s.index (e * half) (extents * half)
  holds : ∀ x, e ≤ x → x < extents → g.Holds m (s.extentView x) (x * half) half
  queue : (s.extentsToRewire.map Extent2Rewire.extentId).Pairwise (· > ·)
  queued : ∀ b ∈ s.extentsToRewire, e ≤ b.extentId ∧ b.extentId < extents
  outside : ∀ p, p < g.windowStart * g.capacity ∨
    (g.windowStart + g.windowLength) * g.capacity ≤ p → s.storage.cell p = s₀.storage.cell p
  usedKeys : s.usedKeys = s.extentsToRewire.length
  usedValues : s.usedValues = s.extentsToRewire.length

section Extents

variable {s₀ s : SpreadWithRewiring} {g : Geometry} {pairs half extents place N e x : Nat}
  {m : List (Int × Int)}

/-- The extents after the current one are beyond the position. -/
theorem getCurrentExtent_lt (capacity : 0 < s.geometry.capacity)
    (extent : 0 < s.geometry.segmentsPerExtent) :
    s.getCurrentExtent < x ↔ s.position ≤ s.getOffset x := by
  have capacity' : (0 : Int) < s.getSegmentCapacity := Nat.cast_pos.mpr capacity
  have extent' : (0 : Int) < s.segmentsPerExtent := Nat.cast_pos.mpr extent
  have cells : ((x * s.extentCells : Nat) : Int) =
      x * s.segmentsPerExtent * s.getSegmentCapacity := by
    unfold extentCells
    push_cast
    ring
  unfold getCurrentExtent position2extent getOffset
  rw [Int.ediv_lt_iff_lt_mul extent', Int.ediv_lt_iff_lt_mul capacity', ← cells]
  omega

/-- The cells of an extent, among those of the arrays. -/
theorem getOffset_add (plan : s.geometry.Plan half extents m) (x : Nat) :
    s.getOffset (x + 1) = s.getOffset x + 2 * half * s.geometry.capacity := by
  have extent : s.segmentsPerExtent = 2 * half := plan.segmentsPerExtent
  unfold getOffset extentCells
  rw [extent, Nat.succ_mul, Nat.add_assoc]
  rfl

theorem getOffset_mono {y : Nat} (le : x ≤ y) : s.getOffset x ≤ s.getOffset y :=
  Nat.add_le_add_left (Nat.mul_le_mul_right _ le) _

theorem getOffset_add_le (plan : s.geometry.Plan half extents m) {y : Nat} (before : x < y) :
    s.getOffset x + 2 * half * s.geometry.capacity ≤ s.getOffset y := by
  rw [← getOffset_add plan]
  exact getOffset_mono before

/-- The extents lie in the window. -/
theorem getOffset_extents (plan : s.geometry.Plan half extents m) : s.getOffset extents =
    (s.geometry.windowStart + s.geometry.windowLength) * s.geometry.capacity := by
  rw [plan.windowLength]
  unfold getOffset extentCells
  change s.windowStart * s.geometry.capacity + extents * (s.geometry.segmentsPerExtent *
    s.geometry.capacity) = (s.windowStart + _) * _
  ring

theorem extentView_of_mem {b : Extent2Rewire}
    (queue : (s.extentsToRewire.map Extent2Rewire.extentId).Pairwise (· > ·))
    (member : b ∈ s.extentsToRewire) : s.extentView b.extentId = b.cells := by
  have found : s.extentsToRewire.find? (fun b' => b'.extentId = b.extentId) = some b := by
    generalize s.extentsToRewire = l at queue member
    induction l with
    | nil => cases member
    | cons c l ih =>
        rw [List.map_cons, List.pairwise_cons] at queue
        rcases List.mem_cons.mp member with rfl | member
        · simp
        · have later := queue.1 _ (List.mem_map_of_mem member)
          rw [List.find?_cons_of_neg (by simpa using later.ne'), ih queue.2 member]
  rw [extentView, found]

theorem extentView_of_not_mem (absent : ∀ b ∈ s.extentsToRewire, b.extentId ≠ x) :
    s.extentView x = fun p => s.storage.cell (s.getOffset x + p) := by
  have none : s.extentsToRewire.find? (fun b => b.extentId = x) = none := by
    rw [List.find?_eq_none]
    intro b member
    simpa using absent b member
  rw [extentView, none]

theorem extentCells_eq (plan : s.geometry.Plan half extents m) :
    s.extentCells = 2 * half * s.geometry.capacity := by
  rw [← plan.segmentsPerExtent]
  rfl

/-- An extent that is rewired shows what it was to show, and so does any other one. -/
theorem extentView_rewire {b : Extent2Rewire} {rest : List Extent2Rewire} {p : Nat}
    (plan : s.geometry.Plan half extents m) (front : s.extentsToRewire = b :: rest)
    (queue : (s.extentsToRewire.map Extent2Rewire.extentId).Pairwise (· > ·))
    (inside : p < 2 * half * s.geometry.capacity) :
    extentView { s.rewire b with extentsToRewire := rest } x p = s.extentView x p := by
  have length : (readCells b.cells 0 s.extentCells).length = 2 * half * s.geometry.capacity := by
    rw [length_readCells, extentCells_eq plan]
  have sorted := queue
  rw [front, List.map_cons, List.pairwise_cons] at sorted
  have written : ∀ q, (s.rewire b).storage.cell q = writeCells s.storage.cell
      (s.getOffset b.extentId) (readCells b.cells 0 s.extentCells) q := fun _ => rfl
  by_cases same : x = b.extentId
  · subst same
    have absent : ∀ b' ∈ rest, b'.extentId ≠ b.extentId := fun b' member =>
      (sorted.1 _ (List.mem_map_of_mem member)).ne
    have member : b ∈ s.extentsToRewire := by
      rw [front]
      exact List.mem_cons_self
    rw [extentView_of_mem queue member, extentView_of_not_mem absent]
    change (s.rewire b).storage.cell (s.getOffset b.extentId + p) = _
    rw [written, writeCells_inside (Nat.le_add_right _ _) (by omega)]
    simp [readCells]
  · by_cases queued : ∃ b' ∈ rest, b'.extentId = x
    · rcases queued with ⟨b', member, rfl⟩
      rw [extentView_of_mem queue (by rw [front]; exact List.mem_cons_of_mem _ member),
        extentView_of_mem sorted.2 member]
    · have absent : ∀ b' ∈ rest, b'.extentId ≠ x := fun b' member other =>
        queued ⟨b', member, other⟩
      have absent' : ∀ b' ∈ s.extentsToRewire, b'.extentId ≠ x := by
        intro b' member
        rw [front] at member
        rcases List.mem_cons.mp member with rfl | member
        · exact fun other => same other.symm
        · exact absent b' member
      rw [extentView_of_not_mem absent, extentView_of_not_mem absent']
      change (s.rewire b).storage.cell (s.getOffset x + p) = _
      rw [written, writeCells_outside]
      rcases Nat.lt_or_gt_of_ne same with before | after
      · have := getOffset_add_le plan before
        omega
      · have := getOffset_add_le plan after
        omega

/-- An extent that the position has left is rewired to its buffer. -/
theorem Spread.rewire {b : Extent2Rewire} {rest : List Extent2Rewire}
    (spread : Spread s₀ g pairs half extents place N m e s) (plan : g.Plan half extents m)
    (capacity : 0 < g.capacity) (front : s.extentsToRewire = b :: rest)
    (left : s.getCurrentExtent < b.extentId) :
    Spread s₀ g pairs half extents place N m e { s.rewire b with extentsToRewire := rest } := by
  obtain rfl := spread.geometry
  have extent : 0 < s.geometry.segmentsPerExtent := by
    have := plan.half_pos
    rw [plan.segmentsPerExtent]
    omega
  have beyond := (getCurrentExtent_lt capacity extent).mp left
  have member : b ∈ s.extentsToRewire := by
    rw [front]
    exact List.mem_cons_self
  have length : (readCells b.cells 0 s.extentCells).length = 2 * half * s.geometry.capacity := by
    rw [length_readCells, extentCells_eq plan]
  have last := getOffset_add_le plan (spread.queued b member).2
  rw [getOffset_extents plan] at last
  have first : s.geometry.windowStart * s.geometry.capacity ≤ s.getOffset b.extentId :=
    Nat.le_add_right _ _
  have sorted := spread.queue
  rw [front, List.map_cons, List.pairwise_cons] at sorted
  refine ⟨rfl, ?_, spread.detector, ?_, spread.cursor, spread.separated, ?_, sorted.2, ?_, ?_, ?_,
    ?_⟩
  · exact withCells_eq spread.stored _
  · rcases spread.left with ⟨input, position, unwritten⟩
    refine ⟨input, position, fun buffer =>
      ⟨(unwritten buffer).input, fun p before => ?_, (unwritten buffer).counted⟩⟩
    have before : p < input.stop := before
    have intact : s.storage.cell p = _ := (unwritten buffer).intact p before
    rw [← intact]
    exact writeCells_outside (Or.inl (by omega))
  · intro x lower upper
    apply plan.holds_congr _ _ (spread.holds x lower upper)
    · rw [plan.pairs, ← Nat.succ_mul]
      exact Nat.mul_le_mul_left 2 (Nat.mul_le_mul_right half (Nat.succ_le_of_lt upper))
    · exact fun p inside => extentView_rewire plan front spread.queue inside
  · intro b' member
    exact spread.queued b' (by rw [front]; exact List.mem_cons_of_mem _ member)
  · intro p outside
    rw [← spread.outside p outside]
    exact writeCells_outside (by omega)
  · change s.usedKeys - 1 = rest.length
    rw [spread.usedKeys, front, List.length_cons, Nat.add_sub_cancel]
  · change s.usedValues - 1 = rest.length
    rw [spread.usedValues, front, List.length_cons, Nat.add_sub_cancel]

/-- After `reclaim_past_extents` the extents to rewire are among those not left. -/
theorem Spread.reclaim (plan : g.Plan half extents m) (capacity : 0 < g.capacity)
    (queue : List Extent2Rewire)
    (spread : Spread s₀ g pairs half extents place N m e { s with extentsToRewire := queue }) :
    Spread s₀ g pairs half extents place N m e (reclaim s.getCurrentExtent queue s) ∧
      ∀ b ∈ (reclaim s.getCurrentExtent queue s).extentsToRewire,
        (b.extentId : Int) ≤ (reclaim s.getCurrentExtent queue s).getCurrentExtent := by
  induction queue generalizing s with
  | nil => exact ⟨spread, fun b member => absurd member List.not_mem_nil⟩
  | cons b rest ih =>
      rw [SpreadWithRewiring.reclaim]
      by_cases left : (b.extentId : Int) > s.getCurrentExtent
      · rw [if_pos left]
        have current : (s.rewire b).getCurrentExtent = s.getCurrentExtent := rfl
        rw [← current]
        exact ih (spread.rewire plan capacity rfl left)
      · rw [if_neg left]
        refine ⟨spread, fun b' member => ?_⟩
        have sorted : (b.extentId :: rest.map Extent2Rewire.extentId).Pairwise (· > ·) :=
          spread.queue
        have current : getCurrentExtent { s with extentsToRewire := b :: rest } =
          s.getCurrentExtent := rfl
        rw [current]
        rcases List.mem_cons.mp member with rfl | member
        · omega
        · have below := (List.pairwise_cons.mp sorted).1 _ (List.mem_map_of_mem member)
          omega

/-- Where the elements of an extent are written: to its cells, or to a buffer that joins the
extents to be rewired. -/
inductive Destination (s : SpreadWithRewiring) (e : Nat) (buffer : Nat → Int × Int) :
    Option Nat → List Extent2Rewire → Prop
  | rewired : Destination s e buffer none (s.extentsToRewire ++ [⟨e, buffer⟩])
  | inPlace : Destination s e buffer (some (s.getOffset e)) s.extentsToRewire

section Destination

variable {buffer : Nat → Int × Int} {destination : Option Nat} {queue : List Extent2Rewire}

theorem Destination.mem {b : Extent2Rewire} (destined : Destination s e buffer destination queue)
    (member : b ∈ queue) : b ∈ s.extentsToRewire ∨ b = ⟨e, buffer⟩ := by
  cases destined with
  | rewired => simpa using member
  | inPlace => exact Or.inl member

theorem Destination.sublist (destined : Destination s e buffer destination queue) :
    s.extentsToRewire.Sublist queue := by
  cases destined with
  | rewired => exact List.sublist_append_left _ _
  | inPlace => exact List.Sublist.refl _

theorem Destination.sorted (destined : Destination s e buffer destination queue)
    (sorted : (s.extentsToRewire.map Extent2Rewire.extentId).Pairwise (· > ·))
    (later : ∀ b ∈ s.extentsToRewire, e < b.extentId) :
    (queue.map Extent2Rewire.extentId).Pairwise (· > ·) := by
  cases destined with
  | inPlace => exact sorted
  | rewired =>
      rw [List.map_append, List.pairwise_append]
      refine ⟨sorted, List.pairwise_singleton _ _, ?_⟩
      intro a member b here
      rcases List.mem_map.mp member with ⟨c, queued, rfl⟩
      rw [List.map_singleton, List.mem_singleton] at here
      rw [here]
      exact later c queued

/-- What the extent itself shows, and what those after it show. -/
theorem Destination.views {s₂ : SpreadWithRewiring} {r : Run}
    (destined : Destination s e buffer destination queue)
    (sorted : (queue.map Extent2Rewire.extentId).Pairwise (· > ·))
    (later : ∀ b ∈ s.extentsToRewire, e < b.extentId) (queue_eq : s₂.extentsToRewire = queue)
    (buffer_eq : r.buffer = buffer) (cells_eq : s₂.storage.cell = r.cells)
    (offset_eq : ∀ x, s₂.getOffset x = s.getOffset x) :
    s₂.extentView e = r.view destination ∧ ∀ x, e < x → ∀ p,
      r.cells (s.getOffset x + p) = s.storage.cell (s.getOffset x + p) →
        s₂.extentView x p = s.extentView x p := by
  subst queue_eq buffer_eq
  constructor
  · cases destined' : destination with
    | none =>
        rw [destined'] at destined
        have member : (⟨e, r.buffer⟩ : Extent2Rewire) ∈ s₂.extentsToRewire := by
          generalize s₂.extentsToRewire = queue at destined
          cases destined
          simp
        exact extentView_of_mem sorted member
    | some o =>
        rw [destined'] at destined
        have same : s₂.extentsToRewire = s.extentsToRewire ∧ o = s.getOffset e := by
          generalize s₂.extentsToRewire = queue at destined
          cases destined
          exact ⟨rfl, rfl⟩
        rw [extentView_of_not_mem fun b member => (later b (same.1 ▸ member)).ne', cells_eq,
          offset_eq, same.2]
        rfl
  · intro x after p kept
    by_cases queued : ∃ b ∈ s.extentsToRewire, b.extentId = x
    · rcases queued with ⟨b, member, rfl⟩
      rw [extentView_of_mem sorted (destined.sublist.subset member),
        extentView_of_mem (sorted.sublist (destined.sublist.map _)) member]
    · have absent : ∀ b ∈ s.extentsToRewire, b.extentId ≠ x := fun b member other =>
        queued ⟨b, member, other⟩
      have absent' : ∀ b ∈ s₂.extentsToRewire, b.extentId ≠ x := by
        intro b member
        rcases destined.mem member with member | rfl
        · exact absent b member
        · exact after.ne
      rw [extentView_of_not_mem absent, extentView_of_not_mem absent', cells_eq, offset_eq]
      exact kept

end Destination

/-- The extent `e` is spread after those that follow it. -/
theorem Spread.next {input : Input} {buffer : Nat → Int × Int} {destination : Option Nat}
    {t' : Progress} {queue : List Extent2Rewire} {keys values : Nat}
    (spread : Spread s₀ g pairs half extents place N m (e + 1) s) (plan : g.Plan half extents m)
    (inside : e < extents) (within : g.windowStart + g.windowLength ≤ N)
    (written : PairsWritten g s₀.storage.cell pairs (g.target s₀.insert place) m N destination
      (e * half) half ⟨s.runAt buffer input, s.index, s.partitionId, s.partitionOffset⟩ t')
    (destined : Destination s e t'.run.buffer destination queue) (keys_eq : keys = queue.length)
    (values_eq : values = queue.length) :
    Spread s₀ g pairs half extents place N m e
      { s.resume t' with extentsToRewire := queue, usedKeys := keys, usedValues := values } := by
  obtain rfl := spread.geometry
  have later : ∀ b ∈ s.extentsToRewire, e < b.extentId := fun b member =>
    (spread.queued b member).1
  have sorted := destined.sorted spread.queue later
  have bound : (e + 1) * half ≤ extents * half := Nat.mul_le_mul_right half inside
  have all : (e + 1) * half = e * half + half := Nat.succ_mul e half
  have offset : ∀ o, destination = some o → o = s.getOffset e := by
    intro o same
    cases destined with
    | rewired => cases same
    | inPlace => exact (Option.some.inj same).symm
  have cells : ∀ p, p < s.getOffset e ∨ s.getOffset e + 2 * half * s.geometry.capacity ≤ p →
      t'.run.cells p = s.storage.cell p := by
    intro p outside
    refine written.frame.cells p fun o same => ?_
    rw [offset o same]
    omega
  have first : s.geometry.windowStart * s.geometry.capacity ≤ s.getOffset e :=
    Nat.le_add_right _ _
  have last := getOffset_add_le plan inside
  rw [getOffset_extents plan] at last
  set s₂ : SpreadWithRewiring :=
    { s.resume t' with extentsToRewire := queue, usedKeys := keys, usedValues := values } with s₂_eq
  have views := @Destination.views _ _ _ _ _ s₂ t'.run destined sorted later rfl rfl rfl
    fun _ => rfl
  refine ⟨rfl, withCells_eq spread.stored _, spread.detector, ?_, written.cursor, ?_, ?_, sorted,
    ?_, ?_, keys_eq, values_eq⟩
  · exact ⟨t'.run.input, rfl, fun buffer =>
      ⟨written.left.input, written.left.intact, written.left.counted⟩⟩
  · have upper := spread.separated
    rw [all] at upper bound
    apply upper.trans written.separated (Nat.le_add_right _ _) bound
    rw [← plan.pairs]
    exact within
  · intro x lower upper
    rcases Nat.eq_or_lt_of_le lower with rfl | after
    · rw [views.1]
      exact written.holds
    · apply plan.holds_congr _ _ (spread.holds x after upper)
      · have := Nat.mul_le_mul_right half (Nat.succ_le_of_lt upper)
        rw [Nat.succ_mul] at this
        rw [plan.pairs]
        omega
      · intro p _
        have beyond := getOffset_add_le plan after
        exact views.2 x after p (cells _ (by omega))
  · intro b member
    rcases destined.mem member with member | rfl
    · exact ⟨(later b member).le, (spread.queued b member).2⟩
    · exact ⟨le_rfl, inside⟩
  · intro p outside
    rw [← spread.outside p outside]
    exact cells p (by omega)

/-- The next extent is spread. -/
theorem Spread.spreadExtent {space : FreeSpace} (available : space.Available)
    (spread : Spread s₀ g pairs half extents place N m (e + 1) s) (plan : g.Plan half extents m)
    (filled : g.Filled pairs) (capacity : 0 < g.capacity) (inside : e < extents)
    (within : g.windowStart + g.windowLength ≤ N) :
    ∃ s', spreadExtent space e s = .ok () s' ∧ Spread s₀ g pairs half extents place N m e s' ∧
      ∀ b ∈ s'.extentsToRewire, (b.extentId : Int) ≤ s'.getCurrentExtent := by
  obtain rfl := spread.geometry
  have extent : 0 < s.geometry.segmentsPerExtent := by
    have := plan.half_pos
    rw [plan.segmentsPerExtent]
    omega
  rcases spread.left with ⟨input, position, left⟩
  rw [SpreadWithRewiring.spreadExtent, bind_get]
  by_cases ahead : s.getCurrentExtent ≥ e
  · -- there are elements to read in the extent: its elements go to a buffer
    rcases available e with ⟨⟨keys, hasKeys⟩, values, hasValues⟩
    set s₁ : SpreadWithRewiring :=
      { s with usedKeys := s.usedKeys + 1, usedValues := s.usedValues + 1 } with s₁_eq
    have acquired : acquireFreeSpace space e s = .ok (fun p => (keys p, values p)) s₁ := by
      rw [acquireFreeSpace, hasKeys, hasValues]
      rfl
    have nowhere : ∀ offset, none = some offset → input.stop ≤ offset := fun _ same => nomatch same
    rcases @spreadElements_spec s₁ _ _ _ _ _ _ _ _ _ none _ _ plan filled inside within
      spread.separated.sized position (left fun p => (keys p, values p)) spread.cursor nowhere with
      ⟨t', spreads, written⟩
    rw [if_pos ahead, bind_of_ok acquired, bind_get, spreads]
    have longer : (s.extentsToRewire ++ [Extent2Rewire.mk e t'.run.buffer]).length =
        s.extentsToRewire.length + 1 := List.length_append
    have next := spread.next plan inside within written Destination.rewired
      (show s.usedKeys + 1 = _ by rw [spread.usedKeys, longer])
      (show s.usedValues + 1 = _ by rw [spread.usedValues, longer])
    exact ⟨_, rfl, next.reclaim plan capacity _⟩
  · -- the position has left the extent
    have below : s.position ≤ s.getOffset e :=
      (getCurrentExtent_lt capacity extent).mp (not_le.mp ahead)
    have beyond : ∀ offset, some (s.getOffset e) = some offset → input.stop ≤ offset := by
      intro offset same
      rw [← position, ← Option.some.inj same]
      exact below
    rcases spreadElements_spec plan filled inside within spread.separated.sized position
      (left fun _ => (0, 0)) spread.cursor beyond with ⟨t', spreads, written⟩
    rw [if_neg ahead, spreads]
    have next := spread.next plan inside within written Destination.inPlace spread.usedKeys
      spread.usedValues
    exact ⟨_, rfl, next.reclaim plan capacity _⟩

end Extents

end SpreadWithRewiring

end Rma
