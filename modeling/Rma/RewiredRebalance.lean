import Rma.RewiredWindow

/-!
# Rebalancing with rewiring

`execute` spreads the extents of the window, stores the sizes of its segments and tells the
detector. What it leaves is the elements of the window with the new one among them, in segments of
the sizes that the partitions ask for (`Rewirable.executes`). `resize_rebalance` does the same for
the whole array, after it has been extended or before it is shrunk.
-/

namespace Rma

open Base Rma.Partition SpreadLocal

namespace SpreadWithRewiring

/-- The array that is spread. -/
def array (s : SpreadWithRewiring) : PackedMemoryArray := ⟨s.storage, s.index, s.detector⟩

section Execute

variable {s₀ s : SpreadWithRewiring} {g : Geometry} {pairs half extents place N e : Nat}
  {m : List (Int × Int)} {space : FreeSpace}

/-- The extents are spread one after the other, and in the end no buffer is in use. -/
theorem Spread.spreadExtents (available : space.Available) (n : Nat)
    (spread : Spread s₀ g pairs half extents place N m n s) (plan : g.Plan half extents m)
    (filled : g.Filled pairs) (capacity : 0 < g.capacity) (le : n ≤ extents)
    (within : g.windowStart + g.windowLength ≤ N) :
    ∃ s', spreadExtents space n s = .ok () s' ∧ Spread s₀ g pairs half extents place N m 0 s' ∧
      (0 < n → ∀ b ∈ s'.extentsToRewire, (b.extentId : Int) ≤ s'.getCurrentExtent) := by
  induction n generalizing s with
  | zero => exact ⟨s, rfl, spread, fun positive => absurd positive (lt_irrefl 0)⟩
  | succ n ih =>
      rcases spread.spreadExtent available plan filled capacity le within with
        ⟨s₁, first, spread₁, queued⟩
      rcases ih spread₁ (by omega) with ⟨s', rest, spread', queued'⟩
      refine ⟨s', ?_, spread', fun _ => ?_⟩
      · rw [SpreadWithRewiring.spreadExtents, bind_of_ok first, rest]
      · cases n with
        | zero =>
            cases rest
            exact queued
        | succ n => exact queued' (Nat.succ_pos n)

/-- When all the extents are spread, every element is written and no extent waits for its buffer. -/
theorem Spread.finished (spread : Spread s₀ g pairs half extents place N m 0 s)
    (plan : g.Plan half extents m) (capacity : 0 < g.capacity)
    (queued : ∀ b ∈ s.extentsToRewire, (b.extentId : Int) ≤ s.getCurrentExtent) :
    s.extentsToRewire = [] ∧ s.insert = none := by
  obtain rfl := spread.geometry
  rcases spread.left with ⟨input, position, left⟩
  rcases (left fun _ => (0, 0)).input with ⟨l, unread, -, whole, -⟩
  have start : s.geometry.before (0 * half) = 0 := by simp [Geometry.before]
  rw [start, List.take_zero] at whole
  have lengths := congrArg List.length whole
  rw [length_merged, List.length_nil] at lengths
  have none : s.insert = none := by
    change l.length + s.insert.toList.length = 0 at lengths
    cases same : s.insert with
    | none => rfl
    | some e => simp [same] at lengths
  obtain rfl : l = [] := List.eq_nil_of_length_eq_zero (by omega)
  have stop : s.position = s.getOffset 0 := by
    rw [position]
    change Unread _ _ _ input [] at unread
    generalize nothing : ([] : List (Int × Int)) = l at unread
    cases unread with
    | finished segmentId before =>
        rw [getOffset, Nat.zero_mul]
        rfl
    | inside t run inside positive le =>
        have length := congrArg List.length nothing
        rw [List.length_append, length_readCells, List.length_nil] at length
        omega
  have extent : 0 < s.geometry.segmentsPerExtent := by
    have := plan.half_pos
    rw [plan.segmentsPerExtent]
    omega
  have current := (getCurrentExtent_lt (x := 0) capacity extent).mpr stop.le
  refine ⟨List.eq_nil_iff_forall_not_mem.mpr fun b member => ?_, none⟩
  have bound := queued b member
  omega

/-- The sizes of the segments are those of the partitions. -/
theorem updateSegmentSizes_eq {partitions : List Partition} {segmentEnd segmentId : Nat}
    (sizes : Nat → Nat) (nonempty : ∀ p ∈ partitions, 0 < p.segments)
    (fits : segmentId + (quotas partitions).length ≤ segmentEnd) :
    updateSegmentSizes segmentEnd partitions segmentId sizes =
      writeCells sizes segmentId (quotas partitions) := by
  induction partitions generalizing segmentId sizes with
  | nil => exact writeCells_nil.symm
  | cons p partitions ih =>
      have split : quotas (p :: partitions) = p.sizes ++ quotas partitions := rfl
      have some := nonempty p (by simp)
      rw [split, List.length_append, length_sizes] at fits
      rw [updateSegmentSizes, if_pos (by omega),
        ih _ (fun q member => nonempty q (by simp [member])) (by omega), split, ← writeCells_append,
        length_sizes]

theorem readCells_shift (a : Nat → Int × Int) (o p n : Nat) :
    readCells (fun q => a (o + q)) p n = readCells a (o + p) n := by
  simp only [readCells, ← List.map_add_range', List.map_map]
  rfl

/-- The cells of a pair of segments, when all the extents show what they hold. -/
theorem Spread.readCells_pair (spread : Spread s₀ g pairs half extents place N m 0 s)
    (plan : g.Plan half extents m) (empty : s.extentsToRewire = []) {j : Nat}
    (inside : j < extents * half) :
    readCells s.storage.cell ((g.windowStart + 2 * j) * g.capacity + (g.capacity - g.quota (2 * j)))
      (g.chunk m j).length = g.chunk m j := by
  obtain rfl := spread.geometry
  have whole := Nat.div_add_mod' j half
  have below := Nat.mod_lt j plan.half_pos
  have holds := spread.holds (j / half) (Nat.zero_le _) (Nat.div_lt_of_lt_mul (by
    rwa [Nat.mul_comm] at inside)) (j % half) below
  rw [extentView_of_not_mem (by simp [empty]), readCells_shift, whole] at holds
  have position : s.getOffset (j / half) + s.geometry.outputStart (j % half) j =
      (s.geometry.windowStart + 2 * j) * s.geometry.capacity +
        (s.geometry.capacity - s.geometry.quota (2 * j)) := by
    have extent : s.segmentsPerExtent = 2 * half := plan.segmentsPerExtent
    have cells : (s.geometry.windowStart + 2 * j) * s.geometry.capacity =
        s.geometry.windowStart * s.geometry.capacity +
          j / half * (2 * half * s.geometry.capacity) + 2 * (j % half) * s.geometry.capacity := by
      calc (s.geometry.windowStart + 2 * j) * s.geometry.capacity
          = (s.geometry.windowStart + 2 * (j / half * half + j % half)) * s.geometry.capacity := by
            rw [whole]
        _ = _ := by ring
    unfold getOffset extentCells Geometry.outputStart
    rw [extent, cells, ← Nat.add_assoc]
    rfl
  rwa [position] at holds

/-- The segments of the window have the sizes and the elements that the plan gives them. -/
theorem Spread.packed (spread : Spread s₀ g pairs half extents place N m 0 s)
    (plan : g.Plan half extents m) (empty : s.extentsToRewire = []) :
    s.withSegmentSizes.array.Packed g.windowStart (quotas g.partitions) m := by
  have pair := fun j => spread.readCells_pair plan empty (j := j)
  obtain rfl := spread.geometry
  set p := s.withSegmentSizes.array with p_eq
  have even : s.geometry.windowStart % 2 = 0 :=
    Nat.mod_eq_zero_of_dvd ((Dvd.intro half plan.segmentsPerExtent.symm).trans plan.windowStart)
  have windowLength := plan.pairs
  have segments := plan.segments
  have cell : p.storage.cell = s.storage.cell := rfl
  have capacity : p.storage.segmentCapacity = s.geometry.capacity := rfl
  have stored : p.storage.segmentSizes =
      writeCells s.storage.segmentSizes s.geometry.windowStart (quotas s.geometry.partitions) :=
    updateSegmentSizes_eq _ plan.nonempty (Nat.add_le_add_left segments.le _)
  have sizes : ∀ i < s.geometry.windowLength,
      p.storage.segmentSizes (s.geometry.windowStart + i) = s.geometry.quota i := by
    intro i inside
    rw [← segments] at inside
    rw [stored, writeCells_inside (Nat.le_add_right _ _) (by omega), Geometry.quota,
      List.getD_eq_getElem _ _ inside]
    simp
  -- where the two segments of a pair start
  have starts : ∀ j < extents * half,
      p.storage.start (s.geometry.windowStart + 2 * j) = (s.geometry.windowStart + 2 * j) *
        s.geometry.capacity + (s.geometry.capacity - s.geometry.quota (2 * j)) ∧
      p.storage.start (s.geometry.windowStart + (2 * j + 1)) =
        p.storage.start (s.geometry.windowStart + 2 * j) + s.geometry.quota (2 * j) := by
    intro j inside
    have fits := (plan.quota_fits (show 2 * j < s.geometry.windowLength by omega)).2
    have next : (s.geometry.windowStart + 2 * j + 1) * s.geometry.capacity =
        (s.geometry.windowStart + 2 * j) * s.geometry.capacity + s.geometry.capacity :=
      Nat.succ_mul _ _
    unfold Storage.start
    rw [if_pos (by omega), if_neg (by omega), sizes _ (by omega), capacity, ← Nat.add_assoc, next]
    omega
  have segmentPair : ∀ j < extents * half, p.storage.segment (s.geometry.windowStart + 2 * j) ++
      p.storage.segment (s.geometry.windowStart + (2 * j + 1)) = s.geometry.chunk m j := by
    intro j inside
    rw [Storage.segment_eq_readCells, Storage.segment_eq_readCells, (starts j inside).2,
      sizes _ (by omega), sizes _ (by omega), ← readCells_add, (starts j inside).1, cell,
      ← plan.length_chunk, pair j inside]
  have element : ∀ j < extents * half, ∀ i < (s.geometry.chunk m j).length,
      p.storage.cell (p.storage.start (s.geometry.windowStart + 2 * j) + i) =
        (s.geometry.chunk m j).getD i default := by
    intro j inside i below
    rw [← pair j inside, getD_readCells below, (starts j inside).1, cell]
  have blocks : ∀ j ≤ extents * half,
      p.block s.geometry.windowStart (2 * j) = m.take (s.geometry.before j) := by
    intro j le
    induction j with
    | zero => simp [Geometry.before]
    | succ j ih =>
        have two := PackedMemoryArray.block_add p (s.geometry.windowStart + 2 * j) 1 1
        rw [PackedMemoryArray.block_one, PackedMemoryArray.block_one, Nat.add_assoc] at two
        rw [Nat.mul_succ, PackedMemoryArray.block_add, ih (by omega), Geometry.take_before_succ,
          ← segmentPair j le, two]
  refine ⟨?_, ?_, ?_⟩
  · intro i inside
    exact sizes i (by omega)
  · have all : s.geometry.before (extents * half) = m.length := by
      rw [Geometry.before, ← plan.total, ← windowLength, ← segments, List.take_length]
    rw [segments, windowLength, blocks _ le_rfl, all, List.take_length]
  · intro i inside
    rw [segments] at inside
    have minima := spread.separated.minima (i / 2) (by omega) (by omega)
    have fits := plan.quota_fits inside
    have length := plan.length_chunk (i / 2)
    rcases Nat.even_or_odd' i with ⟨j, rfl | rfl⟩
    · have half_eq : 2 * j / 2 = j := by omega
      rw [half_eq] at minima length
      have first := element j (by omega) 0 (by omega)
      rw [Nat.add_zero] at first
      exact minima.1.trans (congrArg Prod.fst first).symm
    · have half_eq : (2 * j + 1) / 2 = j := by omega
      rw [half_eq] at minima length
      have first := element j (by omega) (s.geometry.quota (2 * j)) (by omega)
      rw [← (starts j (by omega)).2] at first
      exact minima.2.trans (congrArg Prod.fst first).symm

/-- Nothing outside the window has changed. -/
theorem Spread.frame (spread : Spread s₀ g pairs half extents place N m 0 s)
    (plan : g.Plan half extents m) :
    PackedMemoryArray.Frame N s₀.array s.withSegmentSizes.array g.windowStart
      (quotas g.partitions).length := by
  obtain rfl := spread.geometry
  have windowLength := plan.pairs
  have segments := plan.segments
  have stored : s.withSegmentSizes.storage.segmentSizes =
      writeCells s.storage.segmentSizes s.geometry.windowStart (quotas s.geometry.partitions) :=
    updateSegmentSizes_eq _ plan.nonempty (Nat.add_le_add_left segments.le _)
  have capacity : s.storage.segmentCapacity = s₀.storage.segmentCapacity := by
    rw [spread.stored]
    rfl
  refine ⟨?_, ?_, ?_, spread.separated.sized, capacity, ?_⟩
  · intro q outside
    rw [segments] at outside
    apply spread.outside q
    change q < s.geometry.windowStart * s.storage.segmentCapacity ∨
      _ * s.storage.segmentCapacity ≤ q
    rw [capacity]
    exact outside
  · intro i outside
    change s.withSegmentSizes.storage.segmentSizes i = s₀.storage.segmentSizes i
    rw [stored, writeCells_outside outside, spread.stored]
    rfl
  · intro i inside outside
    exact spread.separated.others i inside (by omega)
  · change s.storage.numberSegments = s₀.storage.numberSegments
    rw [spread.stored]
    rfl

end Execute

/-! ## A spread from its construction on -/

/-- What a spread with rewiring is asked for: the elements of the segments from `first` on, `source`
in number, with a new one, are to be moved to the segments from `first` on, `window` in number. -/
structure Rewirable (p : PackedMemoryArray) (insert : Option (Int × Int))
    (first source window segmentsPerExtent : Nat) (partitions : List Partition) (N : Nat) :
    Prop where
  extent : ∃ half, 0 < half ∧ segmentsPerExtent = 2 * half
  start : segmentsPerExtent ∣ first
  length : segmentsPerExtent ∣ window
  positive : 0 < window
  pairs : ∃ pairs, 0 < pairs ∧ source = 2 * pairs
  sizes_le : ∀ i < source, p.storage.segmentSizes (first + i) ≤ p.storage.segmentCapacity
  filled : ∀ t, 2 * t < source →
    0 < p.storage.segmentSizes (first + 2 * t) + p.storage.segmentSizes (first + 2 * t + 1)
  sorted : SortedPairs (p.block first source)
  sized : p.index.Sized N
  within : first + window ≤ N
  nonempty : ∀ q ∈ partitions, 0 < q.segments
  segments : (partitions.map segments).sum = window
  cardinality : (partitions.map Partition.cardinality).sum =
    (p.block first source).length + insert.toList.length
  fits : ∀ n ∈ quotas partitions, 1 ≤ n ∧ n ≤ p.storage.segmentCapacity

/-- What it leaves: the elements with the new one among them, in segments of the sizes asked for
whose minima are in the index; nothing else changed; the detector told of the segment that received
the new element; and no buffer in use. -/
structure Rewired (p : PackedMemoryArray) (N first : Nat) (sizes : List Nat)
    (insert : Option (Int × Int)) (l : List (Int × Int)) (s' : SpreadWithRewiring) : Prop where
  packed : s'.array.Packed first sizes (merged insert l)
  frame : PackedMemoryArray.Frame N p s'.array first sizes.length
  cardinality : s'.storage.cardinality = counterAfter insert p.storage.cardinality
  kept : insert = none → s'.detector = p.detector
  inserted : ∀ e, insert = some e → ∃ segment predecessor successor,
    Receives sizes first (placeOf e l) segment ∧
      s'.detector = p.detector ++ [.insert segment predecessor successor]
  released : s'.usedKeys = 0 ∧ s'.usedValues = 0 ∧ s'.extentsToRewire = []

section Rewiring

variable {p : PackedMemoryArray} {insert : Option (Int × Int)}
  {first source window segmentsPerExtent N : Nat} {partitions : List Partition} {space : FreeSpace}

/-- The pairs of segments hold the elements of the segments. -/
theorem pairsBefore_eq_block {g : Geometry} (even : first % 2 = 0)
    (sizes : g.sizes = p.storage.segmentSizes) (capacity : g.capacity = p.storage.segmentCapacity)
    (start : g.windowStart = first) (pairs : Nat)
    (fits : ∀ t < pairs, p.storage.segmentSizes (first + 2 * t) ≤ p.storage.segmentCapacity) :
    g.pairsBefore p.storage.cell pairs = p.block first (2 * pairs) := by
  induction pairs with
  | zero => rfl
  | succ k ih =>
      have two := PackedMemoryArray.block_add p (first + 2 * k) 1 1
      rw [PackedMemoryArray.block_one, PackedMemoryArray.block_one] at two
      have second : p.storage.start (first + 2 * k + 1) =
          p.storage.start (first + 2 * k) + p.storage.segmentSizes (first + 2 * k) := by
        rw [← Storage.stop_eq_start_succ (by omega)]
        exact (Storage.layout (fits k (Nat.lt_succ_self k))).2.1
      have place : g.pairStart (first + 2 * k) = p.storage.start (first + 2 * k) := by
        have next : (first + 2 * k + 1) * p.storage.segmentCapacity =
            (first + 2 * k) * p.storage.segmentCapacity + p.storage.segmentCapacity :=
          Nat.succ_mul _ _
        rw [Geometry.pairStart, Storage.start, if_pos (by omega), sizes, capacity, next]
      rw [Geometry.pairsBefore_succ, ih fun t below => fits t (Nat.lt_succ_of_lt below),
        Nat.mul_succ, PackedMemoryArray.block_add, two, Storage.segment_eq_readCells,
        Storage.segment_eq_readCells, second, ← readCells_add, start, place, Geometry.pairSize,
        sizes]

/-- The object that is constructed for a request. -/
def initial (p : PackedMemoryArray) (insert : Option (Int × Int))
    (first source window segmentsPerExtent : Nat) (partitions : List Partition) :
    SpreadWithRewiring :=
  create p.storage p.index p.detector first window segmentsPerExtent partitions insert
    (endPosition p.storage (first + source))

theorem Rewirable.spread (request : Rewirable p insert first source window segmentsPerExtent
      partitions N) :
    ∃ pairs half extents, 0 < extents ∧
      Geometry.Plan (initial p insert first source window segmentsPerExtent partitions).geometry
        half extents (merged insert (p.block first source)) ∧
      Geometry.Filled (initial p insert first source window segmentsPerExtent partitions).geometry
        pairs ∧
      0 < p.storage.segmentCapacity ∧
      Spread (initial p insert first source window segmentsPerExtent partitions)
        (initial p insert first source window segmentsPerExtent partitions).geometry pairs half
        extents ((insert.map fun e => placeOf e (p.block first source)).getD 0) N
        (merged insert (p.block first source)) extents
        (initial p insert first source window segmentsPerExtent partitions) := by
  obtain ⟨half, half_pos, extent⟩ := request.extent
  obtain ⟨pairs, pairs_pos, source_eq⟩ := request.pairs
  obtain ⟨extents, length⟩ := request.length
  have extents_pos : 0 < extents := by
    have := request.positive
    by_contra none
    obtain rfl : extents = 0 := by omega
    omega
  have even : first % 2 = 0 :=
    Nat.mod_eq_zero_of_dvd ((Dvd.intro half extent.symm).trans request.start)
  have segments : (quotas partitions).length = window :=
    (length_quotas _).trans request.segments
  have total : (quotas partitions).sum = (merged insert (p.block first source)).length := by
    rw [sum_quotas request.nonempty, request.cardinality, length_merged]
  have capacity : 0 < p.storage.segmentCapacity := by
    have inside : 0 < (quotas partitions).length := by
      rw [segments]
      exact request.positive
    have bounds := request.fits _ (List.getElem_mem inside)
    omega
  set s := initial p insert first source window segmentsPerExtent partitions with s_eq
  have plan : s.geometry.Plan half extents (merged insert (p.block first source)) :=
    ⟨half_pos, extent, request.start, by rw [Nat.mul_comm]; exact length, segments,
      request.nonempty, request.fits, total⟩
  have filled : s.geometry.Filled pairs := fun t inside =>
    ⟨request.filled t (by omega), request.sizes_le (2 * t) (by omega),
      request.sizes_le (2 * t + 1) (by omega)⟩
  refine ⟨pairs, half, extents, extents_pos, plan, filled, capacity, ?_⟩
  have elements : s.geometry.pairsBefore p.storage.cell pairs = p.block first source := by
    rw [source_eq]
    exact pairsBefore_eq_block even rfl rfl rfl pairs fun t inside =>
      request.sizes_le (2 * t) (by omega)
  have windowLength := plan.pairs
  have all : s.geometry.before (extents * half) =
      (merged insert (p.block first source)).length := by
    rw [Geometry.before, ← windowLength, ← plan.segments, List.take_length, plan.total]
  obtain ⟨k, rfl⟩ := Nat.exists_eq_add_one_of_ne_zero pairs_pos.ne'
  refine ⟨rfl, rfl, rfl, ⟨⟨(first + 2 * k : Nat), s.geometry.pairSize (first + 2 * k),
    s.geometry.pairStart (first + 2 * k)⟩, ?_, ?_⟩, ?_, Geometry.Separated.refl request.sized,
    fun x lower upper => absurd upper (not_lt.mpr lower), List.Pairwise.nil,
    fun b member => absurd member List.not_mem_nil, fun _ _ => rfl, rfl, rfl⟩
  · -- the position is after the last element
    have last := filled k (Nat.lt_succ_self k)
    change (first + source - 1) * p.storage.segmentCapacity +
        p.storage.segmentSizes (first + source - 1) =
      (first + 2 * k) * p.storage.segmentCapacity + p.storage.segmentCapacity -
        p.storage.segmentSizes (first + 2 * k) + (p.storage.segmentSizes (first + 2 * k) +
          p.storage.segmentSizes (first + 2 * k + 1))
    have fits := request.sizes_le (2 * k) (by omega)
    have place : first + source - 1 = first + 2 * k + 1 := by omega
    rw [place, Nat.succ_mul]
    omega
  · intro buffer
    refine ⟨⟨p.block first source, ?_, request.sorted, ?_, ?_⟩, fun _ _ => rfl, Counted.waiting⟩
    · rw [← elements, Geometry.pairsBefore_succ]
      have last := filled k (Nat.lt_succ_self k)
      exact Unread.inside k _ (Nat.lt_succ_self k) last.1 le_rfl
    · rw [all, List.take_length]
      rfl
    · intro e same
      have inserting : insert = some e := same
      simp [Geometry.target, inserting]
  · have last := at_last request.nonempty (show partitions ≠ [] by
      rintro rfl
      have := request.segments
      have := request.positive
      simp at *
      omega)
    have moved := last.moveBackwards request.nonempty le_rfl (n := 1)
    have back : (quotas partitions).length - 1 - 1 = 2 * (extents * half) - 2 := by
      rw [← windowLength, segments]
      rfl
    rw [back] at moved
    exact moved

theorem finalizeInsert_none {s : SpreadWithRewiring} (nothing : s.insertToSegment = none) :
    s.finalizeInsert = s := by
  unfold finalizeInsert
  rw [nothing]

theorem finalizeInsert_some {s : SpreadWithRewiring} {segment : Nat}
    (received : s.insertToSegment = some segment) : s.finalizeInsert =
      { s with
        storage := { s.storage with cardinality := uint32 (s.storage.cardinality + 1 : Nat) }
        detector := s.detector ++
          [.insert segment s.insertPredecessor s.insertSuccessor] } := by
  rcases s with ⟨_, _, _, _, _, _, _, _, _, _, _, _, _, _, _, _, _⟩
  obtain rfl := received
  rfl

/-- A spread that is given its buffers moves the elements to the segments asked for. -/
theorem Rewirable.executes
    (request : Rewirable p insert first source window segmentsPerExtent partitions N)
    (available : space.Available) :
    ∃ s', execute space (initial p insert first source window segmentsPerExtent partitions) =
        .ok () s' ∧
      Rewired p N first (quotas partitions) insert (p.block first source) s' := by
  rcases request.spread with ⟨pairs, half, extents, extents_pos, plan, filled, capacity, spread⟩
  set s₀ := initial p insert first source window segmentsPerExtent partitions with s₀_eq
  rcases spread.spreadExtents available extents plan filled capacity le_rfl request.within with
    ⟨s, run, spread, queued⟩
  rcases spread.finished plan capacity (queued extents_pos) with ⟨empty, written⟩
  have packed := spread.packed plan empty
  have frame := spread.frame plan
  have count : s₀.windowLength / s₀.segmentsPerExtent = extents := by
    have length : s₀.windowLength = extents * s₀.segmentsPerExtent := plan.windowLength
    have extent : s₀.segmentsPerExtent = 2 * half := plan.segmentsPerExtent
    have := plan.half_pos
    rw [length]
    exact Nat.mul_div_cancel _ (by omega)
  refine ⟨s.withSegmentSizes.finalizeInsert, ?_, ?_⟩
  · rw [execute, spreadWindow, bind_assoc, bind_get, count, bind_of_ok run]
    rfl
  rcases spread.left with ⟨input, -, left⟩
  have counted := (left fun _ => (0, 0)).counted
  change Counted insert _ s.insert s.insertToSegment at counted
  have storage : s.storage.cardinality = p.storage.cardinality := by
    rw [spread.stored]
    rfl
  have keys : s.usedKeys = 0 := by rw [spread.usedKeys, empty, List.length_nil]
  have values : s.usedValues = 0 := by rw [spread.usedValues, empty, List.length_nil]
  rw [written] at counted
  rcases toSegment : s.insertToSegment with _ | segment
  · -- there was no new element
    rw [toSegment] at counted
    have nothing : insert = none := by
      cases counted
      rfl
    have unwritten : s.withSegmentSizes.insertToSegment = none := toSegment
    rw [finalizeInsert_none unwritten]
    refine ⟨packed, frame, ?_, fun _ => spread.detector, fun e inserting => ?_, keys, values, empty⟩
    · rw [nothing]
      exact storage
    · rw [nothing] at inserting
      cases inserting
  · rw [toSegment] at counted
    rcases counted.placed_eq with ⟨e, inserting, receives⟩
    have received : s.withSegmentSizes.insertToSegment = some segment := toSegment
    rw [finalizeInsert_some received]
    refine ⟨⟨packed.sizes_eq, packed.elements, packed.separators⟩,
      ⟨frame.cells, frame.sizes, frame.separators, frame.sized, frame.capacity,
        frame.numberSegments⟩, ?_, fun nothing => ?_, fun e' inserting' => ?_, keys, values, empty⟩
    · rw [inserting]
      exact congrArg (fun c : Nat => uint32 (c + 1 : Nat)) storage
    · rw [inserting] at nothing
      cases nothing
    · rw [inserting] at inserting'
      obtain rfl := Option.some.inj inserting'
      refine ⟨segment, s.insertPredecessor, s.insertSuccessor, ?_, ?_⟩
      · change Receives _ _ ((insert.map fun e => placeOf e (p.block first source)).getD 0) _
          at receives
        rw [inserting] at receives
        exact receives
      · exact congrArg (· ++ [Detector.Call.insert segment s.insertPredecessor s.insertSuccessor])
          spread.detector

/-- **A spread with rewiring is a sorted repack.** When the rewiring facility has its buffers, the
spread reads the elements before they are overwritten, and leaves them with the new one after those
whose keys are at most its own, each segment with the size that the partitions give it and its
minimum in the index; it changes nothing outside the window, tells the detector of the segment that
received the new element, and gives every buffer back. -/
theorem execute_repacks
    (request : Rewirable p insert first source window segmentsPerExtent partitions N)
    (available : space.Available) :
    ∃ s', execute space (initial p insert first source window segmentsPerExtent partitions) =
        .ok () s' ∧
      Rewired p N first (quotas partitions) insert (p.block first source) s' :=
  request.executes available

/-- Four segments are two extents, which are both rewired. -/
theorem fourArray_rewirable {u : Unit} {index : StaticIndex} (construction :
      StaticIndex.create 3 4 (some fun _ => 0) (StaticIndex.blank 3) = .ok u index) :
    Rewirable (fourArray index) (some (33, 330)) 0 4 4 2 [⟨2, 1⟩, ⟨37, 3⟩] 4 := by
  have sized := (StaticIndex.storeAll_separators (StaticIndex.create_ok (by decide) construction)
    (show ∀ e ∈ ([(0, 30), (1, 32), (2, 94), (3, 96)] : List (Nat × Int)), e.1 < 4 by decide)).sized
  have filled : ∀ t < 2, 0 < fourStorage.segmentSizes (0 + 2 * t) +
      fourStorage.segmentSizes (0 + 2 * t + 1) := by decide
  have sorted : SortedPairs ((fourArray index).block 0 4) := by
    change SortedPairs ((List.range 4).flatMap fun i => fourStorage.segment (0 + i))
    unfold SortedPairs
    decide
  exact ⟨⟨1, by decide, rfl⟩, by decide, by decide, by decide, ⟨2, by decide, rfl⟩,
    show ∀ i < 4, fourStorage.segmentSizes (0 + i) ≤ 32 by decide,
    fun t inside => filled t (by omega), sorted, sized, by decide, by decide, rfl, rfl,
    show ∀ n ∈ quotas [⟨2, 1⟩, ⟨37, 3⟩], 1 ≤ n ∧ n ≤ 32 by decide⟩

theorem execute_repacks_four :
    ∃ u index, StaticIndex.create 3 4 (some fun _ => 0) (StaticIndex.blank 3) = .ok u index ∧
      ∃ s', execute ⟨fun _ => some fun _ => 0, fun _ => some fun _ => 0⟩
          (initial (fourArray index) (some (33, 330)) 0 4 4 2 [⟨2, 1⟩, ⟨37, 3⟩]) = .ok () s' ∧
        Rewired (fourArray index) 4 0 [2, 13, 12, 12] (some (33, 330)) ((fourArray index).block 0 4)
          s' := by
  have ⟨u, index, construction⟩ : ∃ u index,
      StaticIndex.create 3 4 (some fun _ => 0) (StaticIndex.blank 3) = .ok u index := ⟨_, _, rfl⟩
  exact ⟨u, index, construction, execute_repacks (fourArray_rewirable construction)
    fun _ => ⟨⟨_, rfl⟩, _, rfl⟩⟩

end Rewiring

/-! ## The two spreads -/

section Agreement

variable {p p₁ p₂ : PackedMemoryArray} {N first i : Nat} {sizes : List Nat}
  {l l' : List (Int × Int)}

theorem merged_gained {insert : Option (Int × Int)} (sorted : SortedPairs l) :
    Gained insert l (merged insert l) := by
  cases insert with
  | none => exact Gained.nothing l
  | some e => exact Gained.pair (merged_inserted sorted)

/-- The elements that a plain spread leaves in its window. -/
theorem repacked_gained {a : RebalanceAction} (repacked : SpreadLocal.Repacked p a p₁) :
    ∃ m, p₁.Packed a.windowStart (quotas a.partitions) m ∧
      Gained a.toInsert (p.block a.windowStart a.windowLength) m := by
  cases inserting : a.isInsert with
  | false =>
      have nothing : a.toInsert = none := by simp [RebalanceAction.toInsert, inserting]
      rw [nothing]
      exact ⟨_, (repacked.kept inserting).1, Gained.nothing _⟩
  | true =>
      have element : a.toInsert = some (a.insertKey, a.insertValue) := by
        simp [RebalanceAction.toInsert, inserting]
      rcases repacked.inserted inserting with ⟨l₁, l₂, _, split, below, above, packed, -⟩
      rw [element, split]
      exact ⟨_, packed, Gained.pair ⟨l₁, l₂, rfl, rfl, below, above⟩⟩

end Agreement

end SpreadWithRewiring

end Rma
