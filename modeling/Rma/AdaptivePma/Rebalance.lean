import Rma.AdaptivePma.Plans
import Rma.AdaptivePma.Sizes

/-!
# Performing a plan

Whichever way `do_rebalance` moves the elements, the array has the elements that it had, with the
new one at a sorted position, and the sizes that the plan says (`doRebalance_performs`). `Supplied`
is what the plan needs from outside.
-/

namespace Rma

open Base Rma.Partition

/-- The detector is told of segments that it has an entry for, and has `n'` entries afterwards. -/
def Detector.Told (n n' : Nat) (detector detector' : List Detector.Call) : Prop :=
  ∃ calls, detector' = detector ++ calls ∧ Detector.Within n calls ∧
    calls.foldl Detector.Call.capacityAfter n = n'

section Telling

variable {n m k i : Nat} {d d' d'' : List Detector.Call} {predecessor successor : Int}

theorem Detector.Within.append {c c' : List Detector.Call} (first : Detector.Within n c)
    (second : Detector.Within (c.foldl Detector.Call.capacityAfter n) c') :
    Detector.Within n (c ++ c') := by
  induction c generalizing n with
  | nil => exact second
  | cons call c ih => exact ⟨first.1, ih first.2 second⟩

theorem Detector.Told.refl : Detector.Told n n d d := ⟨[], by simp, trivial, rfl⟩

theorem Detector.Told.trans (first : Detector.Told n m d d') (second : Detector.Told m k d' d'') :
    Detector.Told n k d d'' := by
  obtain ⟨c, rfl, within, rfl⟩ := first
  obtain ⟨c', rfl, within', rfl⟩ := second
  exact ⟨c ++ c', by simp, within.append within', by rw [List.foldl_append]⟩

theorem Detector.Told.insert (inside : i < n) :
    Detector.Told n n d (d ++ [.insert i predecessor successor]) :=
  ⟨_, rfl, ⟨inside, trivial⟩, rfl⟩

end Telling

namespace PackedMemoryArray

/-- The key belongs in the segment. -/
structure Belongs (p : PackedMemoryArray) (segment : Nat) (key : Int) : Prop where
  below : ∀ i < segment, ∀ x ∈ p.storage.segment i, x.1 ≤ key
  above : ∀ i < p.storage.numberSegments, segment < i → ∀ x ∈ p.storage.segment i, key ≤ x.1

section Packing

variable {p p' : PackedMemoryArray} {first segment : Nat} {sizes : List Nat}
  {insert : Option (Int × Int)} {l : List (Int × Int)}

/-- A block that gains the element gains it for the array. -/
theorem Frame.gained {N n : Nat} (frame : Frame N p p' first n) (ordered : p.Ordered)
    (inside : first + n ≤ p.storage.numberSegments)
    (gained : Gained insert (p.block first n) (p'.block first n))
    (belongs : ∀ e, insert = some e → p.Belongs segment e.1) (lower : first ≤ segment)
    (upper : segment < first + n) : Gained insert p.storage.elements p'.storage.elements := by
  rw [frame.elements inside ordered.sizes_le, elements_split inside]
  apply gained.context
  · intro e inserting x member
    obtain ⟨i, less, member⟩ := mem_block.mp member
    exact (belongs e inserting).below _ (by omega) x member
  · intro e inserting x member
    obtain ⟨i, less, member⟩ := mem_block.mp member
    exact (belongs e inserting).above _ (by omega) (by omega) x member

/-- A packed block keeps the array in order. -/
theorem Ordered.packed (ordered : p.Ordered)
    (frame : Frame p.storage.numberSegments p p' first sizes.length)
    (packed : p'.Packed first sizes l)
    (gained : Gained insert p.storage.elements p'.storage.elements)
    (fits : ∀ n ∈ sizes, 1 ≤ n ∧ n ≤ p.storage.segmentCapacity)
    (cardinality : p'.storage.cardinality = p.storage.cardinality + insert.toList.length) :
    p'.Ordered := by
  apply ordered.change frame
  · intro i inside
    rw [packed.sizes_eq i inside, List.getD_eq_getElem _ _ inside]
    exact (fits _ (List.getElem_mem inside)).2
  · have length := gained.perm.length_eq
    rw [List.length_append] at length
    rw [length, cardinality, ordered.counted, Nat.add_comm]
  · exact gained.sorted ordered.sorted
  · exact fun i inside _ => packed.separators i inside

end Packing

end PackedMemoryArray

namespace Resize

variable {p p' : PackedMemoryArray} {a : RebalanceAction} {l : List (Int × Int)}

/-- A resized array is in order. -/
theorem Written.ordered (written : Written p a l p') (request : Resizable p a)
    (counted : p.storage.cardinality = p.storage.elements.length)
    (counter : a.isInsert = true → p.storage.cardinality + 1 < 2 ^ 32) : p'.Ordered := by
  have length := request.length_quotas
  have elements := written.elements request
  refine ⟨?_, ?_, ?_, ?_, ?_⟩
  · intro i inside
    rw [written.numberSegments, ← length] at inside
    have size := written.packed.sizes_eq i inside
    rw [Nat.zero_add] at size
    rw [size, written.capacity, List.getD_eq_getElem _ _ inside]
    exact (request.quotas _ (List.getElem_mem inside)).2
  · have lengths := written.gained.perm.length_eq
    rw [List.length_append] at lengths
    rw [elements, lengths, written.cardinality, counterAfter_toInsert_iff.mpr counter, counted,
      ← a.length_toInsert, Nat.add_comm]
  · rw [elements]
    exact written.gained.sorted request.pairs
  · rw [written.numberSegments]
    exact written.sized
  · intro i inside _
    rw [written.numberSegments, ← length] at inside
    have separator := written.packed.separators i inside
    rwa [Nat.zero_add] at separator

end Resize

namespace AdaptivePma

/-- The plan moves whole extents. -/
def Rewires (s : AdaptivePma) (plan : RebalanceMetadata) : Prop :=
  plan.operation = .resizeRebalance ∨
    plan.operation = .rebalance ∧ s.segmentsPerExtent ≤ plan.windowLength

/-- What a plan needs from outside: partitions of its elements among its segments, aligned where the
spread is not by rewiring; a request that is roomy, if it is to resize; and the memory it asks
for. -/
structure Supplied (s : AdaptivePma) (plan : RebalanceMetadata) (supply : Supply) : Prop where
  nonempty : ∀ q ∈ supply.partitions, 0 < q.segments
  segments : (supply.partitions.map Partition.segments).sum = plan.windowLength
  cardinality : ((supply.partitions.map Partition.cardinality).sum : Int) = plan.cardinalityAfter
  quotas : ∀ n ∈ Partition.quotas supply.partitions, 1 ≤ n ∧ n ≤ s.storage.segmentCapacity
  aligned : plan.operation = .rebalance → ¬s.Rewires plan →
    SpreadLocal.Aligned supply.partitions plan.windowStart
  roomy : plan.operation ≠ .rebalance → s.toPma.Roomy plan.isInsert plan.cardinalityAfter
  rebuilt : plan.operation ≠ .rebalance →
    ∃ index, StaticIndex.rebuildIn supply.memory.logs plan.windowLength supply.memory.block
      s.index = some (.ok () index)
  available : s.Rewires plan → supply.memory.space.Available

/-- The element that a plan inserts. -/
def inserts (plan : RebalanceMetadata) (e : Int × Int) : Option (Int × Int) :=
  if plan.isInsert then some e else none

/-- The array after a plan: the elements with the new one, in order, and the sizes of the plan. -/
structure Performed (s : AdaptivePma) (plan : RebalanceMetadata) (e : Int × Int) (supply : Supply)
    (t : AdaptivePma) : Prop where
  ordered : t.array.Ordered
  gained : Gained (inserts plan e) s.storage.elements t.storage.elements
  same : Pma.Same (s.toPma.doRebalance plan supply.outcome) t.toPma
  told : Detector.Told s.storage.numberSegments t.storage.numberSegments s.detector t.detector

section Performing

variable {s t : AdaptivePma} {p' : PackedMemoryArray} {plan : RebalanceMetadata} {segment : Nat}
  {e : Int × Int} {supply : Supply} {l : List (Int × Int)}

@[simp] theorem toInsert_action :
    (action plan segment e supply.partitions).toInsert = inserts plan e := rfl

/-- The counter after a plan. -/
theorem counterAfter_inserts (small : plan.isInsert = true → s.storage.cardinality + 1 < 2 ^ 32) :
    counterAfter (inserts plan e) s.storage.cardinality =
      s.storage.cardinality + (inserts plan e).toList.length := by
  apply counterAfter_of_fits
  intro some
  apply small
  by_contra deletion
  exact some (if_neg deletion)

theorem length_inserts : (inserts plan e).toList.length = if plan.isInsert then 1 else 0 := by
  unfold inserts
  split <;> rfl

theorem Supplied.length_quotas (supplied : s.Supplied plan supply) :
    (Partition.quotas supply.partitions).length = plan.windowLength :=
  (Partition.length_quotas _).trans supplied.segments

/-- The partitions of a plan for a window. -/
theorem Supplied.partitionsFit (supplied : s.Supplied plan supply) :
    SpreadLocal.PartitionsFit s.array (action plan segment e supply.partitions) := by
  refine ⟨supplied.nonempty, supplied.segments, ?_, supplied.quotas⟩
  have cardinality := supplied.cardinality
  change _ = plan.cardinalityAfter.toNat
  change (supply.partitions.map Partition.cardinality).sum = _
  omega

/-- An even division supplies a plan: for a window, where there are enough elements and room for
them; to resize, where the request is roomy. The index may have eight levels, and memory is
needed. -/
theorem Supplied.even {memory : Memory} (ready : s.toPma.Ready segment)
    (made : s.toPma.Made segment plan)
    (window : plan.operation = .rebalance → plan.windowLength ≤ plan.cardinalityAfter ∧
      plan.cardinalityAfter ≤ plan.windowLength * s.storage.segmentCapacity)
    (roomy : plan.operation ≠ .rebalance → s.toPma.Roomy plan.isInsert plan.cardinalityAfter)
    (base : 1 < s.index.nodeSize) (levels : plan.windowLength ≤ s.index.nodeSize ^ 8)
    (allocated : memory.block ≠ none)
    (right : memory.logs.Right s.index.nodeSize plan.windowLength)
    (available : memory.space.Available) (buffers : Nat) :
    s.Supplied plan ⟨[⟨plan.cardinalityAfter.toNat, plan.windowLength⟩], buffers, memory⟩ := by
  have sizes : 1 ≤ plan.windowLength ∧ plan.windowLength ≤ plan.cardinalityAfter ∧
      plan.cardinalityAfter ≤ plan.windowLength * s.storage.segmentCapacity := by
    by_cases operation : plan.operation = .rebalance
    · obtain ⟨k, -, power, -⟩ := made.aligned operation
      exact ⟨power ▸ Nat.one_le_two_pow, window operation⟩
    · have fits := (ready.fits_iff made.planned operation).mpr (roomy operation)
      refine ⟨?_, fits.enough, fits.room⟩
      cases insertion : plan.isInsert with
      | false => exact (fits.shrinks insertion).2
      | true =>
          have more := fits.grows insertion
          omega
  obtain ⟨positive, enough, room⟩ := sizes
  have natural : (plan.cardinalityAfter.toNat : Int) = plan.cardinalityAfter := by omega
  rw [← natural] at enough room
  have index : ∃ index, StaticIndex.rebuildIn memory.logs plan.windowLength memory.block s.index =
      some (.ok () index) := by
    obtain ⟨index, rebuilt⟩ :=
      ((@StaticIndex.rebuild_cases s.index plan.windowLength memory.block positive).2
        (Nat.clog_le_of_le_pow levels)).2 (Or.inr allocated)
    exact ⟨index, (StaticIndex.rebuildIn_eq_ok base).mpr ⟨rebuilt, right⟩⟩
  refine ⟨?_, ?_, ?_, ?_, ?_, roomy, fun _ => index, fun _ => available⟩
  · intro q member
    obtain rfl := List.mem_singleton.mp member
    exact positive
  · exact List.sum_singleton
  · rw [List.map_singleton, List.sum_singleton]
    exact natural
  · intro n member
    rw [Partition.quotas, List.flatMap_singleton] at member
    exact Partition.mem_sizes member (by exact_mod_cast enough) (by exact_mod_cast room)
  · intro operation local_
    obtain ⟨k, above, power, start⟩ := made.aligned operation
    have short : plan.windowLength < s.segmentsPerExtent := by
      by_contra long
      exact local_ (Or.inr ⟨operation, not_lt.mp long⟩)
    refine ⟨Or.inl ?_, trivial⟩
    rcases start with aligned | ⟨-, whole⟩
    · exact Nat.mod_eq_zero_of_dvd ((dvd_pow_self 2 above.ne').trans aligned)
    · have le := Nat.le_of_dvd (by positivity) whole
      omega

/-! ## Spreads -/

/-- A window that was written, within the array. -/
theorem written_window (ordered : s.array.Ordered) (supplied : s.Supplied plan supply)
    (within : s.toPma.Local segment plan)
    (belongs : plan.isInsert = true → s.array.Belongs segment e.1)
    (frame : PackedMemoryArray.Frame s.storage.numberSegments s.array p' plan.windowStart
      plan.windowLength)
    (packed : p'.Packed plan.windowStart (Partition.quotas supply.partitions) l)
    (gained : Gained (inserts plan e) (s.array.block plan.windowStart plan.windowLength) l)
    (counted : p'.storage.cardinality = p'.storage.elements.length ∨
      p'.storage.cardinality = s.storage.cardinality + (inserts plan e).toList.length) :
    (s.withArray p').array.Ordered ∧
      Gained (inserts plan e) s.storage.elements (s.withArray p').storage.elements ∧
      Pma.Same (s.toPma.spread plan supply.outcome) (s.withArray p').toPma := by
  have length := supplied.length_quotas
  rw [← length, ← packed.elements] at gained
  rw [← length] at frame
  have whole := frame.gained ordered (length ▸ within.inside) gained
    (fun e' inserting => by
      have insertion : plan.isInsert = true := by
        by_contra deletion
        simp [inserts, deletion] at inserting
      rw [inserts, if_pos insertion] at inserting
      obtain rfl := Option.some.inj inserting
      exact belongs insertion) within.lower (length ▸ within.upper)
  have cardinality : p'.storage.cardinality =
      s.storage.cardinality + (inserts plan e).toList.length := by
    rcases counted with counted | counted
    · have lengths := whole.perm.length_eq
      have before : s.storage.cardinality = s.storage.elements.length := ordered.counted
      rw [List.length_append] at lengths
      rw [counted, lengths, before, Nat.add_comm]
      rfl
    · exact counted
  have after := ordered.packed frame packed whole supplied.quotas cardinality
  refine ⟨⟨after.sizes_le, after.counted, after.sorted, after.sized, after.separators⟩, whole,
    ?_, ?_, frame.numberSegments, frame.capacity, rfl, rfl, rfl, rfl, rfl⟩
  · intro i inside
    change p'.storage.segmentSizes i =
      if plan.windowStart ≤ i ∧ i < plan.windowStart + plan.windowLength then
        (Partition.quotas supply.partitions).getD (i - plan.windowStart) 0
      else s.storage.segmentSizes i
    split_ifs with here
    · have size := packed.sizes_eq (i - plan.windowStart) (by omega)
      rwa [Nat.add_sub_cancel' here.1] at size
    · exact frame.sizes i (by omega)
  · change p'.storage.cardinality = s.toPma.cardinalityAfter plan
    rw [cardinality, length_inserts, Pma.cardinalityAfter_eq within.small]

/-- The elements of the window, counted by the plan. -/
theorem cardinality_window (within : s.toPma.Local segment plan) :
    plan.cardinalityAfter.toNat =
      (s.array.block plan.windowStart plan.windowLength).length +
        (inserts plan e).toList.length := by
  have cardinality := within.cardinality
  have counts := @SpreadLocal.countOf_block s.array plan.windowStart plan.windowLength
  change s.storage.countOf _ _ = _ at counts
  rw [counts] at cardinality
  rw [length_inserts, cardinality]
  split <;> simp

/-- The pairs of segments of a window. -/
theorem window_pairs (within : s.toPma.Local segment plan) (aligned : s.toPma.Aligned plan)
    (pairs : 2 ∣ s.segmentsPerExtent) (ordered : s.array.Ordered) :
    SpreadLocal.Window s.storage (action plan segment e supply.partitions) := by
  obtain ⟨k, positive, length, start⟩ := aligned
  have even : 2 ∣ 2 ^ k := dvd_pow_self 2 positive.ne'
  refine ⟨?_, ?_, within.inside, ordered.sizes_le⟩
  · apply Nat.mod_eq_zero_of_dvd
    rcases start with multiple | ⟨multiple, -⟩
    · exact even.trans multiple
    · exact pairs.trans multiple
  · change plan.windowLength % 2 = 0
    rw [length]
    exact Nat.mod_eq_zero_of_dvd even

/-- A spread within an extent performs its plan. -/
theorem spreadLocal_performs (ordered : s.array.Ordered) (pairs : 2 ∣ s.segmentsPerExtent)
    (within : s.toPma.Local segment plan) (aligned : s.toPma.Aligned plan)
    (belongs : plan.isInsert = true → s.array.Belongs segment e.1)
    (supplied : s.Supplied plan supply) (short : plan.windowLength < s.segmentsPerExtent) :
    ∃ t, s.doRebalance plan segment e supply = some t ∧ s.Performed plan e supply t := by
  have request : SpreadLocal.Request s.array (action plan segment e supply.partitions) := by
    refine ⟨window_pairs within aligned pairs ordered, ordered.sized, ordered.counted, ?_,
      supplied.partitionsFit.fits, supplied.segments, ?_, ?_⟩
    · intro insertion
      exact ⟨⟨within.lower, within.upper⟩, (belongs insertion).below,
        fun i after inside => (belongs insertion).above i inside after,
        fun i n inside => ordered.sorted_block inside⟩
    · exact supplied.partitionsFit.cardinality
    · exact cardinality_window within
  have spreads : ¬s.Rewires plan := by
    rintro (resizes | ⟨-, long⟩)
    · rw [within.operation] at resizes
      cases resizes
    · omega
  obtain ⟨p', run, repacked⟩ := request.spreads (supplied.aligned within.operation spreads)
    within.small
  obtain ⟨l, packed, gained⟩ := SpreadWithRewiring.repacked_gained repacked
  obtain ⟨after, whole, same⟩ := written_window ordered supplied within belongs repacked.frame
    packed gained (Or.inl repacked.cardinality)
  refine ⟨s.withArray p', ?_, after, whole, ?_, ?_⟩
  · unfold doRebalance
    simp only [within.operation, if_pos short, run, Option.map_some]
  · rw [Pma.doRebalance, if_pos within.operation]
    exact same
  · have calls : ∀ d, Detector.Told s.storage.numberSegments s.storage.numberSegments d
        (d ++ SpreadLocal.clears s.array (action plan segment e supply.partitions)) := by
      intro d
      refine ⟨_, rfl, ?_, ?_⟩
      · unfold SpreadLocal.clears
        split
        · exact ⟨trivial, trivial⟩
        · trivial
      · unfold SpreadLocal.clears
        split <;> rfl
    have numberSegments : (s.withArray p').storage.numberSegments = s.storage.numberSegments :=
      repacked.frame.numberSegments
    rw [numberSegments]
    change Detector.Told _ _ s.detector p'.detector
    cases insertion : plan.isInsert with
    | false =>
        rw [(repacked.kept insertion).2]
        exact calls s.detector
    | true =>
        obtain ⟨l₁, l₂, i, -, -, -, -, receives, called⟩ := repacked.inserted insertion
        obtain ⟨j, inside, rfl, -⟩ := receives
        have length := supplied.length_quotas
        have upper := within.inside
        rw [called]
        refine Detector.Told.trans (Detector.Told.insert ?_) (calls _)
        change plan.windowStart + j < _
        change j < (Partition.quotas supply.partitions).length at inside
        omega

/-- A spread with rewiring performs its plan. -/
theorem rewiring_performs (ordered : s.array.Ordered) (pairs : 2 ∣ s.segmentsPerExtent)
    (ready : s.toPma.Ready segment) (within : s.toPma.Local segment plan)
    (aligned : s.toPma.Aligned plan)
    (belongs : plan.isInsert = true → s.array.Belongs segment e.1)
    (supplied : s.Supplied plan supply) (long : ¬plan.windowLength < s.segmentsPerExtent) :
    ∃ t, s.doRebalance plan segment e supply = some t ∧ s.Performed plan e supply t := by
  have window := @window_pairs s plan segment e supply within aligned pairs ordered
  have positive := ready.framed.configured.segmentsPerExtent_pos
  have length := supplied.length_quotas
  have upper := within.inside
  have rewires : s.Rewires plan := Or.inr ⟨within.operation, not_lt.mp long⟩
  obtain ⟨k, kpos, power, start⟩ := aligned
  obtain ⟨j, extent⟩ := ready.framed.configured.segmentsPerExtent_eq.1
  have whole : s.segmentsPerExtent ∣ 2 ^ k := by
    rw [not_lt, power, extent] at long
    rw [extent]
    exact Nat.pow_dvd_pow 2 ((Nat.pow_le_pow_iff_right (by decide)).mp long)
  have request : SpreadWithRewiring.Rewirable s.array (inserts plan e) plan.windowStart
      plan.windowLength plan.windowLength s.segmentsPerExtent supply.partitions
      s.storage.numberSegments := by
    obtain ⟨half, extent_eq⟩ := pairs
    obtain ⟨m, even⟩ := Nat.dvd_of_mod_eq_zero window.length_even
    change plan.windowLength = 2 * m at even
    have some : 0 < plan.windowLength := by
      rw [power]
      positivity
    refine ⟨⟨half, by omega, extent_eq⟩, ?_, power ▸ whole, some, ⟨m, by omega, even⟩, ?_, ?_,
      ordered.sorted_block upper, ordered.sized, upper, supplied.nonempty, supplied.segments, ?_,
      supplied.quotas⟩
    · exact start.elim whole.trans And.left
    · intro i inside
      exact ordered.sizes_le _ (by change _ < s.storage.numberSegments; omega)
    · intro i inside
      have several : 1 < s.storage.numberSegments := by omega
      by_cases first : plan.windowStart + 2 * i = segment
      · have next := ready.nonempty several (plan.windowStart + 2 * i + 1) (by omega) (by omega)
        exact Nat.add_pos_right _ next
      · have here := ready.nonempty several (plan.windowStart + 2 * i) (by omega) first
        exact Nat.add_pos_left here _
    · rw [← cardinality_window within]
      exact (@Supplied.partitionsFit s plan segment e supply supplied).cardinality
  obtain ⟨r, run, rewired⟩ := request.executes (supplied.available rewires)
  have frame := rewired.frame
  rw [length] at frame
  obtain ⟨after, gained, same⟩ := written_window ordered supplied within belongs frame
    rewired.packed (SpreadWithRewiring.merged_gained request.sorted)
    (Or.inr (rewired.cardinality.trans (counterAfter_inserts within.small)))
  refine ⟨s.withArray r.array, ?_, after, gained, ?_, ?_⟩
  · have executed : SpreadWithRewiring.execute supply.memory.space (SpreadWithRewiring.initial
        s.array (action plan segment e supply.partitions).toInsert
        (action plan segment e supply.partitions).windowStart
        (action plan segment e supply.partitions).windowLength
        (action plan segment e supply.partitions).windowLength s.segmentsPerExtent
        (action plan segment e supply.partitions).partitions) = .ok () r := run
    unfold doRebalance
    simp only [within.operation, if_neg long, executed]
  · rw [Pma.doRebalance, if_pos within.operation]
    exact same
  · have numberSegments : (s.withArray r.array).storage.numberSegments = s.storage.numberSegments :=
      frame.numberSegments
    rw [numberSegments]
    change Detector.Told _ _ s.detector r.detector
    cases inserting : inserts plan e with
    | none =>
        rw [rewired.kept inserting]
        exact Detector.Told.refl
    | some e' =>
        obtain ⟨i, predecessor, successor, ⟨m, inside, rfl, -⟩, called⟩ :=
          rewired.inserted e' inserting
        rw [called]
        refine Detector.Told.insert ?_
        omega

/-! ## Resizes -/

/-- A plan to resize, whose request is roomy. -/
structure Resizes (s : AdaptivePma) (plan : RebalanceMetadata) : Prop where
  fits : s.toPma.Fits plan
  small : plan.isInsert = true → s.storage.cardinality + 1 < 2 ^ 32
  cardinality : plan.cardinalityAfter =
    (s.storage.cardinality : Int) + if plan.isInsert then 1 else 0

theorem Supplied.resizes (ready : s.toPma.Ready segment) (planned : s.toPma.Planned segment plan)
    (supplied : s.Supplied plan supply) (resizes : plan.operation ≠ .rebalance) :
    s.Resizes plan := by
  refine ⟨(ready.fits_iff planned resizes).mpr (supplied.roomy resizes), planned.small, ?_⟩
  rcases planned with within | ⟨a, b, -, -, rfl⟩ | ⟨a, b, -, rfl⟩
  · exact absurd within.operation resizes
  · rfl
  · exact (add_zero _).symm

/-- What the resizes are asked for. -/
theorem Resizes.resizable (resizes : s.Resizes plan) (ordered : s.array.Ordered)
    (ready : s.toPma.Ready segment) (inside : segment < s.storage.numberSegments)
    (full : plan.isInsert = true → 0 < s.storage.segmentSizes segment)
    (supplied : s.Supplied plan supply) :
    Resize.Resizable (s.resizing plan) (action plan segment e supply.partitions) := by
  refine ⟨List.pairwise_map.mpr ordered.sorted, ⟨ordered.sizes_le, ?_⟩, ?_, supplied.nonempty,
    supplied.segments, ?_, supplied.quotas⟩
  · intro i insideI j insideJ emptyI emptyJ
    by_contra other
    have many : 1 < s.storage.numberSegments := by
      change i < s.storage.numberSegments at insideI
      change j < s.storage.numberSegments at insideJ
      omega
    have only : ∀ i < s.storage.numberSegments, s.storage.segmentSizes i = 0 → i = segment := by
      intro i inside empty
      by_contra differs
      have some := ready.nonempty many i inside differs
      omega
    exact other ((only i insideI emptyI).trans (only j insideJ emptyJ).symm)
  · intro insertion i insideI
    change i < s.storage.numberSegments at insideI
    by_cases here : i = segment
    · rw [here]
      exact full insertion
    · exact ready.nonempty (by omega) i insideI here
  · have cardinality := supplied.cardinality
    have counted : s.storage.cardinality = s.storage.elements.length := ordered.counted
    rw [resizes.cardinality, counted] at cardinality
    change (supply.partitions.map Partition.cardinality).sum =
      s.storage.elements.length + (inserts plan e).toList.length
    rw [length_inserts]
    generalize (supply.partitions.map Partition.cardinality).sum = total at cardinality ⊢
    cases insertion : plan.isInsert with
    | false =>
        simp only [insertion, Bool.false_eq_true, if_false, add_zero] at cardinality ⊢
        omega
    | true =>
        simp only [insertion, if_true] at cardinality ⊢
        omega

/-- A resize performs its plan. -/
theorem performed_resize (operation : plan.operation ≠ .rebalance)
    (small : plan.isInsert = true → s.storage.cardinality + 1 < 2 ^ 32) (ordered : s.array.Ordered)
    (supplied : s.Supplied plan supply)
    (request : Resize.Resizable (s.resizing plan) (action plan segment e supply.partitions))
    (written : Resize.Written (s.resizing plan) (action plan segment e supply.partitions) l p') :
    s.Performed plan e supply (s.resized plan supply p') := by
  have after := written.ordered request ordered.counted small
  have length := supplied.length_quotas
  have elements : p'.storage.elements = l := written.elements request
  refine ⟨⟨after.sizes_le, after.counted, after.sorted, after.sized, after.separators⟩, ?_, ?_, ?_⟩
  · change Gained _ s.storage.elements p'.storage.elements
    rw [elements]
    exact written.gained
  · rw [Pma.doRebalance, if_neg operation]
    refine ⟨?_, ?_, written.numberSegments, written.capacity, rfl, rfl, rfl, rfl, rfl⟩
    · intro i inside
      change i < plan.windowLength at inside
      have size := written.packed.sizes_eq i
        (by change i < (Partition.quotas supply.partitions).length; omega)
      rwa [Nat.zero_add] at size
    · change p'.storage.cardinality = s.toPma.cardinalityAfter plan
      rw [written.cardinality, toInsert_action, Pma.cardinalityAfter_eq small, ← length_inserts]
      exact counterAfter_inserts small
  · have numberSegments : (s.resized plan supply p').storage.numberSegments = plan.windowLength :=
      written.numberSegments
    rw [numberSegments]
    have first : Detector.Told s.storage.numberSegments plan.windowLength s.detector
        (s.detector ++ [.resize plan.windowLength]) := ⟨_, rfl, ⟨trivial, trivial⟩, rfl⟩
    apply first.trans
    change Detector.Told _ _ (s.resizing plan).detector p'.detector
    rcases written.detector with same | ⟨i, inside, predecessor, successor, called⟩
    · rw [same]
      exact Detector.Told.refl
    · rw [called]
      exact Detector.Told.insert inside

theorem resize_performs (resizes : s.Resizes plan) (ordered : s.array.Ordered)
    (ready : s.toPma.Ready segment) (inside : segment < s.storage.numberSegments)
    (pairs : 2 ∣ s.segmentsPerExtent)
    (full : plan.isInsert = true → 0 < s.storage.segmentSizes segment)
    (supplied : s.Supplied plan supply) (operation : plan.operation ≠ .rebalance) :
    ∃ t, s.doRebalance plan segment e supply = some t ∧ s.Performed plan e supply t := by
  have request := @Resizes.resizable s plan segment e supply resizes ordered ready inside full
    supplied
  obtain ⟨index, rebuilt⟩ := supplied.rebuilt operation
  cases kind : plan.operation with
  | rebalance => exact absurd kind operation
  | resizeRebalance =>
      have rewires : s.Rewires plan := Or.inl kind
      have extents := resizes.fits.rewired kind
      have extent := ready.framed.configured.segmentsPerExtent_pos
      have before := ready.framed.rewired.mp extents.1
      have after := ready.framed.configured.usesRewiring_iff.mp extents.2
      have whole : s.segmentsPerExtent ∣ plan.windowLength := by
        rcases resizes.fits.shape with ⟨k, power, -⟩ | multiple
        · obtain ⟨j, extent_eq⟩ := ready.framed.configured.segmentsPerExtent_eq.1
          rw [power, extent_eq] at after
          rw [power, extent_eq]
          exact Nat.pow_dvd_pow 2 ((Nat.pow_le_pow_iff_right (by decide)).mp after)
        · exact multiple
      have extends_ : PackedMemoryArray.Extendable (s.resizing plan)
          (action plan segment e supply.partitions) s.segmentsPerExtent := by
        obtain ⟨half, extent_eq⟩ := pairs
        refine ⟨⟨half, by omega, extent_eq⟩, whole, Nat.mod_eq_zero_of_dvd ?_⟩
        exact (Dvd.intro half extent_eq.symm).trans (ready.framed.dvd before)
      obtain ⟨p', l, run, written⟩ := extends_.writes request ordered.sized rebuilt
        (supplied.available rewires)
      refine ⟨s.resized plan supply p', ?_,
        performed_resize operation resizes.small ordered supplied request written⟩
      unfold doRebalance
      simp only [kind, run, Option.map_some]
  | resize =>
      obtain ⟨p', l, run, written⟩ := @Resize.Resizable.writes (s.resizing plan) _ index
        supply.memory.logs supply.memory.cells supply.memory.sizes supply.memory.block request
        ordered.sized rebuilt
      refine ⟨s.resized plan supply p', ?_,
        performed_resize operation resizes.small ordered supplied request written⟩
      unfold doRebalance
      simp only [kind, run, Option.map_some]

/-- Whichever way the elements are moved, the plan is performed. -/
theorem doRebalance_performs (ordered : s.array.Ordered) (ready : s.toPma.Ready segment)
    (inside : segment < s.storage.numberSegments) (pairs : 2 ∣ s.segmentsPerExtent)
    (made : s.toPma.Made segment plan)
    (belongs : plan.isInsert = true →
      s.array.Belongs segment e.1 ∧ 0 < s.storage.segmentSizes segment)
    (supplied : s.Supplied plan supply) :
    ∃ t, s.doRebalance plan segment e supply = some t ∧ s.Performed plan e supply t := by
  by_cases operation : plan.operation = .rebalance
  · have aligned := made.aligned operation
    have within : s.toPma.Local segment plan := by
      rcases made.planned with within | ⟨a, b, -, -, rfl⟩ | ⟨a, b, -, rfl⟩
      · exact within
      · exact absurd operation (s.toPma.rebalancePlan_operation _ _ _ _)
      · exact absurd operation (s.toPma.rebalancePlan_operation _ _ _ _)
    by_cases short : plan.windowLength < s.segmentsPerExtent
    · exact spreadLocal_performs ordered pairs within aligned (fun i => (belongs i).1) supplied
        short
    · exact rewiring_performs ordered pairs ready within aligned (fun i => (belongs i).1) supplied
        short
  · have resizes := supplied.resizes ready made.planned operation
    exact resize_performs resizes ordered ready inside pairs (fun i => (belongs i).2) supplied
      operation

end Performing

end AdaptivePma

end Rma
