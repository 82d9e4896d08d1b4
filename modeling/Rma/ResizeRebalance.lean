import Rma.Resize
import Rma.RewiredRebalance

/-!
# Resizing with rewiring

`resize_rebalance` extends the memory of the array, or shrinks it afterwards, and spreads the
elements over the new number of segments with rewiring. It is a sorted repack like `resize`
(`resizeRebalance_repacks`), although the elements are read from the segments that are written.
-/

namespace Rma

open Base Rma.Partition

/-- What the array gets from outside: the buffers of the rewiring facility, the block of the index
and the heights that it computes, and the contents of new memory. -/
structure Memory where
  space : FreeSpace
  logs : Logarithms
  block : Option (Nat → Int)
  cells : Nat → Int × Int
  sizes : Nat → Nat

namespace Storage

/-- `extend(num_segments_to_add)`: the new extents have arbitrary contents. -/
def extend (s : Storage) (numSegmentsToAdd : Nat) (cells : Nat → Int × Int) (sizes : Nat → Nat) :
    Storage :=
  { s.withCells fun p => if p < s.numberSegments * s.segmentCapacity then s.cell p else cells p with
    segmentSizes := fun i => if i < s.numberSegments then s.segmentSizes i else sizes i
    numberSegments := s.numberSegments + numSegmentsToAdd }

/-- `shrink(num_segments_to_remove)` -/
def shrink (s : Storage) (numSegmentsToRemove : Nat) : Storage :=
  { s with numberSegments := s.numberSegments - numSegmentsToRemove }

end Storage

namespace PackedMemoryArray

/-- The array that `resize_rebalance` spreads. -/
def extended (p : PackedMemoryArray) (a : RebalanceAction) (memory : Memory)
    (index : StaticIndex) : PackedMemoryArray :=
  { p with
    storage :=
      if a.windowLength > p.storage.numberSegments then
        p.storage.extend (a.windowLength - p.storage.numberSegments) memory.cells memory.sizes
      else p.storage
    index := index }

/-- `resize_rebalance(action)`; undefined when it raises or does not return. -/
def resizeRebalance (p : PackedMemoryArray) (a : RebalanceAction) (segmentsPerExtent : Nat)
    (memory : Memory) : Option PackedMemoryArray :=
  match StaticIndex.rebuildIn memory.logs a.windowLength memory.block p.index with
  | none => none
  | some (.error _ _) => none
  | some (.ok _ index) =>
    let spread := SpreadWithRewiring.initial (p.extended a memory index) a.toInsert 0
      p.storage.numberSegments a.windowLength segmentsPerExtent a.partitions
    match SpreadWithRewiring.execute memory.space spread with
    | .error _ _ => none
    | .ok _ s =>
      let storage :=
        if a.windowLength < p.storage.numberSegments then
          s.storage.shrink (p.storage.numberSegments - a.windowLength)
        else s.storage
      some ⟨storage, s.index, s.detector⟩

/-- The array has pairs of segments, and whole extents afterwards. -/
structure Extendable (p : PackedMemoryArray) (a : RebalanceAction) (segmentsPerExtent : Nat) :
    Prop where
  extent : ∃ half, 0 < half ∧ segmentsPerExtent = 2 * half
  length : segmentsPerExtent ∣ a.windowLength
  even : p.storage.numberSegments % 2 = 0

section Resizing

variable {p : PackedMemoryArray} {a : RebalanceAction} {segmentsPerExtent : Nat} {memory : Memory}
  {index : StaticIndex} {i : Nat}

theorem extended_segmentSizes (inside : i < p.storage.numberSegments) :
    (p.extended a memory index).storage.segmentSizes i = p.storage.segmentSizes i := by
  unfold extended
  simp only
  split_ifs with grows
  · exact if_pos inside
  · rfl

theorem extended_segmentCapacity :
    (p.extended a memory index).storage.segmentCapacity = p.storage.segmentCapacity := by
  unfold extended
  simp only
  split_ifs <;> rfl

theorem extended_cardinality :
    (p.extended a memory index).storage.cardinality = p.storage.cardinality := by
  unfold extended
  simp only
  split_ifs <;> rfl

/-- The segments there were hold what they held. -/
theorem extended_segment (inside : i < p.storage.numberSegments)
    (fits : p.storage.segmentSizes i ≤ p.storage.segmentCapacity) :
    (p.extended a memory index).storage.segment i = p.storage.segment i := by
  have size := @extended_segmentSizes p a memory index i inside
  have start : (p.extended a memory index).storage.start i = p.storage.start i := by
    unfold Storage.start
    rw [size, extended_segmentCapacity]
  have bounds := Storage.layout fits
  have below : (i + 1) * p.storage.segmentCapacity ≤
      p.storage.numberSegments * p.storage.segmentCapacity := Nat.mul_le_mul_right _ inside
  rw [Storage.segment_eq_readCells, Storage.segment_eq_readCells, start, size]
  apply readCells_congr
  intro q lower upper
  unfold extended
  simp only
  split_ifs with grows
  · exact if_pos (by omega)
  · rfl

theorem extended_block (fits : ∀ i < p.storage.numberSegments,
      p.storage.segmentSizes i ≤ p.storage.segmentCapacity) :
    (p.extended a memory index).block 0 p.storage.numberSegments = p.storage.elements := by
  rw [elements_eq_block]
  apply block_congr
  intro i inside
  rw [Nat.zero_add]
  exact extended_segment inside (fits i inside)

/-- The request that `resize_rebalance` makes. -/
theorem Extendable.rewirable (extends_ : Extendable p a segmentsPerExtent)
    (request : Resize.Resizable p a) (sized : index.Sized a.windowLength)
    (segments : 0 < p.storage.numberSegments) :
    SpreadWithRewiring.Rewirable (p.extended a memory index) a.toInsert 0
      p.storage.numberSegments a.windowLength segmentsPerExtent a.partitions a.windowLength := by
  have elements := @extended_block p a memory index request.fit.sizes_le
  have positive := (sized.root.bounds sized.base).1
  have pairs := extends_.even
  refine ⟨extends_.extent, Nat.dvd_zero _, extends_.length, positive,
    ⟨p.storage.numberSegments / 2, by omega, by omega⟩, ?_, ?_, ?_, sized, by omega,
    request.nonempty, request.segments, ?_, ?_⟩
  · intro i inside
    rw [Nat.zero_add, extended_segmentSizes inside, extended_segmentCapacity]
    exact request.fit.sizes_le i inside
  · intro t inside
    rw [Nat.zero_add, extended_segmentSizes inside, extended_segmentSizes (by omega)]
    by_contra empty
    have same := request.fit.one_empty (2 * t) inside (2 * t + 1) (by omega) (by omega) (by omega)
    omega
  · rw [elements]
    have sorted := request.sorted
    rwa [Storage.Sorted, List.pairwise_map] at sorted
  · rw [elements]
    exact request.cardinality
  · rw [extended_segmentCapacity]
    exact request.quotas

/-- The spread leaves what a resize leaves. -/
theorem Extendable.writes (extends_ : Extendable p a segmentsPerExtent)
    (request : Resize.Resizable p a) (sized : p.index.Sized p.storage.numberSegments)
    (rebuilt : StaticIndex.rebuildIn memory.logs a.windowLength memory.block p.index =
      some (.ok () index))
    (available : memory.space.Available) :
    ∃ p' l, p.resizeRebalance a segmentsPerExtent memory = some p' ∧ Resize.Written p a l p' := by
  have built := sized.rebuiltIn rebuilt
  have segments := (sized.root.bounds sized.base).1
  have elements := @extended_block p a memory index request.fit.sizes_le
  have length := request.length_quotas
  rcases (extends_.rewirable request built segments).executes available with ⟨s, run, rewired⟩
  have packed := rewired.packed
  have frame := rewired.frame
  rw [elements] at packed
  set storage : Storage :=
    if a.windowLength < p.storage.numberSegments then
      s.storage.shrink (p.storage.numberSegments - a.windowLength)
    else s.storage with storage_eq
  have kept : storage.segmentCapacity = s.storage.segmentCapacity ∧
      storage.cardinality = s.storage.cardinality ∧
      storage.segmentSizes = s.storage.segmentSizes ∧ storage.segment = s.storage.segment ∧
      storage.getMinimum = s.storage.getMinimum := by
    rw [storage_eq]
    split_ifs <;> exact ⟨rfl, rfl, rfl, rfl, rfl⟩
  have numberSegments : storage.numberSegments = a.windowLength := by
    have before : s.storage.numberSegments = (p.extended a memory index).storage.numberSegments :=
      frame.numberSegments
    have after : (p.extended a memory index).storage.numberSegments =
        max a.windowLength p.storage.numberSegments := by
      unfold extended
      simp only
      split_ifs with grows
      · change p.storage.numberSegments + (a.windowLength - p.storage.numberSegments) = _
        omega
      · omega
    rw [storage_eq]
    split_ifs with shrinks
    · change s.storage.numberSegments - (p.storage.numberSegments - a.windowLength) = _
      omega
    · omega
  refine ⟨⟨storage, s.index, s.detector⟩, SpreadWithRewiring.merged a.toInsert p.storage.elements,
    ?_, numberSegments, ?_, ⟨?_, ?_, ?_⟩, SpreadWithRewiring.merged_gained request.pairs,
    frame.sized, ?_, ?_⟩
  · unfold resizeRebalance
    rw [rebuilt]
    simp only
    rw [run]
  · exact kept.1.trans (frame.capacity.trans extended_segmentCapacity)
  · intro i inside
    exact (congrFun kept.2.2.1 (0 + i)).trans (packed.sizes_eq i inside)
  · rw [← packed.elements]
    exact block_congr fun i _ => congrFun kept.2.2.2.1 (0 + i)
  · intro i inside
    exact (packed.separators i inside).trans (congrFun kept.2.2.2.2 (0 + i)).symm
  · rw [← @extended_cardinality p a memory index]
    exact kept.2.1.trans rewired.cardinality
  · cases inserting : a.toInsert with
    | none => exact Or.inl (rewired.kept inserting)
    | some e =>
        rcases rewired.inserted e inserting with
          ⟨segment, predecessor, successor, receives, called⟩
        refine Or.inr ⟨segment, ?_, predecessor, successor, called⟩
        obtain ⟨i, below, rfl, -⟩ := receives
        omega

/-- **A resize with rewiring is a sorted repack.** When the index can be built for the new number of
segments, the rewiring facility has its buffers and the counter does not overflow,
`resize_rebalance` leaves the elements with the new one at a sorted position, each segment with its
quota and its minimum in the index, whether the array grows or shrinks. -/
theorem resizeRebalance_repacks (extends_ : Extendable p a segmentsPerExtent)
    (request : Resize.Resizable p a) (sized : p.index.Sized p.storage.numberSegments)
    (rebuilt : StaticIndex.rebuildIn memory.logs a.windowLength memory.block p.index =
      some (.ok () index))
    (available : memory.space.Available)
    (counter : a.isInsert = true → p.storage.cardinality + 1 < 2 ^ 32) :
    ∃ p', p.resizeRebalance a segmentsPerExtent memory = some p' ∧ Resize.Repacked p a p' := by
  rcases extends_.writes request sized rebuilt available with ⟨p', l, run, written⟩
  exact ⟨p', run, written.repacked request (counterAfter_toInsert_iff.mpr counter)⟩

/-- Four segments become six, in three extents. -/
theorem resizeRebalance_repacks_four :
    ∃ u index, StaticIndex.create 3 4 (some fun _ => 0) (StaticIndex.blank 3) = .ok u index ∧
      ∃ p', (SpreadLocal.fourArray index).resizeRebalance
          ⟨true, 33, 330, 1, 0, 6, 39, [⟨20, 3⟩, ⟨19, 3⟩]⟩ 2
          ⟨⟨fun _ => some fun _ => 0, fun _ => some fun _ => 0⟩, Logarithms.exact,
            some fun _ => 0, fun _ => (0, 0), fun _ => 0⟩ = some p' ∧
        Resize.Repacked (SpreadLocal.fourArray index)
          ⟨true, 33, 330, 1, 0, 6, 39, [⟨20, 3⟩, ⟨19, 3⟩]⟩ p' := by
  have ⟨u, index, index', construction, rebuilt⟩ : ∃ u index index',
      StaticIndex.create 3 4 (some fun _ => 0) (StaticIndex.blank 3) = .ok u index ∧
      StaticIndex.rebuild 6 (some fun _ => 0) (SpreadLocal.fourArray index).index =
        .ok () index' := ⟨_, _, _, rfl, rfl⟩
  have sized := (StaticIndex.storeAll_separators (StaticIndex.create_ok (by decide) construction)
    (show ∀ e ∈ ([(0, 30), (1, 32), (2, 94), (3, 96)] : List (Nat × Int)), e.1 < 4 by decide)).sized
  have sorted : SpreadLocal.fourStorage.Sorted := by
    unfold Storage.Sorted
    decide
  have fit : Resize.Fit SpreadLocal.fourStorage :=
    ⟨show ∀ i < 4, SpreadLocal.fourStorage.segmentSizes i ≤ 32 by decide,
      show ∀ i < 4, ∀ j < 4, SpreadLocal.fourStorage.segmentSizes i = 0 →
        SpreadLocal.fourStorage.segmentSizes j = 0 → i = j by decide⟩
  have request : Resize.Resizable (SpreadLocal.fourArray index)
      ⟨true, 33, 330, 1, 0, 6, 39, [⟨20, 3⟩, ⟨19, 3⟩]⟩ :=
    ⟨sorted, fit, fun _ => show ∀ i < 4, 0 < SpreadLocal.fourStorage.segmentSizes i by decide,
      by simp, rfl, rfl, show ∀ n ∈ quotas [⟨20, 3⟩, ⟨19, 3⟩], 0 < n ∧ n ≤ 32 by decide⟩
  have right := Logarithms.exact_right sized.base (by decide : 0 < 6)
  exact ⟨u, index, construction, resizeRebalance_repacks
    ⟨⟨1, by decide, rfl⟩, by decide, show 4 % 2 = 0 from rfl⟩ request sized
    ((StaticIndex.rebuildIn_eq_ok sized.base).mpr ⟨rebuilt, right⟩) (fun _ => ⟨⟨_, rfl⟩, _, rfl⟩)
    fun _ => (by decide : 38 + 1 < 2 ^ 32)⟩

end Resizing

end PackedMemoryArray

end Rma
