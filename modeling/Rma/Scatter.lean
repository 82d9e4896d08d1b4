import Rma.Base.Chunks
import Rma.Base.Strided
import Rma.Base.Words

/-!
# Interleaved scatter and gather

A segment is made of blocks of eight cells, one for each cache line. `interleaved_scatter` stores
the elements of an array at the start of the blocks, the same number in each block, and one more in
the first ones; `interleaved_gather` reads them back. Both call an aligned copy twice, for the
overfilled blocks and for the others, which has a specialised loop for each number of elements of
a block and takes the number of blocks as an `int`.
-/

namespace Rma

open Base

namespace Scatter

/-- `ELEMENTS_PER_CACHELINE` -/
def elementsPerCacheline : Nat := 8

/-- `memcpy` of whole blocks. `num_blocks * ELEMENTS_PER_CACHELINE` is a product of two `int`s, and
a negative one is out of range as a size. -/
def copyCachelines (source : List Int) (s d : Nat) (numBlocks : Int) (destination : List Int) :
    Option (List Int) :=
  let elements := toInt (numBlocks * elementsPerCacheline)
  if elements < 0 then none
  else copyLoop source s d elements.toNat 0 destination

/-- `aligned_gather_multiple<num_elements>` -/
def alignedGatherMultiple (numElements : Nat) (source : List Int) (s d : Nat) (numBlocks : Int)
    (destination : List Int) : Option (List Int) :=
  copyBlocks numElements elementsPerCacheline numElements source numBlocks.toNat s d destination

/-- `aligned_gather(destination + d, source + s, num_blocks, elements_per_block)` -/
def alignedGather (source : List Int) (s d : Nat) (numBlocks elementsPerBlock : Int)
    (destination : List Int) : Option (List Int) :=
  match elementsPerBlock with
  | 0 => some destination
  | 1 => alignedGatherMultiple 1 source s d numBlocks destination
  | 2 => alignedGatherMultiple 2 source s d numBlocks destination
  | 3 => alignedGatherMultiple 3 source s d numBlocks destination
  | 4 => alignedGatherMultiple 4 source s d numBlocks destination
  | 5 => alignedGatherMultiple 5 source s d numBlocks destination
  | 6 => alignedGatherMultiple 6 source s d numBlocks destination
  | 7 => alignedGatherMultiple 7 source s d numBlocks destination
  | 8 => copyCachelines source s d numBlocks destination
  | _ => if numBlocks = 0 then some destination else none -- the assertion

/-- `aligned_scatter_multiple<num_elements>` -/
def alignedScatterMultiple (numElements : Nat) (source : List Int) (s d : Nat) (numBlocks : Int)
    (destination : List Int) : Option (List Int) :=
  copyBlocks numElements numElements elementsPerCacheline source numBlocks.toNat s d destination

/-- `aligned_scatter(destination + d, source + s, num_blocks, elements_per_block)` -/
def alignedScatter (source : List Int) (s d : Nat) (numBlocks elementsPerBlock : Int)
    (destination : List Int) : Option (List Int) :=
  match elementsPerBlock with
  | 0 => some destination
  | 1 => alignedScatterMultiple 1 source s d numBlocks destination
  | 2 => alignedScatterMultiple 2 source s d numBlocks destination
  | 3 => alignedScatterMultiple 3 source s d numBlocks destination
  | 4 => alignedScatterMultiple 4 source s d numBlocks destination
  | 5 => alignedScatterMultiple 5 source s d numBlocks destination
  | 6 => alignedScatterMultiple 6 source s d numBlocks destination
  | 7 => alignedScatterMultiple 7 source s d numBlocks destination
  | 8 => copyCachelines source s d numBlocks destination
  | _ => if numBlocks = 0 then some destination else none -- the assertion

/-- `interleaved_gather(destination, source, blocks_per_segment, source_sz)` -/
def interleavedGather (destination source : List Int) (blocksPerSegment sourceSz : Nat) :
    Option (List Int) :=
  if blocksPerSegment = 0 then none
  else do
    let elementsPerBlock := sourceSz / blocksPerSegment
    let overfilledBlocks := sourceSz % blocksPerSegment
    let destination ← alignedGather source 0 0 (toInt overfilledBlocks)
      (toInt (elementsPerBlock + 1)) destination
    alignedGather source (overfilledBlocks * elementsPerCacheline)
      (overfilledBlocks * (elementsPerBlock + 1)) (toInt (blocksPerSegment - overfilledBlocks))
      (toInt elementsPerBlock) destination

/-- `interleaved_scatter(destination, source, blocks_per_segment, destination_sz)` -/
def interleavedScatter (destination source : List Int) (blocksPerSegment destinationSz : Nat) :
    Option (List Int) :=
  if blocksPerSegment = 0 then none
  else do
    let elementsPerBlock := destinationSz / blocksPerSegment
    let overfilledBlocks := destinationSz % blocksPerSegment
    let destination ← alignedScatter source 0 0 (toInt overfilledBlocks)
      (toInt (elementsPerBlock + 1)) destination
    alignedScatter source (overfilledBlocks * (elementsPerBlock + 1))
      (overfilledBlocks * elementsPerCacheline) (toInt (blocksPerSegment - overfilledBlocks))
      (toInt elementsPerBlock) destination

/-! ## The aligned copies -/

section Aligned

variable {source destination result : List Int} {s d k e : Nat}

/-- A copy of `k` blocks of `e` elements is one that the `int`s can count: of whole blocks, the
elements too. -/
def Counts (k e : Nat) : Prop :=
  e = 0 ∨ k < 2 ^ 31 ∧ (e = elementsPerCacheline → k * elementsPerCacheline < 2 ^ 31)

theorem copyCachelines_eq (counts : Counts k 8) :
    copyCachelines source s d k destination =
      copyBlocks elementsPerCacheline elementsPerCacheline elementsPerCacheline source k s d
        destination := by
  obtain empty | ⟨-, whole⟩ := counts
  · cases empty
  · have few := whole rfl
    have elements : toInt ((k : Int) * elementsPerCacheline) =
        (k * elementsPerCacheline : Nat) := by
      rw [toInt_of_lt (by positivity) (by exact_mod_cast few)]
      push_cast
      rfl
    rw [copyCachelines, elements, if_neg (by omega), copyBlocks_whole]
    rfl

theorem alignedGather_whole (numBlocks : Int) :
    alignedGather source s d numBlocks ((8 : Nat) : Int) destination =
      copyCachelines source s d numBlocks destination := rfl

theorem alignedScatter_whole (numBlocks : Int) :
    alignedScatter source s d numBlocks ((8 : Nat) : Int) destination =
      copyCachelines source s d numBlocks destination := rfl

/-- The specialised loops are one copy. -/
theorem alignedGather_eq (counts : Counts k e) (few : e ≤ 9) (last : e = 9 → k = 0) :
    alignedGather source s d k e destination =
      copyBlocks e elementsPerCacheline e source k s d destination := by
  interval_cases e
  · exact (copyBlocks_zero k).symm
  case «8» => exact (alignedGather_whole k).trans (copyCachelines_eq counts)
  case «9» =>
    obtain rfl := last rfl
    rfl
  all_goals rfl

theorem alignedScatter_eq (counts : Counts k e) (few : e ≤ 9) (last : e = 9 → k = 0) :
    alignedScatter source s d k e destination =
      copyBlocks e e elementsPerCacheline source k s d destination := by
  interval_cases e
  · exact (copyBlocks_zero k).symm
  case «8» => exact (alignedScatter_whole k).trans (copyCachelines_eq counts)
  case «9» =>
    obtain rfl := last rfl
    rfl
  all_goals rfl

/-- The number of elements that a copy writes. -/
def copied (numBlocks : Int) (e : Nat) : Nat :=
  if e = elementsPerCacheline then (toInt (numBlocks * elementsPerCacheline)).toNat
  else numBlocks.toNat * e

theorem copied_eq (counts : Counts k e) : copied (toInt k) e = k * e := by
  obtain rfl | ⟨few, whole⟩ := counts
  · rw [copied, if_neg (by decide), Nat.mul_zero, Nat.mul_zero]
  · rw [toInt_of_lt (Int.natCast_nonneg k) (by omega), copied]
    split_ifs with full
    · have small := whole full
      rw [toInt_of_lt (by positivity) (by exact_mod_cast small), full]
      omega
    · rw [Int.toNat_natCast]

/-- A number that overflows leaves some element out. -/
theorem copied_lt (overflow : ¬ Counts k e) : copied (toInt k) e < k * e := by
  rw [Counts, not_or, not_and_or] at overflow
  obtain ⟨some, large⟩ := overflow
  rw [copied]
  split_ifs with full
  · have few := toInt_lt (toInt k * elementsPerCacheline)
    rw [full, elementsPerCacheline] at *
    omega
  · have few := toInt_lt k
    have many : 2 ^ 31 ≤ k := large.elim Nat.le_of_not_lt fun whole => absurd
      (fun full' => absurd full' full) whole
    exact Nat.mul_lt_mul_of_pos_right (by omega) (Nat.pos_of_ne_zero some)

/-- A gather does not write outside of the elements that it copies, whatever their number. -/
theorem alignedGather_frame {numBlocks : Int} (few : e ≤ 9)
    (run : alignedGather source s d numBlocks e destination = some result) :
    ∀ q, q < d ∨ d + copied numBlocks e ≤ q → result[q]? = destination[q]? := by
  have loop : ∀ m, copyBlocks m elementsPerCacheline m source numBlocks.toNat s d destination =
      some result → e = m → ∀ q, q < d ∨ d + numBlocks.toNat * e ≤ q →
        result[q]? = destination[q]? := by
    rintro m run rfl
    exact (copyBlocks_frame (fun _ => le_rfl) run).2
  interval_cases e
  · cases run
    exact fun _ _ => rfl
  case «8» =>
    rw [alignedGather_whole, copyCachelines] at run
    split at run
    · cases run
    · exact (copyLoop_frame run).2
  case «9» =>
    rw [show alignedGather source s d numBlocks ((9 : Nat) : Int) destination =
      if numBlocks = 0 then some destination else none from rfl] at run
    split at run
    · cases run
      exact fun _ _ => rfl
    · cases run
  all_goals exact loop _ run rfl

end Aligned

/-! ## The blocks of a segment -/

section Blocks

variable {blocksPerSegment size : Nat}

/-- The number of elements of a block. -/
def blockSize (blocksPerSegment size j : Nat) : Nat :=
  chunkSize (size / blocksPerSegment) (size % blocksPerSegment) j

/-- The number of elements in the blocks before. -/
def blockStart (blocksPerSegment size j : Nat) : Nat :=
  chunkStart (size / blocksPerSegment) (size % blocksPerSegment) j

theorem blockSize_le (most : size ≤ elementsPerCacheline * blocksPerSegment) (j : Nat) :
    blockSize blocksPerSegment size j ≤ elementsPerCacheline := by
  have quotient : size / blocksPerSegment ≤ elementsPerCacheline :=
    Nat.div_le_of_le_mul (by rwa [Nat.mul_comm] at most)
  have split := Nat.div_add_mod' size blocksPerSegment
  rw [blockSize, chunkSize]
  split_ifs with overfilled
  · rcases Nat.eq_or_lt_of_le quotient with same | less
    · rw [same] at split
      omega
    · exact less
  · exact quotient

/-- The blocks of the two calls. -/
theorem blockSize_first {j : Nat} (first : j < size % blocksPerSegment) :
    blockSize blocksPerSegment size j = size / blocksPerSegment + 1 ∧
      blockStart blocksPerSegment size j = j * (size / blocksPerSegment + 1) := by
  rw [blockSize, chunkSize, if_pos first, blockStart, chunkStart, Nat.min_eq_left first.le,
    Nat.mul_succ]
  exact ⟨rfl, rfl⟩

theorem blockSize_second (j : Nat) :
    blockSize blocksPerSegment size (size % blocksPerSegment + j) = size / blocksPerSegment ∧
      blockStart blocksPerSegment size (size % blocksPerSegment + j) =
        size % blocksPerSegment * (size / blocksPerSegment + 1) + j * (size / blocksPerSegment) := by
  rw [blockSize, chunkSize, if_neg (by omega), blockStart, chunkStart,
    Nat.min_eq_right (Nat.le_add_right _ _), Nat.add_mul, Nat.mul_succ]
  exact ⟨rfl, by omega⟩

theorem blockStart_add_le (positive : 0 < blocksPerSegment) {j : Nat}
    (inside : j < blocksPerSegment) :
    blockStart blocksPerSegment size j + blockSize blocksPerSegment size j ≤ size := by
  have bound := chunkStart_add_le (size / blocksPerSegment) (size % blocksPerSegment) inside
  rwa [chunkStart_even size blocksPerSegment positive] at bound

/-- Every element is in a block. -/
theorem exists_block (positive : 0 < blocksPerSegment) {i : Nat} (inside : i < size) :
    ∃ j o, j < blocksPerSegment ∧ o < blockSize blocksPerSegment size j ∧
      i = blockStart blocksPerSegment size j + o :=
  exists_chunk (by rwa [chunkStart_even size blocksPerSegment positive])

/-- The two copies of a segment are such that the `int`s can count them. -/
def Fits (blocksPerSegment size : Nat) : Prop :=
  Counts (size % blocksPerSegment) (size / blocksPerSegment + 1) ∧
    Counts (blocksPerSegment - size % blocksPerSegment) (size / blocksPerSegment)

variable {a segment : List Int}

/-- The elements of a block are at most as many as its cells. -/
theorem quotient_le (most : size ≤ elementsPerCacheline * blocksPerSegment) :
    size / blocksPerSegment ≤ 8 ∧ (0 < size % blocksPerSegment → size / blocksPerSegment < 8) := by
  have quotient : size / blocksPerSegment ≤ 8 :=
    Nat.div_le_of_le_mul (by rwa [elementsPerCacheline, Nat.mul_comm] at most)
  have split := Nat.div_add_mod' size blocksPerSegment
  refine ⟨quotient, fun rest => ?_⟩
  rcases Nat.eq_or_lt_of_le quotient with same | less
  · rw [same] at split
    rw [elementsPerCacheline] at most
    omega
  · exact less

section Converted

variable {F : Int → Int → Option (List Int)} {C : Nat → Nat → Option (List Int)} {k e : Nat}

/-- The numbers of a copy, as they are converted. -/
theorem Counts.converted (counts : Counts k e) (few : e ≤ 9) (last : e = 9 → k = 0)
    (same : ∀ k e : Nat, Counts k e → e ≤ 9 → (e = 9 → k = 0) → F k e = C k e)
    (empty : ∀ (x : Int) (k : Nat), F x 0 = C k 0) : F (toInt k) (toInt e) = C k e := by
  have elements : toInt e = e := toInt_of_lt (Int.natCast_nonneg e) (by omega)
  rw [elements]
  rcases id counts with rfl | ⟨small, -⟩
  · exact empty _ _
  · rw [toInt_of_lt (Int.natCast_nonneg k) (by omega), same k e counts few last]

end Converted

theorem interleavedScatter_eq (fits : Fits blocksPerSegment size) (positive : 0 < blocksPerSegment)
    (most : size ≤ elementsPerCacheline * blocksPerSegment) (segment a : List Int) :
    interleavedScatter segment a blocksPerSegment size =
      (copyBlocks (size / blocksPerSegment + 1) (size / blocksPerSegment + 1) elementsPerCacheline a
        (size % blocksPerSegment) 0 0 segment).bind
      (copyBlocks (size / blocksPerSegment) (size / blocksPerSegment) elementsPerCacheline a
        (blocksPerSegment - size % blocksPerSegment)
        (size % blocksPerSegment * (size / blocksPerSegment + 1))
        (size % blocksPerSegment * elementsPerCacheline)) := by
  obtain ⟨quotient, less⟩ := quotient_le most
  have rest := Nat.mod_lt size positive
  have copy : ∀ (s d : Nat) (destination : List Int) {k e : Nat}, Counts k e → e ≤ 9 →
      (e = 9 → k = 0) → alignedScatter a s d (toInt k) (toInt e) destination =
        copyBlocks e e elementsPerCacheline a k s d destination := fun s d destination k e counts
      few last => counts.converted (F := fun k e => alignedScatter a s d k e destination)
        (C := fun k e => copyBlocks e e elementsPerCacheline a k s d destination) few last
        (fun _ _ => alignedScatter_eq) fun _ k => (copyBlocks_zero k).symm
  rw [interleavedScatter, if_neg positive.ne']
  dsimp only
  rw [← Nat.cast_succ, copy _ _ _ fits.1 (by omega) (by omega)]
  refine Option.bind_congr fun middle _ => ?_
  rw [← Nat.cast_sub rest.le, copy _ _ _ fits.2 (by omega) (by omega)]

theorem interleavedGather_eq (fits : Fits blocksPerSegment size) (positive : 0 < blocksPerSegment)
    (most : size ≤ elementsPerCacheline * blocksPerSegment) (buffer image : List Int) :
    interleavedGather buffer image blocksPerSegment size =
      (copyBlocks (size / blocksPerSegment + 1) elementsPerCacheline (size / blocksPerSegment + 1)
        image (size % blocksPerSegment) 0 0 buffer).bind
      (copyBlocks (size / blocksPerSegment) elementsPerCacheline (size / blocksPerSegment) image
        (blocksPerSegment - size % blocksPerSegment)
        (size % blocksPerSegment * elementsPerCacheline)
        (size % blocksPerSegment * (size / blocksPerSegment + 1))) := by
  obtain ⟨quotient, less⟩ := quotient_le most
  have rest := Nat.mod_lt size positive
  have copy : ∀ (s d : Nat) (destination : List Int) {k e : Nat}, Counts k e → e ≤ 9 →
      (e = 9 → k = 0) → alignedGather image s d (toInt k) (toInt e) destination =
        copyBlocks e elementsPerCacheline e image k s d destination := fun s d destination k e counts
      few last => counts.converted (F := fun k e => alignedGather image s d k e destination)
        (C := fun k e => copyBlocks e elementsPerCacheline e image k s d destination) few last
        (fun _ _ => alignedGather_eq) fun _ k => (copyBlocks_zero k).symm
  rw [interleavedGather, if_neg positive.ne']
  dsimp only
  rw [← Nat.cast_succ, copy _ _ _ fits.1 (by omega) (by omega)]
  refine Option.bind_congr fun middle _ => ?_
  rw [← Nat.cast_sub rest.le, copy _ _ _ fits.2 (by omega) (by omega)]

variable {a segment image buffer : List Int}

/-- The scatter stores the elements of each block at its start, and nothing else. -/
theorem interleavedScatter_spec (fits : Fits blocksPerSegment size)
    (positive : 0 < blocksPerSegment) (most : size ≤ elementsPerCacheline * blocksPerSegment)
    (lengthA : a.length = size) (length : segment.length = elementsPerCacheline * blocksPerSegment) :
    ∃ image, interleavedScatter segment a blocksPerSegment size = some image ∧
      image.length = segment.length ∧
      ∀ j o, j < blocksPerSegment → o < elementsPerCacheline →
        image[j * elementsPerCacheline + o]? = if o < blockSize blocksPerSegment size j
          then a[blockStart blocksPerSegment size j + o]?
          else segment[j * elementsPerCacheline + o]? := by
  obtain ⟨quotient, less⟩ := quotient_le most
  have rest := Nat.mod_lt size positive
  have first := fun j => @blockSize_first blocksPerSegment size j
  have second := @blockSize_second blocksPerSegment size
  have bound := fun j => @blockStart_add_le blocksPerSegment size positive j
  rw [interleavedScatter_eq fits positive most]
  rw [elementsPerCacheline] at *
  generalize size / blocksPerSegment = q at *
  generalize size % blocksPerSegment = r at *
  obtain ⟨middle, run, blocks, gaps⟩ := @copyBlocks_spec _ a segment 0 0 (q + 1) (q + 1) 8 r
    (by omega) (fun j inside => by
      have := bound j (by omega)
      rw [(first j inside).1, (first j inside).2] at this
      omega) (fun j inside => by omega)
  obtain ⟨lengthMiddle, others⟩ := copyBlocks_frame (by omega) run
  obtain ⟨image, run', blocks', gaps'⟩ := @copyBlocks_spec _ a middle (r * (q + 1)) (r * 8) q q 8
    (blocksPerSegment - r) (fun _ => quotient) (fun j inside => by
      have := bound (r + j) (by omega)
      rw [(second j).1, (second j).2] at this
      omega) (fun j inside => by omega)
  obtain ⟨lengthImage, others'⟩ := copyBlocks_frame (fun _ => quotient) run'
  refine ⟨image, by rw [run]; exact run', lengthImage.trans lengthMiddle, fun j o inside cell => ?_⟩
  rcases Nat.lt_or_ge j r with early | late
  · rw [others' _ (by omega), (first j early).1, (first j early).2]
    split_ifs with here
    · have value := blocks j o early here
      rwa [Nat.zero_add, Nat.zero_add] at value
    · have value := gaps j o early (by omega) cell
      rwa [Nat.zero_add] at value
  · obtain ⟨i, rfl⟩ := Nat.exists_eq_add_of_le late
    rw [(second i).1, (second i).2, Nat.add_mul]
    split_ifs with here
    · exact blocks' i o (by omega) here
    · rw [gaps' i o (by omega) (by omega) cell, others _ (by omega)]

/-- The gather reads the elements of each block from its start. -/
theorem interleavedGather_spec (fits : Fits blocksPerSegment size)
    (positive : 0 < blocksPerSegment) (most : size ≤ elementsPerCacheline * blocksPerSegment)
    (lengthBuffer : buffer.length = size)
    (length : image.length = elementsPerCacheline * blocksPerSegment) :
    ∃ a, interleavedGather buffer image blocksPerSegment size = some a ∧ a.length = size ∧
      ∀ j o, j < blocksPerSegment → o < blockSize blocksPerSegment size j →
        a[blockStart blocksPerSegment size j + o]? = image[j * elementsPerCacheline + o]? := by
  obtain ⟨quotient, less⟩ := quotient_le most
  have rest := Nat.mod_lt size positive
  have first := fun j => @blockSize_first blocksPerSegment size j
  have second := @blockSize_second blocksPerSegment size
  have bound := fun j => @blockStart_add_le blocksPerSegment size positive j
  rw [interleavedGather_eq fits positive most]
  rw [elementsPerCacheline] at *
  generalize size / blocksPerSegment = q at *
  generalize size % blocksPerSegment = r at *
  obtain ⟨middle, run, blocks, -⟩ := @copyBlocks_spec _ image buffer 0 0 (q + 1) 8 (q + 1) r
    (fun _ => le_rfl) (fun j inside => by omega) (fun j inside => by
      have := bound j (by omega)
      rw [(first j inside).1, (first j inside).2] at this
      omega)
  obtain ⟨lengthMiddle, -⟩ := copyBlocks_frame (fun _ => le_rfl) run
  obtain ⟨a, run', blocks', -⟩ := @copyBlocks_spec _ image middle (r * 8) (r * (q + 1)) q 8 q
    (blocksPerSegment - r) (fun _ => le_rfl) (fun j inside => by omega) (fun j inside => by
      have := bound (r + j) (by omega)
      rw [(second j).1, (second j).2] at this
      omega)
  obtain ⟨lengthA, others'⟩ := copyBlocks_frame (fun _ => le_rfl) run'
  refine ⟨a, by rw [run]; exact run', (lengthA.trans lengthMiddle).trans lengthBuffer,
    fun j o inside here => ?_⟩
  rcases Nat.lt_or_ge j r with early | late
  · rw [(first j early).1] at here
    have before : (j + 1) * (q + 1) ≤ r * (q + 1) := Nat.mul_le_mul_right _ early
    rw [Nat.succ_mul] at before
    rw [(first j early).2, others' _ (by omega)]
    have value := blocks j o early here
    rwa [Nat.zero_add, Nat.zero_add] at value
  · obtain ⟨i, rfl⟩ := Nat.exists_eq_add_of_le late
    rw [(second i).1] at here
    rw [(second i).2, Nat.add_mul]
    exact blocks' i o (by omega) here

end Blocks

/-! ## Scatter and gather are inverse -/

/-- Every element has a cell of its own, the scatter stores it there and nothing else, the gather
reads the elements back, and another scatter of these stores the same in the cells. -/
def Inverse (blocksPerSegment size : Nat) : Prop :=
  ∃ cell : Nat → Nat,
    (∀ i < size, cell i < elementsPerCacheline * blocksPerSegment) ∧
    (∀ i < size, ∀ j < size, cell i = cell j → i = j) ∧
    ∀ a segment buffer segment' : List Int, a.length = size →
      segment.length = elementsPerCacheline * blocksPerSegment → buffer.length = size →
      segment'.length = elementsPerCacheline * blocksPerSegment → ∃ image image',
        interleavedScatter segment a blocksPerSegment size = some image ∧
        (∀ i < size, image[cell i]? = a[i]?) ∧
        (∀ c, (∀ i < size, c ≠ cell i) → image[c]? = segment[c]?) ∧
        interleavedGather buffer image blocksPerSegment size = some a ∧
        interleavedScatter segment' a blocksPerSegment size = some image' ∧
        ∀ i < size, image'[cell i]? = image[cell i]?

section Inverse

variable {blocksPerSegment size : Nat}

/-- The block and the offset of every element. -/
theorem exists_cells (positive : 0 < blocksPerSegment)
    (most : size ≤ elementsPerCacheline * blocksPerSegment) : ∃ block offset : Nat → Nat,
      (∀ i < size, block i < blocksPerSegment ∧
        offset i < blockSize blocksPerSegment size (block i) ∧
        offset i < elementsPerCacheline ∧
        i = blockStart blocksPerSegment size (block i) + offset i) ∧
      ∀ j o, j < blocksPerSegment → o < blockSize blocksPerSegment size j →
        block (blockStart blocksPerSegment size j + o) = j ∧
          offset (blockStart blocksPerSegment size j + o) = o := by
  have place : ∀ i, ∃ j o, i < size → j < blocksPerSegment ∧
      o < blockSize blocksPerSegment size j ∧ i = blockStart blocksPerSegment size j + o := by
    intro i
    by_cases inside : i < size
    · obtain ⟨j, o, less, within, same⟩ := exists_block positive inside
      exact ⟨j, o, fun _ => ⟨less, within, same⟩⟩
    · exact ⟨0, 0, fun inside' => absurd inside' inside⟩
  choose block offset placed using place
  refine ⟨block, offset, fun i inside => ?_, fun j o less within => ?_⟩
  · obtain ⟨less, within, same⟩ := placed i inside
    exact ⟨less, within, Nat.lt_of_lt_of_le within (blockSize_le most _), same⟩
  · have room := @blockStart_add_le _ size positive _ less
    obtain ⟨less', within', same⟩ := placed (blockStart blocksPerSegment size j + o) (by omega)
    have equal : block (blockStart blocksPerSegment size j + o) = j := by
      rcases Nat.lt_trichotomy (block (blockStart blocksPerSegment size j + o)) j with
        before | equal | after
      · have := chunkStart_add_le (size / blocksPerSegment) (size % blocksPerSegment) before
        rw [← blockStart, ← blockSize, ← blockStart] at this
        omega
      · exact equal
      · have := chunkStart_add_le (size / blocksPerSegment) (size % blocksPerSegment) after
        rw [← blockStart, ← blockSize, ← blockStart] at this
        omega
    rw [equal] at same
    exact ⟨equal, by omega⟩

theorem inverse (positive : 0 < blocksPerSegment)
    (most : size ≤ elementsPerCacheline * blocksPerSegment) (fits : Fits blocksPerSegment size) :
    Inverse blocksPerSegment size := by
  obtain ⟨block, offset, placed, back⟩ := exists_cells positive most
  refine ⟨fun i => block i * elementsPerCacheline + offset i, fun i inside => ?_,
    fun i insideI j insideJ same => ?_, fun a segment buffer segment' lengthA length lengthBuffer
    length' => ?_⟩
  · obtain ⟨less, -, cell, -⟩ := placed i inside
    rw [elementsPerCacheline] at cell ⊢
    dsimp only
    omega
  · obtain ⟨-, -, cellI, placeI⟩ := placed i insideI
    obtain ⟨-, -, cellJ, placeJ⟩ := placed j insideJ
    rw [elementsPerCacheline] at cellI cellJ same
    dsimp only at same
    rw [placeI, placeJ, show block i = block j by omega, show offset i = offset j by omega]
  · obtain ⟨image, run, lengthImage, cells⟩ :=
      interleavedScatter_spec fits positive most lengthA length
    obtain ⟨image', run', -, cells'⟩ :=
      interleavedScatter_spec fits positive most lengthA length'
    obtain ⟨gathered, runG, lengthG, read⟩ := interleavedGather_spec fits positive most lengthBuffer
      (lengthImage.trans length)
    have stored : ∀ i < size, image[block i * elementsPerCacheline + offset i]? = a[i]? := by
      intro i inside
      obtain ⟨less, within, cell, place⟩ := placed i inside
      rw [cells _ _ less cell, if_pos within, ← place]
    have stored' : ∀ i < size, image'[block i * elementsPerCacheline + offset i]? = a[i]? := by
      intro i inside
      obtain ⟨less, within, cell, place⟩ := placed i inside
      rw [cells' _ _ less cell, if_pos within, ← place]
    have same : gathered = a := by
      refine List.ext_getElem? fun i => ?_
      by_cases inside : i < size
      · obtain ⟨less, within, cell, place⟩ := placed i inside
        have value := read _ _ less within
        rwa [← place, stored i inside] at value
      · rw [List.getElem?_eq_none (by omega), List.getElem?_eq_none (by omega)]
    refine ⟨image, image', run, stored, fun c other => ?_, same ▸ runG, run', fun i inside => ?_⟩
    · by_cases inside : c < elementsPerCacheline * blocksPerSegment
      · have split : c = c / elementsPerCacheline * elementsPerCacheline +
            c % elementsPerCacheline := (Nat.div_add_mod' c _).symm
        have less : c / elementsPerCacheline < blocksPerSegment := Nat.div_lt_of_lt_mul inside
        have gap : ¬ c % elementsPerCacheline <
            blockSize blocksPerSegment size (c / elementsPerCacheline) := by
          intro within
          have room := @blockStart_add_le _ size positive _ less
          obtain ⟨equal, equal'⟩ := back _ _ less within
          exact other (blockStart blocksPerSegment size (c / elementsPerCacheline) +
            c % elementsPerCacheline) (by omega) (by dsimp only; rw [equal, equal']; exact split)
        rw [split, cells _ _ less (Nat.mod_lt c (by decide)), if_neg gap]
      · rw [List.getElem?_eq_none (by omega), List.getElem?_eq_none (by omega)]
    · rw [stored i inside, stored' i inside]

/-- With too many blocks some element is not read back. -/
theorem not_inverse (positive : 0 < blocksPerSegment)
    (most : size ≤ elementsPerCacheline * blocksPerSegment) (overflow : ¬ Fits blocksPerSegment size) :
    ¬ Inverse blocksPerSegment size := by
  rintro ⟨cell, -, -, all⟩
  obtain ⟨image, -, -, -, -, gather, -⟩ := all (List.replicate size 1)
    (List.replicate (elementsPerCacheline * blocksPerSegment) 0) (List.replicate size 0)
    (List.replicate (elementsPerCacheline * blocksPerSegment) 0) List.length_replicate
    List.length_replicate List.length_replicate List.length_replicate
  rw [interleavedGather, if_neg positive.ne'] at gather
  obtain ⟨middle, first, second⟩ := Option.bind_eq_some_iff.mp gather
  obtain ⟨quotient, less⟩ := quotient_le most
  have rest := Nat.mod_lt size positive
  have split := Nat.div_add_mod' size blocksPerSegment
  rw [Fits] at overflow
  -- an element that no copy writes
  have kept : ∃ i < size, (List.replicate size (1 : Int))[i]? = (List.replicate size 0)[i]? := by
    generalize size / blocksPerSegment = q at *
    generalize size % blocksPerSegment = r at *
    have whole : blocksPerSegment * q = r * q + (blocksPerSegment - r) * q := by
      rw [← Nat.add_mul, Nat.add_sub_cancel' rest.le]
    rw [Nat.mul_comm] at split
    rw [← Nat.cast_succ, toInt_of_lt (Int.natCast_nonneg (q + 1)) (by omega)] at first
    rw [← Nat.cast_sub rest.le, toInt_of_lt (Int.natCast_nonneg q) (by omega)] at second
    have frame := alignedGather_frame (by omega) first
    have frame' := alignedGather_frame (by omega) second
    have starts := Nat.mul_add_one r q
    by_cases counts : Counts r (q + 1)
    · have left := copied_lt fun counts' => overflow ⟨counts, counts'⟩
      rw [copied_eq counts] at frame
      refine ⟨r * (q + 1) + copied (toInt (blocksPerSegment - r : Nat)) q, by omega, ?_⟩
      rw [frame' _ (by omega), frame _ (by omega)]
    · have left := copied_lt counts
      refine ⟨copied (toInt r) (q + 1), by omega, ?_⟩
      rw [frame' _ (by omega), frame _ (by omega)]
  obtain ⟨i, inside, same⟩ := kept
  rw [List.getElem?_replicate, List.getElem?_replicate, if_pos inside, if_pos inside] at same
  cases same

/-- **Scatter and gather are inverse** exactly where the `int`s can count the two copies. -/
theorem inverse_iff (positive : 0 < blocksPerSegment)
    (most : size ≤ elementsPerCacheline * blocksPerSegment) :
    Inverse blocksPerSegment size ↔ Fits blocksPerSegment size := by
  constructor
  · intro inverted
    by_contra overflow
    exact not_inverse positive most overflow inverted
  · exact inverse positive most

/-- Twenty elements in four blocks. -/
theorem inverse_iff_twenty : Inverse 4 20 :=
  (inverse_iff (by decide) (by decide)).mpr ⟨Or.inr ⟨by norm_num, by decide⟩,
    Or.inr ⟨by norm_num, by decide⟩⟩

/-- One element in each of `2 ^ 31` blocks: the number of blocks becomes negative, and nothing is
copied. -/
theorem not_inverse_overflow : ¬ Inverse (2 ^ 31) (2 ^ 31) :=
  not_inverse (by norm_num) (by rw [elementsPerCacheline]; norm_num) (by
    rw [Fits, Nat.mod_self, Nat.div_self (by norm_num), Counts, Counts]
    norm_num)

end Inverse

end Scatter

end Rma
