import Mathlib.Data.Rat.Defs
import Mathlib.Algebra.Order.Ring.Rat
import Rma.Base.Words
import Rma.Distribution.RandomPermutation

/-!
# The dense workloads

The distributions of `apma_distributions.hpp`: the sequences of consecutive keys, forwards and
backwards, and the three that are built from them and a random permutation. A bulk distribution
deals the keys in runs of equal length and one shorter run, which is the last one and takes its
keys from a random position; an interleaved one takes its keys in turns from as many runs; the
keys of a noise distribution below a threshold are in order, among the others.

The keys are `int64_t`, and the positions that the interleaved and the noise distributions keep
are `int`: a conversion that does not fit wraps around. A read or a write outside of an array, of
a slot that is not set, or past an assertion is undefined.
-/

namespace Rma

open Base RandomPermutation

namespace Distribution

/-- The two classes of sequences, the template parameter `T` of the others. -/
inductive Direction where
  | forward
  | backwards
  deriving DecidableEq, Repr

/-- The fields of `SequentialForward` and `SequentialBackwards`. -/
structure Sequential where
  direction : Direction
  start : Int -- inclusive
  stop : Int -- exclusive
  deriving DecidableEq, Repr

namespace Sequential

/-- The constructors. -/
def create (direction : Direction) (start stop : Int) : Option Sequential :=
  if start > stop then none else some ⟨direction, start, stop⟩

/-- `size()` -/
def size (s : Sequential) : Nat := sizeT (s.stop - s.start)

/-- `key(offset)` -/
def key (s : Sequential) (offset : Nat) : Option Int :=
  match s.direction with
  | .forward => if offset < s.size then some (int64 (s.start + offset)) else none
  | .backwards => some (int64 (s.stop - 1 - offset))

end Sequential

/-- `m_slots[base]->key(offset) +1`: the keys are in [1, N] rather than [0, N). -/
def slotKey (slots : List (Option Sequential)) (base offset : Nat) : Option Int := do
  let slot ← slots[base]?
  let slot ← slot
  let key ← slot.key offset
  some (int64 (key + 1))

/-- `m_slots[i] = make_shared<T>(start, end)` -/
def setSlot (direction : Direction) (slots : List (Option Sequential)) (i start stop : Nat) :
    Option (List (Option Sequential)) := do
  let slot ← Sequential.create direction (int64 start) (int64 stop)
  if i < slots.length then some (slots.set i (some slot)) else none

/-- `size_t slot = rp.get_raw_key(i)` -/
def getRawKey (rp : CByteArray) (i : Nat) : Option Nat := (rp.getValueAt i).map sizeT

/-! ## Bulk -/

/-- The fields of `BulkDistribution`; `m_slots_sz` is the length of the slots. -/
structure BulkDistribution where
  slots : List (Option Sequential)
  keysPerSlot : Nat
  capacity : Nat
  start : Nat
  stop : Nat

namespace BulkDistribution

/-- The loop of the constructor over the regular slots. -/
def fillSlots (direction : Direction) (keysPerSlot leftover leftoverPosition : Nat)
    (rp : CByteArray) : (room i : Nat) → List (Option Sequential) → Option (List (Option Sequential))
  | 0, _, slots => some slots
  | room + 1, i, slots => do
    let slot ← getRawKey rp i
    let keyStart := slot * keysPerSlot
    let keyStart := if slot > leftoverPosition then sizeT (keyStart + (leftover - keysPerSlot))
      else keyStart
    let slots ← setSlot direction slots (i - 1) keyStart (keyStart + keysPerSlot)
    fillSlots direction keysPerSlot leftover leftoverPosition rp room (i + 1) slots

/-- The constructor, for a number of keys per slot. -/
def create (direction : Direction) (sz keysPerSlot noBuckets : Nat) (o : Outcome) :
    Option BulkDistribution :=
  if sz = 0 then none
  else do
    let slotsSz := sz / keysPerSlot + 1 -- +1 for the leftover
    let leftover := sz % keysPerSlot -- the size of the last slot
    -- the first index is the position of the odd slot
    let rp ← computeRandomPermutationParallel slotsSz noBuckets o
    let leftoverPosition ← getRawKey rp 0
    let slots ← fillSlots direction keysPerSlot leftover leftoverPosition rp (rp.capacity - 1) 1
      (List.replicate slotsSz none)
    -- remaining keys
    let keyStart := leftoverPosition * keysPerSlot
    let slots ← setSlot direction slots (slotsSz - 1) keyStart (keyStart + leftover)
    some ⟨slots, keysPerSlot, sz, 0, sz⟩

/-- `size()` -/
def size (b : BulkDistribution) : Nat := sizeT (b.stop - b.start)

/-- `key(index)` -/
def key (b : BulkDistribution) (index : Nat) : Option Int :=
  let index := sizeT (index + b.start) -- in case this is a view, shift to right
  slotKey b.slots (index / b.keysPerSlot) (index % b.keysPerSlot)

end BulkDistribution

/-! ## Interleaved -/

/-- The fields of `InterleavedDistribution`; `m_slots_sz` is the length of the slots. -/
structure InterleavedDistribution where
  slots : List (Option Sequential)
  capacity : Nat
  start : Nat
  stop : Nat

namespace InterleavedDistribution

/-- `permutations[slot] = i` -/
def invert (rp : CByteArray) : (room i : Nat) → List Int → Option (List Int)
  | 0, _, permutations => some permutations
  | room + 1, i, permutations => do
    let slot ← getRawKey rp i
    if slot < permutations.length then invert rp room (i + 1) (permutations.set slot (toInt i))
    else none

/-- The loop of the constructor over the slots, in the order of their keys. -/
def fillSlots (direction : Direction) (keysPerSlot leftoverIndex : Nat) :
    (permutations : List Int) → (start : Nat) → List (Option Sequential) →
      Option (List (Option Sequential))
  | [], _, slots => some slots
  | j :: permutations, start, slots => do
    let j := sizeT j
    let length := keysPerSlot + if j < leftoverIndex then 1 else 0
    let slots ← setSlot direction slots j start (start + length)
    fillSlots direction keysPerSlot leftoverIndex permutations (start + length) slots

/-- The constructor; `unset` is what the array of the permutations holds. -/
def create (direction : Direction) (size numStreams noBuckets : Nat) (o : Outcome) (unset : Int) :
    Option InterleavedDistribution :=
  if size = 0 then none
  else if numStreams = 0 ∨ numStreams > size then none
  else do
    let keysPerSlot := size / numStreams
    let leftoverIndex := size % numStreams
    let rp ← computeRandomPermutationParallel numStreams noBuckets o
    let permutations ← invert rp numStreams 0 (List.replicate numStreams unset)
    let slots ← fillSlots direction keysPerSlot leftoverIndex permutations 0
      (List.replicate numStreams none)
    some ⟨slots, size, 0, size⟩

/-- `size()` -/
def size (b : InterleavedDistribution) : Nat := sizeT (b.stop - b.start)

/-- `key(index)` -/
def key (b : InterleavedDistribution) (index : Nat) : Option Int :=
  let index := sizeT (index + b.start) -- in case this is a view, shift to right
  slotKey b.slots (index % b.slots.length) (index / b.slots.length)

end InterleavedDistribution

/-! ## Noise -/

/-- The fields of `NoiseDistribution`: the keys below the threshold follow the sequential pattern,
the rest is uniformly distributed. -/
structure NoiseDistribution where
  sequential : Sequential
  permutation : CByteArray
  threshold : Nat
  capacity : Nat
  start : Nat
  stop : Nat

namespace NoiseDistribution

/-- The positions of the values below the threshold, `reordering`. -/
def collect (permutation : CByteArray) (threshold : Nat) : (room i : Nat) → List Int →
    Option (List Int)
  | 0, _, reordering => some reordering
  | room + 1, i, reordering => do
    let slot ← getRawKey permutation i
    if slot < threshold then
      if reordering.length < threshold then
        collect permutation threshold room (i + 1) (reordering ++ [toInt i])
      else none
    else collect permutation threshold room (i + 1) reordering

/-- `m_permutation->set_value_at(reordering[i], i)`, for `room` positions from `i` on. -/
def reorder (reordering : List Int) : (room i : Nat) → CByteArray → Option CByteArray
  | 0, _, permutation => some permutation
  | room + 1, i, permutation => do
    let j ← reordering[i]?
    let permutation ← permutation.setValueAt (sizeT j) i
    reorder reordering room (i + 1) permutation

/-- The constructor; `threshold` is the rounded product of `alpha` and the size, truncated. -/
def create (direction : Direction) (size : Nat) (alpha : ℚ) (threshold noBuckets : Nat)
    (o : Outcome) : Option NoiseDistribution :=
  if size = 0 then none
  else if alpha ≤ 0 ∨ alpha ≥ 1 then none
  else do
    let sequential ← Sequential.create direction 1 (int64 (threshold + 1))
    -- permute the elements
    let permutation ← computeRandomPermutationParallel size noBuckets o
    -- reorder all keys with value in [0, m_threshold) so that they are sequential
    let reordering ← collect permutation threshold size 0 []
    let permutation ← reorder reordering threshold 0 permutation
    some ⟨sequential, permutation, threshold, size, 0, size⟩

/-- `size()` -/
def size (d : NoiseDistribution) : Nat := sizeT (d.stop - d.start)

/-- `key(index)` -/
def key (d : NoiseDistribution) (index : Nat) : Option Int := do
  let index := sizeT (index + d.start)
  let offset ← getRawKey d.permutation index
  if offset < d.threshold then d.sequential.key offset else some (int64 (offset + 1))

end NoiseDistribution

/-! ## The random permutation -/

theorem sizeT_sub_zero {n : Nat} (small : n < 2 ^ 63) : sizeT ((n : Int) - (0 : Nat)) = n := by
  rw [Nat.cast_zero, sub_zero, sizeT_of_lt (by omega)]

theorem sizeT_add_zero {n : Nat} (small : n < 2 ^ 63) : sizeT ((n : Int) + (0 : Nat)) = n := by
  rw [Nat.cast_zero, add_zero, sizeT_of_lt (by omega)]

/-- The numbers of a random permutation. -/
theorem rawKeys {size noBuckets : Nat} {o : Outcome} (positive : 0 < size)
    (small : size ≤ 2 ^ 63) (several : 0 < noBuckets) (drawn : o.Drawn size noBuckets) :
    ∃ (rp : CByteArray) (π : List Nat),
      computeRandomPermutationParallel size noBuckets o = some rp ∧ rp.capacity = size ∧
      rp.Holds (computeBytesPerElements size) (π.map Nat.cast) ∧
      (∀ i, getRawKey rp i = π[i]?) ∧ π.Perm (List.range size) := by
  obtain ⟨rp, l, run, holds, perm⟩ :=
    computeRandomPermutationParallel_spec positive small several drawn
  have cast : ∀ x ∈ l, ((sizeT x : Nat) : Int) = x := by
    intro x member
    obtain ⟨m, below, rfl⟩ := List.mem_map.mp (perm.mem_iff.mp member)
    have less := List.mem_range.mp below
    rw [sizeT_of_lt (by omega)]
  have back : (l.map sizeT).map Nat.cast = l := by
    rw [List.map_map]
    exact (List.map_congr_left cast).trans (List.map_id l)
  have numbers : ((List.range size).map (Nat.cast : Nat → Int)).map sizeT = List.range size := by
    rw [List.map_map]
    refine (List.map_congr_left fun m below => ?_).trans (List.map_id _)
    have less := List.mem_range.mp below
    exact sizeT_of_lt (by omega)
  have capacity := holds.capacity
  rw [perm.length_eq, List.length_map, List.length_range] at capacity
  refine ⟨rp, l.map sizeT, run, capacity, by rwa [back], fun i => ?_, ?_⟩
  · rw [getRawKey, holds.get, List.getElem?_map]
  · exact numbers ▸ perm.map sizeT

/-! ## The permutations -/

/-- The keys are a permutation of the numbers from 1 to `n`. -/
def Permutes (n size : Nat) (key : Nat → Option Int) : Prop :=
  size = n ∧ ∃ keys, (List.range n).mapM key = some keys ∧
    keys.Perm ((List.range n).map fun i : Nat => (i : Int) + 1)

/-- Distinct keys from 1 to `n` are a permutation of these numbers. -/
theorem permutes_of_injective {n : Nat} {key : Nat → Option Int} {f : Nat → Nat}
    (defined : ∀ i < n, key i = some ((f i : Int) + 1)) (inside : ∀ i < n, f i < n)
    (injective : ∀ i < n, ∀ j < n, f i = f j → i = j) : Permutes n n key := by
  have nodup : ((List.range n).map f).Nodup :=
    List.Nodup.map_on (fun i memberI j memberJ =>
      injective i (List.mem_range.mp memberI) j (List.mem_range.mp memberJ)) List.nodup_range
  have subset : (List.range n).map f ⊆ List.range n := by
    intro x member
    obtain ⟨i, below, rfl⟩ := List.mem_map.mp member
    exact List.mem_range.mpr (inside i (List.mem_range.mp below))
  have perm : ((List.range n).map f).Perm (List.range n) :=
    (nodup.subperm subset).perm_of_length_le (by rw [List.length_map])
  refine ⟨rfl, _, mapM_eq_map fun i member => defined i (List.mem_range.mp member), ?_⟩
  have mapped := perm.map fun i : Nat => (i : Int) + 1
  rwa [List.map_map] at mapped

/-! ## Sequences side by side -/

/-- The offset of a key in a sequence of `length` keys. -/
def Direction.place (direction : Direction) (length offset : Nat) : Nat :=
  match direction with
  | .forward => offset
  | .backwards => length - 1 - offset

theorem Direction.place_lt (direction : Direction) {length offset : Nat}
    (inside : offset < length) : direction.place length offset < length := by
  cases direction
  · exact inside
  · change length - 1 - offset < length
    omega

theorem Direction.place_injective (direction : Direction) {length offset offset' : Nat}
    (inside : offset < length) (inside' : offset' < length)
    (same : direction.place length offset = direction.place length offset') :
    offset = offset' := by
  cases direction
  · exact same
  · change length - 1 - offset = length - 1 - offset' at same
    omega

theorem Sequential.size_eq {direction : Direction} {start length : Nat}
    (small : start + length < 2 ^ 63) :
    (Sequential.mk direction start (start + length : Nat)).size = length := by
  rw [Sequential.size, Nat.cast_add, add_sub_cancel_left, sizeT_of_lt (by omega)]

theorem Sequential.key_eq {direction : Direction} {start length offset : Nat}
    (small : start + length < 2 ^ 63) (inside : offset < length) :
    (Sequential.mk direction start (start + length : Nat)).key offset =
      some ((start + direction.place length offset : Nat) : Int) := by
  have size := @Sequential.size_eq direction _ _ small
  cases direction
  · rw [Sequential.key, size]
    dsimp only
    rw [if_pos inside, ← Nat.cast_add, int64_of_lt (Int.natCast_nonneg _) (by omega)]
    rfl
  · have place : ((start + length : Nat) : Int) - 1 - offset =
        (start + Direction.backwards.place length offset : Nat) := by
      change _ = ((start + (length - 1 - offset) : Nat) : Int)
      omega
    have bound := Direction.place_lt .backwards inside
    rw [Sequential.key]
    dsimp only
    rw [place, int64_of_lt (Int.natCast_nonneg _) (by omega)]

/-- The slots are sequences of the numbers below `n` that do not overlap. -/
structure Tiled (direction : Direction) (n : Nat) (slots : List (Option Sequential))
    (start length : Nat → Nat) : Prop where
  slot : ∀ b < slots.length,
    slots[b]? = some (some ⟨direction, start b, (start b + length b : Nat)⟩)
  inside : ∀ b < slots.length, start b + length b ≤ n
  apart : ∀ b < slots.length, ∀ c < slots.length, b ≠ c →
    start b + length b ≤ start c ∨ start c + length c ≤ start b

namespace Tiled

variable {direction : Direction} {n : Nat} {slots : List (Option Sequential)}
  {start length : Nat → Nat}

/-- A slot and its size. -/
theorem exists_slot (tiled : Tiled direction n slots start length) (small : n < 2 ^ 63) {b o : Nat}
    (inside : b < slots.length) (within : o < length b) :
    ∃ slot, slots[b]? = some (some slot) ∧ o < slot.size := by
  have room := tiled.inside b inside
  exact ⟨_, tiled.slot b inside, by rwa [Sequential.size_eq (by omega)]⟩

theorem slotKey_eq (tiled : Tiled direction n slots start length) (small : n < 2 ^ 63) {b o : Nat}
    (inside : b < slots.length) (within : o < length b) :
    slotKey slots b o = some ((start b + direction.place (length b) o : Nat) + 1 : Int) := by
  have room := tiled.inside b inside
  have place := direction.place_lt within
  rw [slotKey, tiled.slot b inside, Option.bind_eq_bind, Option.bind_some, Option.bind_eq_bind,
    Option.bind_some, Sequential.key_eq (by omega) within, Option.bind_eq_bind, Option.bind_some,
    int64_of_lt (by omega) (by omega)]

/-- Where every position has its own slot and offset, the keys are a permutation. -/
theorem permutes (tiled : Tiled direction n slots start length) (small : n < 2 ^ 63)
    {base offset : Nat → Nat}
    (inside : ∀ i < n, base i < slots.length ∧ offset i < length (base i))
    (distinct : ∀ i j, base i = base j → offset i = offset j → i = j) {key : Nat → Option Int}
    (reads : ∀ i < n, key i = slotKey slots (base i) (offset i)) : Permutes n n key := by
  have lower : ∀ i < n, direction.place (length (base i)) (offset i) < length (base i) :=
    fun i below => direction.place_lt (inside i below).2
  refine permutes_of_injective (f := fun i =>
    start (base i) + direction.place (length (base i)) (offset i)) (fun i below => ?_)
    (fun i below => ?_) (fun i belowI j belowJ same => ?_)
  · rw [reads i below]
    exact tiled.slotKey_eq small (inside i below).1 (inside i below).2
  · have room := tiled.inside _ (inside i below).1
    have less := lower i below
    omega
  · have lessI := lower i belowI
    have lessJ := lower j belowJ
    by_cases one : base i = base j
    · rw [one] at same
      refine distinct i j one (direction.place_injective
        (one ▸ (inside i belowI).2) (inside j belowJ).2 (by omega))
    · have apart := tiled.apart _ (inside i belowI).1 _ (inside j belowJ).1 one
      omega

end Tiled

theorem setSlot_eq {direction : Direction} {slots : List (Option Sequential)}
    {i start length : Nat} (inside : i < slots.length) (small : start + length < 2 ^ 63) :
    setSlot direction slots i start (start + length) =
      some (slots.set i (some ⟨direction, start, (start + length : Nat)⟩)) := by
  rw [setSlot, int64_of_lt (Int.natCast_nonneg _) (by omega),
    int64_of_lt (Int.natCast_nonneg _) (by omega), Sequential.create, if_neg (by omega),
    Option.bind_eq_bind, Option.bind_some, if_pos inside]

theorem setSlot_some {direction : Direction} {slots slots' : List (Option Sequential)}
    {i start stop : Nat} (set : setSlot direction slots i start stop = some slots') :
    i < slots.length ∧ slots'.length = slots.length := by
  rw [setSlot] at set
  obtain ⟨slot, -, stored⟩ := Option.bind_eq_some_iff.mp set
  split at stored
  · next inside =>
    cases stored
    exact ⟨inside, List.length_set⟩
  · cases stored

/-! ## Bulk -/

namespace BulkDistribution

variable {direction : Direction} {keysPerSlot leftover leftoverPosition n : Nat}

/-- The first number of the sequence in the given position. -/
def keyStart (keysPerSlot leftover leftoverPosition slot : Nat) : Nat :=
  if slot > leftoverPosition then slot * keysPerSlot + leftover - keysPerSlot
  else slot * keysPerSlot

/-- The length of the sequence in the given position. -/
def keyLength (keysPerSlot leftover leftoverPosition slot : Nat) : Nat :=
  if slot = leftoverPosition then leftover else keysPerSlot

/-- The sequences are in order, one after the other. -/
theorem keyStart_add_le {s t : Nat} (order : s < t) :
    keyStart keysPerSlot leftover leftoverPosition s +
      keyLength keysPerSlot leftover leftoverPosition s ≤
        keyStart keysPerSlot leftover leftoverPosition t := by
  have one : (s + 1) * keysPerSlot ≤ t * keysPerSlot := Nat.mul_le_mul_right _ order
  have two : s + 1 < t → (s + 1 + 1) * keysPerSlot ≤ t * keysPerSlot :=
    fun more => Nat.mul_le_mul_right _ more
  have first : 0 < s → keysPerSlot ≤ s * keysPerSlot := Nat.le_mul_of_pos_left _
  rw [Nat.succ_mul] at one
  rw [Nat.succ_mul, Nat.succ_mul] at two
  rw [keyStart, keyStart, keyLength]
  split_ifs <;> omega

theorem keyStart_add_le_size {slots s : Nat}
    (last : leftoverPosition ≤ slots) (inside : s ≤ slots) :
    keyStart keysPerSlot leftover leftoverPosition s +
      keyLength keysPerSlot leftover leftoverPosition s ≤ slots * keysPerSlot + leftover := by
  have whole : s * keysPerSlot ≤ slots * keysPerSlot := Nat.mul_le_mul_right _ inside
  have less : s < leftoverPosition → (s + 1) * keysPerSlot ≤ slots * keysPerSlot :=
    fun before => Nat.mul_le_mul_right _ (by omega)
  have first : 0 < s → keysPerSlot ≤ s * keysPerSlot := Nat.le_mul_of_pos_left _
  rw [Nat.succ_mul] at less
  rw [keyStart, keyLength]
  split_ifs <;> omega

/-- The correction of the source, which wraps around twice. -/
theorem keyStart_eq {s : Nat} (small : s * keysPerSlot + leftover < 2 ^ 63) :
    (if s > leftoverPosition then sizeT ((s * keysPerSlot : Nat) + (leftover - keysPerSlot : Int))
      else s * keysPerSlot) = keyStart keysPerSlot leftover leftoverPosition s := by
  rw [keyStart]
  by_cases after : s > leftoverPosition
  · have first : keysPerSlot ≤ s * keysPerSlot := Nat.le_mul_of_pos_left _ (by omega)
    have whole : ((s * keysPerSlot : Nat) : Int) + (leftover - keysPerSlot : Int) =
        (s * keysPerSlot + leftover - keysPerSlot : Nat) := by omega
    rw [if_pos after, if_pos after, whole, sizeT_of_lt (by omega)]
  · rw [if_neg after, if_neg after]

/-- The regular slots are set one after the other. -/
theorem fillSlots_spec (direction : Direction) {rp : CByteArray} {π : List Nat}
    (read : ∀ i, getRawKey rp i = π[i]?)
    (small : n < 2 ^ 63)
    (regular : ∀ s ∈ π.tail, s ≠ leftoverPosition ∧
      s * keysPerSlot + leftover ≤ n ∧
      keyStart keysPerSlot leftover leftoverPosition s + keysPerSlot ≤ n)
    (room : Nat) {i : Nat} (positive : 0 < i) (within : i + room ≤ π.length)
    (slots : List (Option Sequential)) (fits : i - 1 + room ≤ slots.length) :
    ∃ slots', fillSlots direction keysPerSlot leftover leftoverPosition rp room i slots =
        some slots' ∧ slots'.length = slots.length ∧
      (∀ b s, i ≤ b + 1 → b + 1 < i + room → π[b + 1]? = some s →
        slots'[b]? = some (some ⟨direction, keyStart keysPerSlot leftover leftoverPosition s,
          (keyStart keysPerSlot leftover leftoverPosition s + keysPerSlot : Nat)⟩)) ∧
      ∀ b, b + 1 < i ∨ i + room ≤ b + 1 → slots'[b]? = slots[b]? := by
  induction room generalizing i slots with
  | zero => exact ⟨slots, rfl, rfl, fun b s lower upper => by omega, fun _ _ => rfl⟩
  | succ room ih =>
      obtain ⟨s, found⟩ : ∃ s, π[i]? = some s := ⟨_, List.getElem?_eq_getElem (by omega)⟩
      have member : s ∈ π.tail := by
        refine List.mem_of_getElem? (i := i - 1) ?_
        rwa [List.getElem?_tail, Nat.sub_add_cancel positive]
      obtain ⟨other, before, room'⟩ := regular s member
      have start := @keyStart_eq keysPerSlot leftover leftoverPosition s (by omega)
      have set := @setSlot_eq direction slots (i - 1)
        (keyStart keysPerSlot leftover leftoverPosition s) keysPerSlot (by omega) (by omega)
      obtain ⟨slots', rest, length, here, others⟩ := ih (Nat.succ_pos i) (by omega)
        (slots.set (i - 1) (some ⟨direction, keyStart keysPerSlot leftover leftoverPosition s,
          (keyStart keysPerSlot leftover leftoverPosition s + keysPerSlot : Nat)⟩))
        (by rw [List.length_set]; omega)
      refine ⟨slots', ?_, by rw [length, List.length_set], fun b t lower upper read' => ?_,
        fun b outside => ?_⟩
      · rw [fillSlots, read, found]
        rw [Option.bind_eq_bind, Option.bind_some]
        dsimp only
        rw [start, set, Option.bind_eq_bind, Option.bind_some]
        exact rest
      · by_cases first : b + 1 = i
        · have same : s = t := by
            rw [first, found] at read'
            exact Option.some.inj read'
          rw [others b (by omega), ← same, show i - 1 = b by omega,
            List.getElem?_set_self (by omega)]
        · exact here b t (by omega) (by omega) read'
      · rw [others b (by omega), List.getElem?_set_ne (by omega)]

/-- A bulk distribution is a permutation, and every key is in its slot. -/
theorem create_spec {sz noBuckets : Nat} {o : Outcome} (positive : 0 < sz) (small : sz < 2 ^ 63)
    (least : 0 < keysPerSlot) (several : 0 < noBuckets)
    (drawn : o.Drawn (sz / keysPerSlot + 1) noBuckets) :
    ∃ b, create direction sz keysPerSlot noBuckets o = some b ∧ Permutes sz b.size b.key ∧
      ∀ i < sz, ∃ slot, b.slots[i / b.keysPerSlot]? = some (some slot) ∧
        i % b.keysPerSlot < slot.size := by
  have quotient := Nat.div_le_self sz keysPerSlot
  have division := Nat.div_add_mod' sz keysPerSlot
  have short := Nat.mod_lt sz least
  have outer : ∀ i < sz, i / keysPerSlot ≤ sz / keysPerSlot := fun i below =>
    Nat.div_le_div_right below.le
  rw [create, if_neg positive.ne']
  generalize sz / keysPerSlot = q at *
  generalize sz % keysPerSlot = leftover at *
  obtain ⟨rp, π, run, capacity, -, read, perm⟩ :=
    @rawKeys (q + 1) noBuckets o (Nat.succ_pos q) (by omega) several drawn
  have length := perm.length_eq
  rw [List.length_range] at length
  obtain ⟨lp, rest, rfl⟩ := List.exists_cons_of_length_pos (show 0 < π.length by omega)
  rw [List.length_cons] at length
  have first : getRawKey rp 0 = some lp := read 0
  obtain ⟨fresh, nodup⟩ := List.nodup_cons.mp (perm.nodup_iff.mpr List.nodup_range)
  have bounded : ∀ s ∈ lp :: rest, s ≤ q := fun s member =>
    Nat.lt_succ_iff.mp (List.mem_range.mp (perm.mem_iff.mp member))
  have lastBound := bounded lp List.mem_cons_self
  have fits : ∀ s ∈ lp :: rest, keyStart keysPerSlot (leftover) lp s +
      keyLength keysPerSlot (leftover) lp s ≤ sz := fun s member =>
    (keyStart_add_le_size lastBound (bounded s member)).trans division.le
  obtain ⟨slots, filled, lengthSlots, regular, -⟩ := fillSlots_spec direction read
    small (fun s member => by
      have other : s ≠ lp := fun same => fresh (same ▸ member)
      have fit := fits s (List.mem_cons_of_mem _ member)
      rw [keyLength, if_neg other] at fit
      have below := Nat.mul_le_mul_right keysPerSlot (bounded s (List.mem_cons_of_mem _ member))
      exact ⟨other, by omega, fit⟩)
    (rp.capacity - 1) Nat.one_pos (by rw [List.length_cons]; omega)
    (List.replicate (q + 1) none) (by rw [List.length_replicate]; omega)
  rw [List.length_replicate] at lengthSlots
  have startLast : keyStart keysPerSlot (leftover) lp lp = lp * keysPerSlot :=
    if_neg (Nat.lt_irrefl lp)
  have lengthLast : keyLength keysPerSlot (leftover) lp lp = leftover := if_pos rfl
  have fitLast := fits lp List.mem_cons_self
  rw [startLast, lengthLast] at fitLast
  have set := @setSlot_eq direction slots (q) (lp * keysPerSlot)
    (leftover) (by omega) (by omega)
  -- the slots are in the order of the other positions, then the odd one
  have nodup' : (rest ++ [lp]).Nodup :=
    List.nodup_append.mpr ⟨nodup, List.nodup_singleton lp, fun s member t last same =>
      fresh (by rwa [← List.mem_singleton.mp last, ← same])⟩
  have lengthOrder : (rest ++ [lp]).length = q + 1 := by
    rw [List.length_append, List.length_singleton, ← length]
  have order : ∀ b < q + 1, ∃ s ∈ lp :: rest, (rest ++ [lp])[b]? = some s ∧
      (rest ++ [lp]).getD b 0 = s := by
    intro b inside
    have found := List.getElem?_eq_getElem (lengthOrder ▸ inside)
    refine ⟨_, ?_, found, by rw [List.getD_eq_getElem?_getD, found, Option.getD_some]⟩
    exact List.mem_cons.mpr ((List.mem_append.mp (List.mem_of_getElem? found)).symm.imp
      List.mem_singleton.mp id)
  have last : (rest ++ [lp])[q]? = some lp := getElem?_middle (Nat.succ.inj length)
  have lastOrder : (rest ++ [lp]).getD q 0 = lp := by
    rw [List.getD_eq_getElem?_getD, last, Option.getD_some]
  have odd : ∀ b < q + 1, (rest ++ [lp]).getD b 0 = lp → b = q := by
    intro b inside same
    obtain ⟨s, -, found, value⟩ := order b inside
    rw [← value, same, ← last] at found
    exact (List.getElem?_inj (lengthOrder ▸ inside) nodup').mp found
  obtain ⟨all, eq⟩ : ∃ all, all = slots.set q (some ⟨direction, (lp * keysPerSlot : Nat),
    (lp * keysPerSlot + leftover : Nat)⟩) := ⟨_, rfl⟩
  have total : all.length = q + 1 := by
    rw [eq]
    exact List.length_set.trans lengthSlots
  have tiled : Tiled direction sz all
      (fun c => keyStart keysPerSlot leftover lp ((rest ++ [lp]).getD c 0))
      (fun c => keyLength keysPerSlot leftover lp ((rest ++ [lp]).getD c 0)) := by
    constructor
    · intro c inside
      rw [total] at inside
      obtain ⟨s, member, found, value⟩ := order c inside
      by_cases odd : c = q
      · rw [odd, eq, List.getElem?_set_self (by omega), lastOrder, startLast, lengthLast]
      · have front : rest[c]? = some s := by
          rwa [List.getElem?_append_left (by omega)] at found
        have other : s ≠ lp := fun same => fresh (same ▸ List.mem_of_getElem? front)
        rw [eq, List.getElem?_set_ne (Ne.symm odd), value, keyLength, if_neg other]
        exact regular c s (by omega) (by omega) front
    · intro c inside
      obtain ⟨s, member, -, value⟩ := order c (total ▸ inside)
      rw [value]
      exact fits s member
    · intro c insideC d insideD other
      rw [total] at insideC insideD
      obtain ⟨s, -, foundC, valueC⟩ := order c insideC
      obtain ⟨t, -, foundD, valueD⟩ := order d insideD
      rw [valueC, valueD]
      have different : s ≠ t := fun same => other
        ((List.getElem?_inj (lengthOrder ▸ insideC) nodup').mp (by rw [foundC, foundD, same]))
      rcases Nat.lt_or_gt_of_ne different with before | after
      · exact Or.inl (keyStart_add_le before)
      · exact Or.inr (keyStart_add_le after)
  have inside : ∀ i < sz, i / keysPerSlot < all.length ∧ i % keysPerSlot <
      keyLength keysPerSlot leftover lp ((rest ++ [lp]).getD (i / keysPerSlot) 0) := by
    intro i below
    have base := outer i below
    have split := Nat.div_add_mod' i keysPerSlot
    have less := Nat.mod_lt i least
    refine ⟨by omega, ?_⟩
    rw [keyLength]
    split_ifs with same
    · rw [odd _ (by omega) same] at split
      omega
    · exact less
  refine ⟨⟨all, keysPerSlot, sz, 0, sz⟩, ?_, ?_, fun i below => ?_⟩
  · dsimp only
    rw [run, Option.bind_eq_bind, Option.bind_some, first, Option.bind_eq_bind, Option.bind_some,
      filled, Option.bind_eq_bind, Option.bind_some, Nat.add_sub_cancel, set, eq]
    rfl
  · rw [show (BulkDistribution.mk all keysPerSlot sz 0 sz).size = sz from sizeT_sub_zero small]
    refine tiled.permutes small inside (fun i j base offset => ?_) fun i below => ?_
    · rw [← Nat.div_add_mod' i keysPerSlot, base, offset, Nat.div_add_mod']
    · rw [BulkDistribution.key]
      dsimp only
      rw [sizeT_add_zero (by omega)]
  · exact tiled.exists_slot small (inside i below).1 (inside i below).2

end BulkDistribution

end Distribution

end Rma
