import Rma.Distribution.Dense

/-!
# Views of the distributions

`view(start, length)` should give the `length` keys of a distribution from `start` on, and raise
where there are not as many. The sequences build a new sequence from the two positions instead,
and the distributions that share their slots or their permutation with a view take `start` as a
position of the whole distribution; only the views of an array of bytes are relative to the view
they are taken from. `viewLaw_iff` says for which positions each class follows the law.
-/

namespace Rma

open Base RandomPermutation

/-- The distributions that have views. -/
inductive Distribution where
  | sequential (s : Distribution.Sequential)
  | bulk (b : Distribution.BulkDistribution)
  | interleaved (b : Distribution.InterleavedDistribution)
  | noise (d : Distribution.NoiseDistribution)
  | byteView (v : CByteView)

namespace Distribution

/-! ## The views of each class -/

/-- `SequentialForward::view` and `SequentialBackwards::view` -/
def Sequential.view (s : Sequential) (start length : Nat) : Option Sequential :=
  Sequential.create s.direction (int64 start) (int64 (start + length))

/-- `BulkDistribution::view` -/
def BulkDistribution.view (b : BulkDistribution) (start length : Nat) : Option BulkDistribution :=
  if sizeT (start + length) > b.capacity then none
  else some { b with start := start, stop := sizeT (start + length) }

/-- `InterleavedDistribution::view` -/
def InterleavedDistribution.view (b : InterleavedDistribution) (start length : Nat) :
    Option InterleavedDistribution :=
  if sizeT (start + length) > b.capacity then none
  else some { b with start := start, stop := sizeT (start + length) }

/-- `NoiseDistribution::view` -/
def NoiseDistribution.view (d : NoiseDistribution) (start length : Nat) :
    Option NoiseDistribution :=
  if sizeT (start + length) > d.capacity then none
  else some { d with start := start, stop := sizeT (start + length) }

/-- `size()` -/
def size : Distribution → Nat
  | .sequential s => s.size
  | .bulk b => b.size
  | .interleaved b => b.size
  | .noise d => d.size
  | .byteView v => v.size

/-- `key(index)` -/
def key : Distribution → Nat → Option Int
  | .sequential s => s.key
  | .bulk b => b.key
  | .interleaved b => b.key
  | .noise d => d.key
  | .byteView v => v.key

/-- `view(start, length)` -/
def view : Distribution → Nat → Nat → Option Distribution
  | .sequential s, start, length => (s.view start length).map .sequential
  | .bulk b, start, length => (b.view start length).map .bulk
  | .interleaved b, start, length => (b.view start length).map .interleaved
  | .noise d, start, length => (d.view start length).map .noise
  | .byteView v, start, length => (v.view start length).map .byteView

/-- `view(shift)` -/
def viewFrom (d : Distribution) (shift : Nat) : Option Distribution :=
  d.view shift (sizeT (d.size - shift))

/-- The distributions of the constructors and their views, and so on; the positions of a view are
inside of the distribution, or at least do not overflow. -/
inductive Reachable : Distribution → Prop
  | sequential {direction : Direction} {start stop : Int} {s : Sequential} :
    -2 ^ 63 ≤ start → stop < 2 ^ 63 → Sequential.create direction start stop = some s →
    Reachable (.sequential s)
  | bulk {direction : Direction} {sz keysPerSlot noBuckets : Nat} {o : Outcome}
    {b : BulkDistribution} : sz < 2 ^ 63 → 0 < keysPerSlot → 0 < noBuckets →
    o.Drawn (sz / keysPerSlot + 1) noBuckets →
    BulkDistribution.create direction sz keysPerSlot noBuckets o = some b → Reachable (.bulk b)
  | interleaved {direction : Direction} {size numStreams noBuckets : Nat} {o : Outcome}
    {unset : Int} {b : InterleavedDistribution} : size < 2 ^ 63 → 0 < noBuckets →
    o.Drawn numStreams noBuckets →
    InterleavedDistribution.create direction size numStreams noBuckets o unset = some b →
    Reachable (.interleaved b)
  | noise {direction : Direction} {size threshold noBuckets : Nat} {alpha : ℚ} {o : Outcome}
    {d : NoiseDistribution} : size < 2 ^ 63 → threshold < size → 0 < noBuckets →
    o.Drawn size noBuckets →
    NoiseDistribution.create direction size alpha threshold noBuckets o = some d →
    Reachable (.noise d)
  | byteView {container : CByteArray} : container.capacity < 2 ^ 63 →
    Reachable (.byteView (CByteView.create container))
  | view {d v : Distribution} {start length : Nat} : Reachable d →
    start + length ≤ d.size ∨ start + length < 2 ^ 63 → d.view start length = some v → Reachable v

/-! ## The law -/

/-- A view has the keys from `start` on, or raises where there are not enough. -/
def ViewLaw (d : Distribution) (start length : Nat) : Prop :=
  (start + length ≤ d.size → ∃ v, d.view start length = some v ∧ v.size = length ∧
    ∀ i < length, v.key i = d.key (start + i)) ∧
  (d.size < start + length → d.view start length = none)

/-- Two views that enumerate all the keys, in order. -/
def Tiles (d : Distribution) (k : Nat) : Prop :=
  ∃ v w, d.view 0 k = some v ∧ d.viewFrom k = some w ∧
    (List.range v.size).map v.key ++ (List.range w.size).map w.key = (List.range d.size).map d.key

/-- Where the distributions that share their keys follow the law. -/
def SharedLawful (size capacity first start length : Nat) : Prop :=
  if start + length ≤ size then first = 0 else capacity < sizeT (start + length)

/-- Where a distribution follows the law. -/
def Lawful (d : Distribution) (start length : Nat) : Prop :=
  match d with
  | .sequential ⟨.forward, first, stop⟩ =>
    if start + length ≤ sizeT (stop - first) then first = 0
    else int64 (start + length) < int64 start
  | .sequential ⟨.backwards, first, stop⟩ =>
    if start + length ≤ sizeT (stop - first) then
      int64 start ≤ int64 (start + length) ∧ int64 (2 * start + length) = stop
    else int64 (start + length) < int64 start
  | .bulk b => SharedLawful b.size b.capacity b.start start length
  | .interleaved b => SharedLawful b.size b.capacity b.start start length
  | .noise d => SharedLawful d.size d.capacity d.start start length
  | .byteView v =>
    if start + length ≤ v.size then True
    else v.container.capacity ≤ sizeT (start + v.start) ∨
      v.container.capacity < sizeT (sizeT (start + v.start) + length)

/-- The positions that the constructor keeps in an `int` fit: the keys are a permutation. -/
def Fits (d : Distribution) : Prop :=
  match d with
  | .noise d => d.capacity ≤ 2 ^ 31 ∨ d.threshold = 0
  | _ => True

/-! ## Distinct keys -/

/-- The keys of a permutation are distinct. -/
theorem Permutes.injective {n size : Nat} {key : Nat → Option Int}
    (permutes : Permutes n size key) :
    ∀ i < n, ∀ j < n, key i = key j → i = j := by
  obtain ⟨-, keys, read, perm⟩ := permutes
  have numbers : ((List.range n).map fun i : Nat => (i : Int) + 1).Nodup :=
    List.Nodup.map_on (fun i _ j _ same => by omega) List.nodup_range
  have distinct : ((List.range n).map key).Nodup := by
    rw [map_of_mapM read]
    exact (perm.nodup_iff.mpr numbers).map (Option.some_injective _)
  exact fun i insideI j insideJ same => List.inj_on_of_nodup_map distinct
    (List.mem_range.mpr insideI) (List.mem_range.mpr insideJ) same

/-! ## The law of each class -/

/-- The key in a position of the whole distribution. -/
def BulkDistribution.keyAt (b : BulkDistribution) (index : Nat) : Option Int :=
  slotKey b.slots (index / b.keysPerSlot) (index % b.keysPerSlot)

/-- The key in a position of the whole distribution. -/
def InterleavedDistribution.keyAt (b : InterleavedDistribution) (index : Nat) : Option Int :=
  slotKey b.slots (index % b.slots.length) (index / b.slots.length)

/-- The key in a position of the whole distribution. -/
def NoiseDistribution.keyAt (d : NoiseDistribution) (index : Nat) : Option Int := do
  let offset ← getRawKey d.permutation index
  if offset < d.threshold then d.sequential.key offset else some (int64 (offset + 1))

/-- A part of the positions of a distribution, where the keys are distinct if they fit. -/
structure Shared (fits : Prop) (keyAt : Nat → Option Int) (capacity first stop : Nat) : Prop where
  order : first ≤ stop
  bound : stop ≤ capacity
  small : capacity < 2 ^ 63
  distinct : fits → ∀ i < capacity, ∀ j < capacity, keyAt i = keyAt j → i = j

/-- What holds of a distribution and of the views inside of it. -/
def WellFormed (d : Distribution) : Prop :=
  match d with
  | .sequential s => -2 ^ 63 ≤ s.start ∧ s.start ≤ s.stop ∧ s.stop < 2 ^ 63
  | .bulk b => Shared (Fits (.bulk b)) b.keyAt b.capacity b.start b.stop
  | .interleaved b => Shared (Fits (.interleaved b)) b.keyAt b.capacity b.start b.stop
  | .noise d => Shared (Fits (.noise d)) d.keyAt d.capacity d.start d.stop
  | .byteView v => v.start ≤ v.stop ∧ v.stop ≤ v.container.capacity ∧ v.container.capacity < 2 ^ 63

section Laws

variable {d : Distribution} {start length : Nat}

/-- The distributions that share their keys with their views. -/
theorem sharedLaw {mk : Nat → Nat → Distribution} {fits : Prop} {keyAt : Nat → Option Int}
    {capacity first stop : Nat} (shared : Shared fits keyAt capacity first stop)
    (self : d = mk first stop) (size : ∀ s e : Nat, (mk s e).size = sizeT (e - s))
    (key : ∀ s e i : Nat, (mk s e).key i = keyAt (sizeT (i + s)))
    (view : d.view start length = if sizeT (start + length) > capacity then none
      else some (mk start (sizeT (start + length)))) (positive : 0 < length) :
    (SharedLawful d.size capacity first start length → ViewLaw d start length) ∧
      (fits → ViewLaw d start length → SharedLawful d.size capacity first start length) := by
  obtain ⟨order, bound, small, distinct⟩ := shared
  have whole : d.size = stop - first := by
    rw [self, size, ← Nat.cast_sub order, sizeT_of_lt (by omega)]
  rw [ViewLaw, SharedLawful, view]
  by_cases inside : start + length ≤ d.size
  · rw [if_pos inside]
    have last : sizeT ((start : Int) + length) = start + length := by
      rw [← Nat.cast_add, sizeT_of_lt (by omega)]
    rw [last, if_neg (by omega)]
    have sizeView : (mk start (start + length)).size = length := by
      rw [size, Nat.cast_add, add_sub_cancel_left, sizeT_of_lt (by omega)]
    constructor
    · rintro rfl
      refine ⟨fun _ => ⟨_, rfl, sizeView, fun i less => ?_⟩, fun beyond => by omega⟩
      rw [self, key, key, Nat.cast_zero, add_zero, ← Nat.cast_add, Nat.add_comm]
    · rintro fits ⟨law, -⟩
      obtain ⟨v, taken, -, keys⟩ := law inside
      have here := keys 0 positive
      rw [← Option.some.inj taken, self, key, key, ← Nat.cast_add, ← Nat.cast_add,
        sizeT_of_lt (by omega), sizeT_of_lt (by omega)] at here
      have same := distinct fits _ (by omega) _ (by omega) here
      omega
  · rw [if_neg inside]
    constructor
    · exact fun beyond => ⟨fun inside' => absurd inside' inside, fun _ => if_pos beyond⟩
    · rintro - ⟨-, raises⟩
      by_contra room
      have taken := raises (by omega)
      rw [if_neg room] at taken
      cases taken

theorem bulk_law {b : BulkDistribution} (formed : WellFormed (.bulk b)) (positive : 0 < length) :
    (Lawful (.bulk b) start length → ViewLaw (.bulk b) start length) ∧
      (Fits (.bulk b) → ViewLaw (.bulk b) start length → Lawful (.bulk b) start length) := by
  refine @sharedLaw _ _ _ (fun s e => .bulk { b with start := s, stop := e }) _ _ _ _ _ formed
    rfl (fun _ _ => rfl) (fun _ _ _ => rfl) ?_ positive
  rw [view, BulkDistribution.view]
  split <;> rfl

theorem interleaved_law {b : InterleavedDistribution} (formed : WellFormed (.interleaved b))
    (positive : 0 < length) :
    (Lawful (.interleaved b) start length → ViewLaw (.interleaved b) start length) ∧
      (Fits (.interleaved b) → ViewLaw (.interleaved b) start length →
        Lawful (.interleaved b) start length) := by
  refine @sharedLaw _ _ _ (fun s e => .interleaved { b with start := s, stop := e }) _ _ _ _ _
    formed rfl (fun _ _ => rfl) (fun _ _ _ => rfl) ?_ positive
  rw [view, InterleavedDistribution.view]
  split <;> rfl

theorem noise_law {d : NoiseDistribution} (formed : WellFormed (.noise d)) (positive : 0 < length) :
    (Lawful (.noise d) start length → ViewLaw (.noise d) start length) ∧
      (Fits (.noise d) → ViewLaw (.noise d) start length → Lawful (.noise d) start length) := by
  refine @sharedLaw _ _ _ (fun s e => .noise { d with start := s, stop := e }) _ _ _ _ _ formed
    rfl (fun _ _ => rfl) (fun _ _ _ => rfl) ?_ positive
  rw [view, NoiseDistribution.view]
  split <;> rfl

/-- The views of an array of bytes are relative to the view. -/
theorem byteView_law {v : CByteView} (formed : WellFormed (.byteView v)) (positive : 0 < length) :
    ViewLaw (.byteView v) start length ↔ Lawful (.byteView v) start length := by
  obtain ⟨order, bound, small⟩ := formed
  have whole : v.size = v.stop - v.start := by
    rw [CByteView.size, ← Nat.cast_sub order, sizeT_of_lt (by omega)]
  rw [ViewLaw, Lawful, size, view, CByteView.view]
  by_cases inside : start + length ≤ v.size
  · rw [if_pos inside, iff_true]
    have first : sizeT ((start : Int) + v.start) = start + v.start := by
      rw [← Nat.cast_add, sizeT_of_lt (by omega)]
    have last : sizeT (((start + v.start : Nat) : Int) + length) = start + v.start + length := by
      rw [← Nat.cast_add, sizeT_of_lt (by omega)]
    dsimp only
    rw [first, last, if_neg (by omega), if_neg (by omega)]
    refine ⟨fun _ => ⟨_, rfl, ?_, fun i less => ?_⟩, fun beyond => by omega⟩
    · rw [size, CByteView.size, Nat.cast_add, add_sub_cancel_left, sizeT_of_lt (by omega)]
    · have here : sizeT (((start + v.start : Nat) : Int) + i) = start + v.start + i := by
        rw [← Nat.cast_add, sizeT_of_lt (by omega)]
      have there : sizeT ((v.start : Int) + (start + i : Nat)) = start + v.start + i := by
        rw [← Nat.cast_add, sizeT_of_lt (by omega)]
        omega
      have room : (CByteView.mk v.container (start + v.start) (start + v.start + length)).size =
          length := by
        rw [CByteView.size, Nat.cast_add (start + v.start), add_sub_cancel_left,
          sizeT_of_lt (by omega)]
      rw [key, CByteView.key, room, if_pos less, key, CByteView.key, if_pos (by omega), here, there]
  · rw [if_neg inside]
    dsimp only
    constructor
    · rintro ⟨-, raises⟩
      have taken := raises (by omega)
      by_contra room
      rw [not_or, not_le, not_lt] at room
      rw [if_neg (by omega), if_neg (by omega)] at taken
      cases taken
    · intro beyond
      refine ⟨fun inside' => absurd inside' inside, fun _ => ?_⟩
      split_ifs with first last
      · rfl
      · rfl
      · omega

/-- The view of a sequence. -/
theorem Sequential.view_eq (s : Sequential) (start length : Nat) :
    s.view start length = if int64 (start + length) < int64 start then none
      else some ⟨s.direction, int64 start, int64 (start + length)⟩ := rfl

/-- The size of the view of a sequence. -/
theorem Sequential.size_view (direction : Direction) (start length : Nat)
    (small : length < 2 ^ 64) :
    (Sequential.mk direction (int64 start) (int64 (start + length))).size = length := by
  obtain ⟨⟨i, first⟩, -, -⟩ := int64_spec (start : Int)
  obtain ⟨⟨j, last⟩, -, -⟩ := int64_spec ((start : Int) + length)
  rw [Sequential.size, sizeT, first, last]
  norm_num at *
  omega

/-- A sequence follows the law where its view exists and has its keys. -/
theorem sequential_law_iff {s : Sequential} (small : length < 2 ^ 64) :
    ViewLaw (.sequential s) start length ↔
      if start + length ≤ s.size then int64 start ≤ int64 (start + length) ∧
        ∀ i < length, (Sequential.mk s.direction (int64 start) (int64 (start + length))).key i =
          s.key (start + i)
      else int64 (start + length) < int64 start := by
  rw [ViewLaw, size, view, Sequential.view_eq]
  by_cases inside : start + length ≤ s.size
  · rw [if_pos inside]
    constructor
    · rintro ⟨law, -⟩
      obtain ⟨v, taken, -, keys⟩ := law inside
      split at taken
      · cases taken
      · next room =>
        cases taken
        exact ⟨not_lt.mp room, keys⟩
    · rintro ⟨room, keys⟩
      rw [if_neg (not_lt.mpr room)]
      exact ⟨fun _ => ⟨_, rfl, Sequential.size_view _ start length small, keys⟩,
        fun beyond => by omega⟩
  · rw [if_neg inside]
    constructor
    · rintro ⟨-, raises⟩
      have taken := raises (by omega)
      split at taken
      · next beyond => exact beyond
      · cases taken
    · intro beyond
      rw [if_pos beyond]
      exact ⟨fun inside' => absurd inside' inside, fun _ => rfl⟩

/-- The views of a forward sequence start from 0. -/
theorem forward_law {first stop : Int} (formed : WellFormed (.sequential ⟨.forward, first, stop⟩))
    (positive : 0 < length) (small : length < 2 ^ 64) :
    ViewLaw (.sequential ⟨.forward, first, stop⟩) start length ↔
      Lawful (.sequential ⟨.forward, first, stop⟩) start length := by
  rw [sequential_law_iff small, Lawful, Sequential.size]
  obtain ⟨lower, order, upper⟩ := formed
  have whole : (sizeT (stop - first) : Int) = stop - first := by
    rw [sizeT]
    norm_num at *
    omega
  dsimp only at lower order upper ⊢
  by_cases inside : start + length ≤ sizeT (stop - first)
  · rw [if_pos inside, if_pos inside]
    constructor
    · rintro ⟨-, keys⟩
      have here := keys 0 positive
      rw [Sequential.key, Sequential.size_view _ start length small, Sequential.key,
        Sequential.size] at here
      dsimp only at here
      rw [if_pos positive, if_pos (by omega)] at here
      have same := Option.some.inj here
      obtain ⟨⟨i, first'⟩, -, -⟩ := int64_spec (start : Int)
      obtain ⟨⟨j, left⟩, -, -⟩ := int64_spec (int64 start + (0 : Nat))
      obtain ⟨⟨k, right⟩, -, -⟩ := int64_spec (first + (start + 0 : Nat))
      norm_num at *
      omega
    · rintro rfl
      have firstView : int64 (start : Int) = start := int64_of_lt (by omega) (by omega)
      have lastView : int64 ((start : Int) + length) = start + length :=
        int64_of_lt (by omega) (by omega)
      refine ⟨by omega, fun i less => ?_⟩
      rw [Sequential.key, Sequential.size_view _ start length small, Sequential.key,
        Sequential.size]
      dsimp only
      rw [if_pos less, if_pos (by omega), firstView, Int.zero_add, Nat.cast_add]
  · rw [if_neg inside, if_neg inside]

/-- The views of a backwards sequence end with `start`. -/
theorem backwards_law {first stop : Int}
    (formed : WellFormed (.sequential ⟨.backwards, first, stop⟩)) (positive : 0 < length)
    (small : length < 2 ^ 64) :
    ViewLaw (.sequential ⟨.backwards, first, stop⟩) start length ↔
      Lawful (.sequential ⟨.backwards, first, stop⟩) start length := by
  rw [sequential_law_iff small, Lawful, Sequential.size]
  obtain ⟨lower, order, upper⟩ := formed
  dsimp only at lower order upper ⊢
  obtain ⟨⟨j, last⟩, -, -⟩ := int64_spec ((start : Int) + length)
  by_cases inside : start + length ≤ sizeT (stop - first)
  · rw [if_pos inside, if_pos inside]
    refine and_congr_right fun _ => ?_
    constructor
    · intro keys
      have here := keys 0 positive
      rw [Sequential.key, Sequential.key] at here
      dsimp only at here
      obtain ⟨k, same⟩ := int64_inj (Option.some.inj here)
      rw [← int64_self (by omega) upper]
      refine int64_congr (k - j) ?_
      rw [last, Nat.cast_zero, Nat.add_zero] at same
      rw [sub_mul]
      linarith
    · intro twice i less
      obtain ⟨⟨m, twice'⟩, -⟩ := int64_spec (2 * (start : Int) + length)
      have same : int64 (int64 (start + length) - 1 - (i : Nat)) =
          int64 (stop - 1 - (start + i : Nat)) := by
        refine int64_congr (j - m) ?_
        norm_num at *
        omega
      rw [Sequential.key, Sequential.key]
      dsimp only
      rw [same]
  · rw [if_neg inside, if_neg inside]

end Laws

/-! ## The constructors and their views -/

/-- The fields of a bulk distribution. -/
theorem BulkDistribution.create_fields {direction : Direction} {sz keysPerSlot noBuckets : Nat}
    {o : Outcome} {b : BulkDistribution}
    (created : create direction sz keysPerSlot noBuckets o = some b) :
    0 < sz ∧ b.capacity = sz ∧ b.start = 0 ∧ b.stop = sz := by
  rw [create] at created
  split at created
  · cases created
  · next some_ =>
    obtain ⟨rp, -, rest⟩ := Option.bind_eq_some_iff.mp created
    obtain ⟨position, -, rest⟩ := Option.bind_eq_some_iff.mp rest
    obtain ⟨slots, -, rest⟩ := Option.bind_eq_some_iff.mp rest
    obtain ⟨slots', -, same⟩ := Option.bind_eq_some_iff.mp rest
    cases same
    exact ⟨Nat.pos_of_ne_zero some_, rfl, rfl, rfl⟩

/-- The fields of an interleaved distribution. -/
theorem InterleavedDistribution.create_fields {direction : Direction}
    {size numStreams noBuckets : Nat} {o : Outcome} {unset : Int} {b : InterleavedDistribution}
    (created : create direction size numStreams noBuckets o unset = some b) :
    0 < numStreams ∧ numStreams ≤ size ∧ b.capacity = size ∧ b.start = 0 ∧ b.stop = size := by
  rw [create] at created
  split at created
  · cases created
  · split at created
    · cases created
    · next streams =>
      obtain ⟨rp, -, rest⟩ := Option.bind_eq_some_iff.mp created
      obtain ⟨permutations, -, rest⟩ := Option.bind_eq_some_iff.mp rest
      obtain ⟨slots, -, same⟩ := Option.bind_eq_some_iff.mp rest
      cases same
      exact ⟨by omega, by omega, rfl, rfl, rfl⟩

/-- The fields of a noise distribution. -/
theorem NoiseDistribution.create_fields {direction : Direction} {size threshold noBuckets : Nat}
    {alpha : ℚ} {o : Outcome} {d : NoiseDistribution}
    (created : create direction size alpha threshold noBuckets o = some d) :
    0 < size ∧ (0 < alpha ∧ alpha < 1) ∧ d.capacity = size ∧ d.threshold = threshold ∧
      d.start = 0 ∧ d.stop = size := by
  rw [create] at created
  split at created
  · cases created
  · next some_ =>
    split at created
    · cases created
    · next noise =>
      obtain ⟨sequential, -, rest⟩ := Option.bind_eq_some_iff.mp created
      obtain ⟨permutation, -, rest⟩ := Option.bind_eq_some_iff.mp rest
      obtain ⟨reordering, -, rest⟩ := Option.bind_eq_some_iff.mp rest
      obtain ⟨permutation', -, same⟩ := Option.bind_eq_some_iff.mp rest
      cases same
      rw [not_or, not_le, not_le] at noise
      exact ⟨Nat.pos_of_ne_zero some_, noise, rfl, rfl, rfl, rfl⟩

/-- The keys of a distribution that was just built, by their positions. -/
theorem Shared.create {fits : Prop} {size : Nat} {key keyAt : Nat → Option Int}
    (small : size < 2 ^ 63) (permutes : fits → Permutes size size key)
    (same : ∀ i < size, key i = keyAt i) : Shared fits keyAt size 0 size :=
  ⟨Nat.zero_le size, le_rfl, small, fun holds i insideI j insideJ equal =>
    (permutes holds).injective i insideI j insideJ (by rw [same i insideI, same j insideJ, equal])⟩

section Views

variable {fits : Prop} {keyAt : Nat → Option Int} {capacity first stop start length : Nat}

theorem Shared.size (shared : Shared fits keyAt capacity first stop) :
    sizeT ((stop : Int) - first) = stop - first := by
  obtain ⟨order, bound, small, -⟩ := shared
  rw [← Nat.cast_sub order, sizeT_of_lt (by omega)]

/-- A view has the positions that it is given. -/
theorem Shared.view (shared : Shared fits keyAt capacity first stop)
    (positions : start + length ≤ sizeT ((stop : Int) - first) ∨ start + length < 2 ^ 63)
    (room : ¬ capacity < sizeT ((start : Int) + length)) :
    Shared fits keyAt capacity start (sizeT ((start : Int) + length)) := by
  rw [shared.size] at positions
  obtain ⟨order, bound, small, distinct⟩ := shared
  have last : sizeT ((start : Int) + length) = start + length := by
    rw [← Nat.cast_add, sizeT_of_lt (by omega)]
  rw [last] at room ⊢
  exact ⟨by omega, by omega, small, distinct⟩

end Views

/-- The views of a distribution are as it is. -/
theorem WellFormed.view {d v : Distribution} {start length : Nat} (formed : WellFormed d)
    (positions : start + length ≤ d.size ∨ start + length < 2 ^ 63)
    (taken : d.view start length = some v) : WellFormed v := by
  cases d with
  | sequential s =>
      rw [Distribution.view] at taken
      obtain ⟨s', view, rfl⟩ := Option.map_eq_some_iff.mp taken
      rw [Sequential.view_eq] at view
      split at view
      · cases view
      · next room =>
        cases view
        rw [WellFormed]
        dsimp only
        exact ⟨(int64_spec (start : Int)).2.1, not_lt.mp room,
          (int64_spec ((start : Int) + length)).2.2⟩
  | bulk b =>
      rw [Distribution.view] at taken
      obtain ⟨b', view, rfl⟩ := Option.map_eq_some_iff.mp taken
      rw [BulkDistribution.view] at view
      rw [size, BulkDistribution.size] at positions
      split at view
      · cases view
      · next room =>
        cases view
        exact Shared.view formed positions room
  | interleaved b =>
      rw [Distribution.view] at taken
      obtain ⟨b', view, rfl⟩ := Option.map_eq_some_iff.mp taken
      rw [InterleavedDistribution.view] at view
      rw [size, InterleavedDistribution.size] at positions
      split at view
      · cases view
      · next room =>
        cases view
        exact Shared.view formed positions room
  | noise d =>
      rw [Distribution.view] at taken
      obtain ⟨d', view, rfl⟩ := Option.map_eq_some_iff.mp taken
      rw [NoiseDistribution.view] at view
      rw [size, NoiseDistribution.size] at positions
      split at view
      · cases view
      · next room =>
        cases view
        exact Shared.view formed positions room
  | byteView v =>
      rw [Distribution.view] at taken
      obtain ⟨v', view, rfl⟩ := Option.map_eq_some_iff.mp taken
      obtain ⟨order, bound, small⟩ := formed
      have whole : v.size = v.stop - v.start := by
        rw [CByteView.size, ← Nat.cast_sub order, sizeT_of_lt (by omega)]
      rw [size, whole] at positions
      have here : sizeT ((start : Int) + v.start) = start + v.start := by
        rw [← Nat.cast_add, sizeT_of_lt (by omega)]
      rw [CByteView.view, here] at view
      dsimp only at view
      split at view
      · cases view
      · next first =>
        have there : sizeT (((start + v.start : Nat) : Int) + length) =
            start + v.start + length := by
          rw [← Nat.cast_add, sizeT_of_lt (by omega)]
        rw [there] at view
        split at view
        · cases view
        · next last =>
          cases view
          exact ⟨by dsimp only; omega, by dsimp only; omega, small⟩

theorem Reachable.wellFormed {d : Distribution} (reachable : Reachable d) : WellFormed d := by
  induction reachable with
  | sequential lower upper created =>
      rw [Sequential.create] at created
      split at created
      · cases created
      · next room =>
        cases created
        exact ⟨lower, not_lt.mp room, upper⟩
  | @bulk _ sz _ _ _ b small least several drawn created =>
      obtain ⟨positive, capacity, start, stop⟩ := BulkDistribution.create_fields created
      rw [WellFormed, capacity, start, stop]
      refine @Shared.create _ _ b.key _ small (fun _ => ?_) fun i below => ?_
      · obtain ⟨b', created', permutes, -⟩ :=
          BulkDistribution.create_spec positive small least several drawn
        rw [created] at created'
        cases created'
        rwa [permutes.1] at permutes
      · rw [BulkDistribution.key, start, sizeT_add_zero (by omega), BulkDistribution.keyAt]
  | @interleaved _ sz streams _ _ unset b small several drawn created =>
      obtain ⟨least, most, capacity, start, stop⟩ := InterleavedDistribution.create_fields created
      rw [WellFormed, capacity, start, stop]
      have fits : streams ≤ 2 ^ 31 := by
        by_contra overflow
        rw [InterleavedDistribution.create_eq_none small most (not_le.mp overflow) several drawn]
          at created
        cases created
      refine @Shared.create _ _ b.key _ small (fun _ => ?_) fun i below => ?_
      · obtain ⟨b', created', permutes, -⟩ :=
          InterleavedDistribution.create_spec small least most fits several drawn unset
        rw [created] at created'
        cases created'
        rwa [permutes.1] at permutes
      · rw [InterleavedDistribution.key, start, sizeT_add_zero (by omega),
          InterleavedDistribution.keyAt]
  | @noise _ sz threshold _ _ _ d small less several drawn created =>
      obtain ⟨positive, noise, capacity, threshold', start, stop⟩ :=
        NoiseDistribution.create_fields created
      rw [WellFormed, Fits, capacity, threshold', start, stop]
      refine @Shared.create _ _ d.key _ small (fun fits => ?_) fun i below => ?_
      · obtain ⟨d', created', permutes, -⟩ :=
          NoiseDistribution.create_spec positive small noise less fits several drawn
        rw [created] at created'
        cases created'
        rwa [permutes.1] at permutes
      · rw [NoiseDistribution.key, start, sizeT_add_zero (by omega), NoiseDistribution.keyAt]
  | byteView small =>
      exact ⟨Nat.zero_le _, le_rfl, small⟩
  | view _ positions taken formed => exact formed.view positions taken

/-! ## The law of every distribution -/

theorem size_lt (d : Distribution) : d.size < 2 ^ 64 := by
  cases d with
  | sequential s => exact sizeT_lt _
  | bulk b => exact sizeT_lt _
  | interleaved b => exact sizeT_lt _
  | noise d => exact sizeT_lt _
  | byteView v => exact sizeT_lt _

/-- The law for both parts of a distribution. -/
theorem tiles_of_viewLaw {d : Distribution} {k : Nat} (inside : k ≤ d.size)
    (left : ViewLaw d 0 k) (right : ViewLaw d k (d.size - k)) : Tiles d k := by
  obtain ⟨v, taken, sizeV, keysV⟩ := left.1 (by omega)
  obtain ⟨w, taken', sizeW, keysW⟩ := right.1 (by omega)
  have bound := d.size_lt
  have rest : sizeT ((d.size : Int) - k) = d.size - k := by
    rw [← Nat.cast_sub inside, sizeT_of_lt (by omega)]
  refine ⟨v, w, taken, by rw [viewFrom, rest, taken'], ?_⟩
  have front : (List.range k).map v.key = (List.range k).map d.key := by
    refine List.map_congr_left fun i member => ?_
    rw [keysV i (List.mem_range.mp member), Nat.zero_add]
  have back : (List.range (d.size - k)).map w.key =
      (List.range (d.size - k)).map (d.key ∘ (k + ·)) :=
    List.map_congr_left fun i member => keysW i (List.mem_range.mp member)
  calc (List.range v.size).map v.key ++ (List.range w.size).map w.key
      = (List.range k).map d.key ++ (List.range (d.size - k)).map (d.key ∘ (k + ·)) := by
        rw [sizeV, sizeW, front, back]
    _ = (List.range (k + (d.size - k))).map d.key := by
        rw [List.range_add, List.map_append, List.map_map]
    _ = (List.range d.size).map d.key := by rw [Nat.add_sub_cancel' inside]

/-- **The views of a distribution compose** in the positions that its class respects, and where the
keys are a permutation in no others; two of them with all the positions have all the keys. -/
theorem viewLaw_iff {d : Distribution} (reachable : Reachable d) :
    (∀ start length : Nat, 0 < length → length < 2 ^ 64 →
      (Lawful d start length → ViewLaw d start length) ∧
        (Fits d → ViewLaw d start length → Lawful d start length)) ∧
      ∀ k : Nat, 0 < k → k < d.size → Lawful d 0 k → Lawful d k (d.size - k) → Tiles d k := by
  have law : ∀ start length : Nat, 0 < length → length < 2 ^ 64 →
      (Lawful d start length → ViewLaw d start length) ∧
        (Fits d → ViewLaw d start length → Lawful d start length) := by
    intro start length positive small
    have formed := reachable.wellFormed
    match d, formed with
    | .sequential ⟨.forward, _, _⟩, formed =>
      exact ⟨(forward_law formed positive small).mpr,
        fun _ => (forward_law formed positive small).mp⟩
    | .sequential ⟨.backwards, _, _⟩, formed =>
      exact ⟨(backwards_law formed positive small).mpr,
        fun _ => (backwards_law formed positive small).mp⟩
    | .bulk _, formed => exact bulk_law formed positive
    | .interleaved _, formed => exact interleaved_law formed positive
    | .noise _, formed => exact noise_law formed positive
    | .byteView _, formed =>
      exact ⟨(byteView_law formed positive).mpr, fun _ => (byteView_law formed positive).mp⟩
  refine ⟨law, fun k some_ inside left right => ?_⟩
  have bound := d.size_lt
  exact tiles_of_viewLaw inside.le ((law 0 k some_ (by omega)).1 left)
    ((law k (d.size - k) (by omega) (by omega)).1 right)

/-- A sequence from 0 to 9. -/
theorem viewLaw_iff_ten : ViewLaw (.sequential ⟨.forward, 0, 10⟩) 3 4 ∧
    Tiles (.sequential ⟨.forward, 0, 10⟩) 4 := by
  have reachable : Reachable (.sequential ⟨.forward, 0, 10⟩) :=
    @Reachable.sequential .forward 0 10 _ (by norm_num) (by norm_num) rfl
  have ten : size (.sequential ⟨.forward, 0, 10⟩) = 10 := by decide +kernel
  have lawful : ∀ start length : Nat, start + length ≤ 10 →
      Lawful (.sequential ⟨.forward, 0, 10⟩) start length := by
    intro start length inside
    rw [Lawful, if_pos (by rwa [show sizeT (10 - 0) = 10 by decide +kernel])]
  exact ⟨((viewLaw_iff reachable).1 3 4 (by norm_num) (by norm_num)).1 (lawful 3 4 (by norm_num)),
    (viewLaw_iff reachable).2 4 (by norm_num) (by rw [ten]; norm_num) (lawful 0 4 (by norm_num))
      (by rw [ten]; exact lawful 4 6 (by norm_num))⟩

/-- The view of the first three keys of a sequence from 1 to 10 starts with key 0. -/
theorem not_viewLaw_one : Reachable (.sequential ⟨.forward, 1, 11⟩) ∧
    ¬ ViewLaw (.sequential ⟨.forward, 1, 11⟩) 0 3 := by
  refine ⟨@Reachable.sequential .forward 1 11 _ (by norm_num) (by norm_num) rfl, ?_⟩
  rw [forward_law ⟨by norm_num, by norm_num, by norm_num⟩ (by norm_num) (by norm_num), Lawful,
    if_pos (by rw [show sizeT (11 - 1) = 10 by decide +kernel]; norm_num)]
  exact one_ne_zero

end Distribution

end Rma
