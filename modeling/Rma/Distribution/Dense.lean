import Rma.Distribution.Interleaved
import Rma.Distribution.Noise

/-!
# The dense workloads are permutations

For every outcome of the draws, the parallel random permutation, the bulk, the interleaved and the
noise distributions give each of their keys once. The positions that the last two keep are stored
in an `int`: with more than `2 ^ 31` streams, or keys where there is any noise, some outcome ends in
an access outside of an array.
-/

namespace Rma

open Base

namespace RandomPermutation

/-! ## An outcome with the first number in a given position -/

section Moved

variable {ranges : List (Nat × Nat)} {s s' : Exchange} {n i j : Nat}

/-- Every task has sent its numbers to the first bucket, and the first task starts with 0. -/
structure Exchange.Gathered (s : Exchange) : Prop where
  others : ∀ target i, target ≠ 0 → s.chunks target i = []
  first : s.next 0 = 0 ∧ s.chunks 0 0 = [] ∨ ∃ rest, s.chunks 0 0 = 0 :: rest

theorem Exchange.Gathered.run {schedule : List (Nat × Nat)} (gathered : s.Gathered)
    (targets : ∀ turn ∈ schedule, turn.2 = 0)
    (run : runFrom (exchangeStep ranges) s schedule = some s') : s'.Gathered := by
  induction schedule generalizing s with
  | nil =>
      cases run
      exact gathered
  | cons turn schedule ih =>
      obtain ⟨task, target⟩ := turn
      obtain ⟨s₁, step, rest⟩ := runFrom_cons_eq_some.mp run
      obtain rfl : target = 0 := targets _ List.mem_cons_self
      rw [exchangeStep] at step
      split at step
      · cases step
        refine ih ⟨fun target i other => ?_, ?_⟩
          (fun turn member => targets turn (List.mem_cons_of_mem _ member)) rest
        · dsimp only
          rw [Function.update_of_ne other]
          exact gathered.others target i other
        · dsimp only
          rw [Function.update_self]
          by_cases here : task = 0
          · subst here
            right
            rw [Function.update_self]
            rcases gathered.first with ⟨next, empty⟩ | ⟨tail, chunk⟩
            · exact ⟨[], by rw [empty, next]; rfl⟩
            · exact ⟨_, by rw [chunk, List.cons_append]⟩
          · rw [Function.update_of_ne (Ne.symm here), Function.update_of_ne (Ne.symm here)]
            exact gathered.first
      · cases step

/-- The swaps of positions with themselves change nothing. -/
theorem permuteLoop_self {c : CByteArray} {l : List Int} (holds : c.Holds n l)
    (index : Nat → Nat) (room i : Nat) (within : i + room ≤ l.length)
    (same : ∀ k, i ≤ k → index k = k) :
    ∃ c', permuteLoop index room i c = some c' ∧ c'.Holds n l := by
  induction room generalizing i c with
  | zero => exact ⟨c, rfl, holds⟩
  | succ room ih =>
      have read := List.getElem?_eq_getElem (show i < l.length by omega)
      have swapped : swapAt l i (index i) = some l := by
        rw [same i le_rfl, swapAt_eq read read, List.set_getElem_self, List.set_getElem_self]
      obtain ⟨c₁, swap, holds₁⟩ := holds.swap swapped
      obtain ⟨c', rest, holds'⟩ := ih holds₁ (i + 1) (by omega) fun k later => same k (by omega)
      exact ⟨c', by rw [permuteLoop, swap]; exact rest, holds'⟩

/-- The outcome where every number is sent to the first bucket, task after task, and the first
number is moved to the given position. -/
def Outcome.gather (ranges : List (Nat × Nat)) (j : Nat) : Outcome where
  schedule := (List.range ranges.length).flatMap fun i =>
    List.replicate ((ranges.getD i (0, 0)).2 - (ranges.getD i (0, 0)).1) (i, 0)
  order := List.range ranges.length
  index := fun _ i capacity => if i = 0 ∧ j < capacity then j else i
  unset := fun _ _ => 0
  unsetMerged := fun _ => 0

theorem count_flatMap_replicate (k : Nat → Nat) {m : Nat} (less : i < m) :
    ((List.range m).flatMap fun a => List.replicate (k a) a).count i = k i := by
  induction m with
  | zero => omega
  | succ m ih =>
      rw [List.range_succ, List.flatMap_append, List.count_append, List.flatMap_singleton]
      rcases Nat.eq_or_lt_of_le (Nat.lt_succ_iff.mp less) with rfl | before
      · rw [List.count_replicate_self, List.count_eq_zero.mpr, Nat.zero_add]
        intro member
        obtain ⟨a, below, here⟩ := List.mem_flatMap.mp member
        have := List.mem_range.mp below
        have := List.eq_of_mem_replicate here
        omega
      · rw [ih before, List.count_replicate]
        simp only [beq_iff_eq]
        rw [if_neg (by omega), Nat.add_zero]

theorem Outcome.gather_admissible (nonempty : 0 < ranges.length) (ordered : ∀ r ∈ ranges, r.1 ≤ r.2)
    (j : Nat) : (Outcome.gather ranges j).Admissible ranges := by
  constructor
  · intro turn member
    obtain ⟨i, below, here⟩ := List.mem_flatMap.mp member
    rw [List.eq_of_mem_replicate here]
    exact ⟨List.mem_range.mp below, nonempty⟩
  · intro i r range
    have inside := (List.getElem?_eq_some_iff.mp range).1
    have tasks : (Outcome.gather ranges j).schedule.map Prod.fst =
        (List.range ranges.length).flatMap fun i =>
          List.replicate ((ranges.getD i (0, 0)).2 - (ranges.getD i (0, 0)).1) i := by
      rw [Outcome.gather, List.map_flatMap]
      simp only [List.map_replicate]
    have bound := ordered r (List.mem_of_getElem? range)
    rw [tasks, count_flatMap_replicate (fun i => (ranges.getD i (0, 0)).2 -
      (ranges.getD i (0, 0)).1) inside, List.getD_eq_getElem?_getD, range, Option.getD_some]
    omega
  · exact List.Perm.refl _
  · intro bucket i capacity less
    rw [Outcome.gather]
    dsimp only
    split_ifs with moved
    · omega
    · omega

/-- There is an outcome for every size. -/
theorem exists_drawn {size noBuckets : Nat} (positive : 0 < size) (several : 0 < noBuckets) :
    ∃ o : Outcome, o.Drawn size noBuckets := by
  have someBuckets : 0 < if noBuckets > size then size else noBuckets := by
    split <;> omega
  obtain ⟨length, ordered, -⟩ := ranges_spec someBuckets size
  exact ⟨_, Outcome.gather_admissible (by rwa [length]) ordered 0⟩

/-- A bucket that starts with 0 is permuted such that 0 is in the given position. -/
theorem localPermutation_moved {chunks : List (List Int)} {rest : List Int} (positive : 0 < n)
    (small : n ≤ 8) (stored : ∀ v ∈ chunks.flatten, CByteArray.stored n v = v)
    (first : chunks.flatten = 0 :: rest) (inside : j < chunks.flatten.length)
    (long : 2 < chunks.flatten.length) (unset : Nat → UInt8) :
    ∃ c l, localPermutation n chunks
      (fun i capacity => if i = 0 ∧ j < capacity then j else i) unset = some c ∧
        c.Holds n l ∧ l.length = chunks.flatten.length ∧ l[j]? = some 0 := by
  have capacity : (chunks.map List.length).sum = chunks.flatten.length := List.length_flatten.symm
  obtain ⟨c₀, created, filled⟩ :=
    CByteArray.create_filled chunks.flatten.length positive small unset
  obtain ⟨c₁, store, filled₁⟩ := storeValues_spec filled stored (Nat.zero_add _)
  rw [List.length_nil] at store
  have holds := filled₁.holds (by rw [List.nil_append])
  rw [List.nil_append] at holds
  obtain ⟨room, count⟩ : ∃ room, chunks.flatten.length - 2 = room + 1 :=
    ⟨chunks.flatten.length - 3, by omega⟩
  have head : chunks.flatten[0]? = some 0 := by
    rw [first]
    rfl
  have swapped := swapAt_eq head (List.getElem?_eq_getElem inside)
  obtain ⟨c₂, swap, holds₂⟩ := holds.swap swapped
  have length : ((chunks.flatten.set 0 chunks.flatten[j]).set j 0).length =
      chunks.flatten.length := by
    rw [List.length_set, List.length_set]
  obtain ⟨c, loop, holds'⟩ := permuteLoop_self holds₂
    (fun i => if i = 0 ∧ j < chunks.flatten.length then j else i) room 1
    (by rw [length]; omega) (fun k later => if_neg (by omega))
  refine ⟨c, _, ?_, holds', length, ?_⟩
  · rw [localPermutation, capacity, created, Option.bind_eq_bind, Option.bind_some, store,
      Option.bind_some, if_pos (by omega), count, permuteLoop, if_pos ⟨rfl, inside⟩, swap]
    exact loop
  · rw [List.getElem?_set_self (by rwa [List.length_set])]

/-- The chunks where every number is sent to the first bucket. -/
theorem gather_chunks {size nb : Nat} (positive : 0 < nb) (few : nb ≤ size)
    {chunks : Nat → Nat → List Int} (exchanged : exchange (RandomPermutation.ranges size nb)
      (Outcome.gather (RandomPermutation.ranges size nb) j).schedule = some chunks) :
    (∀ target i, target ≠ 0 → chunks target i = []) ∧ ∃ rest, chunks 0 0 = 0 :: rest := by
  obtain ⟨s, run, ended⟩ := Option.bind_eq_some_iff.mp exchanged
  split at ended
  · next all =>
    cases ended
    obtain ⟨m, rfl⟩ := Nat.exists_eq_succ_of_ne_zero positive.ne'
    have first : RandomPermutation.ranges size (m + 1) = (0, if 0 < size % (m + 1)
        then size / (m + 1) + 1 else size / (m + 1)) :: _ := rfl
    have start : (Exchange.start (RandomPermutation.ranges size (m + 1))).Gathered :=
      ⟨fun _ _ _ => rfl, Or.inl ⟨by rw [first]; rfl, rfl⟩⟩
    have gathered := start.run (fun turn member => by
      obtain ⟨i, -, here⟩ := List.mem_flatMap.mp member
      rw [List.eq_of_mem_replicate here]) run
    refine ⟨gathered.others, gathered.first.resolve_left fun nothing => ?_⟩
    have stop := all 0 (by rw [first]; exact Nat.succ_pos _)
    have quotient : 0 < size / (m + 1) := Nat.div_pos few positive
    rw [nothing.1, first, List.getD_cons_zero] at stop
    dsimp only at stop
    split at stop <;> omega
  · cases ended

theorem flatMap_first {α : Type} {m : Nat} {f : Nat → List α} (positive : 0 < m)
    (others : ∀ i, i ≠ 0 → f i = []) : (List.range m).flatMap f = f 0 := by
  obtain ⟨m, rfl⟩ := Nat.exists_eq_succ_of_ne_zero positive.ne'
  rw [List.range_succ_eq_map, List.flatMap_cons, List.flatMap_map, List.flatMap_eq_nil_iff.mpr
    fun i _ => others _ (Nat.succ_ne_zero i), List.append_nil]

/-- Some outcome leaves the first number in the given position. -/
theorem exists_moved {size noBuckets : Nat} (small : size ≤ 2 ^ 63) (several : 0 < noBuckets)
    (long : 2 < size) (inside : j < size) :
    ∃ (o : Outcome) (c : CByteArray) (l : List Int), o.Drawn size noBuckets ∧
      computeRandomPermutationParallel size noBuckets o = some c ∧
      c.Holds (computeBytesPerElements size) l ∧ l[j]? = some 0 := by
  obtain ⟨bytes, bytesLe, -⟩ := computeBytesPerElements_spec small
  obtain ⟨nb, buckets⟩ : ∃ nb, nb = if noBuckets > size then size else noBuckets := ⟨_, rfl⟩
  have someBuckets : 0 < nb := by
    rw [buckets]
    split <;> omega
  have few : nb ≤ size := by
    rw [buckets]
    split <;> omega
  obtain ⟨length, ordered, -⟩ := ranges_spec someBuckets size
  have drawn := @Outcome.gather_admissible (RandomPermutation.ranges size nb)
    (by rwa [length]) ordered j
  obtain ⟨chunks, exchanged, all⟩ := exchange_spec someBuckets drawn
  obtain ⟨others, rest, head⟩ := gather_chunks someBuckets few exchanged
  -- the first bucket holds all the numbers, the others are empty
  have empty : ∀ i, i ≠ 0 → (List.range nb).flatMap (chunks i) = [] := fun i other =>
    List.flatMap_eq_nil_iff.mpr fun t _ => others i t other
  rw [flatMap_first someBuckets empty] at all
  have bucket : ((List.range nb).map (chunks 0)).flatten = (List.range nb).flatMap (chunks 0) :=
    List.flatMap_def.symm
  have total := all.length_eq
  rw [List.length_map, List.length_range, ← bucket] at total
  obtain ⟨m, more⟩ := Nat.exists_eq_succ_of_ne_zero someBuckets.ne'
  have first : ((List.range nb).map (chunks 0)).flatten =
      0 :: (rest ++ ((List.range nb).map (chunks 0)).tail.flatten) := by
    rw [more, List.range_succ_eq_map, List.map_cons, List.flatten_cons, head, List.tail_cons,
      List.cons_append]
  have stored := fun i (inside : i < nb) => @stored_chunks _ nb small chunks
    (by rw [flatMap_first someBuckets empty]; exact all) _ inside
  obtain ⟨c₀, l, local₀, holds₀, -, zero⟩ := localPermutation_moved bytes bytesLe
    (stored 0 someBuckets) first (j := j) (by omega) (by omega) fun _ => 0
  have each : ∀ i, ∃ c contents, (i < nb → localPermutation (computeBytesPerElements size)
      ((List.range nb).map (chunks i))
      ((Outcome.gather (RandomPermutation.ranges size nb) j).index i)
      ((Outcome.gather (RandomPermutation.ranges size nb) j).unset i) = some c ∧
        c.Holds (computeBytesPerElements size) contents) ∧ (i ≠ 0 → contents = []) ∧
      (i = 0 → contents = l) := by
    intro i
    by_cases here : i = 0
    · subst here
      exact ⟨c₀, l, fun _ => ⟨local₀, holds₀⟩, fun other => absurd rfl other, fun _ => rfl⟩
    · by_cases below : i < nb
      · obtain ⟨c, contents, task, holds, perm⟩ := localPermutation_spec bytes bytesLe
          (stored i below) (fun k capacity less => (drawn.index i k capacity less).2) fun _ => 0
        rw [← List.flatMap_def, empty i here] at perm
        exact ⟨c, contents, fun _ => ⟨task, holds⟩, fun _ => perm.eq_nil,
          fun same => absurd same here⟩
      · exact ⟨c₀, [], fun below' => absurd below' below, fun _ => rfl,
          fun same => absurd same here⟩
  choose result contents task nothing moved using each
  obtain ⟨c, run, holds⟩ := merged_spec buckets someBuckets drawn exchanged task
  rw [flatMap_first someBuckets nothing, moved 0 rfl] at holds
  exact ⟨_, c, l, buckets ▸ drawn, run, holds, zero⟩

end Moved

end RandomPermutation

open RandomPermutation

namespace Distribution

/-! ## The workloads -/

/-- Every outcome of the random permutation holds each of the numbers below the size once. -/
def RandomPermutationDense (size noBuckets : Nat) : Prop :=
  ∀ o : Outcome, o.Drawn size noBuckets → ∃ rp,
    computeRandomPermutationParallel size noBuckets o = some rp ∧ rp.capacity = size ∧
      ∃ keys, (List.range size).mapM rp.getValueAt = some keys ∧
        keys.Perm ((List.range size).map Nat.cast)

/-- Every outcome of the bulk distribution is a permutation, and every key is in its slot. -/
def BulkDense (size keysPerSlot noBuckets : Nat) : Prop :=
  ∀ (direction : Direction) (o : Outcome), o.Drawn (size / keysPerSlot + 1) noBuckets → ∃ b,
    BulkDistribution.create direction size keysPerSlot noBuckets o = some b ∧
      Permutes size b.size b.key ∧
      ∀ i < size, ∃ slot, b.slots[i / b.keysPerSlot]? = some (some slot) ∧
        i % b.keysPerSlot < slot.size

/-- Every outcome of the interleaved distribution is a permutation, and every key is in its slot. -/
def InterleavedDense (size numStreams noBuckets : Nat) : Prop :=
  ∀ (direction : Direction) (o : Outcome) (unset : Int), o.Drawn numStreams noBuckets → ∃ b,
    InterleavedDistribution.create direction size numStreams noBuckets o unset = some b ∧
      Permutes size b.size b.key ∧
      ∀ i < size, ∃ slot, b.slots[i % b.slots.length]? = some (some slot) ∧
        i / b.slots.length < slot.size

/-- Every outcome of the noise distribution is a permutation, and every key below the threshold is
in the sequence. -/
def NoiseDense (size : Nat) (alpha : ℚ) (threshold noBuckets : Nat) : Prop :=
  ∀ (direction : Direction) (o : Outcome), o.Drawn size noBuckets → ∃ d,
    NoiseDistribution.create direction size alpha threshold noBuckets o = some d ∧
      Permutes size d.size d.key ∧
      ∀ i < size, ∃ offset, getRawKey d.permutation i = some offset ∧
        (offset < d.threshold → offset < d.sequential.size)

section Dense

variable {size keysPerSlot numStreams threshold noBuckets : Nat} {alpha : ℚ}

theorem randomPermutationDense (positive : 0 < size) (small : size ≤ 2 ^ 63)
    (several : 0 < noBuckets) : RandomPermutationDense size noBuckets := by
  intro o drawn
  obtain ⟨rp, l, run, holds, perm⟩ :=
    computeRandomPermutationParallel_spec positive small several drawn
  have length := perm.length_eq
  rw [List.length_map, List.length_range] at length
  refine ⟨rp, run, holds.capacity.trans length, l, ?_, perm⟩
  rw [← length]
  exact mapM_range fun i x read => (holds.get i).trans read

/-- The number `2 ^ 63` is no key. -/
theorem not_bulkDense (large : 2 ^ 63 ≤ size) (several : 0 < noBuckets) :
    ¬ BulkDense size keysPerSlot noBuckets := by
  intro dense
  obtain ⟨o, drawn⟩ := exists_drawn (Nat.succ_pos (size / keysPerSlot)) several
  obtain ⟨b, -, ⟨-, keys, read, perm⟩, -⟩ := dense .forward o drawn
  have last : (size : Int) ∈ keys :=
    perm.mem_iff.mpr (List.mem_map.mpr ⟨size - 1, List.mem_range.mpr (by omega), by omega⟩)
  obtain ⟨i, -, key⟩ := mem_of_mapM read last
  obtain ⟨slot, -, rest⟩ := Option.bind_eq_some_iff.mp key
  obtain ⟨slot', -, rest⟩ := Option.bind_eq_some_iff.mp rest
  obtain ⟨k, -, result⟩ := Option.bind_eq_some_iff.mp rest
  have bound := int64_lt (k + 1)
  rw [Option.some.inj result] at bound
  omega

theorem not_interleavedDense (small : size < 2 ^ 63) (most : numStreams ≤ size)
    (overflow : 2 ^ 31 < numStreams) (several : 0 < noBuckets) :
    ¬ InterleavedDense size numStreams noBuckets := by
  intro dense
  obtain ⟨o, drawn⟩ := @exists_drawn numStreams noBuckets (by omega) several
  obtain ⟨b, created, -⟩ := dense .forward o 0 drawn
  rw [InterleavedDistribution.create_eq_none small most overflow several drawn] at created
  cases created

theorem not_noiseDense (small : size < 2 ^ 63) (noise : 0 < alpha ∧ alpha < 1)
    (less : threshold < size) (overflow : 2 ^ 31 < size) (ordered : 0 < threshold)
    (several : 0 < noBuckets) : ¬ NoiseDense size alpha threshold noBuckets := by
  intro dense
  obtain ⟨o, c, l, drawn, run, holds, far⟩ :=
    @exists_moved (2 ^ 31) size noBuckets (by omega) several (by omega) overflow
  obtain ⟨rp, π, run', capacity, -, read, perm⟩ := rawKeys (by omega) (by omega) several drawn
  obtain ⟨d, created, -⟩ := dense .forward o drawn
  have value : π[2 ^ 31]? = some 0 := by
    rw [← read, getRawKey, Option.some.inj (run'.symm.trans run), holds.get, far]
    rfl
  rw [NoiseDistribution.create_eq_none small noise less run' capacity read perm value ordered]
    at created
  cases created

/-- **The dense workloads are permutations** exactly where the keys are `int64_t` and the positions
that are kept in an `int` fit. -/
theorem dense_iff (positive : 0 < size) (least : 0 < keysPerSlot)
    (streams : 0 < numStreams) (most : numStreams ≤ size) (noise : 0 < alpha ∧ alpha < 1)
    (less : threshold < size) (several : 0 < noBuckets) :
    (RandomPermutationDense size noBuckets ∧ BulkDense size keysPerSlot noBuckets ∧
        InterleavedDense size numStreams noBuckets ∧ NoiseDense size alpha threshold noBuckets) ↔
      size < 2 ^ 63 ∧ numStreams ≤ 2 ^ 31 ∧ (size ≤ 2 ^ 31 ∨ threshold = 0) := by
  constructor
  · rintro ⟨-, bulk, interleaved, noisy⟩
    have small : size < 2 ^ 63 := by
      by_contra large
      exact not_bulkDense (not_lt.mp large) several bulk
    refine ⟨small, ?_, ?_⟩
    · by_contra overflow
      exact not_interleavedDense small most (not_le.mp overflow) several interleaved
    · by_contra overflow
      rw [not_or, not_le] at overflow
      exact not_noiseDense small noise less overflow.1 (Nat.pos_of_ne_zero overflow.2) several
        noisy
  · rintro ⟨small, fits, quiet⟩
    exact ⟨randomPermutationDense positive small.le several,
      fun direction o drawn => BulkDistribution.create_spec positive small least several drawn,
      fun direction o unset drawn => InterleavedDistribution.create_spec small streams most
        fits several drawn unset,
      fun direction o drawn => NoiseDistribution.create_spec positive small noise less quiet
        several drawn⟩

/-- Ten keys, in runs of three, in four streams, and with a fifth of them in order. -/
theorem dense_iff_ten : RandomPermutationDense 10 1024 ∧ BulkDense 10 3 1024 ∧
    InterleavedDense 10 4 1024 ∧ NoiseDense 10 (1 / 5) 2 1024 :=
  (dense_iff (by norm_num) (by norm_num) (by norm_num) (by norm_num) (by norm_num) (by norm_num)
    (by norm_num)).mpr (by norm_num)

/-- With `2 ^ 31 + 1` streams, or with `2 ^ 31 + 1` keys and one of them in order, the last
position does not fit. -/
theorem dense_overflow : ¬ InterleavedDense (2 ^ 31 + 1) (2 ^ 31 + 1) 1024 ∧
    ¬ NoiseDense (2 ^ 31 + 1) (1 / 2 ^ 31) 1 1024 :=
  ⟨not_interleavedDense (by norm_num) le_rfl (by norm_num) (by norm_num),
    not_noiseDense (by norm_num) (by norm_num) (by norm_num) (by norm_num) (by norm_num)
      (by norm_num)⟩

end Dense

end Distribution

end Rma
