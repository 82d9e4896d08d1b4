import Rma.CByteArray

/-!
# Sparse uniform keys

`make_sparse_uniform(min, max, n)` selects `n` of the keys from `min` to `max`: a sequential
sampler skips a number of records before each one that it selects, the keys are stored minus one
in the bytes that `max` takes, shuffled, and read through a view that adds the one again.

What the sampler draws is the list of the skips, and what the shuffle draws the list of its
offsets. The sums of the code that may overflow, of the range and of the `int` that counts a whole
interval, are undefined where they do; so is a call that raises.

With `min = 0` the key 0 is stored as -1, which is read back as the key after the ones that fit
in the bytes. And where the logarithm of `max` is rounded down, a byte is missing, and the keys
that do not fit are read back as others: `Sound` says when the sampler avoids this.
-/

namespace Rma

open Base

namespace SparseUniform

/-- What `random_sample` keeps between two calls: `m` samples are to select of `N` records. -/
structure Sampler where
  previousIndex : Int
  m : Int
  N : Int

/-- `random_sample`, with the number `S` of records that it skips. -/
def randomSample (S : Nat) (s : Sampler) : Sampler := ⟨s.previousIndex + S + 1, s.m - 1, s.N - 1 - S⟩

/-- `while(num_samples > 0)`: select the samples. -/
def sampleLoop (min : Int) : (skips : List Nat) → Sampler → (i : Nat) → CByteArray →
    Option CByteArray
  | [], s, _, array => if s.m > 0 then none else some array
  | S :: skips, s, i, array =>
    if s.m > 0 then do
      let array ← array.setValueAt i (min + (randomSample S s).previousIndex)
      sampleLoop min skips (randomSample S s) (i + 1) array
    else some array

/-- `for(int i = 0; i < num_samples; i++)`: store `room` numbers of the interval, from `i` on. The
counter may not pass the greatest `int`. -/
def fillLoop (min : Int) : (room i : Nat) → CByteArray → Option CByteArray
  | 0, _, array => some array
  | room + 1, i, array => do
    let array ← array.setValueAt i (min + i)
    if i + 1 < 2 ^ 31 then fillLoop min room (i + 1) array else none

/-- `generate_samples` -/
def generateSamples (array : CByteArray) (min max : Int) (numSamples : Nat) (skips : List Nat) :
    Option CByteArray :=
  if numSamples = max - min + 1 then -- retrieve all numbers in the interval
    fillLoop min numSamples 0 array
  else sampleLoop min skips ⟨-1, numSamples, 1 + max - min⟩ 0 array

/-- The loop of `shuffle`; `r` is `static_cast<int64_t>(dblrand() * (sz - i))`. -/
def shuffleLoop (sz : Nat) : (draws : List Nat) → (i : Nat) → CByteArray → Option CByteArray
  | [], i, A => if i < sz then none else some A
  | r :: draws, i, A =>
    if i < sz then do
      -- get a random integer in [i, n)
      let j := if r + i = sz then r + i - 1 else r + i
      let A ← A.swap i j
      shuffleLoop sz draws (i + 1) A
    else some A

/-- `shuffle` -/
def shuffle (draws : List Nat) (A : CByteArray) : Option CByteArray :=
  if A.capacity ≤ 1 then some A else shuffleLoop A.capacity draws 0 A

/-- The sum of two `int64_t`, undefined where it overflows. -/
def checkedAdd (x y : Int) : Option Int :=
  if -2 ^ 63 ≤ x + y ∧ x + y < 2 ^ 63 then some (x + y) else none

/-- `make_sparse_uniform(min, max, num_values, seed)` -/
def makeSparseUniform (log : Log2) (min max : Int) (numValues : Nat) (skips draws : List Nat)
    (unset : Nat → UInt8) : Option CByteView :=
  if min < 0 then none
  else if max ≤ min then none
  else if numValues < 1 then none
  else do
    let range ← checkedAdd (max - min) 1
    if numValues > range then none
    else
      let bytesPerElement := CByteArray.computeBytesPerElements log max.toNat
      let array ← CByteArray.create bytesPerElement numValues unset
      -- subtract 1 from the indices to generate, as `CByteView::key` automatically adds 1
      let array ← generateSamples array (min - 1) (max - 1) numValues skips
      let array ← shuffle draws array
      some (CByteView.create array)

/-! ## The samples -/

/-- The skips that the sampler can draw: `0 <= S < N + 1 - m` at each step. -/
def Skips : (N m : Int) → List Nat → Prop
  | _, m, [] => m = 0
  | N, m, S :: skips => 0 < m ∧ S < N + 1 - m ∧ Skips (N - 1 - S) (m - 1) skips

/-- The offsets that the shuffle can draw, from the position `i` on. -/
def Draws (sz : Nat) : (i : Nat) → List Nat → Prop
  | i, [] => i = sz
  | i, r :: draws => i < sz ∧ r + i ≤ sz ∧ Draws sz (i + 1) draws

/-- The indices that are selected. -/
def selected : (previousIndex : Int) → (skips : List Nat) → List Int
  | _, [] => []
  | previousIndex, S :: skips => (previousIndex + S + 1) :: selected (previousIndex + S + 1) skips

section Samples

variable {N m previousIndex : Int} {skips : List Nat}

theorem Skips.length (valid : Skips N m skips) : (skips.length : Int) = m := by
  induction skips generalizing N m with
  | nil => exact valid.symm
  | cons S skips ih =>
      have rest := ih valid.2.2
      rw [List.length_cons]
      omega

theorem Skips.sum_le (valid : Skips N m skips) (room : m ≤ N) : (skips.sum : Int) + m ≤ N := by
  induction skips generalizing N m with
  | nil =>
      rw [List.sum_nil]
      omega
  | cons S skips ih =>
      obtain ⟨positive, small, rest⟩ := valid
      have bound := ih rest (by omega)
      rw [List.sum_cons]
      omega

@[simp] theorem length_selected (previousIndex : Int) (skips : List Nat) :
    (selected previousIndex skips).length = skips.length := by
  induction skips generalizing previousIndex with
  | nil => rfl
  | cons S skips ih => rw [selected, List.length_cons, List.length_cons, ih]

/-- The indices grow, and the last one is known. -/
theorem selected_spec (previousIndex : Int) (skips : List Nat) :
    (selected previousIndex skips).Pairwise (· < ·) ∧
      (∀ x ∈ selected previousIndex skips,
        previousIndex < x ∧ x ≤ previousIndex + skips.sum + skips.length) ∧
      (skips ≠ [] → previousIndex + skips.sum + skips.length ∈ selected previousIndex skips) := by
  induction skips generalizing previousIndex with
  | nil => simp [selected]
  | cons S skips ih =>
      obtain ⟨sorted, bounds, last⟩ := ih (previousIndex + S + 1)
      rw [selected, List.sum_cons, List.length_cons]
      refine ⟨List.pairwise_cons.mpr ⟨fun x member => (bounds x member).1, sorted⟩, ?_, fun _ => ?_⟩
      · intro x member
        rcases List.mem_cons.mp member with rfl | later
        · omega
        · have := bounds x later
          omega
      · cases skips with
        | nil =>
            simp only [List.sum_nil, List.length_nil]
            exact List.mem_cons.mpr (Or.inl (by omega))
        | cons S' skips =>
            have member := last (List.cons_ne_nil _ _)
            refine List.mem_cons_of_mem _ ?_
            convert member using 1
            omega

end Samples

/-! ## The loops -/

section Loops

variable {array : CByteArray} {n capacity sz i : Nat} {min : Int} {l : List Int}

/-- The sampler stores the selected indices, one after the other. -/
theorem sampleLoop_spec (min : Int) {skips : List Nat} {s : Sampler}
    (valid : Skips s.N s.m skips) {l : List Int} (filled : array.Filled n capacity l)
    (room : l.length + s.m = capacity) : ∃ array',
      sampleLoop min skips s l.length array = some array' ∧ array'.Filled n capacity
        (l ++ (selected s.previousIndex skips).map fun x => CByteArray.stored n (min + x)) := by
  induction skips generalizing s array l with
  | nil =>
      have done : s.m = 0 := valid
      refine ⟨array, by rw [sampleLoop, if_neg (by omega)], ?_⟩
      simpa [selected] using filled
  | cons S skips ih =>
      obtain ⟨positive, small, rest⟩ := valid
      obtain ⟨array₁, store, filled₁⟩ := filled.push (by omega)
        (min + (randomSample S s).previousIndex)
      obtain ⟨array', loop, filled'⟩ := ih (s := randomSample S s) rest filled₁ (by
        rw [List.length_append, List.length_singleton, randomSample]
        push_cast
        omega)
      rw [List.length_append, List.length_singleton] at loop
      refine ⟨array', ?_, ?_⟩
      · rw [sampleLoop, if_pos positive, store]
        exact loop
      · rw [selected, List.map_cons]
        simpa [randomSample] using filled'

/-- The whole interval is stored, where its size is an `int`. -/
theorem fillLoop_spec (min : Int) {room : Nat} (small : capacity < 2 ^ 31)
    (filled : array.Filled n capacity l) (whole : l.length + room = capacity) : ∃ array',
      fillLoop min room l.length array = some array' ∧ array'.Filled n capacity
        (l ++ (List.range' l.length room).map fun i : Nat => CByteArray.stored n (min + i)) := by
  induction room generalizing array l with
  | zero => exact ⟨array, rfl, by simpa using filled⟩
  | succ room ih =>
      obtain ⟨array₁, store, filled₁⟩ := filled.push (by omega) (min + l.length)
      obtain ⟨array', loop, filled'⟩ := ih filled₁ (by
        rw [List.length_append, List.length_singleton]
        omega)
      rw [List.length_append, List.length_singleton] at loop filled'
      refine ⟨array', ?_, ?_⟩
      · rw [fillLoop, store, Option.bind_eq_bind, Option.bind_some, if_pos (by omega), loop]
      · rw [List.range'_succ, List.map_cons]
        simpa using filled'

/-- The counter overflows in an interval of `2 ^ 31` numbers. -/
theorem fillLoop_overflow (min : Int) {room : Nat} (array : CByteArray) (less : i < 2 ^ 31)
    (large : 2 ^ 31 ≤ i + room) : fillLoop min room i array = none := by
  induction room generalizing array i with
  | zero => omega
  | succ room ih =>
      rw [fillLoop, Option.bind_eq_bind, Option.bind_eq_none_iff]
      intro array' _
      by_cases fits : i + 1 < 2 ^ 31
      · rw [if_pos fits, ih array' fits (by omega)]
      · rw [if_neg fits]

/-- The shuffle permutes the values. -/
theorem shuffleLoop_spec {draws : List Nat} (drawn : Draws sz i draws) (holds : array.Holds n l)
    (length : l.length = sz) : ∃ array' l', shuffleLoop sz draws i array = some array' ∧
      array'.Holds n l' ∧ l'.Perm l := by
  induction draws generalizing i array l with
  | nil =>
      have done : i = sz := drawn
      exact ⟨array, l, by rw [shuffleLoop, if_neg (by omega)], holds, List.Perm.refl l⟩
  | cons r draws ih =>
      obtain ⟨less, within, rest⟩ := drawn
      have inside : (if r + i = sz then r + i - 1 else r + i) < l.length := by
        split <;> omega
      obtain ⟨l₁, swapped⟩ := exists_swapAt (show i < l.length by omega) inside
      obtain ⟨array₁, swap, holds₁⟩ := holds.swap swapped
      have perm := swapAt_perm swapped
      obtain ⟨array', l', loop, holds', perm'⟩ := ih rest holds₁ (perm.length_eq.trans length)
      refine ⟨array', l', ?_, holds', perm'.trans perm⟩
      rw [shuffleLoop, if_pos less]
      simp only [swap, Option.bind_eq_bind, Option.bind_some]
      exact loop

theorem shuffle_spec {draws : List Nat} (drawn : 1 < l.length → Draws l.length 0 draws)
    (holds : array.Holds n l) : ∃ array' l', shuffle draws array = some array' ∧
      array'.Holds n l' ∧ l'.Perm l := by
  rw [shuffle, holds.capacity]
  by_cases few : l.length ≤ 1
  · exact ⟨array, l, if_pos few, holds, List.Perm.refl l⟩
  · rw [if_neg few]
    exact shuffleLoop_spec (drawn (not_le.mp few)) holds rfl

end Loops

/-! ## When the keys are sound -/

section Keys

variable {n : Nat} {min max : Int} {samples : List Int}

/-- The stored value of a sample: those that do not fit are read back as others. -/
theorem stored_sample (bytes : n < 8) {s : Int} (lower : -1 ≤ s) (upper : s < 2 * 256 ^ n) :
    CByteArray.stored n s =
      if s < 0 then 256 ^ n - 1 else if s < 256 ^ n then s else s - 256 ^ n := by
  have bound : (256 : Int) ^ n ≤ 256 ^ 7 := pow_le_pow_right₀ (by norm_num) (by omega)
  norm_num at bound
  by_cases neg : s < 0
  · rw [if_pos neg, show s = -1 by omega, CByteArray.stored_neg_one bytes]
  · rw [if_neg neg]
    by_cases fits : s < 256 ^ n
    · rw [if_pos fits, CByteArray.stored_of_lt bytes.le (by omega) fits (by omega)]
    · have rest : s % (256 ^ n : Nat) = s - 256 ^ n := by
        push_cast
        rw [← Int.sub_emod_right, Int.emod_eq_of_lt (by omega) (by omega)]
      rw [if_neg fits, CByteArray.stored_eq bytes.le, rest]
      exact Int.bmod_eq_of_le (by norm_num; omega) (by norm_num; omega)

/-- All samples fit in eight bytes. -/
theorem stored_eight {s : Int} (lower : -1 ≤ s) (upper : s < 2 ^ 63) :
    CByteArray.stored 8 s = s := by
  by_cases neg : s < 0
  · rw [show s = -1 by omega, CByteArray.stored_neg_one_whole]
  · exact CByteArray.stored_of_lt le_rfl (by omega) (by norm_num; omega) upper

/-- The keys that are read back are distinct and in range exactly when they are stored in eight
bytes, or the samples that do not fit are read back as others that are in range and not selected:
-1 as the last one that fits, and the ones past it from zero on. -/
theorem keys_iff (bytes : n ≤ 8) (fits : max < 2 * 256 ^ n) (int64 : max < 2 ^ 63) (lower : 0 ≤ min)
    (sorted : samples.Pairwise (· < ·)) (bounds : ∀ s ∈ samples, min - 1 ≤ s ∧ s ≤ max - 1) :
    (((samples.map (CByteArray.stored n)).map (· + 1)).Nodup ∧
        ∀ k ∈ (samples.map (CByteArray.stored n)).map (· + 1), min ≤ k ∧ k ≤ max) ↔
      n = 8 ∨ (-1 ∈ samples → 256 ^ n ≤ max ∧ 256 ^ n - 1 ∉ samples) ∧
        ∀ s ∈ samples, 256 ^ n ≤ s → min - 1 ≤ s - 256 ^ n ∧ s - 256 ^ n ∉ samples := by
  have nodup : samples.Nodup := sorted.imp ne_of_lt
  have distinct : ((samples.map (CByteArray.stored n)).map (· + 1)).Nodup ↔
      ∀ s ∈ samples, ∀ t ∈ samples, CByteArray.stored n s = CByteArray.stored n t → s = t := by
    rw [List.nodup_map_iff (add_left_injective 1), List.nodup_map_iff_inj_on nodup]
  have within : (∀ k ∈ (samples.map (CByteArray.stored n)).map (· + 1), min ≤ k ∧ k ≤ max) ↔
      ∀ s ∈ samples, min ≤ CByteArray.stored n s + 1 ∧ CByteArray.stored n s + 1 ≤ max := by
    rw [List.forall_mem_map, List.forall_mem_map]
  rw [distinct, within]
  by_cases eight : n = 8
  · have same : ∀ s ∈ samples, CByteArray.stored n s = s := by
      intro s member
      have within := bounds s member
      rw [eight]
      exact stored_eight (by omega) (by omega)
    refine iff_of_true ⟨fun s first t second equal => ?_, fun s member => ?_⟩ (Or.inl eight)
    · rwa [same s first, same t second] at equal
    · have within := bounds s member
      rw [same s member]
      omega
  · have value : ∀ s ∈ samples, CByteArray.stored n s =
        if s < 0 then 256 ^ n - 1 else if s < 256 ^ n then s else s - 256 ^ n := by
      intro s member
      have within := bounds s member
      exact stored_sample (by omega) (by omega) (by omega)
    have positive : (0 : Int) < 256 ^ n := by positivity
    generalize (256 : Int) ^ n = last at *
    rw [or_iff_right eight]
    constructor
    · rintro ⟨injective, inRange⟩
      refine ⟨fun first => ⟨?_, fun member => ?_⟩, fun s member past => ⟨?_, fun below => ?_⟩⟩
      · have within := (inRange (-1) first).2
        rw [value _ first, if_pos (by norm_num)] at within
        omega
      · have equal := injective (-1) first (last - 1) member (by
          rw [value _ first, value _ member, if_pos (by norm_num), if_neg (by omega),
            if_pos (by omega)])
        omega
      · have within := (inRange s member).1
        rw [value _ member, if_neg (by omega), if_neg (by omega)] at within
        omega
      · have within := bounds s member
        have equal := injective s member (s - last) below (by
          rw [value _ member, value _ below, if_neg (by omega), if_neg (by omega),
            if_neg (by omega), if_pos (by omega)])
        omega
    · rintro ⟨zero, long⟩
      constructor
      · intro s first t second equal
        have withinS := bounds s first
        have withinT := bounds t second
        rw [value s first, value t second] at equal
        have lastT : s ≠ -1 ∨ t ≠ last - 1 := not_and_or.mp fun both =>
          (zero (both.1 ▸ first)).2 (both.2 ▸ second)
        have lastS : t ≠ -1 ∨ s ≠ last - 1 := not_and_or.mp fun both =>
          (zero (both.1 ▸ second)).2 (both.2 ▸ first)
        have belowT : s < last ∨ t ≠ s - last := (lt_or_ge s last).imp_right fun past same =>
          (long s first past).2 (same ▸ second)
        have belowS : t < last ∨ s ≠ t - last := (lt_or_ge t last).imp_right fun past same =>
          (long t second past).2 (same ▸ first)
        split_ifs at equal <;> omega
      · intro s member
        have within := bounds s member
        have neg : s ≠ -1 ∨ last ≤ max := by
          rcases eq_or_ne s (-1) with rfl | other
          · exact Or.inr (zero member).1
          · exact Or.inl other
        have past : s < last ∨ min - 1 ≤ s - last := (lt_or_ge s last).imp_right fun past =>
          (long s member past).1
        rw [value s member]
        split_ifs <;> omega

end Keys

/-! ## The distribution -/

/-- The samples of a call, in the order in which they are stored. -/
def samples (min max : Int) (numValues : Nat) (skips : List Nat) : List Int :=
  if numValues = max - min + 1 then (List.range numValues).map fun i : Nat => min - 1 + i
  else (selected (-1) skips).map (min - 1 + ·)

/-- The distribution can be built, no sum overflows, and the keys that do not fit in the bytes, if
they are selected, are read back as keys that are in range and not selected. A sample is one less
than its key. -/
def Sound (log : Log2) (min max : Int) (numValues : Nat) (skips : List Nat) : Prop :=
  let n := CByteArray.computeBytesPerElements log max.toNat
  let keys := samples min max numValues skips
  max ≠ 1 ∧ max - min + 1 < 2 ^ 63 ∧ (numValues = max - min + 1 → numValues < 2 ^ 31) ∧
    (n = 8 ∨ (-1 ∈ keys → 256 ^ n ≤ max ∧ 256 ^ n - 1 ∉ keys) ∧
      ∀ s ∈ keys, 256 ^ n ≤ s → min - 1 ≤ s - 256 ^ n ∧ s - 256 ^ n ∉ keys)

/-- The number of bytes that `max` takes; twice the keys that fit are enough. -/
theorem computeBytesPerElements_spec (log : Log2) {max : Nat} (several : 2 ≤ max)
    (int64 : max < 2 ^ 63) :
    let n := CByteArray.computeBytesPerElements log max
    0 < n ∧ n ≤ 8 ∧ max < 2 * 256 ^ n := by
  intro n
  have positive : 0 < Nat.log 2 max := Nat.log_pos (by norm_num) several
  have small : Nat.clog 2 max ≤ 63 := Nat.clog_le_of_le_pow int64.le
  have lower := log.ge max
  have upper := log.le max
  have bits : n = (log.bits max + 7) / 8 := rfl
  refine ⟨by omega, by omega, ?_⟩
  calc max < 2 ^ (Nat.log 2 max + 1) := Nat.lt_pow_succ_log_self (by norm_num) max
    _ ≤ 2 ^ (8 * n + 1) := Nat.pow_le_pow_right (by norm_num) (by omega)
    _ = 2 * 256 ^ n := by
      rw [pow_succ, pow_mul, mul_comm]
      norm_num

section Call

variable {min max : Int} {numValues : Nat} {skips draws : List Nat}

theorem samples_bounds (room : numValues ≤ max - min + 1)
    (sampled : numValues < max - min + 1 → Skips (max - min + 1) numValues skips) :
    (samples min max numValues skips).length = numValues ∧
      (samples min max numValues skips).Pairwise (· < ·) ∧
      ∀ s ∈ samples min max numValues skips, min - 1 ≤ s ∧ s ≤ max - 1 := by
  rw [samples]
  by_cases whole : numValues = max - min + 1
  · rw [if_pos whole]
    refine ⟨by rw [List.length_map, List.length_range], ?_, fun s member => ?_⟩
    · exact List.pairwise_map.mpr (List.pairwise_lt_range.imp fun less => by omega)
    · obtain ⟨i, inside, rfl⟩ := List.mem_map.mp member
      have := List.mem_range.mp inside
      omega
  · have valid := sampled (by omega)
    have length := valid.length
    have bound := valid.sum_le room
    obtain ⟨sorted, bounds, -⟩ := selected_spec (-1) skips
    rw [if_neg whole]
    refine ⟨by rw [List.length_map, length_selected]; omega, ?_, fun s member => ?_⟩
    · exact List.pairwise_map.mpr (sorted.imp fun less => by omega)
    · obtain ⟨x, below, rfl⟩ := List.mem_map.mp member
      have := bounds x below
      omega

/-- The samples are stored. -/
theorem generateSamples_spec {array : CByteArray} {n : Nat}
    (filled : array.Filled n numValues []) (small : numValues = max - min + 1 → numValues < 2 ^ 31)
    (room : numValues ≤ max - min + 1)
    (sampled : numValues < max - min + 1 → Skips (max - min + 1) numValues skips) :
    ∃ array', generateSamples array (min - 1) (max - 1) numValues skips = some array' ∧
      array'.Holds n ((samples min max numValues skips).map (CByteArray.stored n)) := by
  have size : max - 1 - (min - 1) + 1 = max - min + 1 := by omega
  have length := (samples_bounds room sampled).1
  rw [samples] at length ⊢
  rw [generateSamples, size]
  by_cases whole : numValues = max - min + 1
  · obtain ⟨array', loop, filled'⟩ := fillLoop_spec (min - 1) (small whole) filled
      (Nat.zero_add numValues)
    rw [if_pos whole] at length ⊢
    rw [if_pos whole, List.map_map, Function.comp_def]
    rw [List.length_nil] at loop
    rw [List.nil_append, List.length_nil, ← List.range_eq_range'] at filled'
    exact ⟨array', loop, filled'.holds (by rw [List.length_map, List.length_range])⟩
  · have valid := sampled (by omega)
    have count := valid.length
    obtain ⟨array', loop, filled'⟩ := sampleLoop_spec (min - 1)
      (s := ⟨-1, numValues, 1 + (max - 1) - (min - 1)⟩)
      (by rwa [show 1 + (max - 1) - (min - 1) = max - min + 1 by omega]) filled (by simp)
    rw [if_neg whole, if_neg whole, List.map_map, Function.comp_def]
    rw [List.length_nil] at loop
    rw [List.nil_append] at filled'
    refine ⟨array', loop, filled'.holds ?_⟩
    rw [List.length_map, length_selected]
    omega

end Call

/-- **Sparse uniform sampling.** For whatever the sampler and the shuffle draw, the distribution
can be built, has `num_values` keys, and these are distinct and in `[min, max]`, exactly where the
call is sound. -/
theorem makeSparseUniform_iff (log : Log2) {min max : Int} {numValues : Nat}
    {skips draws : List Nat} (lower : 0 ≤ min) (order : min < max) (int64 : max < 2 ^ 63)
    (positive : 1 ≤ numValues) (room : numValues ≤ max - min + 1)
    (sampled : numValues < max - min + 1 → Skips (max - min + 1) numValues skips)
    (drawn : 1 < numValues → Draws numValues 0 draws) (unset : Nat → UInt8) :
    (∃ v, makeSparseUniform log min max numValues skips draws unset = some v ∧
      v.size = numValues ∧
      ∃ keys, (List.range numValues).mapM v.key = some keys ∧ keys.Nodup ∧
        ∀ k ∈ keys, min ≤ k ∧ k ≤ max) ↔ Sound log min max numValues skips := by
  have bounds := samples_bounds room sampled
  rw [makeSparseUniform, if_neg (by omega), if_neg (by omega), if_neg (by omega)]
  by_cases overflows : max - min + 1 < 2 ^ 63
  swap
  · have undefined : checkedAdd (max - min) 1 = none := if_neg (by omega)
    rw [undefined]
    refine iff_of_false ?_ fun sound => overflows sound.2.1
    rintro ⟨v, built, -⟩
    cases built
  have range : checkedAdd (max - min) 1 = some (max - min + 1) := if_pos ⟨by omega, overflows⟩
  rw [range]
  simp only [Option.bind_eq_bind, Option.bind_some]
  rw [if_neg (by omega)]
  by_cases one : max = 1
  · have bytes : CByteArray.computeBytesPerElements log max.toNat = 0 := by
      have none : log.bits 1 = 0 := Nat.le_zero.mp (log.le 1)
      rw [one, CByteArray.computeBytesPerElements, Int.toNat_one, none]
    refine iff_of_false ?_ fun sound => sound.1 one
    rintro ⟨v, built, -⟩
    rw [bytes] at built
    cases built
  have spec := computeBytesPerElements_spec log (show 2 ≤ max.toNat by omega) (by omega)
  rw [Sound]
  generalize CByteArray.computeBytesPerElements log max.toNat = n at *
  obtain ⟨bytes, small, fits⟩ := spec
  have fitsMax : max < 2 * 256 ^ n := by
    have cast : (max.toNat : Int) < 2 * 256 ^ n := by exact_mod_cast fits
    omega
  obtain ⟨array, created, filled⟩ := CByteArray.create_filled numValues bytes small unset
  rw [created, Option.bind_some]
  by_cases counted : numValues = max - min + 1 → numValues < 2 ^ 31
  swap
  · obtain ⟨whole, large⟩ := Classical.not_imp.mp counted
    have undefined : generateSamples array (min - 1) (max - 1) numValues skips = none := by
      rw [generateSamples, if_pos (by omega)]
      exact fillLoop_overflow (min - 1) array (by norm_num) (by omega)
    rw [undefined]
    refine iff_of_false ?_ fun sound => counted sound.2.2.1
    rintro ⟨v, built, -⟩
    cases built
  obtain ⟨array₁, generated, holds₁⟩ := generateSamples_spec filled counted room sampled
  have length : ((samples min max numValues skips).map (CByteArray.stored n)).length = numValues := by
    rw [List.length_map, bounds.1]
  obtain ⟨array₂, l, shuffled, holds₂, perm⟩ := shuffle_spec (by rwa [length]) holds₁
  have lengthL : l.length = numValues := perm.length_eq.trans length
  obtain ⟨size, keys⟩ := CByteView.create_keys holds₂ (by omega)
  rw [lengthL] at size keys
  rw [generated, Option.bind_some, shuffled, Option.bind_some]
  have permKeys := perm.map (· + 1)
  have result := keys_iff small fitsMax int64 lower bounds.2.1 bounds.2.2
  simp only [one, ne_eq, not_false_eq_true, overflows, true_and]
  rw [and_iff_right counted, ← result]
  constructor
  · rintro ⟨v, built, -, k, read, nodup, inRange⟩
    rw [← Option.some.inj built, keys] at read
    rw [← Option.some.inj read] at nodup inRange
    exact ⟨permKeys.nodup_iff.mp nodup, fun x member => inRange x (permKeys.mem_iff.mpr member)⟩
  · rintro ⟨nodup, inRange⟩
    exact ⟨_, rfl, size, _, keys, permKeys.nodup_iff.mpr nodup,
      fun x member => inRange x (permKeys.mem_iff.mp member)⟩

/-- Three of the keys from 1 to 9, with skips before the first and the second. -/
theorem makeSparseUniform_iff_three :
    ∃ v, makeSparseUniform Log2.exact 1 9 3 [1, 4, 0] [2, 2, 1] (fun _ => 0) = some v ∧
      v.size = 3 ∧ ∃ keys, (List.range 3).mapM v.key = some keys ∧ keys.Nodup ∧
        ∀ k ∈ keys, 1 ≤ k ∧ k ≤ 9 :=
  (makeSparseUniform_iff Log2.exact (by decide) (by decide) (by decide) (by decide) (by decide)
    (fun _ => by simp [Skips]) (fun _ => by simp [Draws]) _).mpr
    ⟨by decide, by decide, by decide, Or.inr ⟨by decide, by decide⟩⟩

/-- Two of the keys from 0 to 9, the first ones: the key 0 is read back as 256. And the first and
the last of the keys from 1 to `2 ^ 56 + 1`, whose logarithm is rounded to 56: the last one is
read back as 1. -/
theorem makeSparseUniform_outOfRange :
    (Skips (9 - 0 + 1) 2 [0, 0] ∧ Draws 2 0 [0, 0] ∧
      ∃ v, makeSparseUniform Log2.exact 0 9 2 [0, 0] [0, 0] (fun _ => 0) = some v ∧
        (List.range 2).mapM v.key = some [256, 1] ∧
        ¬∃ keys, (List.range 2).mapM v.key = some keys ∧ ∀ k ∈ keys, 0 ≤ k ∧ k ≤ 9) ∧
    Skips (2 ^ 56 + 1 - 1 + 1) 2 [0, 2 ^ 56 - 1] ∧
      ∃ v, makeSparseUniform Log2.short 1 (2 ^ 56 + 1) 2 [0, 2 ^ 56 - 1] [0, 0] (fun _ => 0) =
          some v ∧
        (List.range 2).mapM v.key = some [1, 1] := by
  refine ⟨⟨by simp [Skips], by simp [Draws], ?_⟩, by simp [Skips], ?_⟩
  · have run : (makeSparseUniform Log2.exact 0 9 2 [0, 0] [0, 0] fun _ => 0).map
        (fun v => (List.range 2).mapM v.key) = some (some [256, 1]) := by decide +kernel
    obtain ⟨v, built, keys⟩ := Option.map_eq_some_iff.mp run
    refine ⟨v, built, keys, ?_⟩
    rintro ⟨l, read, inRange⟩
    rw [keys] at read
    rw [← Option.some.inj read] at inRange
    exact absurd (inRange 256 List.mem_cons_self) (by decide)
  · have run : (makeSparseUniform Log2.short 1 (2 ^ 56 + 1) 2 [0, 2 ^ 56 - 1] [0, 0] fun _ => 0).map
        (fun v => (List.range 2).mapM v.key) = some (some [1, 1]) := by decide +kernel
    exact Option.map_eq_some_iff.mp run

end SparseUniform

end Rma
