import Rma.AdaptiveRebalancing.Split

/-!
# The recursion

The calls of a run are those that `recursion` reaches from the first one. A call is valid when
its intervals are a slice of its window and its balance is the sum of their weights, and its
split is sound when no interval reaches over it.

`find_split_point` returns one interval too many when the last one it takes comes from the
right, and `find_optimum` keeps on the left an interval that `rebalancing_sparu` puts on the
right. `recursion_sound` says that the accounting of a run is right exactly when none of its
calls does either.
-/

namespace Rma

open Base

namespace AdaptiveRebalancing

variable (r : AdaptiveRebalancing)

/-- The intervals are a slice of the window, and the balance is the sum of their weights. -/
structure Call.Valid (c : Call) : Prop where
  slice : Slice c.weights c.cardinality
  balance : c.balance = (c.weights.map Interval.weight).sum

/-- The split stays within the slice, and no interval reaches over it. -/
def Sound (c : Call) : Prop :=
  ∃ W opt, r.split c = some (W, opt) ∧ W.length = c.weights.length ∧
    -1 ≤ opt.weightsIndex ∧ opt.weightsIndex ≤ (c.weights.length : Int) - 1 ∧
    0 ≤ opt.cardinality ∧ opt.cardinality ≤ c.cardinality ∧
    ∀ i a, slot W i = some a →
      (i ≤ opt.weightsIndex → a.start + a.length ≤ opt.cardinality) ∧
        (opt.weightsIndex < i → opt.cardinality ≤ a.start)

/-- A call of `recursion` that another one makes. -/
inductive Calls : Call → Call → Prop
  | left {c : Call} {W : List Interval} {opt : Optimum} : r.Adaptive c →
    r.split c = some (W, opt) → Calls c (c.left W opt)
  | right {c : Call} {W : List Interval} {opt : Optimum} : r.Adaptive c →
    r.split c = some (W, opt) → Calls c (c.right W opt)

/-- The calls of a run. -/
abbrev Reaches : Call → Call → Prop := Relation.ReflTransGen r.Calls

/-- The bounds of the left part are in order. -/
def InOrder (c : Call) : Prop :=
  r.cardinalityMin c.partLength c.cardinality ≤ r.cardinalityMax c.partLength c.cardinality

instance (c : Call) : Decidable (r.InOrder c) := inferInstanceAs (Decidable (_ ≤ _))

/-- The numbers of a call fit in their words: its elements in a `size_t`, the ends of its
intervals in 32 bits, and in an `int` the optimum and, where the split is moved from there, the
upper threshold. -/
structure Fits (c : Call) : Prop where
  elements : c.cardinality < 2 ^ 64
  words : ∀ a ∈ c.weights, a.start + a.length < 2 ^ 32
  optimum : ∀ index a, pivot c.weights c.balance = some (index, a) →
    OptimumFits c.weights index a c.cardinality
  threshold : ∀ index a, pivot c.weights c.balance = some (index, a) →
    (ideal c.weights index a c.cardinality : Int) < r.cardinalityMin c.partLength c.cardinality ∨
      r.cardinalityMax c.partLength c.cardinality < ideal c.weights index a c.cardinality →
    r.cardinalityMax c.partLength c.cardinality < 2 ^ 31

/-- `rebalancing_sparu` puts an interval on the right, and it stays on the left: the split at
its start is within the thresholds, or it is the last interval, and ends after the threshold
that the split is moved to. -/
def Straddles (c : Call) : Prop :=
  ∃ index a, pivot c.weights c.balance = some (index, a) ∧ PutRight c.weights a c.cardinality ∧
    (r.cardinalityMin c.partLength c.cardinality ≤ a.start ∧
        a.start ≤ r.cardinalityMax c.partLength c.cardinality ∨
      a.start < r.cardinalityMin c.partLength c.cardinality ∧ index + 1 = c.weights.length ∧
        (if c.balance < 0 then r.cardinalityMax c.partLength c.cardinality
          else r.cardinalityMin c.partLength c.cardinality) < a.start + a.length)

/-! ## One call -/

section Split

variable {r} {c : Call} {W : List Interval} {opt : Optimum}

theorem sizeMin_ge (segments : Nat) : (segments : Int) ≤ r.sizeMin segments := le_max_right _ _

theorem cardinalityMin_nonneg (partLength cardinality : Nat) :
    0 ≤ r.cardinalityMin partLength cardinality := by
  have least := r.sizeMin_ge (leftSegments partLength)
  have := le_max_left (r.sizeMin (leftSegments partLength))
    (cardinality - r.sizeMax (rightSegments partLength))
  unfold cardinalityMin
  omega

theorem cardinalityMax_le (partLength cardinality : Nat) :
    r.cardinalityMax partLength cardinality ≤ cardinality := by
  have least := r.sizeMin_ge (rightSegments partLength)
  have := min_le_right (r.sizeMax (leftSegments partLength))
    (cardinality - r.sizeMin (rightSegments partLength))
  unfold cardinalityMax
  omega

theorem sizeMax_zero : r.sizeMax 0 = 0 := by simp [sizeMax]

/-- A window of no segments has no room for a split. -/
theorem InOrder.segments (inOrder : r.InOrder c) (nonempty : 0 < c.cardinality) :
    c.partLength ≠ 0 := by
  intro none
  have noLeft : leftSegments c.partLength = 0 := by simp [leftSegments, none]
  have noRight : rightSegments c.partLength = 0 := by simp [rightSegments, none]
  unfold InOrder cardinalityMin cardinalityMax at inOrder
  rw [noLeft, noRight, sizeMax_zero] at inOrder
  omega

/-- The search stops at the interval `a`, with its optimum: at the start of the interval if that
is put on the right, and else between its end and the next one. -/
structure Pivoted (c : Call) (point : Nat) (index : Int) (a : Interval) : Prop where
  found : slot c.weights index = some a
  put : PutRight c.weights a c.cardinality → point = a.start
  kept : ¬PutRight c.weights a c.cardinality → a.start + a.length ≤ point ∧
    ∀ b, slot c.weights (index + 1) = some b → point ≤ b.start

section Pivot

variable {point : Nat} {index : Int} {a : Interval}

/-- At the optimum the border holds unless the interval is put on the right. -/
theorem Pivoted.border_iff (pivoted : Pivoted c point index a)
    (slice : Slice c.weights c.cardinality) :
    Border c.weights index point ↔ ¬PutRight c.weights a c.cardinality := by
  have bounds := slice.bounds pivoted.found
  constructor
  · intro border put
    have start := pivoted.put put
    have reach := border.left a pivoted.found
    omega
  · intro keep
    obtain ⟨reach, next⟩ := pivoted.kept keep
    refine ⟨fun b same => ?_, fun b following => ?_⟩
    · rw [pivoted.found] at same
      cases same
      exact_mod_cast reach
    · exact_mod_cast next b following

/-- Beyond the optimum of the last interval, the border holds unless that one is put on the right
and ends later. -/
theorem Pivoted.last_border_iff (pivoted : Pivoted c point index a)
    (final : index + 1 = c.weights.length) {beyond : Int} (above : point ≤ beyond) :
    Border c.weights index beyond ↔
      ¬(PutRight c.weights a c.cardinality ∧ beyond < a.start + a.length) := by
  constructor
  · rintro border ⟨-, after⟩
    have reach := border.left a pivoted.found
    omega
  · intro clear
    refine ⟨fun b same => ?_, fun b next => ?_⟩
    · rw [pivoted.found] at same
      cases same
      by_cases put : PutRight c.weights a c.cardinality
      · exact not_lt.mp fun after => clear ⟨put, after⟩
      · have reach := (pivoted.kept put).1
        omega
    · have range := slot_bounds next
      omega

end Pivot

/-- The split of a valid call: it is within the bounds, its balance lacks what the search does
not take from the left, and, where it lacks nothing, the border holds unless the call
straddles. -/
theorem split_spec (valid : c.Valid) (nonempty : c.weights ≠ []) (inOrder : r.InOrder c)
    (fits : r.Fits c) :
    ∃ W opt index a, r.split c = some (W, opt) ∧ pivot c.weights c.balance = some (index, a) ∧
      a ∈ c.weights ∧
      Outcome c.weights c.cardinality (r.cardinalityMin c.partLength c.cardinality).toNat
        (r.cardinalityMax c.partLength c.cardinality).toNat
        (lacking c.weights c.balance a) W opt ∧
      (EndsLeft c.weights c.balance →
        (Border W opt.weightsIndex opt.cardinality ↔ ¬r.Straddles c)) := by
  have slice := valid.slice
  have words := fits.words
  have elements := fits.elements
  obtain ⟨index, left, a, found, last, sum⟩ := findSplitPoint_spec nonempty c.balance
  have isPivot := pivot_eq found last
  obtain ⟨optimum, right, elsewhere⟩ :=
    findOptimum_spec slice words found last (fits.optimum index a isPivot)
  have pivoted : Pivoted c _ index a := ⟨last, right, elsewhere⟩
  have threshold := fits.threshold index a isPivot
  have range := slot_bounds last
  have bounds := slice.bounds last
  have low_nonneg := r.cardinalityMin_nonneg c.partLength c.cardinality
  have high_le := r.cardinalityMax_le c.partLength c.cardinality
  have straddles : r.Straddles c ↔ PutRight c.weights a c.cardinality ∧
      (r.cardinalityMin c.partLength c.cardinality ≤ a.start ∧
          a.start ≤ r.cardinalityMax c.partLength c.cardinality ∨
        a.start < r.cardinalityMin c.partLength c.cardinality ∧ index + 1 = c.weights.length ∧
          (if c.balance < 0 then r.cardinalityMax c.partLength c.cardinality
            else r.cardinalityMin c.partLength c.cardinality) < a.start + a.length) := by
    constructor
    · rintro ⟨index', a', isPivot', condition⟩
      rw [isPivot] at isPivot'
      cases isPivot'
      exact condition
    · exact fun condition => ⟨index, a, isPivot, condition⟩
  unfold InOrder at inOrder
  unfold split validateThresholds
  rw [optimum]
  simp only [Option.bind_eq_bind, Option.bind_some, straddles]
  generalize ideal c.weights index a c.cardinality = point at *
  generalize r.cardinalityMin c.partLength c.cardinality = low at *
  generalize r.cardinalityMax c.partLength c.cardinality = high at *
  have low_eq : uint64 low = low.toNat := by
    have := uint64_of_fits low_nonneg (show low < 2 ^ 64 by omega)
    omega
  have high_eq : uint64 high = high.toNat := by
    have := uint64_of_fits (show 0 ≤ high by omega) (show high < 2 ^ 64 by omega)
    omega
  rw [low_eq, high_eq]
  by_cases under : (point : Int) < low
  · have small : high.toNat < 2 ^ 31 := by
      have := threshold (Or.inl under)
      omega
    have before : a.start < low.toNat := by
      by_cases put : PutRight c.weights a c.cardinality
      · have := right put
        omega
      · have := (elsewhere put).1
        omega
    rw [if_pos under, ensureLowerThreshold, if_neg (by simp only; omega)]
    by_cases final : index + 1 = c.weights.length
    · rw [lowerFrom_last small (by omega) last final]
      refine ⟨_, _, index, a, rfl, isPivot, mem_of_slot last,
        ⟨slice, words, rfl, ?_, ?_, by simp only; omega, by simp only; omega, sum⟩, fun ends => ?_⟩
      · simp only
        split <;> omega
      · simp only
        split <;> omega
      · have whole : left = c.balance := by
          rw [sum, lacking, if_pos ends, sub_zero, valid.balance, prefixBalance,
            List.take_of_length_le (by omega)]
        rw [whole]
        dsimp only
        rw [pivoted.last_border_iff final (by split <;> omega)]
        refine not_congr (and_congr_right fun put => ?_)
        have start := right put
        constructor
        · intro after
          refine Or.inr ⟨by omega, final, ?_⟩
          split at after <;> split <;> omega
        · rintro (within | ⟨-, -, after⟩)
          · omega
          · split at after <;> split <;> omega
    · obtain ⟨W, opt, done, outcome, border⟩ := lowerFrom_spec slice words
        (show low.toNat ≤ high.toNat by omega) small last before (by omega) sum
      refine ⟨W, opt, index, a, done, isPivot, mem_of_slot last, outcome, fun _ => ?_⟩
      refine iff_of_true border ?_
      rintro ⟨put, within | ⟨_, last', _⟩⟩
      · have := right put
        omega
      · exact final last'
  · rw [if_neg under]
    by_cases above : (point : Int) > high
    · have small : high.toNat < 2 ^ 31 := by
        have := threshold (Or.inr above)
        omega
      have next : ∀ b, slot c.weights (index + 1) = some b → high.toNat ≤ b.start := by
        intro b following
        by_cases put : PutRight c.weights a c.cardinality
        · have := right put
          have := slice.order last following (by omega)
          omega
        · have := (elsewhere put).2 b following
          omega
      obtain ⟨W, opt, done, outcome, border⟩ := ensureUpperThreshold_spec slice words
        (show low.toNat ≤ high.toNat by omega) small
        (show 0 ≤ (Optimum.mk point index left).weightsIndex from range.1) range.2 next sum
      rw [if_pos above]
      refine ⟨W, opt, index, a, done, isPivot, mem_of_slot last, outcome, fun _ => ?_⟩
      refine iff_of_true border ?_
      rintro ⟨put, within | ⟨less, _⟩⟩
      · have := right put
        omega
      · have := right put
        omega
    · rw [if_neg above]
      refine ⟨_, _, index, a, rfl, isPivot, mem_of_slot last,
        ⟨slice, words, rfl, by simp only; omega, by simp only; omega, by simp only; omega, range.2,
          sum⟩, fun _ => ?_⟩
      rw [pivoted.border_iff slice]
      refine not_congr ⟨fun put => ?_, And.left⟩
      have start := right put
      exact ⟨put, Or.inl ⟨by omega, by omega⟩⟩

end Split

/-! ## The calls of a run -/

section Run

variable {r} {c d root : Call} {W : List Interval} {opt : Optimum} {cardinality : Int}

theorem mem_take {n : Nat} {a : Interval} (member : a ∈ W.take n) :
    ∃ i : Int, i < n ∧ slot W i = some a := by
  obtain ⟨i, found⟩ := List.mem_iff_getElem?.mp member
  rw [List.getElem?_take] at found
  split at found
  · next less => exact ⟨i, by omega, by rw [slot_natCast, found]⟩
  · cases found

theorem mem_drop {n : Nat} {a : Interval} (member : a ∈ W.drop n) :
    ∃ i : Int, n ≤ i ∧ slot W i = some a := by
  obtain ⟨i, found⟩ := List.mem_iff_getElem?.mp member
  rw [List.getElem?_drop] at found
  exact ⟨(n + i : Nat), by omega, by rw [slot_natCast, found]⟩

/-- The intervals before the split are a slice of the left part. -/
theorem Slice.take (slice : Slice W cardinality) {point : Int} (n : Nat)
    (before : ∀ i a, slot W i = some a → i < n → (a.start + a.length : Int) ≤ point) :
    Slice (W.take n) point := by
  have member : ∀ a ∈ W.take n, a ∈ W := fun a h => List.mem_of_mem_take h
  refine ⟨slice.ordered.sublist (List.take_sublist n W), fun a h => slice.nonempty a (member a h),
    fun a h => slice.short a (member a h), fun a h => ?_, fun a h => slice.exact a (member a h),
    fun a h => slice.weight a (member a h)⟩
  obtain ⟨i, less, found⟩ := mem_take h
  exact before i a found less

/-- The intervals after the split, adjusted, are a slice of the right part. -/
theorem Slice.drop (slice : Slice W cardinality)
    (words : ∀ a ∈ W, a.start + a.length < 2 ^ 32) {point : Int} (positive : 0 ≤ point) (n : Nat)
    (after : ∀ i a, slot W i = some a → n ≤ i → point ≤ a.start) :
    Slice ((W.drop n).map fun a => a.setStart (a.start - point)) (cardinality - point) := by
  have adjusted : ∀ a ∈ W.drop n, a ∈ W ∧ point ≤ a.start ∧
      ((a.setStart (a.start - point)).start : Int) = a.start - point := by
    intro a h
    obtain ⟨i, least, found⟩ := mem_drop h
    have later := after i a found least
    have word := words a (mem_of_slot found)
    exact ⟨mem_of_slot found, later, uint32_of_fits (by omega) (by omega)⟩
  refine ⟨?_, ?_, ?_, ?_, ?_, ?_⟩
  · rw [List.pairwise_map]
    refine (slice.ordered.sublist (List.drop_sublist n W)).imp_of_mem fun {a b} ha hb order => ?_
    have first := (adjusted a ha).2.2
    have second := (adjusted b hb).2.2
    have length : (a.setStart (a.start - point)).length = a.length := rfl
    omega
  · rintro _ h
    obtain ⟨a, member, rfl⟩ := List.mem_map.mp h
    exact slice.nonempty a (adjusted a member).1
  · rintro _ h
    obtain ⟨a, member, rfl⟩ := List.mem_map.mp h
    exact slice.short a (adjusted a member).1
  · rintro _ h
    obtain ⟨a, member, rfl⟩ := List.mem_map.mp h
    have inside := slice.inside a (adjusted a member).1
    have start := (adjusted a member).2.2
    have length : (a.setStart (a.start - point)).length = a.length := rfl
    omega
  · rintro _ h
    obtain ⟨a, member, rfl⟩ := List.mem_map.mp h
    have later := (adjusted a member).2.1
    have start := (adjusted a member).2.2
    refine ⟨?_, (slice.exact a (adjusted a member).1).2⟩
    simp only [Interval.setStart] at start ⊢
    omega
  · rintro _ h
    obtain ⟨a, member, rfl⟩ := List.mem_map.mp h
    exact slice.weight a (adjusted a member).1

theorem leftSize_eq (least : -1 ≤ opt.weightsIndex) (most : opt.weightsIndex + 1 < 2 ^ 64) :
    (leftSize opt : Int) = opt.weightsIndex + 1 :=
  uint64_of_fits (by omega) (by omega)

/-- An interval of a slice has an element for each interval before it. -/
theorem Slice.index_le (slice : Slice W cardinality) (n : Nat) {a : Interval}
    (found : slot W n = some a) : n ≤ a.start := by
  induction n generalizing a with
  | zero => exact Nat.zero_le _
  | succ n ih =>
      have range := slot_bounds found
      obtain ⟨b, before⟩ := exists_slot (W := W) (i := (n : Int)) (by omega) (by omega)
      have least := ih before
      have order := slice.order before found (by omega)
      have nonempty := (slice.bounds before).1
      omega

theorem Slice.length_le (slice : Slice W cardinality) (nonempty : W ≠ []) :
    (W.length : Int) ≤ cardinality := by
  have long : 0 < W.length := List.length_pos_iff.mpr nonempty
  obtain ⟨a, last⟩ :=
    exists_slot (W := W) (i := ((W.length - 1 : Nat) : Int)) (by omega) (by omega)
  have least := slice.index_le _ last
  have bounds := slice.bounds last
  omega

theorem Adaptive.nonempty (adaptive : r.Adaptive c) : c.weights ≠ [] := by
  obtain ⟨-, a, first, -⟩ := adaptive
  rintro none
  simp [none] at first

/-- The split of a valid call whose search ends on the left and that does not straddle: the
balance of the left part is the sum of its weights, and nothing reaches over the split. -/
theorem Call.Valid.divide (valid : c.Valid) (nonempty : c.weights ≠ []) (inOrder : r.InOrder c)
    (fits : r.Fits c) (ends : EndsLeft c.weights c.balance) (clear : ¬r.Straddles c)
    (divided : r.split c = some (W, opt)) :
    Slice W c.cardinality ∧ (∀ a ∈ W, a.start + a.length < 2 ^ 32) ∧
      W.map Interval.weight = c.weights.map Interval.weight ∧
      0 ≤ opt.cardinality ∧ opt.cardinality ≤ c.cardinality ∧
      (leftSize opt : Int) = opt.weightsIndex + 1 ∧ -1 ≤ opt.weightsIndex ∧
      opt.weightsIndex < c.weights.length ∧
      opt.weightsBalance = prefixBalance W opt.weightsIndex ∧
      ∀ i a, slot W i = some a →
        (i ≤ opt.weightsIndex → a.start + a.length ≤ opt.cardinality) ∧
          (opt.weightsIndex < i → opt.cardinality ≤ a.start) := by
  obtain ⟨W', opt', index, a, divided', isPivot, -, outcome, border⟩ :=
    split_spec valid nonempty inOrder fits
  rw [divided] at divided'
  cases divided'
  have long := outcome.slice.length_le (by
    intro none
    have same := congrArg List.length outcome.weights
    simp only [none, List.map_nil, List.length_nil, List.length_map] at same
    exact nonempty (List.length_eq_zero_iff.mp same.symm))
  have same : W.length = c.weights.length := by
    simpa using congrArg List.length outcome.weights
  have small := fits.elements
  have lower := outcome.lower
  have upper := outcome.upper
  have least := outcome.least
  have most := outcome.most
  have high_le := r.cardinalityMax_le c.partLength c.cardinality
  have balance := outcome.balance
  rw [lacking, if_pos ends, sub_zero] at balance
  refine ⟨outcome.slice, outcome.words, outcome.weights, by omega, by omega,
    leftSize_eq least (by omega), least,
    most, ?_, fun i b found => ?_⟩
  · rw [prefixBalance_congr outcome.weights, balance]
  · exact outcome.slice.separated ((border ends).mpr clear) least (by omega) found

/-- The calls that such a call makes are valid. -/
theorem Call.Valid.calls (valid : c.Valid) (inOrder : r.InOrder c) (fits : r.Fits c)
    (ends : EndsLeft c.weights c.balance) (clear : ¬r.Straddles c) (call : r.Calls c d) :
    d.Valid := by
  have small := fits.elements
  cases call with
  | @left W opt adaptive divided =>
      obtain ⟨slice, -, -, positive, most, size, least, -, balance, apart⟩ :=
        valid.divide adaptive.nonempty inOrder fits ends clear divided
      have cardinality := uint64_of_fits positive (by omega)
      refine ⟨?_, ?_⟩
      · simp only [Call.left, cardinality]
        exact slice.take _ fun i a found less => (apart i a found).1 (by omega)
      · simp only [Call.left]
        rw [balance, prefixBalance, show (opt.weightsIndex + 1).toNat = leftSize opt by omega]
  | @right W opt adaptive divided =>
      obtain ⟨slice, words, weights, positive, most, size, least, -, balance, apart⟩ :=
        valid.divide adaptive.nonempty inOrder fits ends clear divided
      have cardinality := uint64_of_fits (x := c.cardinality - opt.cardinality) (by omega)
        (by omega)
      refine ⟨?_, ?_⟩
      · simp only [Call.right, cardinality]
        exact slice.drop words positive _ fun i a found least' =>
          (apart i a found).2 (by omega)
      · have parts := congrArg List.sum
          (congrArg (List.map Interval.weight) (List.take_append_drop (leftSize opt) W))
        rw [List.map_append, List.sum_append] at parts
        simp only [Call.right, List.map_map]
        rw [valid.balance, ← weights, balance, prefixBalance,
          show (opt.weightsIndex + 1).toNat = leftSize opt by omega, ← parts, add_sub_cancel_left]
        rfl

theorem Call.Valid.sound (valid : c.Valid) (adaptive : r.Adaptive c) (inOrder : r.InOrder c)
    (fits : r.Fits c) (ends : EndsLeft c.weights c.balance) (clear : ¬r.Straddles c) :
    r.Sound c := by
  obtain ⟨W, opt, -, -, divided, -, -, -, -⟩ := split_spec valid adaptive.nonempty inOrder fits
  obtain ⟨-, -, weights, positive, most, -, least, inside, -, apart⟩ :=
    valid.divide adaptive.nonempty inOrder fits ends clear divided
  exact ⟨W, opt, divided, by simpa using congrArg List.length weights, least, by omega, positive,
    most, apart⟩

/-- Where the call on the left is valid, the search ends on the left. -/
theorem Call.Valid.endsLeft (valid : c.Valid) (adaptive : r.Adaptive c) (inOrder : r.InOrder c)
    (fits : r.Fits c) (next : ∀ d, r.Calls c d → d.Valid) : EndsLeft c.weights c.balance := by
  obtain ⟨W, opt, index, a, divided, -, member, outcome, -⟩ :=
    split_spec valid adaptive.nonempty inOrder fits
  have sum := (next _ (.left adaptive divided)).balance
  have least := outcome.least
  have most := outcome.most
  have long := valid.slice.length_le adaptive.nonempty
  have small := fits.elements
  have size := leftSize_eq least (by omega)
  simp only [Call.left] at sum
  rw [outcome.balance, ← prefixBalance_congr outcome.weights, prefixBalance,
    show (opt.weightsIndex + 1).toNat = leftSize opt by omega] at sum
  by_contra ends
  rw [lacking, if_neg ends] at sum
  rcases valid.slice.weight a member with one | minus
  · omega
  · omega

/-- Where the split is sound, no interval straddles it. -/
theorem Call.Valid.clear (valid : c.Valid) (adaptive : r.Adaptive c) (inOrder : r.InOrder c)
    (fits : r.Fits c) (ends : EndsLeft c.weights c.balance) (sound : r.Sound c) :
    ¬r.Straddles c := by
  obtain ⟨W, opt, index, a, divided, -, -, -, border⟩ :=
    split_spec valid adaptive.nonempty inOrder fits
  obtain ⟨W', opt', divided', -, -, -, -, -, apart⟩ := sound
  rw [divided] at divided'
  cases divided'
  exact (border ends).mp
    ⟨fun b found => (apart _ b found).1 le_rfl, fun b found => (apart _ b found).2 (by omega)⟩

/-- A run keeps its accounting where the numbers of its calls fit, their searches end on the left
and no interval straddles a split. -/
theorem Reaches.valid (valid : root.Valid)
    (inOrder : ∀ c, r.Reaches root c → r.Adaptive c → r.InOrder c)
    (regular : ∀ c, r.Reaches root c → r.Adaptive c →
      r.Fits c ∧ EndsLeft c.weights c.balance ∧ ¬r.Straddles c)
    (reached : r.Reaches root c) : c.Valid := by
  induction reached with
  | refl => exact valid
  | @tail b d reached call ih =>
      have adaptive : r.Adaptive b := by cases call <;> assumption
      obtain ⟨fits, ends, clear⟩ := regular b reached adaptive
      exact ih.calls (inOrder b reached adaptive) fits ends clear call

/-- **The accounting of a run.** Let the bounds of the calls of a run be in order. Where their
numbers fit, and in none of them the search ends on the right or an interval straddles the split,
all calls of the run are valid and their splits sound. Conversely, where all calls are valid and
their splits sound, this is so in each call whose numbers fit. -/
theorem recursion_sound (valid : root.Valid)
    (inOrder : ∀ c, r.Reaches root c → r.Adaptive c → r.InOrder c) :
    ((∀ c, r.Reaches root c → r.Adaptive c →
        r.Fits c ∧ EndsLeft c.weights c.balance ∧ ¬r.Straddles c) →
      ∀ c, r.Reaches root c → c.Valid ∧ (r.Adaptive c → r.Sound c)) ∧
    ((∀ c, r.Reaches root c → c.Valid ∧ (r.Adaptive c → r.Sound c)) →
      ∀ c, r.Reaches root c → r.Adaptive c → r.Fits c →
        EndsLeft c.weights c.balance ∧ ¬r.Straddles c) := by
  constructor
  · intro regular c reached
    have valid := reached.valid valid inOrder regular
    refine ⟨valid, fun adaptive => ?_⟩
    obtain ⟨fits, ends, clear⟩ := regular c reached adaptive
    exact valid.sound adaptive (inOrder c reached adaptive) fits ends clear
  · intro all c reached adaptive fits
    have inOrder := inOrder c reached adaptive
    have valid := (all c reached).1
    have ends := valid.endsLeft adaptive inOrder fits fun d call =>
      (all d (reached.tail call)).1
    exact ⟨ends, valid.clear adaptive inOrder fits ends ((all c reached).2 adaptive)⟩

/-- Where the accounting of a run is right, the recursion is defined, and what it emits adds up
to the segments and the elements of the window. -/
theorem recursion_defined (fuel : Nat) (enough : root.partLength < fuel) (valid : root.Valid)
    (inOrder : ∀ c, r.Reaches root c → r.Adaptive c → r.InOrder c)
    (regular : ∀ c, r.Reaches root c → r.Adaptive c →
      r.Fits c ∧ EndsLeft c.weights c.balance ∧ ¬r.Straddles c) :
    ∃ out, r.recursion fuel root = some out ∧
      (out.partitions.map Partition.segments).sum = root.partLength ∧
      (out.partitions.map Partition.cardinality).sum = root.cardinality := by
  induction fuel generalizing root with
  | zero => omega
  | succ fuel ih =>
      unfold recursion
      by_cases leaf : root.partLength = 1
      · rw [if_pos leaf]
        exact ⟨_, rfl, by simp [leaf], by simp⟩
      · rw [if_neg leaf]
        cases first : root.weights.head? with
        | none => exact ⟨_, rfl, by simp, by simp⟩
        | some a =>
            by_cases even : r.special root a
            · simp only [if_pos even]
              exact ⟨_, rfl, by simp, by simp⟩
            · have adaptive : r.Adaptive root := ⟨leaf, a, first, even⟩
              have inOrder' := inOrder root .refl adaptive
              obtain ⟨fits', ends, clear⟩ := regular root .refl adaptive
              obtain ⟨W, opt, divided, long, least, most, positive, le, -⟩ :=
                valid.sound adaptive inOrder' fits' ends clear
              have next : ∀ d, r.Calls root d → d.partLength < fuel →
                  ∃ out, r.recursion fuel d = some out ∧
                    (out.partitions.map Partition.segments).sum = d.partLength ∧
                    (out.partitions.map Partition.cardinality).sum = d.cardinality :=
                fun d call less => ih less (valid.calls inOrder' fits' ends clear call)
                  (fun c reached => inOrder c (reached.head call))
                  (fun c reached => regular c (reached.head call))
              have small := fits'.elements
              have elements := valid.slice.length_le adaptive.nonempty
              have several := inOrder'.segments (by
                have := List.length_pos_iff.mpr adaptive.nonempty
                omega)
              have size := leftSize_eq least (by omega)
              have halves : leftSegments root.partLength + rightSegments root.partLength =
                  root.partLength := by
                unfold leftSegments rightSegments
                omega
              have less : 0 < rightSegments root.partLength := by
                unfold rightSegments
                omega
              have less' : 0 < leftSegments root.partLength := by
                unfold leftSegments
                omega
              obtain ⟨left, runL, segmentsL, elementsL⟩ := next _ (.left adaptive divided)
                (by simp only [Call.left]; omega)
              obtain ⟨right, runR, segmentsR, elementsR⟩ := next _ (.right adaptive divided)
                (by simp only [Call.right]; omega)
              have leftElements := uint64_of_fits positive (by omega)
              have rightElements :=
                uint64_of_fits (x := root.cardinality - opt.cardinality) (by omega) (by omega)
              simp only [Call.left, Call.right] at segmentsL segmentsR elementsL elementsR
              simp only [if_neg even, divided, Option.bind_eq_bind, Option.bind_some,
                if_pos (show leftSize opt ≤ W.length by omega), runL, runR]
              refine ⟨_, rfl, ?_, ?_⟩
              · rw [List.map_append, List.sum_append, segmentsL, segmentsR, halves]
              · rw [List.map_append, List.sum_append, elementsL, elementsR]
                omega

/-- Where two segments are divided, the other calls have one segment. -/
theorem Reaches.two_or_leaf (reached : r.Reaches root c) (two : root.partLength = 2) :
    c = root ∨ c.partLength = 1 := by
  induction reached with
  | refl => exact Or.inl rfl
  | tail _ call ih =>
      cases call with
      | left above divided =>
          rcases ih with rfl | one
          · exact Or.inr (by simp [Call.left, leftSegments, two])
          · exact absurd one above.1
      | right above divided =>
          rcases ih with rfl | one
          · exact Or.inr (by simp [Call.right, rightSegments, two])
          · exact absurd one above.1

/-- Where two segments are divided, only the first call is adaptive. -/
theorem Reaches.of_two (reached : r.Reaches root c) (two : root.partLength = 2)
    (adaptive : r.Adaptive c) : c = root :=
  (reached.two_or_leaf two).resolve_right adaptive.1

end Run

/-! ## Two segments -/

/-- Segments of 32 elements, and no thresholds but theirs. -/
def lenient : AdaptiveRebalancing where
  segmentCapacity := 32
  densities _ := (0, 1)

/-- Two segments, divided by their intervals. -/
def divideTwo (weights : List Interval) (cardinality : Nat) : Call where
  partStart := 0
  partLength := 2
  weights := weights
  balance := (weights.map Interval.weight).sum
  cardinality := cardinality

/-- Three insertions: the middle one goes to the left. -/
def threeHammered : Call :=
  divideTwo [.make 0 2 1 0, .make 10 2 1 0, .make 20 2 1 1] 40

/-- An insertion in each of two segments of 20 elements: the second one is taken from the right. -/
def twoHammered : Call := divideTwo [.make 18 2 1 0, .make 20 2 1 1] 40

/-- One insertion after the middle: it is put on the right. -/
def oneHammered : Call := divideTwo [.make 21 2 1 1] 40

/-- In a division of two segments the bounds are in order as soon as those of the first call
are. -/
theorem inOrder_of_two {weights : List Interval} {cardinality : Nat} {c : Call}
    (first : lenient.InOrder (divideTwo weights cardinality))
    (reached : lenient.Reaches (divideTwo weights cardinality) c) (adaptive : lenient.Adaptive c) :
    lenient.InOrder c := by
  rw [reached.of_two rfl adaptive]
  exact first

theorem recursion_sound_three :
    (∀ c, lenient.Reaches threeHammered c → c.Valid ∧ (lenient.Adaptive c → lenient.Sound c)) ∧
      lenient.recursion 2 threeHammered = some ⟨[⟨12, 1⟩, ⟨28, 1⟩], [(0, 0), (1, 1)]⟩ := by
  have valid : threeHammered.Valid :=
    ⟨⟨by decide, by decide, by decide, by decide, by decide, by decide⟩, rfl⟩
  refine ⟨(recursion_sound valid fun c => inOrder_of_two (by decide +kernel)).1
    (fun c reached adaptive => ?_), by decide +kernel⟩
  rw [reached.of_two rfl adaptive]
  refine ⟨⟨by decide, by decide, fun index a isPivot => ?_, fun index a isPivot _ => ?_⟩,
    by decide, ?_⟩
  · cases isPivot
    exact ⟨by decide, fun even => absurd even (by decide)⟩
  · decide +kernel
  · rintro ⟨index, a, isPivot, put, -⟩
    cases isPivot
    exact absurd put (by decide)

/-- The call on the left of two insertions has a balance of 1 and both intervals, and the only
interval of one insertion reaches over the split at its start. -/
theorem recursion_unsound :
    (twoHammered.Valid ∧
      (∀ c, lenient.Reaches twoHammered c → lenient.Adaptive c → lenient.InOrder c) ∧
      ∃ c, lenient.Reaches twoHammered c ∧ c.balance ≠ (c.weights.map Interval.weight).sum) ∧
    oneHammered.Valid ∧
      (∀ c, lenient.Reaches oneHammered c → lenient.Adaptive c → lenient.InOrder c) ∧
      lenient.Adaptive oneHammered ∧ ¬lenient.Sound oneHammered := by
  refine ⟨⟨⟨⟨by decide, by decide, by decide, by decide, by decide, by decide⟩, rfl⟩,
    fun c => inOrder_of_two (by decide +kernel), ?_⟩,
    ⟨⟨by decide, by decide, by decide, by decide, by decide, by decide⟩, rfl⟩,
    fun c => inOrder_of_two (by decide +kernel), ⟨by decide, _, rfl, by decide⟩, ?_⟩
  · have adaptive : lenient.Adaptive twoHammered := ⟨by decide, _, rfl, by decide⟩
    have divided : (lenient.split twoHammered).map (fun p =>
        ((twoHammered.left p.1 p.2).balance,
          ((twoHammered.left p.1 p.2).weights.map Interval.weight).sum)) = some (1, 2) := by
      decide +kernel
    obtain ⟨⟨W, opt⟩, found, sums⟩ := Option.map_eq_some_iff.mp divided
    refine ⟨_, .single (.left adaptive found), ?_⟩
    have balance := congrArg Prod.fst sums
    have sum := congrArg Prod.snd sums
    simp only at balance sum
    rw [balance, sum]
    decide
  · rintro ⟨W, opt, divided, -, -, -, -, -, apart⟩
    have found : (lenient.split oneHammered).map (fun p => (p.2.weightsIndex, p.2.cardinality,
        (slot p.1 0).map fun a => a.start + a.length)) = some (0, 21, some 23) := by
      decide +kernel
    rw [divided] at found
    simp only [Option.map_some, Option.some.injEq, Prod.mk.injEq] at found
    obtain ⟨index, point, last⟩ := found
    obtain ⟨a, at_0, ends⟩ := Option.map_eq_some_iff.mp last
    have reach := (apart 0 a at_0).1 (by omega)
    omega

end AdaptiveRebalancing

end Rma
