import Rma.AdaptiveRebalancing.Basic

/-!
# The split of a slice

A slice is well formed when its intervals are sorted and disjoint, not empty and within the
window. The lemmas below say, one function at a time, where the split is, what the index and
the balance of the left part are, and that the intervals are a slice again.

* `Outcome`: the split is within the thresholds, and the balance is that of the left part, up
  to an error that every function passes on.
* `Border`: the intervals on the two sides of the split do not reach over it.

`split_spec` says that the error is zero exactly when the search ends on the left, and that
the border holds exactly when no interval straddles the split.
-/

namespace Rma

open Base

namespace AdaptiveRebalancing

/-- The intervals of a window of `cardinality` elements: sorted and disjoint, not empty and
inside the window; their bounds are those computed. A length has 16 bits. -/
structure Slice (W : List Interval) (cardinality : Int) : Prop where
  ordered : W.Pairwise fun a b => a.start + a.length ≤ b.start
  nonempty : ∀ a ∈ W, 0 < a.length
  short : ∀ a ∈ W, a.length < 2 ^ 16
  inside : ∀ a ∈ W, (a.start + a.length : Int) ≤ cardinality
  exact : ∀ a ∈ W, a.start = a.computedStart ∧ a.length = a.computedLength
  weight : ∀ a ∈ W, a.weight = 1 ∨ a.weight = -1

/-- The balance of the intervals up to an index. -/
def prefixBalance (W : List Interval) (index : Int) : Int :=
  ((W.take (index + 1).toNat).map Interval.weight).sum

/-- The intervals at the split do not reach over it. -/
structure Border (W : List Interval) (index point : Int) : Prop where
  left : ∀ a, slot W index = some a → a.start + a.length ≤ point
  right : ∀ b, slot W (index + 1) = some b → point ≤ b.start

/-! ## Slices -/

section Slices

variable {W : List Interval} {cardinality index i j point : Int} {a b : Interval} {n : Nat}

theorem slot_natCast (W : List Interval) (n : Nat) : slot W n = W[n]? := by
  simp [slot]

theorem slot_eq_some : slot W i = some a ↔ 0 ≤ i ∧ W[i.toNat]? = some a := by
  unfold slot
  split
  · next positive => simp [positive]
  · next negative => simp [negative]

theorem slot_bounds (found : slot W i = some a) : 0 ≤ i ∧ i < W.length := by
  have := slot_eq_some.mp found
  have inside := (List.getElem?_eq_some_iff.mp this.2).1
  omega

theorem exists_slot (lower : 0 ≤ i) (upper : i < W.length) : ∃ a, slot W i = some a := by
  have inside : i.toNat < W.length := by omega
  exact ⟨_, slot_eq_some.mpr ⟨lower, List.getElem?_eq_getElem inside⟩⟩

theorem mem_of_slot (found : slot W i = some a) : a ∈ W :=
  List.mem_of_getElem? (slot_eq_some.mp found).2

theorem Slice.order (slice : Slice W cardinality) (first : slot W i = some a)
    (second : slot W j = some b) (lt : i < j) : a.start + a.length ≤ b.start := by
  obtain ⟨lower, at_i⟩ := slot_eq_some.mp first
  obtain ⟨lower', at_j⟩ := slot_eq_some.mp second
  obtain ⟨inside, rfl⟩ := List.getElem?_eq_some_iff.mp at_i
  obtain ⟨inside', rfl⟩ := List.getElem?_eq_some_iff.mp at_j
  exact List.pairwise_iff_getElem.mp slice.ordered _ _ inside inside' (by omega)

/-- The bounds of an interval of a slice are below the number of elements. -/
theorem Slice.bounds (slice : Slice W cardinality) (found : slot W i = some a) :
    0 < a.length ∧ (a.start + a.length : Int) ≤ cardinality :=
  ⟨slice.nonempty a (mem_of_slot found), slice.inside a (mem_of_slot found)⟩

theorem prefixBalance_succ (found : slot W i = some a) :
    prefixBalance W i = prefixBalance W (i - 1) + a.weight := by
  obtain ⟨lower, at_i⟩ := slot_eq_some.mp found
  have upto : (i + 1).toNat = i.toNat + 1 := by omega
  have before : (i - 1 + 1).toNat = i.toNat := by omega
  unfold prefixBalance
  rw [upto, before, List.take_add_one, at_i]
  simp

theorem prefixBalance_last (W : List Interval) (upper : W.length ≤ i) :
    prefixBalance W i = prefixBalance W (i - 1) := by
  unfold prefixBalance
  rw [List.take_of_length_le (by omega), List.take_of_length_le (by omega)]

theorem prefixBalance_congr {W' : List Interval}
    (same : W'.map Interval.weight = W.map Interval.weight) (i : Int) :
    prefixBalance W' i = prefixBalance W i := by
  unfold prefixBalance
  rw [List.map_take, List.map_take, same]

/-- Where nothing reaches over the split at its border, nothing does elsewhere. -/
theorem Slice.separated (slice : Slice W cardinality) (border : Border W index point)
    (lower : -1 ≤ index) (upper : index < W.length) (found : slot W i = some a) :
    (i ≤ index → a.start + a.length ≤ point) ∧ (index < i → point ≤ a.start) := by
  have range := slot_bounds found
  constructor
  · intro le
    obtain ⟨b, last⟩ := exists_slot (W := W) (i := index) (by omega) upper
    have reach := border.left b last
    rcases eq_or_lt_of_le le with rfl | lt
    · rw [found] at last
      cases last
      exact reach
    · have order := slice.order found last lt
      omega
  · intro gt
    obtain ⟨b, first⟩ := exists_slot (W := W) (i := index + 1) (by omega) (by omega)
    have reach := border.right b first
    rcases eq_or_lt_of_le (show index + 1 ≤ i by omega) with rfl | lt
    · rw [found] at first
      cases first
      exact reach
    · have order := slice.order first found lt
      omega

/-- An interval of a slice may be replaced by a part of it. -/
theorem Slice.set (slice : Slice W cardinality) (found : slot W i = some a)
    (lower : a.start ≤ b.start) (upper : b.start + b.length ≤ a.start + a.length)
    (nonempty : 0 < b.length) (short : b.length < 2 ^ 16)
    (exact : b.start = b.computedStart ∧ b.length = b.computedLength)
    (weight : b.weight = a.weight) : Slice (W.set i.toNat b) cardinality := by
  have member := mem_of_slot found
  obtain ⟨positive, at_i⟩ := slot_eq_some.mp found
  obtain ⟨inside, rfl⟩ := List.getElem?_eq_some_iff.mp at_i
  refine ⟨?_, fun c old => ?_, fun c old => ?_, fun c old => ?_, fun c old => ?_,
    fun c old => ?_⟩
  · rw [List.pairwise_iff_getElem]
    intro m k insideM insideK lt
    have order := List.pairwise_iff_getElem.mp slice.ordered
    simp only [List.length_set] at insideM insideK
    simp only [List.getElem_set]
    split
    · next same =>
      subst same
      rw [if_neg (by omega)]
      have := order _ k insideM insideK lt
      omega
    · split
      · next same =>
        subst same
        have := order m _ insideM insideK lt
        omega
      · exact order m k insideM insideK lt
  · rcases List.mem_or_eq_of_mem_set old with old | rfl
    · exact slice.nonempty c old
    · exact nonempty
  · rcases List.mem_or_eq_of_mem_set old with old | rfl
    · exact slice.short c old
    · exact short
  · rcases List.mem_or_eq_of_mem_set old with old | rfl
    · exact slice.inside c old
    · have := slice.inside _ member
      omega
  · rcases List.mem_or_eq_of_mem_set old with old | rfl
    · exact slice.exact c old
    · exact exact
  · rcases List.mem_or_eq_of_mem_set old with old | rfl
    · exact slice.weight c old
    · rw [weight]
      exact slice.weight _ member

theorem map_set_slot {β : Type} {f : Interval → β} (found : slot W i = some a)
    (same : f b = f a) : (W.set i.toNat b).map f = W.map f := by
  obtain ⟨positive, at_i⟩ := slot_eq_some.mp found
  obtain ⟨inside, rfl⟩ := List.getElem?_eq_some_iff.mp at_i
  rw [List.map_set, same]
  apply List.ext_getElem (by simp)
  intro k insideK insideK'
  rw [List.getElem_set]
  split
  · next same => subst same; simp
  · rfl

theorem slot_set_self (found : slot W i = some a) : slot (W.set i.toNat b) i = some b := by
  have range := slot_bounds found
  exact slot_eq_some.mpr ⟨range.1, by rw [List.getElem?_set_self (by omega)]⟩

theorem slot_set_other (positive : 0 ≤ i) (other : i ≠ j) :
    slot (W.set i.toNat b) j = slot W j := by
  unfold slot
  split
  · rw [List.getElem?_set_ne (by omega)]
  · rfl

end Slices

/-! ## The optimum -/

section Optimum

variable {W : List Interval} {target balance : Int} {cardinality : Nat}

/-- The search ends with the sum of what it took on the left, and where an interval was. -/
theorem search_spec (W : List Interval) (target : Int) (room i : Nat) (left right : Int)
    (moveLeft : Bool) (inside : i + room ≤ W.length)
    (sum : left = ((W.take i).map Interval.weight).sum)
    (ended : room = 0 → (moveLeft = false → 1 ≤ i) ∧ (moveLeft = true → i < W.length)) :
    ∃ s, search W target i left right moveLeft room = some s ∧
      s.balanceLeft = ((W.take s.i).map Interval.weight).sum ∧
      (s.moveLeft = false → 1 ≤ s.i ∧ s.i ≤ W.length) ∧
      (s.moveLeft = true → s.i < W.length) := by
  induction room generalizing i left right moveLeft with
  | zero =>
      obtain ⟨fromLeft, fromRight⟩ := ended rfl
      exact ⟨⟨i, left, moveLeft⟩, rfl, sum, fun h => ⟨fromLeft h, inside⟩, fromRight⟩
  | succ room ih =>
      cases moveLeft with
      | true =>
          obtain ⟨a, at_i⟩ : ∃ a, W[i]? = some a :=
            ⟨_, List.getElem?_eq_getElem (show i < W.length by omega)⟩
          simp only [search, at_i, if_true, Option.bind_eq_bind, Option.bind_some]
          refine ih (i + 1) _ right _ (by omega) ?_ ?_
          · rw [sum, List.take_add_one, at_i, List.map_append, List.sum_append]
            simp
          · intro last
            simp [last]
      | false =>
          obtain ⟨b, at_j⟩ : ∃ b, W[i + room]? = some b :=
            ⟨_, List.getElem?_eq_getElem (show i + room < W.length by omega)⟩
          simp only [search, at_j, Bool.false_eq_true, if_false, Option.bind_eq_bind,
            Option.bind_some]
          refine ih i left _ _ (by omega) sum ?_
          intro last
          simp only [last, lt_self_iff_false, and_false, not_false_eq_true, decide_true,
            Bool.true_eq_false, false_implies, true_and]
          omega

/-- The search over a slice ends with an interval from the left. -/
def EndsLeft (W : List Interval) (balance : Int) : Prop :=
  (searchAll W balance).map Search.moveLeft = some false

instance (W : List Interval) (balance : Int) : Decidable (EndsLeft W balance) :=
  inferInstanceAs (Decidable (_ = _))

/-- What the balance of the left part lacks: the interval at the index, which the search did
not take from the left where it ends on the right. -/
def lacking (W : List Interval) (balance : Int) (a : Interval) : Int :=
  if EndsLeft W balance then 0 else a.weight

theorem findSplitPoint_spec (nonempty : W ≠ []) (balance : Int) :
    ∃ index left a, findSplitPoint W balance = some (index, left) ∧ slot W index = some a ∧
      left = prefixBalance W index - lacking W balance a := by
  have long : 0 < W.length := List.length_pos_iff.mpr nonempty
  obtain ⟨s, found, sum, fromLeft, fromRight⟩ :=
    search_spec W (balance.tdiv 2) W.length 0 0 0 true (by omega) rfl (by omega)
  have all : searchAll W balance = some s := found
  have ends : EndsLeft W balance ↔ s.moveLeft = false := by simp [EndsLeft, all]
  cases side : s.moveLeft with
  | false =>
      obtain ⟨least, most⟩ := fromLeft side
      obtain ⟨a, last⟩ := exists_slot (W := W) (i := (s.i : Int) - 1) (by omega) (by omega)
      refine ⟨s.i - 1, s.balanceLeft, a, ?_, last, ?_⟩
      · simp [findSplitPoint, all, side]
      · rw [lacking, if_pos (ends.mpr side), sum, prefixBalance, sub_zero,
          show ((s.i : Int) - 1 + 1).toNat = s.i by omega]
  | true =>
      have below := fromRight side
      obtain ⟨a, last⟩ := exists_slot (W := W) (i := (s.i : Int)) (by omega) (by omega)
      refine ⟨s.i, s.balanceLeft, a, ?_, last, ?_⟩
      · simp [findSplitPoint, all, side]
      · rw [lacking, if_neg (by simp [ends, side]), sum, prefixBalance_succ last, prefixBalance,
          show ((s.i : Int) - 1 + 1).toNat = s.i by omega]
        omega

/-- The interval at the index that `find_split_point` returns. -/
def pivot (W : List Interval) (balance : Int) : Option (Int × Interval) := do
  let (index, _) ← findSplitPoint W balance
  let a ← slot W index
  some (index, a)

theorem pivot_eq {index left : Int} {a : Interval}
    (found : findSplitPoint W balance = some (index, left)) (last : slot W index = some a) :
    pivot W balance = some (index, a) := by
  simp [pivot, found, last]

/-- The optimum at an interval, in exact arithmetic: the middle up to the next one, or one of the
ends of the interval. -/
def ideal (W : List Interval) (index : Int) (a : Interval) (cardinality : Nat) : Nat :=
  if W.length % 2 = 0 then
    match slot W (index + 1) with
    | some b => a.start + a.length + (b.start - (a.start + a.length)) / 2
    | none => a.start + a.length + cardinality / 2
  else if onRight a cardinality then a.start else a.start + a.length

/-- The optimum, and the start of the next interval where it is computed from that, fit in an
`int`. -/
structure OptimumFits (W : List Interval) (index : Int) (a : Interval) (cardinality : Nat) :
    Prop where
  optimum : ideal W index a cardinality < 2 ^ 31
  next : W.length % 2 = 0 → ∀ b, slot W (index + 1) = some b → b.start < 2 ^ 31

/-- `rebalancing_sparu` puts the interval on the right, so that the split is at its start. -/
def PutRight (W : List Interval) (a : Interval) (cardinality : Nat) : Prop :=
  W.length % 2 = 1 ∧ onRight a cardinality = true

instance (W : List Interval) (a : Interval) (cardinality : Nat) :
    Decidable (PutRight W a cardinality) :=
  inferInstanceAs (Decidable (_ ∧ _))

section Bounded

variable {index left : Int} {a : Interval} (slice : Slice W cardinality)
  (words : ∀ a ∈ W, a.start + a.length < 2 ^ 32)

include words in
theorem wend_eq {i : Int} {b : Interval} (found : slot W i = some b) :
    b.wend = b.start + b.length :=
  Nat.mod_eq_of_lt (words b (mem_of_slot found))

include slice words

theorem rebalancingParo_spec (last : slot W index = some a) (even : W.length % 2 = 0)
    (fits : OptimumFits W index a cardinality) :
    rebalancingParo W index cardinality = some (ideal W index a cardinality : Int) ∧
      a.start + a.length ≤ ideal W index a cardinality ∧
      ∀ b, slot W (index + 1) = some b → ideal W index a cardinality ≤ b.start := by
  have range := slot_bounds last
  have optimum := fits.optimum
  have nextFits := fits.next even
  unfold ideal at optimum ⊢
  rw [if_pos even] at optimum ⊢
  unfold rebalancingParo
  rw [if_neg (by omega), last]
  simp only [Option.bind_eq_bind, Option.bind_some, wend_eq words last]
  by_cases final : index + 1 = W.length
  · have none : slot W (index + 1) = none := by
      rw [Option.eq_none_iff_forall_ne_some]
      intro b next
      have := slot_bounds next
      omega
    rw [none] at optimum ⊢
    simp only at optimum ⊢
    rw [if_pos final, toInt_of_fits (x := ((a.start + a.length : Nat) : Int)) (by omega) (by omega),
      toInt_of_fits (by omega) (by omega)]
    exact ⟨by push_cast; rfl, Nat.le_add_right _ _, fun b next => by cases next⟩
  · obtain ⟨b, next⟩ := exists_slot (W := W) (i := index + 1) (by omega) (by omega)
    have order := slice.order last next (by omega)
    have small := nextFits b next
    rw [next] at optimum ⊢
    simp only at optimum ⊢
    rw [if_neg final]
    simp only [Option.bind_some]
    rw [toInt_of_fits (x := (b.start : Int)) (by omega) (by omega),
      toInt_of_fits (x := ((a.start + a.length : Nat) : Int)) (by omega) (by omega),
      Int.tdiv_eq_ediv_of_nonneg (by omega), toInt_of_fits (by omega) (by omega)]
    refine ⟨congrArg some (by omega), by omega, ?_⟩
    rintro _ ⟨⟩
    omega

omit slice in
theorem rebalancingSparu_spec (last : slot W index = some a) (odd : ¬W.length % 2 = 0)
    (fits : OptimumFits W index a cardinality) :
    rebalancingSparu W index cardinality = some (ideal W index a cardinality : Int) := by
  have optimum := fits.optimum
  unfold ideal at optimum ⊢
  rw [if_neg odd] at optimum ⊢
  simp only [rebalancingSparu, last, Option.bind_eq_bind, Option.bind_some, wend_eq words last]
  split
  · next right =>
    rw [if_pos right] at optimum
    rw [toInt_of_fits (by omega) (by omega)]
  · next left =>
    rw [if_neg left] at optimum
    rw [toInt_of_fits (by omega) (by omega)]

/-- The optimum is at the index of the search. It is at the start of the interval there where
that is put on the right, and otherwise between it and the next one. -/
theorem findOptimum_spec (found : findSplitPoint W balance = some (index, left))
    (last : slot W index = some a) (fits : OptimumFits W index a cardinality) :
    findOptimum W balance cardinality = some ⟨ideal W index a cardinality, index, left⟩ ∧
      (PutRight W a cardinality → ideal W index a cardinality = a.start) ∧
      (¬PutRight W a cardinality → a.start + a.length ≤ ideal W index a cardinality ∧
        ∀ b, slot W (index + 1) = some b → ideal W index a cardinality ≤ b.start) := by
  have optimum := fits.optimum
  unfold findOptimum
  rw [found]
  simp only [Option.bind_eq_bind, Option.bind_some]
  by_cases even : W.length % 2 = 0
  · obtain ⟨middle, lower, next⟩ := rebalancingParo_spec slice words last even fits
    rw [if_pos even, middle]
    refine ⟨rfl, fun right => ?_, fun _ => ⟨lower, next⟩⟩
    have odd := right.1
    omega
  · rw [if_neg even, rebalancingSparu_spec words last even fits, last]
    simp only [Option.bind_some]
    have point := uint32_natCast (show ideal W index a cardinality < 2 ^ 32 by omega)
    by_cases right : onRight a cardinality = true
    · have start : ideal W index a cardinality = a.start := by
        rw [ideal, if_neg even, if_pos right]
      rw [point, if_neg (by omega)]
      exact ⟨rfl, fun _ => start, fun h => absurd ⟨by omega, right⟩ h⟩
    · have stop : ideal W index a cardinality = a.start + a.length := by
        rw [ideal, if_neg even, if_neg right]
      rw [point, if_neg (by omega)]
      refine ⟨rfl, fun h => absurd h.2 right, fun _ => ⟨stop.ge, fun b next => ?_⟩⟩
      have := slice.order last next (by omega)
      omega

end Bounded

end Optimum

/-! ## The thresholds -/

section Thresholds

variable {W : List Interval} {cardinality : Nat} {index point : Int} {a : Interval}

/-- The scan of `ensure_upper_threshold` passes the intervals that start after the objective,
with their weights in the difference. -/
theorem upperScan_spec {objective : Int} (positive : 0 ≤ objective) (below : objective < 2 ^ 31)
    (room : Nat) (index delta : Int) (rest : index + 1 = room) (inside : index < W.length)
    (next : ∀ b, slot W (index + 1) = some b → objective ≤ b.start) :
    ∃ j delta', upperScan W objective room index delta = some (j, delta') ∧
      -1 ≤ j ∧ j ≤ index ∧
      delta' = delta + prefixBalance W index - prefixBalance W j ∧
      (∀ b, slot W (j + 1) = some b → objective ≤ b.start) ∧
      (∀ b, slot W j = some b → b.start < objective) := by
  have bound := uint32_of_fits positive (show objective < 2 ^ 32 by omega)
  induction room generalizing index delta with
  | zero =>
      refine ⟨index, delta, rfl, by omega, le_rfl, by omega, next, fun b this => ?_⟩
      have := slot_bounds this
      omega
  | succ room ih =>
      obtain ⟨a, found⟩ := exists_slot (W := W) (i := index) (by omega) (by omega)
      have step := prefixBalance_succ found
      simp only [upperScan, found, Option.bind_eq_bind, Option.bind_some]
      by_cases after : a.start ≥ uint32 objective
      · rw [if_pos after]
        obtain ⟨j, delta', run, lower, upper, sum, next', this⟩ :=
          ih (index - 1) (delta + a.weight) (by omega) (by omega) (fun b same => by
            rw [sub_add_cancel, found] at same
            cases same
            omega)
        exact ⟨j, delta', run, lower, by omega, by omega, next', this⟩
      · rw [if_neg after]
        refine ⟨index, delta, rfl, by omega, le_rfl, by omega, next, fun b same => ?_⟩
        rw [found] at same
        cases same
        omega

/-- The interval at the index is the last one: it is not looked at. -/
theorem lowerFrom_last {low high : Nat} {balance : Int} (small : high < 2 ^ 31)
    (le : low ≤ high) (found : slot W index = some a) (last : index + 1 = W.length) :
    lowerFrom low high W index balance =
      some (W, ⟨if balance < 0 then high else low, index, balance⟩) := by
  have range := slot_bounds found
  unfold lowerFrom
  rw [show (W.length - (index + 1)).toNat = 0 by omega]
  simp only [lowerScan, Option.bind_eq_bind, Option.bind_some]
  rw [if_neg (by omega), toInt_of_fits (by omega) (by omega), toInt_of_fits (by omega) (by omega),
    add_sub_cancel_right]

variable (slice : Slice W cardinality) (words : ∀ a ∈ W, a.start + a.length < 2 ^ 32)

include slice words

/-- An interval that the split is inside of is cut there. -/
theorem cut_spec (found : slot W index = some a) (before : a.start < point)
    (after : point < a.start + a.length) (sectLeft sectRight : Nat)
    (left : (sectLeft : Int) = point - a.start)
    (right : (sectRight : Int) = a.start + a.length - point) :
    Slice (W.set index.toNat (cut a point sectLeft sectRight)) cardinality ∧
      (∀ b ∈ W.set index.toNat (cut a point sectLeft sectRight), b.start + b.length < 2 ^ 32) ∧
      (W.set index.toNat (cut a point sectLeft sectRight)).map Interval.weight =
        W.map Interval.weight ∧
      Border (W.set index.toNat (cut a point sectLeft sectRight))
        (if sectLeft < sectRight then index - 1 else index) point := by
  have range := slot_bounds found
  have bounds := slice.bounds found
  have short := slice.short a (mem_of_slot found)
  have exact := slice.exact a (mem_of_slot found)
  have word := words a (mem_of_slot found)
  have start := uint32_of_fits (x := point) (by omega) (by omega)
  unfold cut
  split
  · next shorter =>
    have kept : sectRight % 2 ^ 16 = sectRight := Nat.mod_eq_of_lt (by omega)
    refine ⟨slice.set found ?_ ?_ ?_ ?_ ⟨?_, ?_⟩ rfl, fun b set => ?_, map_set_slot found rfl, ?_⟩
    · simp only [Interval.setLength, Interval.setStart]; omega
    · simp only [Interval.setLength, Interval.setStart]; omega
    · simp only [Interval.setLength]; omega
    · simp only [Interval.setLength]; omega
    · simp only [Interval.setLength, Interval.setStart]; omega
    · exact kept
    · rcases List.mem_or_eq_of_mem_set set with old | rfl
      · exact words b old
      · simp only [Interval.setLength, Interval.setStart]; omega
    · refine ⟨fun b previous => ?_, fun b this => ?_⟩
      · rw [slot_set_other range.1 (by omega)] at previous
        have := slice.order previous found (by omega)
        omega
      · rw [sub_add_cancel, slot_set_self found] at this
        cases this
        simp only [Interval.setLength, Interval.setStart]; omega
  · next longer =>
    have kept : sectLeft % 2 ^ 16 = sectLeft := Nat.mod_eq_of_lt (by omega)
    refine ⟨slice.set found le_rfl ?_ ?_ ?_ ⟨exact.1, kept⟩ rfl, fun b set => ?_,
      map_set_slot found rfl, ?_⟩
    · simp only [Interval.setLength]; omega
    · simp only [Interval.setLength]; omega
    · simp only [Interval.setLength]; omega
    · rcases List.mem_or_eq_of_mem_set set with old | rfl
      · exact words b old
      · simp only [Interval.setLength]; omega
    · refine ⟨fun b this => ?_, fun b next => ?_⟩
      · rw [slot_set_self found] at this
        cases this
        simp only [Interval.setLength]; omega
      · rw [slot_set_other range.1 (by omega)] at next
        have := slice.order found next (by omega)
        omega

/-- The scan of `ensure_lower_threshold` stops after the intervals that start before the
objective, with their weights in the balance. -/
theorem lowerScan_spec {objective : Int} (positive : 0 ≤ objective) (below : objective < 2 ^ 31)
    (room : Nat) (index balance : Int) (least : 0 ≤ index) (rest : index + room = W.length)
    (previous : ∀ a, slot W (index - 1) = some a → a.start < objective) :
    ∃ j balance', lowerScan W objective room index balance = some (j, balance') ∧
      index - 1 ≤ j ∧ j ≤ W.length ∧
      balance' = balance + prefixBalance W j - prefixBalance W (index - 1) ∧
      (∀ b, slot W (j + 1) = some b → objective ≤ b.start) ∧
      (j < W.length → ∀ b, slot W j = some b → b.start < objective) ∧
      (j = W.length → j ≠ index →
        ∀ b, slot W (j - 1) = some b → b.start + b.length < objective) := by
  have bound := uint32_of_fits positive (show objective < 2 ^ 32 by omega)
  induction room generalizing index balance with
  | zero =>
      have past := prefixBalance_last W (i := index) (by omega)
      refine ⟨index, balance, rfl, by omega, by omega, by omega, fun b next => ?_, by omega,
        fun _ other => absurd rfl other⟩
      have := slot_bounds next
      omega
  | succ room ih =>
      obtain ⟨a, found⟩ := exists_slot (W := W) (i := index) (by omega) (by omega)
      have step := prefixBalance_succ found
      have wend := wend_eq words found
      simp only [lowerScan, found, Option.bind_eq_bind, Option.bind_some]
      by_cases starts : a.start < uint32 objective
      · rw [if_pos starts]
        by_cases ends : a.wend < uint32 objective
        · rw [if_pos ends]
          obtain ⟨j, balance', run, lower, upper, sum, next, this, whole⟩ :=
            ih (index + 1) (balance + a.weight) (by omega) (by omega) (fun b same => by
              rw [add_sub_cancel_right, found] at same
              cases same
              omega)
          rw [add_sub_cancel_right] at lower sum
          refine ⟨j, balance', run, by omega, upper, by omega, next, this, fun all _ b last => ?_⟩
          by_cases first : j = index + 1
          · rw [first, add_sub_cancel_right, found] at last
            cases last
            omega
          · exact whole all first b last
        · rw [if_neg ends]
          have range := slot_bounds found
          refine ⟨index, _, rfl, by omega, by omega, by omega, fun b next => ?_, fun _ b same => ?_,
            by omega⟩
          · have := slice.order found next (by omega)
            omega
          · rw [found] at same
            cases same
            omega
      · rw [if_neg starts]
        refine ⟨index - 1, balance, rfl, by omega, by omega, by omega, fun b next => ?_,
          fun _ => previous, by omega⟩
        rw [sub_add_cancel, found] at next
        cases next
        omega

/-- The split within the thresholds, at an index of the slice. The balance of the left part is
short of that of its intervals by the error. -/
structure Outcome (W : List Interval) (cardinality low high : Nat) (error : Int)
    (W' : List Interval) (opt : Optimum) : Prop where
  slice : Slice W' cardinality
  words : ∀ a ∈ W', a.start + a.length < 2 ^ 32
  weights : W'.map Interval.weight = W.map Interval.weight
  lower : low ≤ opt.cardinality
  upper : opt.cardinality ≤ high
  least : -1 ≤ opt.weightsIndex
  most : opt.weightsIndex < W.length
  balance : opt.weightsBalance = prefixBalance W opt.weightsIndex - error

omit words in
theorem upToNext_spec {high : Nat} (found : slot W index = some a) (small : high < 2 ^ 31)
    (fits : a.start + a.length ≤ high) :
    ∃ point, upToNext W index high high = some point ∧ a.start + a.length ≤ point ∧
      point ≤ high ∧ ∀ b, slot W (index + 1) = some b → point ≤ b.start := by
  have range := slot_bounds found
  unfold upToNext
  by_cases final : index + 1 < W.length
  · obtain ⟨b, next⟩ := exists_slot (W := W) (i := index + 1) (by omega) final
    have order := slice.order found next (by omega)
    have bounds := slice.bounds next
    rw [if_pos final, next]
    simp only [Option.bind_eq_bind, Option.bind_some]
    rw [toInt_of_fits (by omega) (by omega)]
    refine ⟨_, rfl, by omega, by omega, ?_⟩
    rintro _ ⟨⟩
    omega
  · rw [if_neg final, toInt_of_fits (by omega) (by omega)]
    refine ⟨_, rfl, by omega, le_rfl, fun b next => ?_⟩
    have := slot_bounds next
    omega

/-- The interval at the index is not the last one: those after it are looked at, and it is
looked at again where none of them starts before the lower threshold. -/
theorem lowerFrom_spec {low high : Nat} {balance error : Int} (le : low ≤ high)
    (small : high < 2 ^ 31) (found : slot W index = some a) (before : a.start < low)
    (inner : index + 1 < W.length) (sum : balance = prefixBalance W index - error) :
    ∃ W' opt, lowerFrom low high W index balance = some (W', opt) ∧
      Outcome W cardinality low high error W' opt ∧
      Border W' opt.weightsIndex opt.cardinality := by
  have range := slot_bounds found
  have objective : toInt low = low := toInt_of_fits (by omega) (by omega)
  obtain ⟨j, balance', run, lower, upper, sum', next, this, whole⟩ :=
    lowerScan_spec slice words (show (0 : Int) ≤ low by omega) (show (low : Int) < 2 ^ 31 by omega)
      (W.length - (index + 1)).toNat (index + 1) balance (by omega) (by omega) (fun b same => by
        rw [add_sub_cancel_right, found] at same
        cases same
        omega)
  rw [add_sub_cancel_right] at lower sum'
  have total : balance' = prefixBalance W j - error := by omega
  unfold lowerFrom
  simp only [objective, run, Option.bind_eq_bind, Option.bind_some]
  by_cases inside : j < W.length
  · obtain ⟨b, at_j⟩ := exists_slot (W := W) (i := j) (by omega) inside
    have starts := this inside b at_j
    have bounds := slice.bounds at_j
    rw [if_pos ⟨by omega, inside⟩, at_j]
    simp only [Option.bind_some]
    by_cases overlaps : (b.start + b.length : Int) > low
    · rw [if_pos ⟨starts, overlaps⟩]
      by_cases fits : (b.start + b.length : Int) ≤ high
      · rw [if_pos fits]
        have after : ∀ c, slot W (j + 1) = some c → (b.start + b.length : Int) ≤ c.start := by
          intro c following
          have := slice.order at_j following (by omega)
          omega
        by_cases positive : balance' ≥ 0
        · rw [if_pos positive, toInt_of_fits (by omega) (by omega)]
          refine ⟨W, _, rfl, ⟨slice, words, rfl, by simp only; omega, fits, by simp only; omega, inside,
            total⟩, ⟨fun c same => ?_, after⟩⟩
          rw [at_j] at same
          cases same
          exact le_rfl
        · obtain ⟨point, limit, reaches, le_high, following⟩ :=
            upToNext_spec slice at_j small (by omega)
          rw [if_neg positive, limit]
          refine ⟨W, _, rfl, ⟨slice, words, rfl, by simp only; omega, le_high, by simp only; omega,
            inside,
            total⟩, ⟨fun c same => ?_, following⟩⟩
          rw [at_j] at same
          cases same
          exact reaches
      · have word := words b (mem_of_slot at_j)
        have left := uint64_of_fits (x := low - b.start) (by omega) (by omega)
        have right := uint64_of_fits (x := b.start + b.length - low) (by omega) (by omega)
        obtain ⟨slice', words', weights, border⟩ :=
          cut_spec slice words at_j starts overlaps _ _ left right
        have step := prefixBalance_succ at_j
        rw [if_neg fits]
        split_ifs at border ⊢
        · exact ⟨_, _, rfl, ⟨slice', words', weights, le_rfl, by simp only; omega, by simp only; omega,
            by simp only; omega, by simp only; omega⟩, border⟩
        · exact ⟨_, _, rfl, ⟨slice', words', weights, le_rfl, by simp only; omega, by simp only; omega,
            inside, total⟩, border⟩
    · rw [if_neg (by omega)]
      refine ⟨W, _, rfl, ⟨slice, words, rfl, le_rfl, by simp only; omega, by simp only; omega, inside,
        total⟩, ⟨fun c same => ?_, next⟩⟩
      rw [at_j] at same
      cases same
      simp only; omega
  · have all : j = W.length := by omega
    have past := prefixBalance_last W (i := j) (by omega)
    have left : ∀ c, slot W (j - 1) = some c → (c.start + c.length : Int) < low :=
      whole all (by omega)
    rw [if_neg (by omega)]
    refine ⟨W, _, rfl, ⟨slice, words, rfl, ?_, ?_, by simp only; omega, by simp only; omega,
      by simp only; omega⟩, ⟨fun c last => ?_, fun c following => ?_⟩⟩
    · simp only
      split
      · rw [toInt_of_fits (by omega) (by omega)]; omega
      · exact le_rfl
    · simp only
      split
      · rw [toInt_of_fits (by omega) (by omega)]
      · omega
    · have ends := left c last
      simp only
      split
      · rw [toInt_of_fits (by omega) (by omega)]; omega
      · omega
    · have := slot_bounds following
      simp only at this
      omega

/-- The split moves down to the upper threshold, or further to the start of an interval, or
through one. -/
theorem ensureUpperThreshold_spec {low high : Nat} {current : Optimum} {error : Int}
    (le : low ≤ high) (small : high < 2 ^ 31) (least : 0 ≤ current.weightsIndex)
    (inside : current.weightsIndex < W.length)
    (next : ∀ b, slot W (current.weightsIndex + 1) = some b → high ≤ b.start)
    (sum : current.weightsBalance = prefixBalance W current.weightsIndex - error) :
    ∃ W' opt, ensureUpperThreshold low high W current = some (W', opt) ∧
      Outcome W cardinality low high error W' opt ∧
      Border W' opt.weightsIndex opt.cardinality := by
  have objective : toInt high = high := toInt_of_fits (by omega) (by omega)
  have objective' : toInt low = low := toInt_of_fits (by omega) (by omega)
  obtain ⟨j, delta, run, lower, upper, sum', next', this⟩ :=
    upperScan_spec (show (0 : Int) ≤ high by omega) (show (high : Int) < 2 ^ 31 by omega)
      (current.weightsIndex + 1).toNat
      current.weightsIndex 0 (by omega) inside (fun b found => by have := next b found; omega)
  unfold ensureUpperThreshold
  simp only [objective, objective', run, Option.bind_eq_bind, Option.bind_some]
  by_cases negative : j ≥ 0
  · obtain ⟨a, at_j⟩ := exists_slot (W := W) (i := j) negative (by omega)
    have starts := this a at_j
    have bounds := slice.bounds at_j
    have step := prefixBalance_succ at_j
    have start : uint64 a.start = a.start :=
      Int.ofNat_inj.mp (uint64_of_fits (by omega) (by omega))
    rw [if_pos negative, at_j]
    simp only [Option.bind_some, start]
    by_cases overlaps : (a.start + a.length : Int) > high
    · rw [if_pos overlaps]
      by_cases room : a.start ≥ low
      · -- the interval goes to the right
        have right : ∀ point : Int, point ≤ a.start →
            ∀ b, slot W (j - 1 + 1) = some b → point ≤ b.start := by
          intro point le b same
          rw [sub_add_cancel, at_j] at same
          cases same
          exact le
        rw [if_pos room]
        by_cases positive : delta + a.weight ≥ 0
        · rw [if_pos positive, toInt_of_fits (by omega) (by omega)]
          refine ⟨W, _, rfl, ⟨slice, words, rfl, by simp only; omega, by simp only; omega,
            by simp only; omega, by simp only; omega, by simp only; omega⟩,
            ⟨fun b previous => ?_, right _ le_rfl⟩⟩
          have := slice.order previous at_j (by simp only; omega)
          simp only; omega
        · rw [if_neg positive]
          by_cases more : j - 1 ≥ 0
          · obtain ⟨b, previous⟩ := exists_slot (W := W) (i := j - 1) more (by omega)
            have order := slice.order previous at_j (by omega)
            have fits : toInt b.wend = b.start + b.length := by
              rw [wend_eq words previous, toInt_of_fits (by omega) (by omega)]
              omega
            rw [if_pos more, previous]
            simp only [Option.bind_some, fits]
            clear fits
            refine ⟨W, _, rfl, ⟨slice, words, rfl, by simp only; omega, by simp only; omega,
              by simp only; omega, by simp only; omega, by simp only; omega⟩,
              ⟨fun b' same => ?_, right _ (by simp only; omega)⟩⟩
            rw [previous] at same
            cases same
            simp only; omega
          · rw [if_neg more]
            refine ⟨W, _, rfl, ⟨slice, words, rfl, le_rfl, by simp only; omega, by simp only; omega,
              by simp only; omega, by simp only; omega⟩,
              ⟨fun b previous => ?_, right _ (by simp only; omega)⟩⟩
            have := slot_bounds previous
            simp only at this
            omega
      · have word := words a (mem_of_slot at_j)
        have left := uint64_of_fits (x := high - a.start) (by omega) (by omega)
        have right := uint64_of_fits (x := a.start + a.length - high) (by omega) (by omega)
        obtain ⟨slice', words', weights, border⟩ :=
          cut_spec slice words at_j starts overlaps _ _ left right
        rw [if_neg room]
        split_ifs at border ⊢
        · exact ⟨_, _, rfl, ⟨slice', words', weights, by simp only; omega, le_rfl, by simp only; omega,
            by simp only; omega, by simp only; omega⟩, border⟩
        · exact ⟨_, _, rfl, ⟨slice', words', weights, by simp only; omega, le_rfl, by simp only; omega,
            by simp only; omega, by simp only; omega⟩, border⟩
    · rw [if_neg overlaps]
      by_cases deletes : delta < 0
      · rw [if_pos deletes, toInt_of_fits (by omega) (by omega)]
        refine ⟨W, _, rfl, ⟨slice, words, rfl, by simp only; omega, by simp only; omega,
          by simp only; omega, by simp only; omega, by simp only; omega⟩,
          ⟨fun b same => ?_, fun b found => ?_⟩⟩
        · rw [at_j] at same
          cases same
          simp only; omega
        · have := next' b found
          simp only; omega
      · rw [if_neg deletes]
        refine ⟨W, _, rfl, ⟨slice, words, rfl, by simp only; omega, le_rfl, by simp only; omega,
          by simp only; omega, by simp only; omega⟩, ⟨fun b same => ?_, next'⟩⟩
        rw [at_j] at same
        cases same
        simp only; omega
  · have none : j = -1 := by omega
    rw [if_neg negative]
    refine ⟨W, _, rfl, ⟨slice, words, rfl, ?_, ?_, by simp only; omega, by simp only; omega,
      by simp only; omega⟩, ⟨fun b previous => ?_, fun b found => ?_⟩⟩
    · simp only
      split <;> omega
    · simp only
      split <;> omega
    · have := slot_bounds previous
      simp only at this
      omega
    · have := next' b found
      simp only
      split <;> omega

end Thresholds

end AdaptiveRebalancing

end Rma
