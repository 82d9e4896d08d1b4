import Rma.RebalancePlan

/-!
# Arrays with the same sizes

The plans of an array depend on the sizes of its segments, not on its cells: two arrays that are the
`Same` have the same plans, and performing an event keeps them the same.
-/

namespace Rma

namespace Pma

/-- Two arrays with the same sizes and fields, whatever their cells are. -/
structure Same (s t : Pma) : Prop where
  sizes : ∀ i < s.storage.numberSegments, t.storage.segmentSizes i = s.storage.segmentSizes i
  cardinality : t.storage.cardinality = s.storage.cardinality
  numberSegments : t.storage.numberSegments = s.storage.numberSegments
  segmentCapacity : t.storage.segmentCapacity = s.storage.segmentCapacity
  pagesPerExtent : t.storage.pagesPerExtent = s.storage.pagesPerExtent
  memoryKeys : t.memoryKeys = s.memoryKeys
  pageSize : t.pageSize = s.pageSize
  densityBounds0 : t.densityBounds0 = s.densityBounds0
  primaryDensities : t.primaryDensities = s.primaryDensities

section Sameness

variable {s t u : Pma} {segment : Nat} {plan : RebalanceMetadata} {outcome : Outcome}

theorem Same.refl : Same s s := ⟨fun _ _ => rfl, rfl, rfl, rfl, rfl, rfl, rfl, rfl, rfl⟩

theorem Same.symm (same : Same s t) : Same t s := by
  refine ⟨fun i inside => ?_, same.cardinality.symm, same.numberSegments.symm,
    same.segmentCapacity.symm, same.pagesPerExtent.symm, same.memoryKeys.symm, same.pageSize.symm,
    same.densityBounds0.symm, same.primaryDensities.symm⟩
  rw [same.numberSegments] at inside
  exact (same.sizes i inside).symm

theorem Same.trans (same : Same s t) (later : Same t u) : Same s u := by
  refine ⟨fun i inside => ?_, later.cardinality.trans same.cardinality,
    later.numberSegments.trans same.numberSegments, later.segmentCapacity.trans
    same.segmentCapacity, later.pagesPerExtent.trans same.pagesPerExtent,
    later.memoryKeys.trans same.memoryKeys, later.pageSize.trans same.pageSize,
    later.densityBounds0.trans same.densityBounds0,
    later.primaryDensities.trans same.primaryDensities⟩
  have middle : i < t.storage.numberSegments := by
    rw [same.numberSegments]
    exact inside
  exact (later.sizes i middle).trans (same.sizes i inside)

theorem Same.extentSize (same : Same s t) : t.extentSize = s.extentSize := by
  unfold Pma.extentSize
  rw [same.pagesPerExtent, same.pageSize]

theorem Same.segmentsPerExtent (same : Same s t) : t.segmentsPerExtent = s.segmentsPerExtent := by
  unfold Pma.segmentsPerExtent
  rw [same.extentSize, same.segmentCapacity]

theorem Same.balancedThresholdsCutoff (same : Same s t) :
    t.balancedThresholdsCutoff = s.balancedThresholdsCutoff := by
  unfold Pma.balancedThresholdsCutoff
  rw [same.segmentsPerExtent]

/-! ## The invariant -/

theorem Same.framed (same : Same s t) (framed : s.Framed) : t.Framed := by
  refine ⟨⟨?_, ?_, ?_, ?_, ?_⟩, ?_, ?_, ?_, ?_, ?_⟩
  · rw [same.segmentCapacity]
    exact framed.configured.capacity
  · rw [same.pagesPerExtent]
    exact framed.configured.pages
  · rw [same.pageSize]
    exact framed.configured.page
  · rw [same.segmentCapacity, same.pageSize]
    exact framed.configured.divides
  · rw [same.extentSize]
    exact framed.configured.extent
  · rw [same.numberSegments]
    exact framed.positive
  · unfold Shape
    rw [same.numberSegments, same.balancedThresholdsCutoff, same.segmentsPerExtent]
    exact framed.shape
  · rw [same.memoryKeys, same.segmentsPerExtent, same.numberSegments]
    exact framed.rewired
  · rw [same.memoryKeys, same.segmentsPerExtent, same.numberSegments]
    exact framed.extents
  · rw [same.primaryDensities, same.numberSegments, same.balancedThresholdsCutoff]
    exact framed.primary

theorem Same.countOf (same : Same s t) :
    t.storage.countOf 0 s.storage.numberSegments = s.storage.countOf 0 s.storage.numberSegments :=
  countOf_congr fun i _ below => same.sizes i (by omega)

theorem Same.ready (same : Same s t) (ready : s.Ready segment) : t.Ready segment := by
  refine ⟨same.framed ready.framed, ?_, ?_, ?_, ?_, ?_⟩
  · rw [same.numberSegments]
    exact ready.small
  · rw [same.cardinality]
    exact ready.counter
  · intro i inside
    rw [same.numberSegments] at inside
    rw [same.sizes i inside, same.segmentCapacity]
    exact ready.size_le i inside
  · intro several i inside other
    rw [same.numberSegments] at several inside
    rw [same.sizes i inside]
    exact ready.nonempty several i inside other
  · rw [same.cardinality, same.numberSegments, same.countOf]
    exact ready.counted

theorem Same.valid (same : Same s t) (valid : s.Valid) : t.Valid := by
  apply (same.ready (valid.ready 0)).valid
  intro several
  rw [same.numberSegments] at several
  rw [same.sizes 0 (by omega)]
  exact valid.nonempty several 0 (by omega)

/-! ## The plans -/

theorem Same.readSize (same : Same s t) (index : Int) :
    t.storage.readSize index = s.storage.readSize index := by
  unfold Storage.readSize
  rw [same.numberSegments]
  by_cases inside : 0 ≤ index ∧ index < s.storage.numberSegments
  · rw [if_pos inside, if_pos inside, same.sizes _ (by omega)]
  · rw [if_neg inside, if_neg inside]

theorem Same.countLeft (same : Same s t) (windowStart indexLeft cardinality : Int) :
    t.storage.countLeft windowStart indexLeft cardinality =
      s.storage.countLeft windowStart indexLeft cardinality := by
  fun_induction s.storage.countLeft windowStart indexLeft cardinality with
  | case1 indexLeft cardinality more ih =>
      rw [Storage.countLeft, if_pos more, same.readSize]
      exact Option.bind_congr fun size _ => ih size
  | case2 indexLeft cardinality done => rw [Storage.countLeft, if_neg done]

theorem Same.countRight (same : Same s t) (windowEnd indexRight cardinality : Int) :
    t.storage.countRight windowEnd indexRight cardinality =
      s.storage.countRight windowEnd indexRight cardinality := by
  fun_induction s.storage.countRight windowEnd indexRight cardinality with
  | case1 indexRight cardinality more ih =>
      rw [Storage.countRight, if_pos more, same.readSize]
      exact Option.bind_congr fun size _ => ih size
  | case2 indexRight cardinality done => rw [Storage.countRight, if_neg done]

theorem Same.turn (same : Same s t) (thresholds : Nat → ℚ × ℚ) (w : Storage.Search) :
    t.storage.turn thresholds w = s.storage.turn thresholds w := by
  unfold Storage.turn Storage.offset
  simp only [same.numberSegments, same.segmentCapacity, same.countLeft, same.countRight]

theorem Same.height (same : Same s t) : t.storage.height = s.storage.height := by
  unfold Storage.height
  rw [same.numberSegments]

theorem Same.search (same : Same s t) (thresholds : Nat → ℚ × ℚ) (isInsertion : Bool) (turns : Nat)
    (w : Storage.Search) :
    t.storage.search thresholds isInsertion turns w =
      s.storage.search thresholds isInsertion turns w := by
  induction turns generalizing w with
  | zero => rfl
  | succ turns ih =>
      rw [Storage.search, Storage.search, same.turn, same.height]
      simp only [ih]

theorem Same.getThresholds (same : Same s t) : t.getThresholds = s.getThresholds := by
  funext height
  unfold Pma.getThresholds Storage.getThresholds Storage.hyperheight
  rw [same.primaryDensities, same.densityBounds0, same.numberSegments]

theorem Same.rebalanceFindWindow (same : Same s t) (inside : segment < s.storage.numberSegments)
    (isInsertion : Bool) :
    t.storage.rebalanceFindWindow t.getThresholds segment isInsertion =
      s.storage.rebalanceFindWindow s.getThresholds segment isInsertion := by
  have first : Storage.Search.first t.storage isInsertion segment =
      Storage.Search.first s.storage isInsertion segment := by
    unfold Storage.Search.first
    rw [same.segmentCapacity, same.sizes segment inside]
  have result : Storage.Search.result t.storage isInsertion =
      Storage.Search.result s.storage isInsertion := by
    funext w
    unfold Storage.Search.result
    rw [same.cardinality]
  unfold Storage.rebalanceFindWindow
  simp only [first, result, same.height, same.search, same.getThresholds]

theorem Same.rebalancePlan (same : Same s t) : t.rebalancePlan = s.rebalancePlan := by
  have ideal : t.idealSegments = s.idealSegments := by
    funext cardinalityAfter
    unfold Pma.idealSegments
    rw [same.segmentCapacity, same.densityBounds0]
  have extents : t.numberExtents = s.numberExtents := by
    unfold Pma.numberExtents
    rw [same.memoryKeys]
  have grow : t.growPlan = s.growPlan := by
    funext cardinalityAfter
    unfold Pma.growPlan
    rw [ideal, extents, same.numberSegments, same.balancedThresholdsCutoff,
      same.segmentsPerExtent]
  have shrink : t.shrinkPlan = s.shrinkPlan := by
    funext cardinalityAfter
    unfold Pma.shrinkPlan
    rw [ideal, extents, same.numberSegments, same.balancedThresholdsCutoff,
      same.segmentsPerExtent, same.memoryKeys]
  unfold Pma.rebalancePlan
  rw [grow, shrink]

theorem Same.rebalance (same : Same s t) (inside : segment < s.storage.numberSegments)
    (isInsert : Bool) : t.rebalance segment isInsert = s.rebalance segment isInsert := by
  unfold Pma.rebalance
  rw [same.rebalanceFindWindow inside, same.rebalancePlan]

theorem Same.removePlan (same : Same s t) (inside : segment < s.storage.numberSegments)
    (value : Int) : t.removePlan segment value = s.removePlan segment value := by
  unfold Pma.removePlan Storage.capacity
  rw [same.numberSegments, same.balancedThresholdsCutoff, same.cardinality, same.segmentCapacity,
    same.getThresholds, same.sizes segment inside, same.rebalance inside, same.rebalancePlan]

/-! ## The events -/

theorem Same.setSize (same : Same s t) (segment size cardinality : Nat) :
    Same (s.setSize segment size cardinality) (t.setSize segment size cardinality) := by
  refine ⟨fun i inside => ?_, rfl, same.numberSegments, same.segmentCapacity, same.pagesPerExtent,
    same.memoryKeys, same.pageSize, same.densityBounds0, same.primaryDensities⟩
  change Function.update t.storage.segmentSizes segment size i =
    Function.update s.storage.segmentSizes segment size i
  by_cases here : i = segment
  · rw [here, Function.update_self, Function.update_self]
  · rw [Function.update_of_ne here, Function.update_of_ne here, same.sizes i inside]

theorem Same.put (same : Same s t) (inside : segment < s.storage.numberSegments) :
    Same (s.put segment) (t.put segment) := by
  unfold Pma.put
  rw [same.sizes segment inside, same.cardinality]
  exact same.setSize _ _ _

theorem Same.take (same : Same s t) (inside : segment < s.storage.numberSegments) :
    Same (s.take segment) (t.take segment) := by
  unfold Pma.take
  rw [same.sizes segment inside, same.cardinality]
  exact same.setSize _ _ _

theorem Same.doRebalance (same : Same s t) :
    Same (s.doRebalance plan outcome) (t.doRebalance plan outcome) := by
  have cardinality : t.cardinalityAfter plan = s.cardinalityAfter plan := by
    unfold Pma.cardinalityAfter
    rw [same.cardinality]
  unfold Pma.doRebalance
  split
  · refine ⟨fun i inside => ?_, cardinality, same.numberSegments, same.segmentCapacity,
      same.pagesPerExtent, same.memoryKeys, same.pageSize, same.densityBounds0,
      same.primaryDensities⟩
    simp only [Pma.spread]
    rw [same.sizes i inside]
  · refine ⟨fun i inside => rfl, cardinality, rfl, same.segmentCapacity, same.pagesPerExtent, ?_,
      same.pageSize, same.densityBounds0, ?_⟩
    · have uses : t.usesRewiring plan.windowLength ↔ s.usesRewiring plan.windowLength := by
        unfold usesRewiring
        rw [same.segmentCapacity, same.extentSize]
      simp only [Pma.resize, uses, same.segmentsPerExtent]
    · simp only [Pma.resize, same.balancedThresholdsCutoff]

/-- The event is one of a segment of the array. -/
def Inside (s : Pma) : Event → Prop
  | .insert segment _ => segment < s.storage.numberSegments
  | .remove segment _ _ => segment < s.storage.numberSegments

/-- The plan of an event, for arrays that are the same. -/
theorem Same.planOf {e : Event} (same : Same s t) (inside : s.Inside e) :
    (s.planOf e = none ∧ t.planOf e = none) ∨
      ∃ s' t' plan, s.planOf e = some (s', plan) ∧ t.planOf e = some (t', plan) ∧ Same s' t' := by
  cases e with
  | insert segment outcome =>
      unfold Pma.planOf
      simp only [same.cardinality, same.sizes segment inside, same.segmentCapacity,
        same.rebalance inside]
      split_ifs
      · exact Or.inl ⟨rfl, rfl⟩
      · cases s.rebalance segment true with
        | none => exact Or.inl ⟨rfl, rfl⟩
        | some plan => exact Or.inr ⟨s, t, plan, rfl, rfl, same⟩
      · exact Or.inl ⟨rfl, rfl⟩
  | remove segment value outcome =>
      unfold Pma.planOf
      have taken := same.take inside
      simp only [taken.removePlan inside value]
      cases (s.take segment).removePlan segment value with
      | none => exact Or.inl ⟨rfl, rfl⟩
      | some plan => exact Or.inr ⟨_, _, plan, rfl, rfl, taken⟩

theorem Same.admissible {e : Event} (same : Same s t) (admissible : s.Admissible e) :
    t.Admissible e := by
  cases e with
  | insert segment outcome =>
      change segment < t.storage.numberSegments ∧ t.storage.cardinality + 1 < 2 ^ 32
      rw [same.numberSegments, same.cardinality]
      exact admissible
  | remove segment value outcome =>
      change segment < t.storage.numberSegments ∧ 0 < t.storage.segmentSizes segment ∧
        (value = -1 → 1 < t.storage.numberSegments → 1 < t.storage.segmentSizes segment)
      rw [same.numberSegments, same.sizes segment admissible.1]
      exact admissible

theorem Same.partitioned (same : Same s t) (partitioned : s.Partitioned plan outcome) :
    t.Partitioned plan outcome := by
  refine ⟨fun i inside => ?_, partitioned.sum⟩
  rw [same.segmentCapacity]
  exact partitioned.quota i inside

theorem Same.roomy {isInsert : Bool} {cardinalityAfter : Int} (same : Same s t)
    (roomy : s.Roomy isInsert cardinalityAfter) : t.Roomy isInsert cardinalityAfter := by
  refine ⟨?_, ?_, ?_, ?_⟩
  · rw [same.numberSegments, same.balancedThresholdsCutoff]
    exact roomy.doubled
  · rw [same.numberSegments, same.balancedThresholdsCutoff, same.segmentsPerExtent]
    exact roomy.extended
  · rw [same.numberSegments, same.balancedThresholdsCutoff, same.segmentCapacity]
    exact roomy.halved
  · rw [same.numberSegments, same.balancedThresholdsCutoff, same.segmentCapacity,
      same.segmentsPerExtent]
    exact roomy.reduced

/-- An event is of a segment of the array, its elements are partitioned, and its request to resize
is roomy, if there is one. -/
structure Served (s : Pma) (e : Event) : Prop where
  admissible : s.Admissible e
  partitioned : ∀ t plan, s.planOf e = some (t, plan) → t.Partitioned plan e.outcome
  roomy : ∀ t plan, s.planOf e = some (t, plan) → plan.operation ≠ .rebalance →
    t.Roomy plan.isInsert plan.cardinalityAfter

theorem Admissible.inside {e : Event} (admissible : s.Admissible e) : s.Inside e := by
  cases e with
  | insert segment outcome => exact admissible.1
  | remove segment value outcome => exact admissible.1

theorem Served.ordinary {e : Event} (served : s.Served e) : s.Ordinary e :=
  ⟨served.admissible, fun t plan made _ => served.partitioned t plan made⟩

theorem Same.served {e : Event} (same : Same s t) (served : s.Served e) : t.Served e := by
  rcases same.planOf served.admissible.inside with ⟨-, none⟩ | ⟨s', t', plan, some, some', after⟩
  · refine ⟨same.admissible served.admissible, ?_, ?_⟩
    · intro u plan made
      rw [none] at made
      cases made
    · intro u plan made
      rw [none] at made
      cases made
  · refine ⟨same.admissible served.admissible, ?_, ?_⟩
    · intro u plan made
      rw [some'] at made
      cases made
      exact after.partitioned (served.partitioned _ _ some)
    · intro u plan made resizes
      rw [some'] at made
      cases made
      exact after.roomy (served.roomy _ _ some resizes)

/-- Performing an event keeps the arrays the same. -/
theorem Same.perform {e : Event} (same : Same s t) (inside : s.Inside e) :
    Same (s.perform e) (t.perform e) := by
  unfold Pma.perform
  rcases same.planOf inside with ⟨none, none'⟩ | ⟨s', t', plan, some, some', after⟩
  · rw [none, none']
    cases e with
    | insert segment outcome => exact same.put inside
    | remove segment value outcome => exact same.take inside
  · rw [some, some']
    exact after.doRebalance

/-- Every event is served, in the array that it finds. -/
def ServedRun (s : Pma) : List Event → Prop
  | [] => True
  | e :: events => s.Served e ∧ (s.perform e).ServedRun events

theorem Valid.served {e : Event} (valid : s.Valid) (served : s.Served e) : (s.perform e).Valid :=
  valid.perform served.ordinary served.roomy

theorem ServedRun.ordinary {events : List Event} (served : s.ServedRun events) :
    s.OrdinaryRun events := by
  induction events generalizing s with
  | nil => trivial
  | cons e events ih => exact ⟨served.1.ordinary, ih served.2⟩

theorem ServedRun.roomy {events : List Event} (served : s.ServedRun events) :
    s.RoomyRun events := by
  induction events generalizing s with
  | nil => trivial
  | cons e events ih => exact ⟨served.1.roomy, ih served.2⟩

/-- The number of segments of an extent is a constant. -/
theorem perform_segmentsPerExtent (s : Pma) (e : Event) :
    (s.perform e).segmentsPerExtent = s.segmentsPerExtent := by
  unfold Pma.perform
  cases made : s.planOf e with
  | none => cases e <;> rfl
  | some r =>
      obtain ⟨t, plan⟩ := r
      have origin : t.segmentsPerExtent = s.segmentsPerExtent := by
        cases e with
        | insert segment outcome =>
            unfold Pma.planOf at made
            simp only at made
            split_ifs at made
            obtain ⟨_, -, same⟩ := Option.map_eq_some_iff.mp made
            cases same
            rfl
        | remove segment value outcome =>
            obtain ⟨_, -, same⟩ := Option.map_eq_some_iff.mp made
            cases same
            rfl
      rw [← origin]
      simp only [Pma.doRebalance]
      split <;> rfl

end Sameness

end Pma

end Rma
