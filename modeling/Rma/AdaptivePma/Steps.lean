import Rma.AdaptivePma.Rebalance

/-!
# The steps of the array

Every operation is `Sound` under a condition on the array and on what it gets from outside. A sound
operation returns, and steps on two levels at once (`Intact.step`): its answer is the one of the
abstract multimap, and its event is performed on the sizes of the segments.
-/

namespace Rma

open Base

namespace AdaptivePma

inductive Operation where
  | insert (key value : Int) (supply : Supply)
  | remove (key : Int) (supply : Supply)
  | find (key : Int)

/-- An operation, and what its caller sees. -/
def step (s : AdaptivePma) : Operation → Option (AdaptivePma × Answered Int Int)
  | .insert key value supply => (s.insert key value supply).map fun t => (t, .inserted key value)
  | .remove key supply => (s.remove key supply).map fun r => (r.1, .removed key r.2)
  | .find key => some (s, .found key (s.array.find key))

/-- What an operation is for the sizes of the segments, unless it changes none. -/
def eventOf (s : AdaptivePma) : Operation → Option Pma.Event
  | .insert key _ supply =>
    some (.insert (if s.storage.cardinality = 0 then 0 else s.index.find key) supply.outcome)
  | .remove key supply =>
    if s.storage.cardinality = 0 then none
    else (s.array.takeOut (s.index.find key) key).map fun r =>
      .remove (s.index.find key) r.2.value supply.outcome
  | .find _ => none

/-- The condition on an operation. The counter of the elements does not overflow on insertion; a
removed value of -1, which the code takes for a missing key, is not the last one of its segment; and
the plan, if there is one, is supplied. -/
def Sound (s : AdaptivePma) : Operation → Prop
  | .insert key _ supply => s.storage.cardinality + 1 < 2 ^ 32 ∧
    ∀ plan, s.storage.cardinality ≠ 0 →
      s.storage.segmentSizes (s.index.find key) = s.storage.segmentCapacity →
      s.toPma.rebalance (s.index.find key) true = some plan → s.Supplied plan supply
  | .remove key supply => ∀ p removal, s.storage.cardinality ≠ 0 →
    s.array.takeOut (s.index.find key) key = some (p, removal) →
    (removal.value = -1 → 1 < s.storage.numberSegments →
      1 < s.storage.segmentSizes (s.index.find key)) ∧
    ∀ plan, (s.withArray p).toPma.removePlan (s.index.find key) removal.value = some plan →
      (s.withArray p).Supplied plan supply
  | .find _ => True

/-- The invariant of the array. -/
structure Intact (s : AdaptivePma) : Prop where
  ordered : s.array.Ordered
  valid : s.toPma.Valid
  pairs : 2 ∣ s.segmentsPerExtent

/-- What holds after an operation: the array is in order, its elements are those that the answer
leaves of a multimap, its sizes are those after the event, and the detector was told of segments
that it has. -/
structure Stepped (s : AdaptivePma) (event : Option Pma.Event) (t : AdaptivePma)
    (answered : Answered Int Int) : Prop where
  ordered : t.array.Ordered
  contents : answered.apply (-1) (s.storage.elements : Multiset (Int × Int)) =
    some (t.storage.elements : Multiset (Int × Int))
  sizes : Pma.Same (event.elim s.toPma s.toPma.perform) t.toPma
  told : Detector.Told s.storage.numberSegments t.storage.numberSegments s.detector t.detector

section Steps

variable {s t : AdaptivePma} {p : PackedMemoryArray} {plan : RebalanceMetadata} {segment : Nat}
  {e : Int × Int} {key value : Int} {supply : Supply} {removal : PackedMemoryArray.Removal}
  {event : Option Pma.Event} {answered : Answered Int Int} {op : Operation}

theorem Intact.filled (intact : s.Intact) : s.array.Filled :=
  fun several i inside => intact.valid.nonempty several i inside

theorem Stepped.intact (stepped : Stepped s event t answered) (intact : s.Intact)
    (served : ∀ e, event = some e → s.toPma.Served e) : t.Intact := by
  refine ⟨stepped.ordered, stepped.sizes.valid ?_, ?_⟩
  · cases event with
    | none => exact intact.valid
    | some e => exact intact.valid.served (served e rfl)
  · rw [stepped.sizes.segmentsPerExtent]
    cases event with
    | none => exact intact.pairs
    | some e =>
        rw [Option.elim_some, Pma.perform_segmentsPerExtent]
        exact intact.pairs

/-- The partitions give each segment its number of elements. -/
theorem Supplied.partitioned (supplied : s.Supplied plan supply) :
    s.toPma.Partitioned plan supply.outcome := by
  have length := supplied.length_quotas
  have sum : ∀ l : List Nat, ∑ i ∈ Finset.range l.length, (l.getD i 0 : Int) = (l.sum : Int) := by
    intro l
    induction l with
    | nil => rfl
    | cons n l ih =>
        rw [List.length_cons, Finset.sum_range_succ', List.sum_cons]
        simp only [List.getD_cons_succ, List.getD_cons_zero, ih]
        push_cast
        ring
  refine ⟨fun i inside => ?_, ?_⟩
  · have below : i < (Partition.quotas supply.partitions).length := by omega
    have quota : supply.outcome.quota i = (Partition.quotas supply.partitions)[i] :=
      List.getD_eq_getElem _ _ below
    rw [quota]
    exact supplied.quotas _ (List.getElem_mem below)
  · rw [← length, ← supplied.cardinality, ← Partition.sum_quotas supplied.nonempty]
    exact sum _

/-- A key belongs in the segment where the index leads. -/
theorem Intact.belongs (intact : s.Intact) (stored : s.storage.cardinality ≠ 0) (key : Int) :
    s.index.find key < s.storage.numberSegments ∧ s.array.Belongs (s.index.find key) key := by
  obtain ⟨inside, below, above, -⟩ := intact.ordered.place intact.filled stored key
  exact ⟨inside, below, above⟩

/-! ## Insertion -/

/-- The event of an insertion. -/
theorem Intact.insert_served (intact : s.Intact) (sound : s.Sound (.insert key value supply)) :
    s.toPma.Served (.insert (if s.storage.cardinality = 0 then 0 else s.index.find key)
      supply.outcome) := by
  have planned : ∀ u plan, s.toPma.planOf (.insert (if s.storage.cardinality = 0 then 0
      else s.index.find key) supply.outcome) = some (u, plan) →
      u = s.toPma ∧ s.Supplied plan supply := by
    intro u plan made
    unfold Pma.planOf at made
    simp only at made
    split_ifs at made with empty full
    obtain ⟨plan', rebalanced, same⟩ := Option.map_eq_some_iff.mp made
    cases same
    exact ⟨rfl, sound.2 plan empty full rebalanced⟩
  refine ⟨⟨?_, sound.1⟩, ?_, ?_⟩
  · split_ifs with empty
    · exact intact.valid.framed.positive
    · exact (intact.belongs empty key).1
  · intro u plan made
    obtain ⟨rfl, supplied⟩ := planned u plan made
    exact supplied.partitioned
  · intro u plan made
    obtain ⟨rfl, supplied⟩ := planned u plan made
    exact supplied.roomy

theorem Intact.insert_empty (intact : s.Intact) (empty : s.storage.cardinality = 0)
    (outcome : Pma.Outcome) :
    Stepped s (some (.insert 0 outcome)) (s.withArray (s.array.insertEmpty key value))
      (.inserted key value) := by
  have capacity := intact.valid.framed.configured.capacity_le
  have positive := intact.valid.framed.positive
  have counted := intact.valid.counted
  have one : s.storage.numberSegments = 1 := by
    by_contra several
    have least := Pma.le_countOf fun i inside => intact.valid.nonempty (by omega) i inside
    omega
  have none : s.storage.segmentSizes 0 = 0 := by
    have least := @Pma.size_le_countOf s.storage 0 s.storage.numberSegments positive
    omega
  obtain ⟨ordered, elements⟩ := @PackedMemoryArray.Ordered.insertEmpty s.array key value
    intact.ordered one (by change 0 < s.storage.segmentCapacity; omega)
  refine ⟨⟨ordered.sizes_le, ordered.counted, ordered.sorted, ordered.sized, ordered.separators⟩,
    ?_, ?_, Detector.Told.refl⟩
  · have before : s.storage.elements = [] := by
      apply List.eq_nil_of_length_eq_zero
      have total : s.storage.cardinality = s.storage.elements.length := intact.ordered.counted
      omega
    change _ = some (((s.array.insertEmpty key value).storage.elements : Multiset (Int × Int)))
    rw [elements, before]
    rfl
  · have unplanned : s.toPma.planOf (.insert 0 outcome) = Option.none := by
      unfold Pma.planOf
      simp only [empty, if_true]
    rw [Option.elim_some, Pma.perform, unplanned]
    refine ⟨fun i inside => ?_, ?_, rfl, rfl, rfl, rfl, rfl, rfl, rfl⟩
    · change Function.update s.storage.segmentSizes 0 1 i =
        Function.update s.storage.segmentSizes 0 (s.storage.segmentSizes 0 + 1) i
      rw [none]
    · change 1 = uint32 (s.storage.cardinality + 1 : Nat)
      rw [empty]
      rfl

theorem Intact.insert_room (intact : s.Intact) (stored : s.storage.cardinality ≠ 0)
    (small : s.storage.cardinality + 1 < 2 ^ 32)
    (room : s.storage.segmentSizes (s.index.find key) ≠ s.storage.segmentCapacity)
    (outcome : Pma.Outcome) :
    Stepped s (some (.insert (s.index.find key) outcome))
      (s.withArray (s.array.insertInto (s.index.find key) key value)) (.inserted key value) := by
  obtain ⟨inside, belongs⟩ := intact.belongs stored key
  have le := intact.valid.size_le _ inside
  have fits : s.storage.segmentSizes (s.index.find key) < s.storage.segmentCapacity := by omega
  obtain ⟨ordered, inserted, sizes, numberSegments, capacity⟩ :=
    @PackedMemoryArray.Ordered.insertInto s.array _ key value intact.ordered inside small
      fits belongs.below belongs.above
  set p' := s.array.insertInto (s.index.find key) key value with p'_eq
  refine ⟨⟨ordered.sizes_le, ordered.counted, ordered.sorted, ordered.sized, ordered.separators⟩,
    inserted.answered, ?_, ?_⟩
  · have unplanned : s.toPma.planOf (.insert (s.index.find key) outcome) = none := by
      unfold Pma.planOf
      simp only [if_neg stored, if_neg room]
    rw [Option.elim_some, Pma.perform, unplanned]
    refine ⟨fun i _ => congrFun sizes i, ?_, numberSegments, capacity, rfl, rfl, rfl, rfl, rfl⟩
    change p'.storage.cardinality = uint32 (s.storage.cardinality + 1 : Nat)
    have before : s.storage.cardinality = s.storage.elements.length := intact.ordered.counted
    rw [uint32_natCast small, ordered.counted, inserted.length_eq, before]
    rfl
  · have count : (s.withArray p').storage.numberSegments = s.storage.numberSegments :=
      numberSegments
    rw [count]
    exact Detector.Told.insert inside

theorem Intact.insert_full (intact : s.Intact)
    (sound : s.Sound (.insert key value supply)) (stored : s.storage.cardinality ≠ 0)
    (full : s.storage.segmentSizes (s.index.find key) = s.storage.segmentCapacity) :
    ∃ plan t, s.toPma.rebalance (s.index.find key) true = some plan ∧
      s.doRebalance plan (s.index.find key) (key, value) supply = some t ∧
      Stepped s (some (.insert (s.index.find key) supply.outcome)) t (.inserted key value) := by
  obtain ⟨inside, belongs⟩ := intact.belongs stored key
  have capacity := intact.valid.framed.configured.capacity_le
  have ready := intact.valid.ready (s.index.find key)
  obtain ⟨plan, planned, -⟩ := @Pma.Ready.rebalance s.toPma _ ready inside true nofun
    (fun _ => full) fun _ => sound.1
  obtain ⟨made, insertion⟩ := @Pma.Ready.made s.toPma _ plan ready inside true nofun
    (fun _ => full) (fun _ => sound.1) planned
  have supplied := sound.2 plan stored full planned
  obtain ⟨t, run, performed⟩ := @doRebalance_performs s plan _ (key, value) supply intact.ordered
    ready inside intact.pairs made (fun _ => ⟨belongs, by omega⟩) supplied
  refine ⟨plan, t, planned, run, performed.ordered, ?_, ?_, performed.told⟩
  · have gained := performed.gained
    rw [inserts, if_pos insertion] at gained
    exact gained.inserted.answered
  · have made : s.toPma.planOf (.insert (s.index.find key) supply.outcome) =
        some (s.toPma, plan) := by
      unfold Pma.planOf
      simp only [if_neg stored, if_pos full, planned, Option.map_some]
    rw [Option.elim_some, Pma.perform, made]
    exact performed.same

theorem Intact.insert (intact : s.Intact) (sound : s.Sound (.insert key value supply)) :
    ∃ t, s.insert key value supply = some t ∧
      Stepped s (s.eventOf (.insert key value supply)) t (.inserted key value) := by
  unfold AdaptivePma.insert insertCommon eventOf
  by_cases empty : s.storage.cardinality = 0
  · refine ⟨_, if_pos empty, ?_⟩
    simp only [if_pos empty]
    exact intact.insert_empty empty _
  · simp only [if_neg empty]
    by_cases full : s.storage.segmentSizes (s.index.find key) = s.storage.segmentCapacity
    · obtain ⟨plan, t, planned, run, stepped⟩ := intact.insert_full sound empty full
      refine ⟨t, ?_, stepped⟩
      rw [if_pos full, planned, Option.bind_some, run]
    · exact ⟨_, if_neg full, intact.insert_room empty sound.1 full _⟩

/-! ## Removal -/

/-- The array without the element, before it may be rebalanced. -/
theorem Intact.taken (intact : s.Intact) (stored : s.storage.cardinality ≠ 0)
    (taken : s.array.takeOut (s.index.find key) key = some (p, removal)) :
    PackedMemoryArray.TakenOut s.array (s.index.find key) key p removal.value ∧
      Pma.Same (s.toPma.take (s.index.find key)) (s.withArray p).toPma := by
  obtain ⟨inside, -⟩ := intact.belongs stored key
  have out := intact.ordered.takeOut intact.filled inside taken
  refine ⟨out, fun i _ => congrFun out.sizes i, ?_, out.numberSegments, out.capacity, rfl, rfl,
    rfl, rfl, rfl⟩
  exact out.cardinality.trans (predUint32_of_pos stored).symm

/-- The event of a removal. -/
theorem Intact.remove_served (intact : s.Intact) (sound : s.Sound (.remove key supply))
    (stored : s.storage.cardinality ≠ 0)
    (taken : s.array.takeOut (s.index.find key) key = some (p, removal)) :
    s.toPma.Served (.remove (s.index.find key) removal.value supply.outcome) := by
  obtain ⟨inside, -⟩ := intact.belongs stored key
  obtain ⟨out, same⟩ := intact.taken stored taken
  obtain ⟨last, plans⟩ := sound p removal stored taken
  have planned : ∀ u plan, s.toPma.planOf (.remove (s.index.find key) removal.value
      supply.outcome) = some (u, plan) →
      u = s.toPma.take (s.index.find key) ∧ (s.withArray p).Supplied plan supply := by
    intro u plan made
    obtain ⟨plan', removed, whole⟩ := Option.map_eq_some_iff.mp made
    cases whole
    rw [← same.removePlan inside] at removed
    exact ⟨rfl, plans plan removed⟩
  refine ⟨⟨inside, out.some, last⟩, ?_, ?_⟩
  · intro u plan made
    obtain ⟨rfl, supplied⟩ := planned u plan made
    exact same.symm.partitioned supplied.partitioned
  · intro u plan made resizes
    obtain ⟨rfl, supplied⟩ := planned u plan made
    exact same.symm.roomy (supplied.roomy resizes)

theorem Intact.remove_taken (intact : s.Intact) (sound : s.Sound (.remove key supply))
    (stored : s.storage.cardinality ≠ 0)
    (taken : s.array.takeOut (s.index.find key) key = some (p, removal)) :
    ∃ t, (s.withArray p).afterRemoval (s.index.find key) removal supply = some t ∧
      Stepped s (some (.remove (s.index.find key) removal.value supply.outcome)) t
        (.removed key removal.value) := by
  obtain ⟨inside, -⟩ := intact.belongs stored key
  obtain ⟨out, same⟩ := intact.taken stored taken
  have ready : (s.withArray p).toPma.Ready (s.index.find key) :=
    same.ready (intact.valid.take inside out.some)
  have numberSegments : (s.withArray p).storage.numberSegments = s.storage.numberSegments :=
    out.numberSegments
  have within : s.index.find key < (s.withArray p).storage.numberSegments := by
    rw [numberSegments]
    exact inside
  have ordered : (s.withArray p).array.Ordered :=
    ⟨out.ordered.sizes_le, out.ordered.counted, out.ordered.sorted, out.ordered.sized,
      out.ordered.separators⟩
  have pairs : 2 ∣ (s.withArray p).segmentsPerExtent := by
    rw [same.segmentsPerExtent]
    exact intact.pairs
  have answered : (Answered.removed key removal.value).apply (-1)
      (s.storage.elements : Multiset (Int × Int)) =
        some ((s.withArray p).storage.elements : Multiset (Int × Int)) :=
    out.removed.answered
  have detector : p.detector = s.detector := out.detector
  -- the plan is the one of the event
  have plan_eq := same.removePlan inside removal.value
  have unplanned : (s.withArray p).toPma.removePlan (s.index.find key) removal.value = none →
      s.toPma.perform (.remove (s.index.find key) removal.value supply.outcome) =
        s.toPma.take (s.index.find key) := by
    intro none
    rw [plan_eq] at none
    rw [Pma.perform, Pma.planOf, none, Option.map_none]
  unfold afterRemoval
  by_cases missing : removal.value = -1
  · have none :
        (s.withArray p).toPma.removePlan (s.index.find key) removal.value = Option.none := by
      rw [Pma.removePlan, if_pos missing]
    rw [if_pos missing]
    refine ⟨_, rfl, ordered, answered, ?_, ?_⟩
    · rw [Option.elim_some, unplanned none]
      exact same
    · rw [numberSegments]
      change Detector.Told _ _ s.detector p.detector
      rw [detector]
      exact Detector.Told.refl
  · rw [if_neg missing]
    set s₁ : AdaptivePma := { s.withArray p with
      detector := (s.withArray p).detector ++ [Detector.Call.remove (s.index.find key)
        removal.predecessor removal.successor] } with s₁_eq
    have ordered₁ : s₁.array.Ordered :=
      ⟨ordered.sizes_le, ordered.counted, ordered.sorted, ordered.sized, ordered.separators⟩
    have told : Detector.Told s.storage.numberSegments s.storage.numberSegments s.detector
        s₁.detector := by
      change Detector.Told _ _ s.detector (p.detector ++ _)
      rw [detector]
      exact ⟨_, rfl, ⟨inside, trivial⟩, rfl⟩
    simp only
    cases planned : s₁.toPma.removePlan (s.index.find key) removal.value with
    | none =>
        refine ⟨_, rfl, ordered₁, answered, ?_, ?_⟩
        · rw [Option.elim_some, unplanned planned]
          exact same
        · rw [numberSegments]
          exact told
    | some plan =>
        obtain ⟨made, deletion⟩ := ready.made_removal within planned
        have supplied := (sound p removal stored taken).2 plan planned
        have supplied₁ : s₁.Supplied plan supply :=
          ⟨supplied.nonempty, supplied.segments, supplied.cardinality, supplied.quotas,
            supplied.aligned, supplied.roomy, supplied.rebuilt, supplied.available⟩
        obtain ⟨t, run, performed⟩ := @doRebalance_performs s₁ plan _ (-1, -1) supply ordered₁
          ready within pairs made (fun insertion => by rw [deletion] at insertion; cases insertion)
          supplied₁
        refine ⟨t, run, performed.ordered, ?_, ?_, ?_⟩
        · have gained := performed.gained
          rw [inserts, if_neg (by simp [deletion])] at gained
          rw [gained.eq_of_none]
          exact answered
        · have event : s.toPma.planOf (.remove (s.index.find key) removal.value supply.outcome) =
              some (s.toPma.take (s.index.find key), plan) := by
            rw [Pma.planOf, ← plan_eq]
            exact congrArg (Option.map _) planned
          rw [Option.elim_some, Pma.perform, event]
          exact same.doRebalance.trans performed.same
        · have later := performed.told
          change Detector.Told (s.withArray p).storage.numberSegments _ s₁.detector _ at later
          rw [numberSegments] at later
          exact told.trans later

theorem Intact.remove (intact : s.Intact) (sound : s.Sound (.remove key supply)) :
    ∃ t answer, s.remove key supply = some (t, answer) ∧
      Stepped s (s.eventOf (.remove key supply)) t (.removed key answer) := by
  have missed : (∀ x ∈ s.storage.elements, x.1 ≠ key) → Stepped s none s (.removed key (-1)) :=
    fun none => ⟨intact.ordered, Answered.apply_missing none, Pma.Same.refl, Detector.Told.refl⟩
  unfold AdaptivePma.remove eventOf
  by_cases empty : s.storage.cardinality = 0
  · simp only [if_pos empty]
    refine ⟨s, -1, rfl, missed ?_⟩
    have total : s.storage.cardinality = s.storage.elements.length := intact.ordered.counted
    rw [List.eq_nil_of_length_eq_zero (total.symm.trans empty)]
    exact fun x member => absurd member List.not_mem_nil
  · simp only [if_neg empty]
    cases taken : s.array.takeOut (s.index.find key) key with
    | none => exact ⟨s, -1, rfl, missed (intact.ordered.missed intact.filled empty taken)⟩
    | some r =>
        obtain ⟨p, removal⟩ := r
        obtain ⟨t, run, stepped⟩ := intact.remove_taken sound empty taken
        exact ⟨t, removal.value, by simp only [run, Option.map_some], stepped⟩

/-! ## Operations -/

/-- The event of a sound operation. -/
theorem Intact.served (intact : s.Intact) (sound : s.Sound op) :
    ∀ e, s.eventOf op = some e → s.toPma.Served e := by
  intro e event
  cases op with
  | insert key value supply =>
      cases event
      exact intact.insert_served sound
  | remove key supply =>
      unfold eventOf at event
      simp only at event
      split_ifs at event with empty
      obtain ⟨r, taken, rfl⟩ := Option.map_eq_some_iff.mp event
      exact intact.remove_served sound empty taken
  | find key => cases event

/-- A sound operation returns. -/
theorem Intact.step (intact : s.Intact) (sound : s.Sound op) :
    ∃ t answered, s.step op = some (t, answered) ∧ Stepped s (s.eventOf op) t answered := by
  cases op with
  | insert key value supply =>
      obtain ⟨t, run, stepped⟩ := intact.insert sound
      exact ⟨t, _, by rw [AdaptivePma.step, run, Option.map_some], stepped⟩
  | remove key supply =>
      obtain ⟨t, answer, run, stepped⟩ := intact.remove sound
      exact ⟨t, _, by rw [AdaptivePma.step, run, Option.map_some], stepped⟩
  | find key =>
      refine ⟨s, _, rfl, intact.ordered, ?_, Pma.Same.refl, Detector.Told.refl⟩
      rw [Answered.apply, if_pos]
      rcases intact.ordered.find_eq intact.filled key with ⟨x, member, rfl, found⟩ | ⟨none, found⟩
      · rw [found]
        exact Or.inl member
      · rw [found]
        exact Or.inr ⟨rfl, none⟩

end Steps

end AdaptivePma

end Rma
