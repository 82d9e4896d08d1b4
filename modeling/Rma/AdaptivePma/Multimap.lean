import Rma.AdaptivePma.Steps

/-!
# The array as a multimap

Runs of operations from the constructor, each of them `Sound` for the array that it finds.

* `run_refines`: the run is one of the abstract multimap. Afterwards the elements are those of the
  multimap in key order, the range scans answer from them, and the detector was only told of
  segments that it has.
* `run_performs`: the run is one of the sizes of the segments, and its plans to resize fit.
-/

namespace Rma

open Base

namespace AdaptivePma

/-- A sequence of operations, with the answers. -/
def run (s : AdaptivePma) : List Operation → Option (AdaptivePma × List (Answered Int Int))
  | [] => some (s, [])
  | op :: ops =>
    (s.step op).bind fun r => (r.1.run ops).map fun r' => (r'.1, r.2 :: r'.2)

def SoundRun (s : AdaptivePma) : List Operation → Prop
  | [] => True
  | op :: ops => s.Sound op ∧ ∀ t answered, s.step op = some (t, answered) → t.SoundRun ops

/-- The events of a sequence of operations. -/
def events (s : AdaptivePma) : List Operation → List Pma.Event
  | [] => []
  | op :: ops => (s.eventOf op).toList ++ (s.step op).elim [] fun r => r.1.events ops

/-- What the array answers, when it holds a multimap. -/
structure Answers (s : AdaptivePma) (m : Multiset (Int × Int)) : Prop where
  contents : (s.storage.elements : Multiset (Int × Int)) = m
  sorted : SortedPairs s.storage.elements
  cardinality : s.storage.cardinality = m.card
  scan : ∀ min max, min ≤ max → ∃ l : List (Int × Int), SortedPairs l ∧
    (l : Multiset (Int × Int)) = m.filter (fun x => min ≤ x.1 ∧ x.1 ≤ max) ∧
    ∃ it, PackedMemoryArray.findRange s.index s.storage min max = some (.ok it) ∧
      ∀ count, it.drain s.storage count = some (l.take count)
  sum : ∀ min max, min ≤ max → ∃ r,
    PackedMemoryArray.sum s.index s.storage min max = some r ∧
    r.numElements = (m.filter fun x => min ≤ x.1 ∧ x.1 ≤ max).card ∧
    r.sumKeys = ((m.filter fun x => min ≤ x.1 ∧ x.1 ≤ max).map Prod.fst).sum.bmod (2 ^ 64) ∧
    r.sumValues = ((m.filter fun x => min ≤ x.1 ∧ x.1 ≤ max).map Prod.snd).sum.bmod (2 ^ 64)

section Runs

variable {s t : AdaptivePma} {u : Pma} {ops : List Operation}

/-- A sound run of the array is a run of the multimap, and of the sizes. -/
theorem Intact.run (intact : s.Intact) (sound : s.SoundRun ops) (same : Pma.Same s.toPma u) :
    ∃ t answers, s.run ops = some (t, answers) ∧ t.Intact ∧
      runFrom (Answered.apply (-1)) (s.storage.elements : Multiset (Int × Int)) answers =
        some (t.storage.elements : Multiset (Int × Int)) ∧
      Detector.Told s.storage.numberSegments t.storage.numberSegments s.detector t.detector ∧
      u.ServedRun (s.events ops) ∧ Pma.Same t.toPma ((s.events ops).foldl Pma.perform u) := by
  induction ops generalizing s u with
  | nil => exact ⟨s, [], rfl, intact, rfl, Detector.Told.refl, trivial, same⟩
  | cons op ops ih =>
      obtain ⟨s₁, answered, first, stepped⟩ := intact.step sound.1
      have served := intact.served sound.1
      have later : Pma.Same s₁.toPma ((s.eventOf op).elim u u.perform) := by
        apply stepped.sizes.symm.trans
        cases event : s.eventOf op with
        | none => exact same
        | some e => exact same.perform (served e event).admissible.inside
      obtain ⟨t, answers, rest, after, contents, told, servedRun, sizes⟩ :=
        ih (stepped.intact intact served) (sound.2 s₁ answered first) later
      refine ⟨t, answered :: answers, ?_, after, ?_, stepped.told.trans told, ?_⟩
      · rw [AdaptivePma.run, first, Option.bind_some, rest, Option.map_some]
      · rw [runFrom_cons, stepped.contents, Option.bind_some, contents]
      · rw [events, first, Option.elim_some]
        cases event : s.eventOf op with
        | none =>
            rw [event] at servedRun sizes
            exact ⟨servedRun, sizes⟩
        | some e =>
            rw [event] at servedRun sizes
            exact ⟨⟨same.served (served e event), servedRun⟩, sizes⟩

/-- An intact array answers from the multimap of its elements. -/
theorem Intact.answers (intact : s.Intact) :
    s.Answers (s.storage.elements : Multiset (Int × Int)) := by
  have capacity := intact.valid.framed.configured.capacity_le
  have inv := intact.ordered.repInv intact.filled
    (by change 0 < s.storage.segmentCapacity; omega)
  have filtered : ∀ min max, ((inRange s.storage min max : List (Int × Int)) :
      Multiset (Int × Int)) = (s.storage.elements : Multiset (Int × Int)).filter
        fun x => min ≤ x.1 ∧ x.1 ≤ max := fun min max => rfl
  refine ⟨rfl, intact.ordered.sorted, intact.ordered.counted, fun min max order => ?_,
    fun min max order => ?_⟩
  · exact ⟨inRange s.storage min max, intact.ordered.sorted.sublist List.filter_sublist,
      filtered min max, findRange_eq inv order⟩
  · obtain ⟨r, run, numElements, sumKeys, sumValues, -⟩ := sum_eq inv order
    refine ⟨r, run, ?_, ?_, ?_⟩
    · rw [numElements, ← filtered]
      rfl
    · rw [sumKeys, ← filtered]
      rfl
    · rw [sumValues, ← filtered]
      rfl

end Runs

/-! ## The first segment -/

section One

variable {u : Pma} {segment : Nat} {value : Int} {outcome : Pma.Outcome}

theorem size_one (valid : u.Valid) (one : u.storage.numberSegments = 1) :
    u.storage.segmentSizes 0 = u.storage.cardinality := by
  have counted := valid.counted
  have single := u.storage.countOf_single 0
  rw [one] at counted
  have same : (u.storage.cardinality : Int) = u.storage.segmentSizes 0 := counted.trans single
  exact_mod_cast same.symm

theorem removePlan_one (positive : 1 ≤ u.segmentsPerExtent)
    (one : u.storage.numberSegments = 1) : u.removePlan segment value = none := by
  have few : ¬(u.storage.numberSegments ≥ 2 * u.balancedThresholdsCutoff ∧
      (u.storage.cardinality : ℚ) < 1 / 2 * u.storage.capacity) := by
    rw [one, Pma.balancedThresholdsCutoff]
    omega
  unfold Pma.removePlan
  rw [if_neg few, if_neg (Nat.not_lt.mpr one.le), ite_self]

/-- While there is room in the only segment, it remains the only one. -/
theorem perform_put (valid : u.Valid) (one : u.storage.numberSegments = 1)
    (inside : segment < u.storage.numberSegments)
    (room : u.storage.cardinality < u.storage.segmentCapacity) :
    u.perform (.insert segment outcome) = u.put segment := by
  have size := size_one valid one
  have first : segment = 0 := by omega
  have unplanned : u.planOf (.insert segment outcome) = none := by
    unfold Pma.planOf
    simp only
    split_ifs with empty full
    · rfl
    · rw [first] at full
      omega
    · rfl
  rw [Pma.perform, unplanned]

theorem perform_take (valid : u.Valid) (one : u.storage.numberSegments = 1) :
    u.perform (.remove segment value outcome) = u.take segment := by
  have positive := valid.framed.configured.segmentsPerExtent_pos
  have unplanned := @removePlan_one (u.take segment) segment value positive one
  rw [Pma.perform, Pma.planOf, unplanned, Option.map_none]

end One

/-- How many elements an operation may add. -/
def Operation.grows : Operation → Nat
  | .insert _ _ _ => 1
  | .remove _ _ => 0
  | .find _ => 0

/-- The operation gets this supply, if it gets any. -/
def Operation.Gets (supply : Supply) : Operation → Prop
  | .insert _ _ given => given = supply
  | .remove _ given => given = supply
  | .find _ => True

section Filling

variable {s t : AdaptivePma} {memory : Memory} {buffers capacity : Nat} {op : Operation}
  {ops : List Operation} {answered : Answered Int Int}

/-- In an array of one segment, an even division in two serves every operation. -/
theorem Intact.sound_one (intact : s.Intact) (one : s.storage.numberSegments = 1)
    (holds : s.storage.segmentCapacity = capacity) (small : capacity + 1 < 2 ^ 32)
    (right : ∀ b, 1 < b → memory.logs.Right b 2)
    (allocated : memory.block ≠ none) (available : memory.space.Available)
    (gets : op.Gets ⟨[⟨capacity + 1, 2⟩], buffers, memory⟩) : s.Sound op := by
  have least := intact.valid.framed.configured.capacity_le
  have positive := intact.valid.framed.configured.segmentsPerExtent_pos
  have size := size_one intact.valid one
  have le := intact.valid.size_le 0 (by omega)
  have cutoff : s.storage.numberSegments < s.toPma.balancedThresholdsCutoff := by
    rw [Pma.balancedThresholdsCutoff]
    omega
  cases op with
  | insert key value supply =>
      obtain rfl : supply = _ := gets
      refine ⟨by omega, fun plan stored full rebalanced => ?_⟩
      have inside := (intact.belongs stored key).1
      have first : s.index.find key = 0 := by omega
      rw [first] at full rebalanced inside
      have ready := intact.valid.ready 0
      obtain ⟨made, insertion⟩ := @Pma.Ready.made s.toPma 0 plan ready inside true
        (fun deletion => absurd deletion.symm Bool.false_ne_true) (fun _ => full)
        (fun _ => by omega) rebalanced
      -- the full segment is doubled
      have alone := @Storage.rebalanceFindWindow_one s.storage s.toPma.getThresholds 0 one
        (by omega)
      rw [uint32_natCast (show s.storage.cardinality + 1 < 2 ^ 32 by omega)] at alone
      have double := @Pma.Framed.growPlan_double s.toPma (s.storage.cardinality + 1)
        intact.valid.framed cutoff (by rw [one]; omega)
      rw [Pma.rebalance, alone, Option.map_some] at rebalanced
      have planned : plan = s.toPma.rebalancePlan true 0 0 (s.storage.cardinality + 1) true :=
        (Option.some.inj rebalanced).symm
      have length : plan.windowLength = 2 := by
        rw [planned, Pma.rebalancePlan_grow]
        change (s.toPma.growPlan (s.storage.cardinality + 1)).2 = 2
        rw [double, one]
        rfl
      have cardinality : plan.cardinalityAfter = (capacity : Int) + 1 := by
        rw [planned, Pma.rebalancePlan_grow]
        change (s.storage.cardinality : Int) + 1 = _
        rw [← size, full, holds]
      have resizes : plan.operation ≠ .rebalance := by
        rw [planned]
        exact s.toPma.rebalancePlan_operation true 0 0 _
      have roomy : s.toPma.Roomy plan.isInsert plan.cardinalityAfter := by
        rw [insertion, cardinality]
        refine ⟨fun _ _ => by omega, fun _ equal => absurd equal cutoff.ne, fun deletion => ?_,
          fun deletion => ?_⟩
        · exact absurd deletion.symm Bool.false_ne_true
        · exact absurd deletion.symm Bool.false_ne_true
      have base : 1 < s.index.nodeSize := intact.ordered.sized.base
      have levels : plan.windowLength ≤ s.index.nodeSize ^ 8 := by
        rw [length]
        exact le_trans base (Nat.le_self_pow (by decide) _)
      have even := @Supplied.even s plan 0 memory ready made
        (fun window => absurd window resizes) (fun _ => roomy) base levels allocated
        (by rw [length]; exact right _ base) available buffers
      have natural : ((capacity : Int) + 1).toNat = capacity + 1 := by omega
      rw [cardinality, length, natural] at even
      exact even
  | remove key supply =>
      intro p removal stored taken
      obtain ⟨out, same⟩ := intact.taken stored taken
      have alone : (s.withArray p).storage.numberSegments = 1 := out.numberSegments.trans one
      have wide : 1 ≤ (s.withArray p).toPma.segmentsPerExtent := by
        rw [same.segmentsPerExtent]
        exact positive
      refine ⟨fun _ many => by omega, fun plan planned => ?_⟩
      rw [removePlan_one wide alone] at planned
      cases planned
  | find key => trivial

/-- While there is room in the only segment, an operation keeps it the only one. -/
theorem Stepped.one (stepped : Stepped s (s.eventOf op) t answered) (intact : s.Intact)
    (served : ∀ e, s.eventOf op = some e → s.toPma.Served e)
    (one : s.storage.numberSegments = 1)
    (room : s.storage.cardinality + op.grows ≤ s.storage.segmentCapacity) :
    t.storage.numberSegments = 1 ∧ t.storage.segmentCapacity = s.storage.segmentCapacity ∧
      t.storage.cardinality ≤ s.storage.cardinality + op.grows := by
  have sizes := stepped.sizes
  cases op with
  | insert key value supply =>
      have inside := (served _ rfl).admissible.inside
      have put := @perform_put s.toPma _ supply.outcome intact.valid one inside
        room
      change Pma.Same (s.toPma.perform _) t.toPma at sizes
      rw [put] at sizes
      refine ⟨sizes.numberSegments.trans one, sizes.segmentCapacity, ?_⟩
      exact (sizes.cardinality.trans (uint32_natCast (served _ rfl).admissible.2)).le
  | remove key supply =>
      have fewer : t.storage.numberSegments = 1 ∧
          t.storage.segmentCapacity = s.storage.segmentCapacity ∧
          t.storage.cardinality ≤ s.storage.cardinality := by
        cases event : s.eventOf (.remove key supply) with
        | none =>
            rw [event] at sizes
            exact ⟨sizes.numberSegments.trans one, sizes.segmentCapacity, sizes.cardinality.le⟩
        | some e =>
            rw [event] at sizes
            unfold eventOf at event
            simp only at event
            split_ifs at event with empty
            obtain ⟨r, -, rfl⟩ := Option.map_eq_some_iff.mp event
            rw [Option.elim_some, perform_take intact.valid one] at sizes
            refine ⟨sizes.numberSegments.trans one, sizes.segmentCapacity, ?_⟩
            exact (sizes.cardinality.trans (predUint32_of_pos empty)).le.trans (Nat.sub_le _ _)
      exact fewer
  | find key =>
      exact ⟨sizes.numberSegments.trans one, sizes.segmentCapacity, sizes.cardinality.le⟩

/-- From an array of one segment, operations that fit in it are sound, and so is the next one. -/
theorem Intact.soundRun_one (intact : s.Intact) (one : s.storage.numberSegments = 1)
    (holds : s.storage.segmentCapacity = capacity) (small : capacity + 1 < 2 ^ 32)
    (right : ∀ b, 1 < b → memory.logs.Right b 2)
    (allocated : memory.block ≠ none) (available : memory.space.Available)
    (gets : ∀ op' ∈ ops, op'.Gets ⟨[⟨capacity + 1, 2⟩], buffers, memory⟩)
    (last : op.Gets ⟨[⟨capacity + 1, 2⟩], buffers, memory⟩)
    (room : s.storage.cardinality + (ops.map Operation.grows).sum ≤ capacity) :
    s.SoundRun (ops ++ [op]) := by
  induction ops generalizing s with
  | nil => exact ⟨intact.sound_one one holds small right allocated available last, fun _ _ _ => trivial⟩
  | cons first ops ih =>
      have sound := intact.sound_one one holds small right allocated available
        (gets first List.mem_cons_self)
      have served := intact.served sound
      rw [List.map_cons, List.sum_cons] at room
      refine ⟨sound, fun t answered returned => ?_⟩
      obtain ⟨t', answered', same, stepped⟩ := intact.step sound
      rw [returned] at same
      cases same
      obtain ⟨one', holds', cardinality⟩ := stepped.one intact served one (by omega)
      exact ih (stepped.intact intact served) one' (holds'.trans holds)
        (fun op' member => gets op' (List.mem_cons_of_mem _ member)) (by omega)

end Filling

/-! ## From the constructor -/

section Create

variable {storage : Storage} {pageSize nodeSize : Nat} {densityBounds0 : DensityBounds}
  {outcome : Pma.Outcome} {block : Option (Nat → Int)} {u : Unit} {index : StaticIndex}
  {ops : List Operation}

theorem create_intact (configured : (Pma.create storage pageSize densityBounds0 outcome).Configured)
    (pairs : 2 ∣ (Pma.create storage pageSize densityBounds0 outcome).segmentsPerExtent)
    (base : 2 ≤ nodeSize)
    (built : StaticIndex.create nodeSize 1 block (StaticIndex.blank nodeSize) = .ok u index) :
    (create storage pageSize densityBounds0 outcome index).Intact :=
  ⟨⟨fun _ _ => Nat.zero_le _, rfl, List.Pairwise.nil, StaticIndex.create_ok base built,
    fun _ _ some => absurd some (lt_irrefl 0)⟩, Pma.Valid.create configured, pairs⟩

def oneSegment : Storage where
  keys := fun _ => 0
  values := fun _ => 0
  segmentSizes := fun _ => 0
  segmentCapacity := 32
  cardinality := 0
  numberSegments := 1
  pagesPerExtent := 1

/-- Two segments share 33 elements; there is memory for them and for the index. -/
def halving : Supply :=
  ⟨[⟨33, 2⟩], 0, ⟨⟨fun _ => some fun _ => 0, fun _ => some fun _ => 0⟩, Logarithms.exact,
    some fun _ => 0, fun _ => (0, 0), fun _ => 0⟩⟩

/-- The only segment is filled. -/
def filling : List Operation :=
  .find 7 :: .remove 7 halving ::
    (List.range 32).map fun i => .insert (Int.ofNat i) (10 * Int.ofNat i) halving

theorem oneSegment_pairs :
    2 ∣ (Pma.create oneSegment 4096 .tight ⟨fun _ => 0, 0⟩).segmentsPerExtent :=
  show 2 ∣ 1 * 4096 / (32 * 8) by decide

theorem filling_sound {u : Unit} {index : StaticIndex}
    (built : StaticIndex.create 3 1 (some fun _ => 0) (StaticIndex.blank 3) = .ok u index) :
    (create oneSegment 4096 .tight ⟨fun _ => 0, 0⟩ index).SoundRun
      (filling ++ [.insert 32 320 halving]) := by
  have intact := create_intact (Pma.small_configured .tight) oneSegment_pairs
    (show 2 ≤ 3 by decide) built
  have available : halving.memory.space.Available := fun _ => ⟨⟨_, rfl⟩, _, rfl⟩
  refine @Intact.soundRun_one _ halving.memory 0 32 _ _ intact rfl rfl (by decide)
    (fun b base => Logarithms.exact_right base (by decide)) (Option.some_ne_none _) available ?_ rfl
    (show 0 + (filling.map Operation.grows).sum ≤ 32 by decide)
  intro op member
  rcases List.mem_cons.mp member with rfl | member
  · trivial
  rcases List.mem_cons.mp member with rfl | member
  · rfl
  obtain ⟨i, -, rfl⟩ := List.mem_map.mp member
  rfl

/-- **The array is a multimap.** Every sound run from the constructor returns, with the answers of
the abstract multimap; the array then holds and answers what the multimap does. -/
theorem run_refines (configured : (Pma.create storage pageSize densityBounds0 outcome).Configured)
    (pairs : 2 ∣ (Pma.create storage pageSize densityBounds0 outcome).segmentsPerExtent)
    (base : 2 ≤ nodeSize)
    (built : StaticIndex.create nodeSize 1 block (StaticIndex.blank nodeSize) = .ok u index)
    (sound : (create storage pageSize densityBounds0 outcome index).SoundRun ops) :
    ∃ t answers m, (create storage pageSize densityBounds0 outcome index).run ops =
        some (t, answers) ∧
      runFrom (Answered.apply (-1)) 0 answers = some m ∧ t.Answers m ∧
      Detector.Told 1 t.storage.numberSegments [] t.detector := by
  obtain ⟨t, answers, ran, after, contents, told, -⟩ :=
    (create_intact configured pairs base built).run sound Pma.Same.refl
  exact ⟨t, answers, _, ran, contents, after.answers, told⟩

theorem run_refines_doubled : ∃ index, StaticIndex.create 3 1 (some fun _ => 0)
      (StaticIndex.blank 3) = .ok () index ∧
    ∃ t answers m, (create oneSegment 4096 .tight ⟨fun _ => 0, 0⟩ index).run
        (filling ++ [.insert 32 320 halving]) = some (t, answers) ∧
      runFrom (Answered.apply (-1)) 0 answers = some m ∧ t.Answers m ∧
      Detector.Told 1 t.storage.numberSegments [] t.detector := by
  obtain ⟨index, built⟩ : ∃ index, StaticIndex.create 3 1 (some fun _ => 0)
      (StaticIndex.blank 3) = .ok () index := ⟨_, rfl⟩
  exact ⟨index, built, run_refines (Pma.small_configured .tight) oneSegment_pairs (by decide)
    built (filling_sound built)⟩

/-- **The sizes are those of the plans.** Every sound run from the constructor performs its events
on the sizes of the segments, and its plans to resize fit. -/
theorem run_performs (configured : (Pma.create storage pageSize densityBounds0 outcome).Configured)
    (pairs : 2 ∣ (Pma.create storage pageSize densityBounds0 outcome).segmentsPerExtent)
    (base : 2 ≤ nodeSize)
    (built : StaticIndex.create nodeSize 1 block (StaticIndex.blank nodeSize) = .ok u index)
    (sound : (create storage pageSize densityBounds0 outcome index).SoundRun ops) :
    let events := (create storage pageSize densityBounds0 outcome index).events ops
    ∃ t answers, (create storage pageSize densityBounds0 outcome index).run ops =
        some (t, answers) ∧
      (Pma.create storage pageSize densityBounds0 outcome).OrdinaryRun events ∧
      (Pma.create storage pageSize densityBounds0 outcome).FitsRun events ∧
      Pma.Same t.toPma
        (events.foldl Pma.perform (Pma.create storage pageSize densityBounds0 outcome)) := by
  obtain ⟨t, answers, ran, -, -, -, served, sizes⟩ :=
    (create_intact configured pairs base built).run sound Pma.Same.refl
  refine ⟨t, answers, ran, served.ordinary, ?_, sizes⟩
  exact ((Pma.Valid.create configured).fitsRun_iff served.ordinary).mpr served.roomy

theorem run_performs_doubled : ∃ index, StaticIndex.create 3 1 (some fun _ => 0)
      (StaticIndex.blank 3) = .ok () index ∧
    ∃ t answers, (create oneSegment 4096 .tight ⟨fun _ => 0, 0⟩ index).run
        (filling ++ [.insert 32 320 halving]) = some (t, answers) ∧
      (Pma.create oneSegment 4096 .tight ⟨fun _ => 0, 0⟩).FitsRun
        ((create oneSegment 4096 .tight ⟨fun _ => 0, 0⟩ index).events
          (filling ++ [.insert 32 320 halving])) := by
  obtain ⟨index, built⟩ : ∃ index, StaticIndex.create 3 1 (some fun _ => 0)
      (StaticIndex.blank 3) = .ok () index := ⟨_, rfl⟩
  obtain ⟨t, answers, ran, -, fits, -⟩ := run_performs (Pma.small_configured .tight)
    oneSegment_pairs (show 2 ≤ 3 by decide) built (filling_sound built)
  exact ⟨index, built, t, answers, ran, fits⟩

end Create

end AdaptivePma

end Rma
