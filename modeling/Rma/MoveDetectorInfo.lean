import Rma.AdaptiveRebalancing.Recursion
import Rma.Base.Relocate

/-!
# The detector after a rebalance

Where adaptive rebalancing assigns a partition to a hammered interval, the entry of the
segment that the interval comes from moves to the partition. `MoveDetectorInfo` registers the
moves, as segments of the window, and carries them out at the end, through a buffer.

The special rule assigns two partitions to one interval, and the second move from a segment
reads an entry that the first one has zeroed: so does a move from a segment that should keep
its entry as well. `rebalanceRunApma_moved` says that the entries follow their segments
exactly when the intervals that the special rule is applied to have none.
-/

namespace Rma

open Base

/-- The fields of `MoveDetectorInfo`. -/
structure MoveDetectorInfo where
  segmentStart : Nat
  registered : List (Nat × Nat)
  capacity : Nat

namespace MoveDetectorInfo

/-- The constructor, for a window that starts at a segment. -/
def create (segmentStart : Nat) : MoveDetectorInfo := ⟨segmentStart, [], 0⟩

/-- `resize(capacity)`, `none` where it throws. -/
def resize (mdi : MoveDetectorInfo) (capacity : Nat) : Option MoveDetectorInfo :=
  if capacity < mdi.registered.length then none else some { mdi with capacity := capacity }

/-- `move_section(from, to)`, `none` where it throws. -/
def moveSection (mdi : MoveDetectorInfo) (source destination : Nat) : Option MoveDetectorInfo :=
  if mdi.registered.length ≥ mdi.capacity then none
  else if source ≠ destination then -- otherwise it's not moving anything
    some { mdi with registered := mdi.registered ++ [(source, destination)] }
  else some mdi

/-- The moves as segments of the array. -/
def segments (mdi : MoveDetectorInfo) : List (Nat × Nat) :=
  mdi.registered.map fun move => (mdi.segmentStart + move.1, mdi.segmentStart + move.2)

/-- `move()`, undefined where an entry is not in the buffer of the detector. -/
def move (mdi : MoveDetectorInfo) (d : Detector) : Option Detector :=
  if ∀ move ∈ mdi.segments, move.1 < d.capacity ∧ move.2 < d.capacity then
    some { d with entries := relocate Entry.zero mdi.segments d.entries }
  else none

end MoveDetectorInfo

/-- The first call of `recursion`. -/
def rootCall (weights : List Interval) (wbalance : Int) (windowLength cardinality : Nat) :
    AdaptiveRebalancing.Call where
  partStart := 0
  partLength := windowLength
  weights := weights
  balance := wbalance
  cardinality := cardinality

/-- `rebalance_run_apma` of a rebalance, from the hammered intervals on. -/
def AdaptiveRebalancing.rebalanceRunApma (r : AdaptiveRebalancing) (fuel windowStart : Nat)
    (root : Call) (d : Detector) : Option (List Partition × Detector) := do
  let mdi ← (MoveDetectorInfo.create windowStart).resize (2 * root.weights.length)
  let out ← r.recursion fuel root
  let mdi ← out.moved.foldlM
    (fun mdi move => mdi.moveSection (uint32 move.1) (move.2 % 2 ^ 32)) mdi
  let d ← mdi.move d
  some (out.partitions, d)

namespace AdaptiveRebalancing

variable {r : AdaptiveRebalancing} {c d : Call} {W : List Interval} {opt : Optimum}

/-! ## The intervals of a split -/

theorem cut_segment (a : Interval) (point : Int) (left right : Nat) :
    (cut a point left right).associatedSegment = a.associatedSegment := by
  unfold cut
  split <;> rfl

/-- The intervals of a result have the segments of the slice. -/
def Keeps (W : List Interval) (result : Option (List Interval × Optimum)) : Prop :=
  ∀ p, result = some p → p.1.map Interval.associatedSegment = W.map Interval.associatedSegment

theorem keeps_some (W : List Interval) (opt : Optimum) : Keeps W (some (W, opt)) := by
  rintro _ ⟨⟩
  rfl

theorem keeps_bind {α : Type} {x : Option α} {f : α → Option (List Interval × Optimum)}
    (next : ∀ a, x = some a → Keeps W (f a)) : Keeps W (x >>= f) := by
  intro p done
  obtain ⟨a, found, rest⟩ := Option.bind_eq_some_iff.mp done
  exact next a found p rest

theorem keeps_ite {P : Prop} [Decidable P] {x y : Option (List Interval × Optimum)}
    (yes : Keeps W x) (no : Keeps W y) : Keeps W (if P then x else y) := by
  split <;> assumption

theorem keeps_cut {i : Int} {a : Interval} (found : slot W i = some a) (point : Int)
    (left right : Nat) (opt : Optimum) :
    Keeps W (some (W.set i.toNat (cut a point left right), opt)) := by
  rintro _ ⟨⟩
  exact map_set_slot found (cut_segment a point left right)

theorem lowerFrom_keeps (low high : Nat) (index balance : Int) :
    Keeps W (lowerFrom low high W index balance) := by
  unfold lowerFrom
  refine keeps_bind fun ⟨i, balance⟩ _ => ?_
  dsimp only
  refine keeps_ite (keeps_bind fun a found => ?_) (keeps_some _ _)
  refine keeps_ite (keeps_ite (keeps_ite (keeps_some _ _) (keeps_bind fun _ _ => keeps_some _ _))
    ?_) (keeps_some _ _)
  exact keeps_ite (keeps_cut found _ _ _ _) (keeps_cut found _ _ _ _)

theorem ensureLowerThreshold_keeps (low high : Nat) (current : Optimum) :
    Keeps W (ensureLowerThreshold low high W current) := by
  unfold ensureLowerThreshold
  refine keeps_ite (keeps_bind fun a found => ?_) (lowerFrom_keeps _ _ _ _)
  refine keeps_ite (lowerFrom_keeps _ _ _ _) (keeps_ite (keeps_ite ?_ ?_) (lowerFrom_keeps _ _ _ _))
  · exact keeps_ite (keeps_bind fun _ _ => keeps_some _ _) (keeps_some _ _)
  · exact keeps_ite (keeps_cut found _ _ _ _) (keeps_cut found _ _ _ _)

theorem ensureUpperThreshold_keeps (low high : Nat) (current : Optimum) :
    Keeps W (ensureUpperThreshold low high W current) := by
  unfold ensureUpperThreshold
  refine keeps_bind fun ⟨i, delta⟩ _ => ?_
  dsimp only
  refine keeps_ite (keeps_bind fun a found => ?_) (keeps_some _ _)
  refine keeps_ite (keeps_ite ?_ ?_) (keeps_ite (keeps_some _ _) (keeps_some _ _))
  · exact keeps_ite (keeps_some _ _)
      (keeps_ite (keeps_bind fun _ _ => keeps_some _ _) (keeps_some _ _))
  · exact keeps_ite (keeps_cut found _ _ _ _) (keeps_cut found _ _ _ _)

/-- A split may cut an interval, and keeps its segment. -/
theorem split_keeps (r : AdaptiveRebalancing) (c : Call) : Keeps c.weights (r.split c) := by
  unfold split
  refine keeps_bind fun opt _ => ?_
  unfold validateThresholds
  exact keeps_ite (ensureLowerThreshold_keeps _ _ _)
    (keeps_ite (ensureUpperThreshold_keeps _ _ _) (keeps_some _ _))

/-! ## The assigned segments -/

/-- No segment has two intervals. -/
def DistinctSegments (W : List Interval) : Prop :=
  ((W.map Interval.associatedSegment).filter (0 ≤ ·)).Nodup

instance (W : List Interval) : Decidable (DistinctSegments W) :=
  inferInstanceAs (Decidable (List.Nodup _))

/-- The special rule is applied to an interval. -/
def Halves (r : AdaptiveRebalancing) (c : Call) (a : Interval) : Prop :=
  c.weights.head? = some a ∧ r.special c a

/-- What `recursion` moves: sources are segments of the intervals, destinations are partitions
of the call, and the special rule alone moves a segment twice. -/
structure Assigned (r : AdaptiveRebalancing) (c : Call) (moved : List (Int × Nat)) : Prop where
  few : moved.length ≤ 2 * c.weights.length
  source : ∀ m ∈ moved, 0 ≤ m.1 ∧ m.1 ∈ c.weights.map Interval.associatedSegment
  destination : ∀ m ∈ moved, c.partStart ≤ m.2 ∧ m.2 < c.partStart + c.partLength
  ordered : moved.Pairwise fun m n => m.2 < n.2
  twice : ∀ e a, r.Reaches c e → r.Halves e a → 0 ≤ a.associatedSegment →
    ∃ k, (a.associatedSegment, k) ∈ moved ∧ (a.associatedSegment, k + 1) ∈ moved
  once : DistinctSegments c.weights → ∀ m ∈ moved, ∀ n ∈ moved, m.1 = n.1 → m ≠ n →
    ∃ e a, r.Reaches c e ∧ r.Halves e a ∧ a.associatedSegment = m.1

theorem mem_moveDetectorInfo {segment : Int} {destination : Nat} {m : Int × Nat} :
    m ∈ moveDetectorInfo segment destination ↔ 0 ≤ segment ∧ m = (segment, destination) := by
  unfold moveDetectorInfo
  split
  · next valid => simp [valid]
  · next invalid => simp [invalid]

theorem length_moveDetectorInfo_le (segment : Int) (destination : Nat) :
    (moveDetectorInfo segment destination).length ≤ 1 := by
  unfold moveDetectorInfo
  split <;> simp

/-- A call that is not adaptive makes no calls. -/
theorem Reaches.of_not_adaptive {e : Call} (reached : r.Reaches c e) (stops : ¬r.Adaptive c) :
    e = c := by
  rcases Relation.ReflTransGen.cases_head reached with rfl | ⟨d, call, -⟩
  · rfl
  · cases call <;> contradiction

/-- What an adaptive call reaches is reached from one of its two calls. -/
theorem Reaches.of_divided {e : Call} (reached : r.Reaches c e)
    (divided : r.split c = some (W, opt)) :
    e = c ∨ r.Reaches (c.left W opt) e ∨ r.Reaches (c.right W opt) e := by
  rcases Relation.ReflTransGen.cases_head reached with rfl | ⟨d, call, rest⟩
  · exact Or.inl rfl
  · cases call with
    | left _ divided' =>
        rw [divided] at divided'
        cases divided'
        exact Or.inr (Or.inl rest)
    | right _ divided' =>
        rw [divided] at divided'
        cases divided'
        exact Or.inr (Or.inr rest)

/-- A call that moves nothing. -/
theorem assigned_nil (stops : ¬r.Adaptive c) (whole : ∀ a, ¬r.Halves c a) : r.Assigned c [] where
  few := Nat.zero_le _
  source _ member := by cases member
  destination _ member := by cases member
  ordered := .nil
  twice e a reached halves := by
    rw [reached.of_not_adaptive stops] at halves
    exact absurd halves (whole a)
  once _ _ member := by cases member

/-- The base case. -/
theorem assigned_leaf {a : Interval} (leaf : c.partLength = 1) (first : c.weights.head? = some a) :
    r.Assigned c (moveDetectorInfo a.associatedSegment c.partStart) where
  few := by
    have one := length_moveDetectorInfo_le a.associatedSegment c.partStart
    have nonempty := List.length_pos_of_mem (List.mem_of_mem_head? first)
    omega
  source m member := by
    obtain ⟨valid, rfl⟩ := mem_moveDetectorInfo.mp member
    exact ⟨valid, List.mem_map_of_mem (List.mem_of_mem_head? first)⟩
  destination m member := by
    obtain ⟨-, rfl⟩ := mem_moveDetectorInfo.mp member
    simp only
    omega
  ordered := by
    unfold moveDetectorInfo
    split <;> simp
  twice e b reached halves := by
    rw [reached.of_not_adaptive fun adaptive => adaptive.1 leaf] at halves
    have := halves.2.1
    omega
  once _ m hm n hn _ differ := by
    rw [(mem_moveDetectorInfo.mp hm).2, (mem_moveDetectorInfo.mp hn).2] at differ
    exact absurd rfl differ

/-- The special rule. -/
theorem assigned_special {a : Interval} (first : c.weights.head? = some a)
    (halved : r.special c a) :
    r.Assigned c (moveDetectorInfo a.associatedSegment c.partStart ++
      moveDetectorInfo a.associatedSegment (c.partStart + 1)) where
  few := by
    have one := length_moveDetectorInfo_le a.associatedSegment c.partStart
    have two := length_moveDetectorInfo_le a.associatedSegment (c.partStart + 1)
    have single := halved.2.1
    rw [List.length_append]
    omega
  source m member := by
    rcases List.mem_append.mp member with member | member
    · obtain ⟨valid, rfl⟩ := mem_moveDetectorInfo.mp member
      exact ⟨valid, List.mem_map_of_mem (List.mem_of_mem_head? first)⟩
    · obtain ⟨valid, rfl⟩ := mem_moveDetectorInfo.mp member
      exact ⟨valid, List.mem_map_of_mem (List.mem_of_mem_head? first)⟩
  destination m member := by
    have length := halved.1
    rcases List.mem_append.mp member with member | member
    · obtain ⟨-, rfl⟩ := mem_moveDetectorInfo.mp member
      simp only
      omega
    · obtain ⟨-, rfl⟩ := mem_moveDetectorInfo.mp member
      simp only
      omega
  ordered := by
    unfold moveDetectorInfo
    split <;> simp
  twice e b reached halves valid := by
    have stops : ¬r.Adaptive c := by
      rintro ⟨-, b, first', other⟩
      rw [first] at first'
      cases first'
      exact other halved
    rw [reached.of_not_adaptive stops] at halves
    have same := halves.1
    rw [first] at same
    cases same
    exact ⟨c.partStart, by simp [moveDetectorInfo, valid], by simp [moveDetectorInfo, valid]⟩
  once _ m hm n hn same differ := by
    refine ⟨c, a, .refl, ⟨first, halved⟩, ?_⟩
    rcases List.mem_append.mp hm with member | member
    · rw [(mem_moveDetectorInfo.mp member).2]
    · rw [(mem_moveDetectorInfo.mp member).2]

/-- The two calls of an adaptive call share no segment. -/
theorem DistinctSegments.divide (distinct : DistinctSegments c.weights)
    (divided : r.split c = some (W, opt)) :
    DistinctSegments (c.left W opt).weights ∧ DistinctSegments (c.right W opt).weights ∧
      ∀ s, 0 ≤ s → s ∈ (c.left W opt).weights.map Interval.associatedSegment →
        s ∉ (c.right W opt).weights.map Interval.associatedSegment := by
  have kept := r.split_keeps c _ divided
  have right : (c.right W opt).weights.map Interval.associatedSegment =
      (W.drop (leftSize opt)).map Interval.associatedSegment := by
    simp only [Call.right, List.map_map]
    rfl
  unfold DistinctSegments at distinct ⊢
  rw [← kept, ← List.take_append_drop (leftSize opt) W, List.map_append, List.filter_append]
    at distinct
  rw [right]
  refine ⟨distinct.of_append_left, distinct.of_append_right, fun s valid inLeft inRight => ?_⟩
  exact List.disjoint_of_nodup_append distinct
    (List.mem_filter.mpr ⟨inLeft, by simpa using valid⟩)
    (List.mem_filter.mpr ⟨inRight, by simpa using valid⟩)

/-- What an adaptive call moves is what its two calls move. -/
theorem assigned_divided {left right : List (Int × Nat)} (adaptive : r.Adaptive c)
    (divided : r.split c = some (W, opt)) (first : r.Assigned (c.left W opt) left)
    (second : r.Assigned (c.right W opt) right) :
    r.Assigned c (left ++ right) := by
  have kept := r.split_keeps c _ divided
  have long : W.length = c.weights.length := by simpa using congrArg List.length kept
  have halves : leftSegments c.partLength + rightSegments c.partLength = c.partLength := by
    unfold leftSegments rightSegments
    omega
  have segments : (c.left W opt).weights.map Interval.associatedSegment ++
      (c.right W opt).weights.map Interval.associatedSegment =
        c.weights.map Interval.associatedSegment := by
    rw [← kept, ← List.take_append_drop (leftSize opt) W, List.map_append]
    simp only [Call.left, Call.right, List.map_map, List.take_append_drop]
    rfl
  have apart : ∀ m ∈ left, ∀ n ∈ right, m.2 < n.2 := by
    intro m hm n hn
    have below := (first.destination m hm).2
    have above := (second.destination n hn).1
    simp only [Call.left, Call.right] at below above
    omega
  refine ⟨?_, ?_, ?_, ?_, ?_, ?_⟩
  · have fewLeft := first.few
    have fewRight := second.few
    have sum := congrArg List.length segments
    simp only [List.length_append, List.length_map] at sum ⊢
    omega
  · intro m member
    rw [← segments, List.mem_append]
    rcases List.mem_append.mp member with hm | hm
    · exact ⟨(first.source m hm).1, Or.inl (first.source m hm).2⟩
    · exact ⟨(second.source m hm).1, Or.inr (second.source m hm).2⟩
  · intro m member
    rcases List.mem_append.mp member with hm | hm
    · have := first.destination m hm
      simp only [Call.left] at this
      omega
    · have := second.destination m hm
      simp only [Call.right] at this
      omega
  · exact List.pairwise_append.mpr ⟨first.ordered, second.ordered, apart⟩
  · intro e a reached halved valid
    rcases reached.of_divided divided with rfl | reached | reached
    · obtain ⟨-, b, head, other⟩ := adaptive
      rw [halved.1] at head
      cases head
      exact absurd halved.2 other
    · obtain ⟨k, one, two⟩ := first.twice e a reached halved valid
      exact ⟨k, List.mem_append_left _ one, List.mem_append_left _ two⟩
    · obtain ⟨k, one, two⟩ := second.twice e a reached halved valid
      exact ⟨k, List.mem_append_right _ one, List.mem_append_right _ two⟩
  · intro distinct m hm n hn same differ
    obtain ⟨distinctLeft, distinctRight, disjoint⟩ := distinct.divide divided
    rcases List.mem_append.mp hm with hm | hm <;> rcases List.mem_append.mp hn with hn | hn
    · obtain ⟨e, a, reached, found⟩ := first.once distinctLeft m hm n hn same differ
      exact ⟨e, a, reached.head (.left adaptive divided), found⟩
    · have source := first.source m hm
      exact absurd (same ▸ (second.source n hn).2) (disjoint m.1 source.1 source.2)
    · have source := first.source n hn
      exact absurd (same ▸ (second.source m hm).2) (disjoint n.1 source.1 source.2)
    · obtain ⟨e, a, reached, found⟩ := second.once distinctRight m hm n hn same differ
      exact ⟨e, a, reached.head (.right adaptive divided), found⟩

/-- What `recursion` moves, wherever it is defined. -/
theorem recursion_assigned {fuel : Nat} {out : Emitted}
    (completes : r.recursion fuel c = some out) :
    r.Assigned c out.moved := by
  induction fuel generalizing c out with
  | zero => cases completes
  | succ fuel ih =>
      unfold recursion at completes
      by_cases leaf : c.partLength = 1
      · rw [if_pos leaf] at completes
        cases first : c.weights.head? with
        | none =>
            rw [first] at completes
            cases completes
            exact assigned_nil (fun adaptive => adaptive.1 leaf) fun a halves => by
              rw [halves.1] at first
              cases first
        | some a =>
            rw [first] at completes
            cases completes
            exact assigned_leaf leaf first
      · rw [if_neg leaf] at completes
        cases first : c.weights.head? with
        | none =>
            rw [first] at completes
            cases completes
            refine assigned_nil ?_ fun a halves => ?_
            · rintro ⟨-, a, head, -⟩
              rw [head] at first
              cases first
            · rw [halves.1] at first
              cases first
        | some a =>
            rw [first] at completes
            by_cases halved : r.special c a
            · simp only [if_pos halved] at completes
              cases completes
              exact assigned_special first halved
            · simp only [if_neg halved, Option.bind_eq_bind, Option.bind_eq_some_iff] at completes
              obtain ⟨⟨W, opt⟩, divided, completes⟩ := completes
              simp only at completes
              split at completes
              · next =>
                  simp only [Option.bind_eq_some_iff] at completes
                  obtain ⟨left, runLeft, right, runRight, done⟩ := completes
                  cases done
                  exact assigned_divided ⟨leaf, a, first, halved⟩ divided (ih runLeft) (ih runRight)
              · cases completes

/-! ## The moves -/

/-- A call registers its move, where it is one. -/
theorem moveSection_eq {mdi : MoveDetectorInfo} (room : mdi.registered.length < mdi.capacity)
    (source destination : Nat) :
    mdi.moveSection source destination =
      some { mdi with registered := mdi.registered ++ proper [(source, destination)] } := by
  unfold MoveDetectorInfo.moveSection proper
  rw [if_neg (by omega)]
  by_cases leaves : source = destination
  · simp [leaves]
  · simp [leaves]

/-- The moves are registered in order, where there is space for all of them. -/
theorem registered_eq {moved : List (Int × Nat)} {mdi : MoveDetectorInfo}
    (room : mdi.registered.length + moved.length ≤ mdi.capacity) :
    moved.foldlM (fun mdi move => mdi.moveSection (uint32 move.1) (move.2 % 2 ^ 32)) mdi =
      some { mdi with
        registered := mdi.registered ++
          proper (moved.map fun m => (uint32 m.1, m.2 % 2 ^ 32)) } := by
  induction moved generalizing mdi with
  | nil => simp [proper]
  | cons m moved ih =>
      simp only [List.length_cons] at room
      have shorter : (proper [(uint32 m.1, m.2 % 2 ^ 32)]).length ≤ 1 := List.length_filter_le _ _
      rw [List.foldlM_cons, moveSection_eq (by omega), Option.bind_eq_bind, Option.bind_some, ih]
      · rw [List.append_assoc, ← proper_append]
        rfl
      · simp only [List.length_append]
        omega

/-- The assigned segments, as segments of the array. -/
def moves (windowStart : Nat) (moved : List (Int × Nat)) : List (Nat × Nat) :=
  moved.map fun m => (windowStart + m.1.toNat, windowStart + m.2)

/-- The entries follow the segments: each partition that is assigned to a segment has its
entry, a segment that no partition is assigned to instead has none, and the other entries
are kept. -/
structure Follows (windowStart : Nat) (moved : List (Int × Nat)) (d d' : Detector) : Prop where
  destination : ∀ m ∈ moved, d'.entries (windowStart + m.2) = d.entries (windowStart + m.1.toNat)
  source : ∀ m ∈ moved, (∀ n ∈ moved, (n.2 : Int) ≠ m.1) →
    d'.entries (windowStart + m.1.toNat) = Entry.zero
  other : ∀ x, (∀ m ∈ moved, x ≠ windowStart + m.1.toNat ∧ x ≠ windowStart + m.2) →
    d'.entries x = d.entries x

section Rebalance

variable {fuel windowStart : Nat} {root : Call} {out : Emitted} {d : Detector}

theorem Assigned.moves_nodup {moved : List (Int × Nat)} (assigned : r.Assigned c moved)
    (windowStart : Nat) : ((moves windowStart moved).map Prod.snd).Nodup := by
  unfold moves
  rw [List.map_map, List.Nodup, List.pairwise_map]
  refine assigned.ordered.imp fun {m n} less => ?_
  simp only [Function.comp]
  omega

/-- The moves of a rebalance never run out of space, and are carried out within the window. -/
theorem rebalanceRunApma_eq (start : root.partStart = 0)
    (inside : ∀ a ∈ root.weights, a.associatedSegment < root.partLength)
    (room : windowStart + root.partLength ≤ d.capacity) (fits : d.capacity < 2 ^ 32)
    (completes : r.recursion fuel root = some out) :
    r.rebalanceRunApma fuel windowStart root d = some (out.partitions,
      { d with
        entries := relocate Entry.zero (proper (moves windowStart out.moved)) d.entries }) := by
  have assigned := recursion_assigned completes
  have bounds : ∀ m ∈ out.moved, 0 ≤ m.1 ∧ m.1 < root.partLength ∧ m.2 < root.partLength := by
    intro m member
    obtain ⟨valid, source⟩ := assigned.source m member
    obtain ⟨a, ha, same⟩ := List.mem_map.mp source
    have below := inside a ha
    have destination := assigned.destination m member
    omega
  have converted : out.moved.map (fun m => (uint32 m.1, m.2 % 2 ^ 32)) =
      out.moved.map fun m => (m.1.toNat, m.2) := by
    refine List.map_congr_left fun m member => ?_
    have := bounds m member
    have same := uint32_of_fits this.1 (by omega)
    rw [Nat.mod_eq_of_lt (by omega), show uint32 m.1 = m.1.toNat by omega]
  have shifted : (out.moved.map fun m => (m.1.toNat, m.2)).map
      (fun m => (windowStart + m.1, windowStart + m.2)) = moves windowStart out.moved := by
    rw [List.map_map]
    rfl
  unfold rebalanceRunApma MoveDetectorInfo.create MoveDetectorInfo.resize
  simp only [List.length_nil, Nat.not_lt_zero, if_false, Option.bind_eq_bind, Option.bind_some,
    completes]
  rw [registered_eq (by simpa using assigned.few), Option.bind_some, List.nil_append, converted]
  unfold MoveDetectorInfo.move MoveDetectorInfo.segments
  simp only [proper_shift, shifted]
  rw [if_pos, Option.bind_some]
  intro n member
  obtain ⟨m, hm, rfl⟩ := List.mem_map.mp (mem_proper.mp member).1
  have := bounds m hm
  simp only
  omega

/-- **The entries follow their segments.** Let the segments of the hammered intervals of a
window be distinct, and the partitioning complete. Then the moves never run out of space and
change the entries alone, and the entries follow exactly when the special rule is applied to
no interval whose segment has an entry. -/
theorem rebalanceRunApma_moved (distinct : DistinctSegments root.weights)
    (start : root.partStart = 0)
    (inside : ∀ a ∈ root.weights, a.associatedSegment < root.partLength)
    (room : windowStart + root.partLength ≤ d.capacity) (fits : d.capacity < 2 ^ 32)
    (completes : r.recursion fuel root = some out) :
    ∃ d', r.rebalanceRunApma fuel windowStart root d = some (out.partitions, d') ∧
      { d' with entries := d.entries } = d ∧
      (Follows windowStart out.moved d d' ↔
        ∀ c a, r.Reaches root c → r.Halves c a → 0 ≤ a.associatedSegment →
          d.entries (windowStart + a.associatedSegment.toNat) = Entry.zero) := by
  have assigned := recursion_assigned completes
  have nodup := assigned.moves_nodup windowStart
  have mem : ∀ m ∈ out.moved,
      (windowStart + m.1.toNat, windowStart + m.2) ∈ moves windowStart out.moved :=
    fun m member => List.mem_map_of_mem member
  refine ⟨_, rebalanceRunApma_eq start inside room fits completes, rfl, ?_⟩
  constructor
  · intro follows c a reached halves valid
    obtain ⟨k, one, two⟩ := assigned.twice c a reached halves valid
    refine (relocate_follows nodup).mp ?_ _ (mem _ one) _ (mem _ two) rfl ?_
    · rintro _ member
      obtain ⟨m, hm, rfl⟩ := List.mem_map.mp member
      exact follows.destination m hm
    · intro same
      have := congrArg Prod.snd same
      simp only at this
      omega
  · intro whole
    refine ⟨fun m member => ?_, fun m member free => ?_, fun x free => ?_⟩
    · refine (relocate_follows nodup).mpr ?_ _ (mem m member)
      rintro _ first _ second same differ
      obtain ⟨m, hm, rfl⟩ := List.mem_map.mp first
      obtain ⟨n, hn, rfl⟩ := List.mem_map.mp second
      have validM := (assigned.source m hm).1
      have validN := (assigned.source n hn).1
      simp only at same ⊢
      obtain ⟨e, a, reached, halves, segment⟩ :=
        assigned.once distinct m hm n hn (by omega) fun equal => differ (by rw [equal])
      rw [← segment]
      exact whole e a reached halves (by omega)
    · refine relocate_source (mem m member) ?_
      intro _ moved
      obtain ⟨n, hn, rfl⟩ := List.mem_map.mp moved
      have valid := (assigned.source m member).1
      have := free n hn
      simp only
      omega
    · refine relocate_other ?_
      intro _ moved
      obtain ⟨n, hn, rfl⟩ := List.mem_map.mp moved
      exact free n hn

end Rebalance

/-! ## A full segment next to another one -/

/-- A detector of four segments, each with its own key. -/
def fourEntries : Detector :=
  { Detector.create 4 8 with entries := fun i => { Entry.zero with keyFwd := i + 1 } }

/-- Two hammered segments, which exchange their entries. -/
def exchanged : Call := rootCall [.make 0 2 1 1, .make 38 2 1 0] 2 2 60

/-- A full segment, which the special rule divides. -/
def fullHammered : Call := rootCall [.make 0 32 1 0] 1 2 42

theorem rebalanceRunApma_moved_exchanged :
    ∃ d', lenient.rebalanceRunApma 2 2 exchanged fourEntries = some ([⟨32, 1⟩, ⟨28, 1⟩], d') ∧
      Follows 2 [(1, 0), (0, 1)] fourEntries d' := by
  have completes :
      lenient.recursion 2 exchanged = some ⟨[⟨32, 1⟩, ⟨28, 1⟩], [(1, 0), (0, 1)]⟩ := by
    decide +kernel
  obtain ⟨d', run, -, follows⟩ := rebalanceRunApma_moved (by decide) rfl (by decide)
    (show 2 + exchanged.partLength ≤ fourEntries.capacity by decide) (by decide) completes
  refine ⟨d', run, follows.mpr fun c a reached halves => ?_⟩
  rcases reached.two_or_leaf rfl with rfl | leaf
  · exact absurd halves.2.2.1 (by decide)
  · have := halves.2.1
    omega

/-- The first partition keeps the full segment, and loses its entry. -/
theorem rebalanceRunApma_zeroed :
    DistinctSegments fullHammered.weights ∧
      lenient.recursion 1 fullHammered = some ⟨[⟨42, 2⟩], [(0, 0), (0, 1)]⟩ ∧
      ∃ d', lenient.rebalanceRunApma 1 2 fullHammered fourEntries = some ([⟨42, 2⟩], d') ∧
        ¬Follows 2 [(0, 0), (0, 1)] fourEntries d' := by
  have completes : lenient.recursion 1 fullHammered = some ⟨[⟨42, 2⟩], [(0, 0), (0, 1)]⟩ := by
    decide +kernel
  refine ⟨by decide, completes, _,
    rebalanceRunApma_eq rfl (by decide) (by decide) (by decide) completes, fun follows => ?_⟩
  have kept := congrArg Entry.keyFwd (follows.destination (0, 0) (by simp))
  exact absurd kept (by decide)

end AdaptiveRebalancing

end Rma
