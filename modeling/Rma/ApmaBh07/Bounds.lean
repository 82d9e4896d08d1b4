import Rma.ApmaBh07.Insert

/-!
# The thresholds of the windows

`Respected` says that the partitions of a request keep the thresholds of the calibrator tree
at every window, and that no segment is left empty or too full. It depends on the rounding of
the thresholds: a window can be divided only if its elements are at least twice the least
number of a half and at most twice the greatest one.

`Feasible` says so of every call; `Admitted` looks at the first one only, and at the thresholds:
the numbers that they admit at a height are to be twice as many, or fewer, as those at the height
below. It is enough (`Admitted.feasible`).
-/

namespace Rma

open Base

namespace ApmaBh07

section Definitions

variable (p : ApmaBh07) (weights : List PermutedItem) (resize canFill : Bool)

/-- The number of elements of a window is within the thresholds of its height. -/
structure Bounded (c : Call) : Prop where
  lower : (c.numSegments * p.segmentCapacity : ℚ) * (p.thresholds c.height).1 ≤ c.cardinality
  upper : (c.cardinality : ℚ) ≤ c.numSegments * p.segmentCapacity * (p.thresholds c.height).2

/-- The range of the split is not empty, and no difference of the call wraps. -/
structure InRange (c : Call) : Prop where
  sizeMax : segmentsChildren c.height ≤ p.capacityChildren c.height
  fillMax : p.sizeMin c.height ≤ c.cardinality
  order : p.splitMin canFill c ≤ p.splitMax canFill c
  right : ∀ s, p.findSplit weights canFill c = some s → s.splitnum ≤ c.cardinality

/-- The partitions of a window keep to the calibrator tree. -/
structure Respected (first : Call) : Prop where
  bounded : ∀ c, p.Reaches weights resize canFill first c → p.Bounded c
  inRange : ∀ c, p.Reaches weights resize canFill first c → Uneven resize c →
    p.InRange weights canFill c
  divided : ∃ ps, p.computeRec weights resize canFill first.height first = some ps ∧
    (ps.map Partition.segments).sum = first.numSegments ∧
    (ps.map Partition.cardinality).sum = first.cardinality ∧
    ∀ q ∈ Partition.quotas ps, 1 ≤ q ∧ q ≤ p.segmentCapacity ∧
      (canFill = false → q ≤ p.segmentCapacity - 1)

/-- The elements of a window can be divided among its halves. -/
@[mk_iff]
structure Divisible (c : Call) : Prop where
  nonempty : p.sizeMin c.height ≤ p.sizeMax canFill c.height
  lower : 2 * p.sizeMin c.height ≤ c.cardinality
  upper : c.cardinality ≤ 2 * p.sizeMax canFill c.height

/-- The loop over the splits stays within the vector: no weight of the slice is in the range of
the split, or the slice does not end the vector. -/
def Readable (c : Call) : Prop :=
  c.weightsStart + c.weightsLength < weights.length ∨
    ∀ w ∈ slice weights c, p.location w < p.indexStart c + p.splitMin canFill c ∨
      p.indexStart c + p.splitMax canFill c ≤ p.location w

/-- What a request has to meet: its window is within the thresholds, at every call that divides
its window the elements can be divided, and every other call has an element for each segment. -/
structure Feasible (first : Call) : Prop where
  lower : (first.numSegments * p.segmentCapacity : ℚ) * (p.thresholds first.height).1 ≤
    first.cardinality
  upper : resize = true → (first.cardinality : ℚ) ≤
    first.numSegments * p.segmentCapacity * (p.thresholds first.height).2
  divisible : ∀ c, p.Reaches weights resize canFill first c → Uneven resize c →
    p.Divisible canFill c ∧ p.Readable weights canFill c
  enough : ∀ c, p.Reaches weights resize canFill first c → ¬Uneven resize c →
    c.numSegments ≤ c.cardinality

/-- A window of this height can be divided whatever number of elements it is given: twice the
numbers that the thresholds admit in a half are admitted in the window. -/
@[mk_iff]
structure Level (k : Nat) : Prop where
  nonempty : p.sizeMin k ≤ p.sizeMax canFill k
  lower : 2 * p.sizeMin k ≤ p.sizeMin (k + 1)
  upper : p.sizeMax canFill (k + 1) ≤ 2 * p.sizeMax canFill k

/-- Whether windows of this height are divided, where they have weights. -/
def Halved (k : Nat) : Prop := 2 ≤ k ∧ ¬(resize = true ∧ k = 2)

/-- No weight is in the range of the split of any window of this height. -/
def Clear (first : Call) (k : Nat) : Prop :=
  ∀ j < 2 ^ (first.height - k), ∀ w ∈ weights,
    p.location w < p.segmentCapacity * (first.segmentStart + j * 2 ^ (k - 1)) + p.sizeMin k ∨
      p.segmentCapacity * (first.segmentStart + j * 2 ^ (k - 1)) + p.sizeMax canFill k ≤
        p.location w

/-- What a request has to meet: its window is within the thresholds and has an element for each
segment. Where it has weights, its elements can be divided and no weight is at the split; and the
windows below, of every height that is divided, can be divided whatever they are given, have no
weight at their splits, and leave an element for each segment. -/
@[mk_iff]
structure Admitted (first : Call) : Prop where
  lower : (first.numSegments * p.segmentCapacity : ℚ) * (p.thresholds first.height).1 ≤
    first.cardinality
  upper : resize = true → (first.cardinality : ℚ) ≤
    first.numSegments * p.segmentCapacity * (p.thresholds first.height).2
  enough : first.numSegments ≤ first.cardinality
  divisible : Uneven resize first → p.Divisible canFill first
  readable : Uneven resize first → p.Readable weights canFill first
  levels : Uneven resize first → ∀ k < first.height, Halved resize k → p.Level canFill k
  clear : Uneven resize first → ∀ k < first.height, Halved resize k →
    p.Clear weights canFill first k
  filled : Uneven resize first → ∀ k < first.height, Halved resize (k + 1) →
    2 ^ (k - 1) ≤ p.sizeMin (k + 1)

instance (c : Call) : Decidable (p.Divisible canFill c) :=
  decidable_of_iff' _ (divisible_iff p canFill c)

instance (c : Call) : Decidable (p.Readable weights canFill c) := inferInstanceAs (Decidable (_ ∨ _))

instance (k : Nat) : Decidable (p.Level canFill k) := decidable_of_iff' _ (level_iff p canFill k)

instance (k : Nat) : Decidable (Halved resize k) := inferInstanceAs (Decidable (_ ∧ _))

instance (first : Call) (k : Nat) : Decidable (p.Clear weights canFill first k) :=
  inferInstanceAs (Decidable (∀ j < _, ∀ w ∈ weights, _ ∨ _))

instance (first : Call) : Decidable (p.Admitted weights resize canFill first) :=
  decidable_of_iff' _ (admitted_iff p weights resize canFill first)

end Definitions

/-! ## The loop over the splits -/

section Search

variable {p : ApmaBh07} {weights : List PermutedItem} {resize canFill : Bool} {c : Call}
  {early late : List PermutedItem}

/-- What holds of the variables of the loop in any case. -/
structure Moving (p : ApmaBh07) (canFill : Bool) (c : Call) (turns : Nat) (s : Split)
    (weightsPos : Nat) : Prop where
  weightsPos : weightsPos = c.weightsStart + c.weightsLength
  weightsSplit : s.weightsSplit ≤ c.weightsLength
  lower : p.splitMin canFill c ≤ s.splitnum
  upper : s.splitnum ≤ p.splitMin canFill c + turns

/-- Where the next weight is. -/
structure Pointing (c : Call) (s : Split) : Prop where
  lower : c.weightsStart ≤ s.nextIndex
  upper : s.nextIndex ≤ c.weightsStart + c.weightsLength
  next : s.nextPtr ≠ none → s.nextIndex < c.weightsStart + c.weightsLength

/-- The pointer of the weight at a position. -/
theorem pointerAt_spec {pos stop : Nat} {nextPtr : Option Nat}
    (found : p.pointerAt weights pos stop = some nextPtr) : nextPtr ≠ none → pos < stop := by
  intro some
  rw [pointerAt] at found
  by_contra beyond
  rw [if_neg beyond, Option.some.injEq] at found
  exact some found.symm

/-- One turn: the weight at the split moves, or stays, and the split is the best one, or not. -/
theorem splitTurn_cases {weightsPos i : Nat} {s s' : Split}
    (turn : p.splitTurn weights c weightsPos i s = some s') : ∃ m,
      (s.nextPtr = some (p.indexStart c + i) ∧ p.moveWeight weights c weightsPos s = some m ∨
        m = s) ∧
      (s' = m ∨ s' = { m with
        optvalue := p.curvalue c i m.sumLeft m.sumRight
        splitnum := i
        weightsSplit := subSize m.nextIndex c.weightsStart }) := by
  have choice : ∀ m : Split, (if p.curvalue c i m.sumLeft m.sumRight < m.optvalue then
      some { m with
        optvalue := p.curvalue c i m.sumLeft m.sumRight
        splitnum := i
        weightsSplit := subSize m.nextIndex c.weightsStart }
      else some m) = some s' → s' = m ∨ s' = { m with
        optvalue := p.curvalue c i m.sumLeft m.sumRight
        splitnum := i
        weightsSplit := subSize m.nextIndex c.weightsStart } := by
    intro m chosen
    split at chosen
    · exact .inr (Option.some.inj chosen).symm
    · exact .inl (Option.some.inj chosen).symm
  unfold splitTurn at turn
  by_cases met : s.nextPtr = some (p.indexStart c + i)
  · rw [if_pos met] at turn
    obtain ⟨m, moved, rest⟩ := Option.bind_eq_some_iff.mp turn
    exact ⟨m, .inl ⟨met, moved⟩, choice m rest⟩
  · rw [if_neg met] at turn
    exact ⟨s, .inr rfl, choice s turn⟩

/-- A turn of the loop, where a weight is left. -/
theorem splitTurn_moving {turns : Nat} {s s' : Split} {weightsPos : Nat}
    (moving : Moving p canFill c turns s weightsPos) (pointing : Pointing c s)
    (turn : p.splitTurn weights c weightsPos (p.splitMin canFill c + turns + 1) s = some s') :
    Moving p canFill c (turns + 1) s' weightsPos ∧ Pointing c s' := by
  rcases moving with ⟨pos, split, lower, upper⟩
  rcases splitTurn_cases turn with ⟨m, moved, chosen⟩
  have kept : m.weightsSplit = s.weightsSplit ∧ m.splitnum = s.splitnum ∧ Pointing c m := by
    rcases moved with ⟨met, moved⟩ | rfl
    · unfold moveWeight at moved
      simp only [Option.bind_eq_bind, Option.bind_eq_some_iff, Option.some.injEq] at moved
      obtain ⟨w, read, nextPtr, found, rfl⟩ := moved
      have before := pointing.next (by rw [met]; exact Option.some_ne_none _)
      exact ⟨rfl, rfl, pointing.lower.trans (Nat.le_succ _), before, pointerAt_spec found⟩
    · exact ⟨rfl, rfl, pointing⟩
  rcases kept with ⟨sameSplit, sameNum, pointing'⟩
  rcases chosen with rfl | rfl
  · exact ⟨⟨pos, sameSplit ▸ split, sameNum ▸ lower, by omega⟩, pointing'⟩
  · have start := pointing'.lower
    have stop := pointing'.upper
    refine ⟨⟨pos, ?_, ?_, ?_⟩, pointing'.lower, pointing'.upper, pointing'.next⟩
    · simp only [subSize, if_pos start]
      omega
    · simp only
      omega
    · simp only
      omega

/-- The variables after some turns. -/
theorem splitAfter_moving (sorted : weights.Pairwise fun w1 w2 => w1.pointer ≤ w2.pointer)
    (inside : c.weightsStart + c.weightsLength ≤ weights.length)
    (capacity : p.splitMax canFill c ≤ p.capacityChildren c.height) {turns : Nat}
    (within : turns ≤ p.splitMax canFill c - p.splitMin canFill c) {s : Split} {weightsPos : Nat}
    (after : p.splitAfter weights canFill c turns = some (s, weightsPos)) :
    Moving p canFill c turns s weightsPos := by
  rcases p.exists_divided sorted canFill c with ⟨early, late, divided, front⟩
  rcases divided.late_eq inside with ⟨length, -⟩
  by_cases none : late = []
  · rcases splitAfter_held divided front inside capacity within
      (by rw [none]; exact nofun) with ⟨s', after', held⟩
    rw [after, Option.some.injEq, Prod.mk.injEq] at after'
    rcases after' with ⟨rfl, rfl⟩
    exact ⟨rfl, by have := held.weightsSplit; omega, held.lower, held.upper⟩
  · have some := List.length_pos_of_ne_nil none
    have both : Moving p canFill c turns s weightsPos ∧ Pointing c s := by
      induction turns generalizing s weightsPos with
      | zero =>
          have init := splitInit_eq divided front inside
          rw [splitAfter, init, Option.some.injEq, Prod.mk.injEq] at after
          rcases after with ⟨rfl, rfl⟩
          refine ⟨⟨rfl, by simp only; omega, le_rfl, le_rfl⟩, ?_⟩
          simp only [if_neg none]
          constructor <;> simp only <;> omega
      | succ turns ih =>
          obtain ⟨⟨m, pos⟩, before, rest⟩ := Option.bind_eq_some_iff.mp after
          obtain ⟨m', turn, rest⟩ := Option.bind_eq_some_iff.mp rest
          cases rest
          rcases ih (by omega) before with ⟨moving, pointing⟩
          exact splitTurn_moving moving pointing turn
    exact both.1

/-- The split that the loop finds. -/
theorem findSplit_bounds (sorted : weights.Pairwise fun w1 w2 => w1.pointer ≤ w2.pointer)
    (inside : c.weightsStart + c.weightsLength ≤ weights.length)
    (capacity : p.splitMax canFill c ≤ p.capacityChildren c.height) {s : Split}
    (found : p.findSplit weights canFill c = some s) :
    s.weightsSplit ≤ c.weightsLength ∧ p.splitMin canFill c ≤ s.splitnum ∧
      (p.splitMin canFill c ≤ p.splitMax canFill c → s.splitnum ≤ p.splitMax canFill c) := by
  obtain ⟨⟨s', pos⟩, after, same⟩ := Option.map_eq_some_iff.mp found
  simp only at same
  subst same
  have moving := splitAfter_moving sorted inside capacity le_rfl after
  have upper := moving.upper
  exact ⟨moving.weightsSplit, moving.lower, fun order => by omega⟩

/-- A turn is defined when the slice does not end the vector. -/
theorem splitTurn_defined {weightsPos i : Nat} {s : Split} (room : weightsPos < weights.length)
    (inside : c.weightsStart + c.weightsLength ≤ weights.length) :
    ∃ s', p.splitTurn weights c weightsPos i s = some s' := by
  have moved : ∃ m, p.moveWeight weights c weightsPos s = some m := by
    have pointed : ∃ nextPtr, p.pointerAt weights (s.nextIndex + 1)
        (c.weightsStart + c.weightsLength) = some nextPtr := by
      rw [pointerAt]
      split
      · rw [List.getElem?_eq_getElem (by omega)]
        exact ⟨_, rfl⟩
      · exact ⟨_, rfl⟩
    obtain ⟨nextPtr, found⟩ := pointed
    rw [moveWeight, List.getElem?_eq_getElem room]
    simp only [Option.bind_eq_bind, Option.bind_some, found]
    exact ⟨_, rfl⟩
  obtain ⟨m, moved⟩ := moved
  unfold splitTurn
  by_cases met : s.nextPtr = some (p.indexStart c + i)
  · rw [if_pos met, moved]
    simp only [Option.bind_eq_bind, Option.bind_some]
    split <;> exact ⟨_, rfl⟩
  · rw [if_neg met]
    simp only [Option.bind_eq_bind, Option.bind_some]
    split <;> exact ⟨_, rfl⟩

/-- The loop is defined up to a turn when it is defined up to a later one. -/
theorem splitAfter_of_le {turns later : Nat} (order : turns ≤ later)
    (defined : (p.splitAfter weights canFill c later).isSome) :
    (p.splitAfter weights canFill c turns).isSome := by
  induction later with
  | zero =>
      rw [Nat.le_zero.mp order]
      exact defined
  | succ later ih =>
      rcases Nat.eq_or_lt_of_le order with rfl | before
      · exact defined
      · apply ih (Nat.le_of_lt_succ before)
        rw [splitAfter] at defined
        cases after : p.splitAfter weights canFill c later with
        | none => simp [after] at defined
        | some _ => rfl

/-- The search is defined exactly when it stays within the vector. -/
theorem findSplit_defined_iff (sorted : weights.Pairwise fun w1 w2 => w1.pointer ≤ w2.pointer)
    (inside : c.weightsStart + c.weightsLength ≤ weights.length)
    (capacity : p.splitMax canFill c ≤ p.capacityChildren c.height) :
    (p.findSplit weights canFill c).isSome ↔ p.Readable weights canFill c := by
  rcases p.exists_divided sorted canFill c with ⟨early, late, divided, front⟩
  rw [findSplit, Option.isSome_map]
  constructor
  · intro defined
    by_contra past
    rw [Readable, not_or, not_lt] at past
    obtain ⟨ends, some⟩ := past
    simp only [not_forall, not_or, not_lt, not_le] at some
    obtain ⟨w, member, start, near⟩ := some
    have late_ : w ∈ late := by
      rw [divided.slice, List.mem_append] at member
      exact member.resolve_left fun first => absurd (divided.before w first) (not_lt.mpr start)
    rcases exists_met divided front (divided.sorted_late sorted) inside capacity late_ near with
      ⟨turns, s, before, after, met⟩
    have next := splitAfter_of_le before defined
    rw [splitAfter, after] at next
    have missing : weights[c.weightsStart + c.weightsLength]? = none :=
      List.getElem?_eq_none (by omega)
    simp [splitTurn, met, moveWeight, missing] at next
  · intro readable
    rcases readable with room | quiet
    · have all : ∀ turns, turns ≤ p.splitMax canFill c - p.splitMin canFill c →
          (p.splitAfter weights canFill c turns).isSome := by
        intro turns within
        induction turns with
        | zero =>
            rw [splitAfter, splitInit_eq divided front inside]
            rfl
        | succ turns ih =>
            obtain ⟨⟨s, weightsPos⟩, after⟩ := Option.isSome_iff_exists.mp (ih (by omega))
            have moving := splitAfter_moving sorted inside capacity (by omega) after
            obtain ⟨s', turn⟩ := splitTurn_defined (p := p) (i := p.splitMin canFill c + turns + 1)
              (s := s) (moving.weightsPos ▸ room) inside
            rw [splitAfter, after]
            simp only [Option.bind_eq_bind, Option.bind_some, turn]
            rfl
      exact all _ le_rfl
    · have far : ∀ w ∈ late, p.indexStart c + (p.splitMin canFill c +
          (p.splitMax canFill c - p.splitMin canFill c)) ≤ p.location w := by
        intro w member
        have lower := divided.after w member
        rcases quiet w (by rw [divided.slice]; exact List.mem_append_right _ member) with h | h
        · omega
        · omega
      rcases splitAfter_held divided front inside capacity le_rfl far with ⟨s, after, _⟩
      rw [after]
      rfl

end Search

/-! ## One call -/

section Call

variable {p : ApmaBh07} {weights : List PermutedItem} {resize canFill : Bool} {c : Call}

/-- The range of the split is in order exactly when the elements can be divided. -/
theorem order_iff_divisible : p.sizeMin c.height ≤ c.cardinality ∧
    p.splitMin canFill c ≤ p.splitMax canFill c ↔ p.Divisible canFill c := by
  constructor
  · rintro ⟨least, order⟩
    rw [splitMin, splitMax, subSize, if_pos least] at order
    constructor <;> omega
  · rintro ⟨nonempty, lower, upper⟩
    rw [splitMin, splitMax, subSize, if_pos (by omega)]
    omega

/-- What the calls of a request keep. -/
structure Fed (p : ApmaBh07) (weights : List PermutedItem) (canFill : Bool) (c : Call) : Prop where
  window : p.Window c
  bounded : p.Bounded c
  slice : c.weightsStart + c.weightsLength ≤ weights.length
  room : canFill = false → c.cardinality ≤ c.numSegments * (p.segmentCapacity - 1)

/-- The upper density of a window is not negative. -/
theorem theta_nonneg (p : ApmaBh07) {height : Nat} (leaf : 1 ≤ height) (root : height ≤ p.height) :
    0 ≤ (p.thresholds height).2 := by
  have least := p.densityBounds.le_theta leaf root
  have rho := p.densityBounds.rho0_nonneg
  have order := p.densityBounds.rho0_lt
  have order' := p.densityBounds.rhoH_le
  exact (rho.trans (order.le.trans order')).trans least

/-- As many elements as a half admits are within its thresholds. -/
theorem half_bounds (tall : 2 ≤ c.height) (low : c.height ≤ p.height) {n : Nat}
    (lower : p.sizeMin c.height ≤ n) (upper : n ≤ p.sizeMax canFill c.height) :
    (segmentsChildren c.height * p.segmentCapacity : ℚ) * (p.thresholds (c.height - 1)).1 ≤ n ∧
      (n : ℚ) ≤ segmentsChildren c.height * p.segmentCapacity * (p.thresholds (c.height - 1)).2 ∧
      (canFill = false → n ≤ segmentsChildren c.height * (p.segmentCapacity - 1)) := by
  have capacity : (p.capacityChildren c.height : ℚ) =
      segmentsChildren c.height * p.segmentCapacity := by
    rw [capacityChildren, Nat.cast_mul, mul_comm]
  have nonneg := theta_nonneg p (show 1 ≤ c.height - 1 by omega) (by omega)
  rw [← capacity]
  refine ⟨?_, ?_, ?_⟩
  · rw [mul_comm]
    rw [sizeMin, share_rho] at lower
    exact (Nat.le_ceil _).trans (Nat.cast_le.mpr lower)
  · have floor : n ≤ ⌊(p.thresholds (c.height - 1)).2 * p.capacityChildren c.height⌋₊ := by
      rw [sizeMax, share_theta] at upper
      split at upper
      · exact upper
      · exact upper.trans (min_le_left _ _)
    rw [mul_comm]
    exact (Nat.cast_le.mpr floor).trans (Nat.floor_le (mul_nonneg nonneg (Nat.cast_nonneg _)))
  · intro spare
    rw [sizeMax, spare] at upper
    have less : n ≤ p.capacityChildren c.height - segmentsChildren c.height := by
      simpa using upper.trans (min_le_right _ _)
    rwa [Nat.mul_sub, Nat.mul_one, mul_comm, ← capacityChildren]

/-- The halves get numbers of elements that are admitted in a half. -/
theorem Fed.split_bounds (fed : Fed p weights canFill c)
    (sorted : weights.Pairwise fun w1 w2 => w1.pointer ≤ w2.pointer) (uneven : Uneven resize c)
    (divisible : p.Divisible canFill c) {s : Split}
    (found : p.findSplit weights canFill c = some s) :
    s.weightsSplit ≤ c.weightsLength ∧ s.splitnum ≤ c.cardinality ∧
      (p.sizeMin c.height ≤ s.splitnum ∧ s.splitnum ≤ p.sizeMax canFill c.height) ∧
      p.sizeMin c.height ≤ c.cardinality - s.splitnum ∧
        c.cardinality - s.splitnum ≤ p.sizeMax canFill c.height := by
  rcases fed.window.halves uneven with ⟨tall, -, -⟩
  rcases findSplit_bounds sorted fed.slice (splitMax_le p canFill tall fed.window.height_le) found
    with ⟨within, lower, upper⟩
  rcases order_iff_divisible.mpr divisible with ⟨least, order⟩
  have last := upper order
  have fillMax : s.splitnum ≤ c.cardinality - p.sizeMin c.height := by
    have bound := last.trans (min_le_right _ _)
    rwa [subSize, if_pos least] at bound
  have fillMin : c.cardinality - p.sizeMax canFill c.height ≤ s.splitnum :=
    (le_max_right _ _).trans lower
  exact ⟨within, by omega, ⟨(le_max_left _ _).trans lower, last.trans (min_le_left _ _)⟩, by omega,
    by omega⟩

/-- The calls on the halves keep what a call keeps. -/
theorem Fed.children (fed : Fed p weights canFill c)
    (sorted : weights.Pairwise fun w1 w2 => w1.pointer ≤ w2.pointer) (uneven : Uneven resize c)
    (divisible : p.Divisible canFill c) {s : Split}
    (found : p.findSplit weights canFill c = some s) :
    s.splitnum ≤ c.cardinality ∧ Fed p weights canFill (c.left s) ∧
      Fed p weights canFill (c.right s) := by
  rcases fed.window.halves uneven with ⟨tall, left, right⟩
  have low := fed.window.height_le
  have inside := fed.slice
  rcases fed.split_bounds sorted uneven divisible found with
    ⟨within, most, ⟨leastL, mostL⟩, leastR, mostR⟩
  rcases half_bounds tall low leastL mostL with ⟨lowerL, upperL, roomL⟩
  rcases half_bounds tall low leastR mostR with ⟨lowerR, upperR, roomR⟩
  have segmentsL : (c.left s).numSegments = segmentsChildren c.height := left
  have segmentsR : (c.right s).numSegments = segmentsChildren c.height := right
  have cardinalityR : (c.right s).cardinality = c.cardinality - s.splitnum := if_pos most
  have lengthR : (c.right s).weightsLength = c.weightsLength - s.weightsSplit := if_pos within
  refine ⟨most, ⟨fed.window.left uneven s, ⟨?_, ?_⟩, ?_, ?_⟩,
    ⟨fed.window.right uneven s, ⟨?_, ?_⟩, ?_, ?_⟩⟩
  · rw [segmentsL]
    exact lowerL
  · rw [segmentsL]
    exact upperL
  · exact (Nat.add_le_add_left within _).trans inside
  · rw [segmentsL]
    exact roomL
  · rw [segmentsR, cardinalityR]
    exact lowerR
  · rw [segmentsR, cardinalityR]
    exact upperR
  · rw [lengthR]
    change s.weightsSplit + _ ≤ _
    omega
  · rw [segmentsR, cardinalityR]
    exact roomR

end Call

/-! ## The partitions -/

section Partitions

/-- Every segment of a partition has an element when there are as many elements as segments. -/
theorem one_le_sizes_iff {n segments : Nat} (positive : 0 < segments) :
    (∀ q ∈ Partition.sizes ⟨n, segments⟩, 1 ≤ q) ↔ segments ≤ n := by
  constructor
  · intro all
    have last := all (Partition.size ⟨n, segments⟩ (segments - 1))
      (List.mem_map_of_mem (List.mem_range.mpr (by simpa using positive)))
    have short : ¬segments - 1 < n % segments := by
      have small := Nat.mod_lt n positive
      omega
    simp only [Partition.size, if_neg short, Nat.add_zero] at last
    exact (Nat.one_le_div_iff positive).mp last
  · intro enough q member
    obtain ⟨i, _, rfl⟩ := List.mem_map.mp member
    have full := (Nat.one_le_div_iff positive).mpr enough
    exact full.trans (Nat.le_add_right _ _)

/-- No segment of a partition has more elements than their share, rounded up. -/
theorem sizes_le {n segments m : Nat} (room : n ≤ segments * m) :
    ∀ q ∈ Partition.sizes ⟨n, segments⟩, q ≤ m := by
  intro q member
  obtain ⟨i, _, rfl⟩ := List.mem_map.mp member
  have share : n / segments ≤ m := Nat.div_le_of_le_mul room
  have split := Nat.div_add_mod n segments
  simp only [Partition.size]
  split
  · next extra =>
    rcases Nat.eq_or_lt_of_le share with same | less
    · rw [same] at split
      omega
    · omega
  · omega

variable {p : ApmaBh07} {weights : List PermutedItem} {resize canFill : Bool}

/-- What the partitions of a window are to be. -/
structure Shared (p : ApmaBh07) (canFill : Bool) (c : Call) (ps : List Partition) : Prop where
  segments : (ps.map Partition.segments).sum = c.numSegments
  cardinality : (ps.map Partition.cardinality).sum = c.cardinality
  quotas : ∀ q ∈ Partition.quotas ps, 1 ≤ q ∧ q ≤ p.segmentCapacity ∧
    (canFill = false → q ≤ p.segmentCapacity - 1)

/-- A window that is not divided. -/
theorem Fed.even {c : Call} (fed : Fed p weights canFill c) (enough : c.numSegments ≤ c.cardinality) :
    Shared p canFill c [⟨c.cardinality, c.numSegments⟩] := by
  have positive : 0 < c.numSegments := by
    rw [fed.window.numSegments]
    exact Nat.two_pow_pos _
  have theta := p.densityBounds.theta_le_one fed.window.height_pos fed.window.height_le
  have room : c.cardinality ≤ c.numSegments * p.segmentCapacity := by
    have upper := fed.bounded.upper
    have nonneg : (0 : ℚ) ≤ c.numSegments * p.segmentCapacity := by positivity
    have bound : (c.cardinality : ℚ) ≤ c.numSegments * p.segmentCapacity :=
      upper.trans (mul_le_of_le_one_right nonneg theta)
    exact_mod_cast bound
  refine ⟨by simp, by simp, ?_⟩
  intro q member
  have member : q ∈ Partition.sizes ⟨c.cardinality, c.numSegments⟩ := by
    simpa [Partition.quotas] using member
  exact ⟨(one_le_sizes_iff positive).mpr enough q member, sizes_le room q member,
    fun spare => sizes_le (fed.room spare) q member⟩

/-- The partitions of the two halves. -/
theorem Shared.append {c : Call} {s : Split} {ps qs : List Partition}
    (left : Shared p canFill (c.left s) ps) (right : Shared p canFill (c.right s) qs)
    (within : s.splitnum ≤ c.cardinality) : Shared p canFill c (ps ++ qs) := by
  refine ⟨?_, ?_, ?_⟩
  · rw [List.map_append, List.sum_append, left.segments, right.segments]
    simp only [Call.left, Call.right]
    omega
  · rw [List.map_append, List.sum_append, left.cardinality, right.cardinality]
    simp only [Call.left, Call.right, subSize, if_pos within]
    omega
  · intro q member
    rw [Partition.quotas_append, List.mem_append] at member
    exact member.elim (left.quotas q) (right.quotas q)

/-- The windows of all the calls are within their thresholds where they can be divided. -/
theorem Reaches.fed {c d : Call} (reached : p.Reaches weights resize canFill c d)
    (sorted : weights.Pairwise fun w1 w2 => w1.pointer ≤ w2.pointer) (fed : Fed p weights canFill c)
    (divisible : ∀ d, p.Reaches weights resize canFill c d → Uneven resize d →
      p.Divisible canFill d) : Fed p weights canFill d := by
  induction reached with
  | refl => exact fed
  | tail above call ih =>
      cases call with
      | left uneven found =>
          exact (ih.children sorted uneven (divisible _ above uneven) found).2.1
      | right uneven found =>
          exact (ih.children sorted uneven (divisible _ above uneven) found).2.2

/-- The recursion, where every call that divides its window can do so, and every other one has
an element for each segment. -/
theorem computeRec_spec (sorted : weights.Pairwise fun w1 w2 => w1.pointer ≤ w2.pointer)
    {fuel : Nat} {c : Call} (fed : Fed p weights canFill c) (height : c.height = fuel)
    (divisible : ∀ d, p.Reaches weights resize canFill c d → Uneven resize d →
      p.Divisible canFill d ∧ p.Readable weights canFill d)
    (enough : ∀ d, p.Reaches weights resize canFill c d → ¬Uneven resize d →
      d.numSegments ≤ d.cardinality) :
    ∃ ps, p.computeRec weights resize canFill fuel c = some ps ∧ Shared p canFill c ps := by
  induction fuel generalizing c with
  | zero =>
      have positive := fed.window.height_pos
      omega
  | succ fuel ih =>
      rw [computeRec]
      by_cases uneven : Uneven resize c
      · rw [if_pos uneven]
        rcases divisible c .refl uneven with ⟨divides, readable⟩
        have capacity := splitMax_le p canFill (fed.window.halves uneven).1 fed.window.height_le
        obtain ⟨s, found⟩ := Option.isSome_iff_exists.mp
          ((findSplit_defined_iff sorted fed.slice capacity).mpr readable)
        rcases fed.children sorted uneven divides found with ⟨within, left, right⟩
        have toLeft : p.Calls weights resize canFill c (c.left s) := .left uneven found
        have toRight : p.Calls weights resize canFill c (c.right s) := .right uneven found
        obtain ⟨ps, leftEq, leftShared⟩ := ih left (by simp [Call.left, height])
          (fun d reached => divisible d (.head toLeft reached))
          (fun d reached => enough d (.head toLeft reached))
        obtain ⟨qs, rightEq, rightShared⟩ := ih right (by simp [Call.right, height])
          (fun d reached => divisible d (.head toRight reached))
          (fun d reached => enough d (.head toRight reached))
        simp only [found, leftEq, rightEq, Option.bind_eq_bind, Option.bind_some]
        exact ⟨_, rfl, leftShared.append rightShared within⟩
      · rw [if_neg uneven]
        exact ⟨_, rfl, fed.even (enough c .refl uneven)⟩

/-- What a call emits is a part of what a call above it emits. -/
theorem Reaches.emits {c d : Call} (reached : p.Reaches weights resize canFill c d) {fuel : Nat}
    {ps : List Partition} (emitted : p.computeRec weights resize canFill fuel c = some ps) :
    ∃ fuel' qs, p.computeRec weights resize canFill fuel' d = some qs ∧ qs ⊆ ps := by
  induction reached with
  | refl => exact ⟨fuel, ps, emitted, fun _ member => member⟩
  | tail _ call ih =>
      obtain ⟨fuel', qs, emitted', part⟩ := ih
      cases fuel' with
      | zero => cases emitted'
      | succ fuel' =>
          rw [computeRec] at emitted'
          cases call with
          | left uneven found =>
              rw [if_pos uneven, found] at emitted'
              simp only [Option.bind_eq_bind, Option.bind_some, Option.bind_eq_some_iff,
                Option.some.injEq] at emitted'
              obtain ⟨left, leftEq, right, rightEq, rfl⟩ := emitted'
              exact ⟨fuel', left, leftEq, fun x member => part (List.mem_append_left _ member)⟩
          | right uneven found =>
              rw [if_pos uneven, found] at emitted'
              simp only [Option.bind_eq_bind, Option.bind_some, Option.bind_eq_some_iff,
                Option.some.injEq] at emitted'
              obtain ⟨left, leftEq, right, rightEq, rfl⟩ := emitted'
              exact ⟨fuel', right, rightEq, fun x member => part (List.mem_append_right _ member)⟩

/-- The partitions of a window keep to the calibrator tree exactly when it is feasible. -/
theorem respected_iff (sorted : weights.Pairwise fun w1 w2 => w1.pointer ≤ w2.pointer)
    (positive : 0 < p.segmentCapacity) {first : Call} (window : p.Window first)
    (slice : first.weightsStart + first.weightsLength ≤ weights.length)
    (upper : resize = false → (first.cardinality : ℚ) ≤
      first.numSegments * p.segmentCapacity * (p.thresholds first.height).2)
    (room : canFill = false →
      first.cardinality ≤ first.numSegments * (p.segmentCapacity - 1)) :
    p.Respected weights resize canFill first ↔ p.Feasible weights resize canFill first := by
  constructor
  · intro respected
    have bounded := respected.bounded first .refl
    have divisible : ∀ c, p.Reaches weights resize canFill first c → Uneven resize c →
        p.Divisible canFill c := by
      intro c reached uneven
      have range := respected.inRange c reached uneven
      exact order_iff_divisible.mp ⟨range.fillMax, range.order⟩
    have fed : Fed p weights canFill first := ⟨window, bounded, slice, room⟩
    obtain ⟨ps, emitted, -, -, quotas⟩ := respected.divided
    refine ⟨bounded.lower, fun _ => bounded.upper, ?_, ?_⟩
    · intro c reached uneven
      have fedC := reached.fed sorted fed divisible
      have capacity := splitMax_le p canFill (fedC.window.halves uneven).1 fedC.window.height_le
      refine ⟨divisible c reached uneven, (findSplit_defined_iff sorted fedC.slice capacity).mp ?_⟩
      obtain ⟨fuel, qs, emitted', -⟩ := reached.emits emitted
      cases fuel with
      | zero => cases emitted'
      | succ fuel =>
          rw [computeRec, if_pos uneven] at emitted'
          obtain ⟨s, found, -⟩ := Option.bind_eq_some_iff.mp emitted'
          rw [found]
          rfl
    · intro c reached even
      have fedC := reached.fed sorted fed divisible
      obtain ⟨fuel, qs, emitted', part⟩ := reached.emits emitted
      cases fuel with
      | zero => cases emitted'
      | succ fuel =>
          rw [computeRec, if_neg even, Option.some.injEq] at emitted'
          subst emitted'
          have segments : 0 < c.numSegments := by
            rw [fedC.window.numSegments]
            exact Nat.two_pow_pos _
          apply (one_le_sizes_iff segments).mp
          intro q member
          exact (quotas q (List.mem_flatMap.mpr ⟨_, part (by simp), member⟩)).1
  · intro feasible
    have bounded : p.Bounded first := by
      refine ⟨feasible.lower, ?_⟩
      cases resize with
      | false => exact upper rfl
      | true => exact feasible.upper rfl
    have fed : Fed p weights canFill first := ⟨window, bounded, slice, room⟩
    have all : ∀ c, p.Reaches weights resize canFill first c → Fed p weights canFill c :=
      fun c reached => reached.fed sorted fed fun d reached uneven =>
        (feasible.divisible d reached uneven).1
    refine ⟨fun c reached => (all c reached).bounded, ?_, ?_⟩
    · intro c reached uneven
      have divides := (feasible.divisible c reached uneven).1
      have order := order_iff_divisible.mpr divides
      refine ⟨?_, order.1, order.2, fun s found =>
        ((all c reached).children sorted uneven divides found).1⟩
      rw [capacityChildren]
      exact Nat.le_mul_of_pos_left _ positive
    · rcases computeRec_spec sorted fed rfl feasible.divisible feasible.enough with
        ⟨ps, emitted, shared⟩
      exact ⟨ps, emitted, shared.segments, shared.cardinality, shared.quotas⟩

/-! ### Requests that the thresholds admit -/

/-- Where the window of a call is in the window of the first one. -/
structure Placed (first c : Call) : Prop where
  height_le : c.height ≤ first.height
  start : ∃ j < 2 ^ (first.height - c.height),
    c.segmentStart = first.segmentStart + j * 2 ^ (c.height - 1)

/-- What is known of a call below the first one. -/
structure Below (p : ApmaBh07) (resize canFill : Bool) (first c : Call) : Prop where
  height_lt : c.height < first.height
  divided : Halved resize (c.height + 1)
  least : p.sizeMin (c.height + 1) ≤ c.cardinality
  most : c.cardinality ≤ p.sizeMax canFill (c.height + 1)

/-- Only windows of some heights are divided. -/
theorem Window.halved {c : Call} (window : p.Window c) (uneven : Uneven resize c) :
    Halved resize c.height := by
  rcases window.halves uneven with ⟨tall, -, -⟩
  refine ⟨tall, fun both => uneven.2.2 ⟨both.1, ?_⟩⟩
  rw [window.numSegments, both.2]
  rfl

/-- The windows of the halves are placed where that of the call is. -/
theorem Placed.children {first c : Call} (placed : Placed first c) (window : p.Window c)
    (uneven : Uneven resize c) (s : Split) : Placed first (c.left s) ∧ Placed first (c.right s) := by
  rcases placed with ⟨low, j, inside, start⟩
  rcases window.halves uneven with ⟨tall, left, -⟩
  have step : 2 ^ (c.height - 1) = 2 * 2 ^ (c.height - 1 - 1) := by
    rw [← pow_succ']
    congr 1
    omega
  have deeper : 2 ^ (first.height - (c.height - 1)) = 2 * 2 ^ (first.height - c.height) := by
    rw [← pow_succ']
    congr 1
    omega
  refine ⟨⟨(Nat.sub_le _ _).trans low, 2 * j, ?_, ?_⟩,
    ⟨(Nat.sub_le _ _).trans low, 2 * j + 1, ?_, ?_⟩⟩
  · change 2 * j < 2 ^ (first.height - (c.height - 1))
    omega
  · change c.segmentStart = first.segmentStart + 2 * j * 2 ^ (c.height - 1 - 1)
    rw [start, step]
    ring
  · change 2 * j + 1 < 2 ^ (first.height - (c.height - 1))
    omega
  · change c.segmentStart + c.numSegments / 2 =
      first.segmentStart + (2 * j + 1) * 2 ^ (c.height - 1 - 1)
    rw [start, left, step]
    ring

/-- A call of an admitted request can be divided. -/
theorem Admitted.divides {first c : Call} (admitted : p.Admitted weights resize canFill first)
    (placed : Placed first c) (window : p.Window c)
    (known : c = first ∨ Below p resize canFill first c) (uneven : Uneven resize c)
    (atTop : Uneven resize first) : p.Divisible canFill c ∧ p.Readable weights canFill c := by
  rcases known with rfl | below
  · exact ⟨admitted.divisible uneven, admitted.readable uneven⟩
  · have divided := window.halved uneven
    have level := admitted.levels atTop c.height below.height_lt divided
    have clear := admitted.clear atTop c.height below.height_lt divided
    refine ⟨⟨level.nonempty, level.lower.trans below.least, below.most.trans level.upper⟩,
      Or.inr fun w member => ?_⟩
    obtain ⟨j, inside, start⟩ := placed.start
    have outside := clear j inside w (List.mem_of_mem_drop (List.mem_of_mem_take member))
    have least : p.sizeMin c.height ≤ p.splitMin canFill c := le_max_left _ _
    have most : p.splitMax canFill c ≤ p.sizeMax canFill c.height := min_le_left _ _
    rw [indexStart, start]
    omega

/-- What is known of the calls of an admitted request. -/
theorem Admitted.reached {first c : Call} (admitted : p.Admitted weights resize canFill first)
    (sorted : weights.Pairwise fun w1 w2 => w1.pointer ≤ w2.pointer)
    (fed : Fed p weights canFill first) (reached : p.Reaches weights resize canFill first c) :
    Fed p weights canFill c ∧ Placed first c ∧
      (c = first ∨ Below p resize canFill first c ∧ Uneven resize first) := by
  induction reached with
  | refl =>
      refine ⟨fed, ⟨le_rfl, 0, ?_, ?_⟩, Or.inl rfl⟩
      · rw [Nat.sub_self]
        exact Nat.one_pos
      · rw [Nat.zero_mul, Nat.add_zero]
  | @tail b c _ call ih =>
      rcases ih with ⟨fedB, placed, known⟩
      have uneven : Uneven resize b := by
        cases call with
        | left uneven _ => exact uneven
        | right uneven _ => exact uneven
      have atTop : Uneven resize first := by
        rcases known with rfl | ⟨-, atTop⟩
        · exact uneven
        · exact atTop
      have divisible := (admitted.divides placed fedB.window (known.imp_right And.left) uneven
        atTop).1
      rcases fedB.window.halves uneven with ⟨tall, -, -⟩
      have lower : b.height - 1 < first.height := by
        have := placed.height_le
        omega
      have same : b.height - 1 + 1 = b.height := by omega
      have divided := fedB.window.halved uneven
      cases call with
      | left _ found =>
          rcases fedB.split_bounds sorted uneven divisible found with ⟨-, -, ⟨least, most⟩, -⟩
          refine ⟨(fedB.children sorted uneven divisible found).2.1,
            (placed.children fedB.window uneven _).1, Or.inr ⟨⟨lower, ?_, ?_, ?_⟩, atTop⟩⟩
          · rwa [Call.left, same]
          · rwa [Call.left, same]
          · rwa [Call.left, same]
      | right _ found =>
          rcases fedB.split_bounds sorted uneven divisible found with ⟨-, within, -, least, most⟩
          have cardinality : (b.right _).cardinality = b.cardinality - _ := if_pos within
          refine ⟨(fedB.children sorted uneven divisible found).2.2,
            (placed.children fedB.window uneven _).2, Or.inr ⟨⟨lower, ?_, ?_, ?_⟩, atTop⟩⟩
          · rwa [Call.right, same]
          · rw [cardinality]
            rwa [Call.right, same]
          · rw [cardinality]
            rwa [Call.right, same]

/-- The elements of an admitted request can be divided at every call. -/
theorem Admitted.feasible {first : Call} (admitted : p.Admitted weights resize canFill first)
    (sorted : weights.Pairwise fun w1 w2 => w1.pointer ≤ w2.pointer)
    (fed : Fed p weights canFill first) : p.Feasible weights resize canFill first := by
  refine ⟨admitted.lower, admitted.upper, fun c reached uneven => ?_, fun c reached _ => ?_⟩
  · rcases admitted.reached sorted fed reached with ⟨fedC, placed, known⟩
    rcases known with rfl | ⟨below, atTop⟩
    · exact admitted.divides placed fedC.window (Or.inl rfl) uneven uneven
    · exact admitted.divides placed fedC.window (Or.inr below) uneven atTop
  · rcases admitted.reached sorted fed reached with ⟨fedC, -, known⟩
    rcases known with rfl | ⟨below, atTop⟩
    · exact admitted.enough
    · rw [fedC.window.numSegments]
      exact (admitted.filled atTop c.height below.height_lt below.divided).trans below.least

end Partitions

/-! ## Runs of insertions -/

/-- The first call that a request makes. -/
def Request.first (r : Request) (predictor : Predictor) : Call :=
  firstCall (r.weights predictor) r.height r.cardinality r.windowStart r.windowLength

/-- The partitions of a request keep to the calibrator tree. -/
def Request.Respected (r : Request) (predictor : Predictor) : Prop :=
  r.array.Respected (r.weights predictor) r.resize r.canFill (r.first predictor)

/-- A request that its thresholds admit. -/
def Request.Admitted (r : Request) (predictor : Predictor) : Prop :=
  r.array.Admitted (r.weights predictor) r.resize r.canFill (r.first predictor)

namespace State

variable {s : State} {segment : Nat} {r : Request}

/-- An attempt in this segment asks for this rebalance. -/
def Asks (s : State) (segment : Nat) (r : Request) : Prop :=
  s.sizes.sum ≠ 0 ∧ s.sizes[segment]? = some s.array.segmentCapacity ∧ s.request segment = some r

/-- The condition on an attempt: where it asks for a rebalance, the array has fewer than `2 ^ 31`
cells and the request is admitted. -/
def Admits (s : State) (segment : Nat) : Prop :=
  s.sizes.sum ≠ 0 → s.sizes[segment]? = some s.array.segmentCapacity →
    s.Small ∧ ∀ r, s.request segment = some r → r.Admitted s.predictor

instance (s : State) (segment : Nat) : Decidable (s.Admits segment) :=
  inferInstanceAs (Decidable (_ → _ → _ ∧ ∀ r ∈ s.request segment,
    r.array.Admitted (r.weights s.predictor) r.resize r.canFill (r.first s.predictor)))

/-- All the attempts of a run meet the condition. -/
def AdmittedRun : State → List Nat → Prop
  | _, [] => True
  | s, segment :: segments => s.Admits segment ∧
    ∀ t, s.attempt segment = some t → AdmittedRun t segments

/-- Whether all the attempts of a run meet the condition. -/
instance decidableAdmittedRun : (segments : List Nat) → (s : State) →
    Decidable (s.AdmittedRun segments)
  | [], _ => isTrue trivial
  | segment :: segments, s =>
    have : ∀ t, Decidable (AdmittedRun t segments) := decidableAdmittedRun segments
    inferInstanceAs (Decidable (_ ∧ ∀ t ∈ s.attempt segment, AdmittedRun t segments))

/-- An admitted request is respected. -/
theorem Asked.respected (asked : s.Asked r) (shaped : s.Shaped)
    (admitted : r.Admitted s.predictor) : r.Respected s.predictor := by
  have capacity := shaped.capacity
  have same := asked.capacity
  have sorted := s.predictor.sorted_items r.windowStart (r.windowStart + r.windowLength - 1)
  have window : r.array.Window (r.first s.predictor) :=
    ⟨asked.height_pos, asked.height_le, asked.windowLength⟩
  have slice : (r.first s.predictor).weightsStart + (r.first s.predictor).weightsLength ≤
      (r.weights s.predictor).length := (Nat.zero_add _).le
  have upper : r.resize = false → ((r.first s.predictor).cardinality : ℚ) ≤
      (r.first s.predictor).numSegments * r.array.segmentCapacity *
        (r.array.thresholds (r.first s.predictor).height).2 :=
    fun spread => (asked.spread spread).2.2
  have room : r.canFill = false →
      (r.first s.predictor).cardinality ≤
        (r.first s.predictor).numSegments * (r.array.segmentCapacity - 1) := by
    intro spare
    have resize : r.resize = true := by
      have opposite := asked.canFill
      rw [spare] at opposite
      simpa using opposite
    rcases asked.grown resize with ⟨_, _, _, half⟩
    change r.cardinality ≤ r.windowLength * (r.array.segmentCapacity - 1)
    have twice : r.windowLength * r.array.segmentCapacity ≤
        2 * (r.windowLength * (r.array.segmentCapacity - 1)) := by
      rw [← Nat.mul_assoc, Nat.mul_comm 2, Nat.mul_assoc]
      exact Nat.mul_le_mul_left _ (by omega)
    omega
  have bounded : r.array.Bounded (r.first s.predictor) := by
    refine ⟨admitted.lower, ?_⟩
    cases resize : r.resize with
    | false => exact upper resize
    | true => exact admitted.upper resize
  exact (ApmaBh07.respected_iff sorted (by omega) window slice upper room).mpr
    (admitted.feasible sorted ⟨window, bounded, slice, room⟩)

/-- The partitions are those of the recursion. -/
theorem partitions_eq_some {p : ApmaBh07} {resize canFill : Bool} {predictor predictor' : Predictor}
    {height cardinality windowStart windowLength : Nat} {ps : List Partition}
    (divided : p.partitions resize canFill predictor height cardinality windowStart windowLength =
      some (ps, predictor')) :
    p.computeRec (predictor.items windowStart (windowStart + windowLength - 1)) resize canFill height
      (firstCall (predictor.items windowStart (windowStart + windowLength - 1)) height cardinality
        windowStart windowLength) = some ps := by
  unfold ApmaBh07.partitions at divided
  cases resize with
  | false =>
      rw [if_neg Bool.false_ne_true] at divided
      obtain ⟨kept, -, divided⟩ := Option.bind_eq_some_iff.mp divided
      obtain ⟨qs, emitted, same⟩ := Option.bind_eq_some_iff.mp divided
      cases same
      exact emitted
  | true =>
      rw [if_pos rfl] at divided
      obtain ⟨doubled, -, divided⟩ := Option.bind_eq_some_iff.mp divided
      obtain ⟨qs, emitted, same⟩ := Option.bind_eq_some_iff.mp divided
      cases same
      exact emitted

/-- What a rebalance leaves, where its request is respected. -/
theorem rebalance_shaped {t : State} (shaped : s.Shaped) (small : s.Small)
    (full : s.sizes[segment]? = some s.array.segmentCapacity) (asks : s.request segment = some r)
    (respected : r.Respected s.predictor) (rebalanced : s.rebalance segment = some t) :
    t.Shaped ∧ (r.resize = true → ∀ q ∈ t.sizes, q < t.array.segmentCapacity) := by
  rcases request_spec shaped small full with ⟨r', asks', asked⟩
  rw [asks, Option.some.injEq] at asks'
  subst asks'
  obtain ⟨ps, emitted, segments, -, quotas⟩ := respected.divided
  have capacity := shaped.capacity
  have same := asked.capacity
  have positive := asked.height_pos
  have length : (Partition.quotas ps).length = r.windowLength := by
    rw [Partition.length_quotas, segments]
    rfl
  unfold rebalance at rebalanced
  rw [asks] at rebalanced
  simp only [Option.bind_eq_bind, Option.bind_some] at rebalanced
  obtain ⟨⟨ps', predictor⟩, divided, rebalanced⟩ := Option.bind_eq_some_iff.mp rebalanced
  obtain rfl : ps' = ps := Option.some.inj ((partitions_eq_some divided).symm.trans emitted)
  cases resize : r.resize with
  | false =>
      rw [resize] at rebalanced
      simp only [Bool.false_eq_true, if_false, Option.some.injEq] at rebalanced
      subst rebalanced
      rcases asked.spread resize with ⟨array, inside, _⟩
      refine ⟨⟨shaped.height_pos, ?_, ?_, capacity⟩, fun h => absurd h Bool.false_ne_true⟩
      · have whole := shaped.length
        simp only [List.length_append, List.length_take, List.length_drop, length]
        omega
      · intro q member
        rw [List.mem_append, List.mem_append] at member
        rcases member with (before | window) | after
        · exact shaped.sizes_le q (List.mem_of_mem_take before)
        · exact same ▸ (quotas q window).2.1
        · exact shaped.sizes_le q (List.mem_of_mem_drop after)
  | true =>
      rw [resize] at rebalanced
      simp only [if_true] at rebalanced
      obtain ⟨predictor', -, rebalanced⟩ := Option.bind_eq_some_iff.mp rebalanced
      simp only [Option.some.injEq] at rebalanced
      subst rebalanced
      rcases asked.grown resize with ⟨height, double, top, _⟩
      have spare : r.canFill = false := by rw [asked.canFill, resize]; rfl
      refine ⟨⟨?_, ?_, fun q member => (quotas q member).2.1, ?_⟩, ?_⟩
      · simp only
        omega
      · simp only [length]
        rw [asked.windowLength, top]
      · simp only
        omega
      · intro _ q member
        have bound := (quotas q member).2.2 spare
        simp only
        omega

/-- An insertion keeps the shape of the array, where its request is admitted. -/
theorem attempt_shaped {t : State} (shaped : s.Shaped) (admits : s.Admits segment)
    (attempted : s.attempt segment = some t) : t.Shaped := by
  have stored : ∀ segment size, s.sizes[segment]? = some size → size < s.array.segmentCapacity →
      s.store segment = some t → t.Shaped := by
    intro segment size read room stored
    unfold store at stored
    rw [read] at stored
    simp only [Option.bind_eq_bind, Option.bind_some, Option.bind_eq_some_iff,
      Option.some.injEq] at stored
    obtain ⟨predictor, -, rfl⟩ := stored
    refine ⟨shaped.height_pos, ?_, ?_, shaped.capacity⟩
    · simp only [List.length_set]
      exact shaped.length
    · intro q member
      rcases List.mem_or_eq_of_mem_set member with old | rfl
      · exact shaped.sizes_le q old
      · exact room
  unfold attempt at attempted
  by_cases none : s.sizes.sum = 0
  · rw [if_pos none] at attempted
    have capacity := shaped.capacity
    cases read : s.sizes[0]? with
    | none =>
        unfold store at attempted
        simp [read] at attempted
    | some size =>
        have zero : size = 0 := (List.sum_eq_zero_iff.mp none) size
          (List.mem_of_getElem? read)
        exact stored 0 size read (by omega) attempted
  · rw [if_neg none] at attempted
    obtain ⟨size, read, attempted⟩ := Option.bind_eq_some_iff.mp attempted
    by_cases full : size = s.array.segmentCapacity
    · rw [if_pos full] at attempted
      rw [full] at read
      rcases admits none read with ⟨small, admitted⟩
      rcases request_spec shaped small read with ⟨r, asks, asked⟩
      have respected := asked.respected shaped (admitted r asks)
      exact (rebalance_shaped shaped small read asks respected attempted).1
    · rw [if_neg full] at attempted
      have bound := shaped.sizes_le size (List.mem_of_getElem? read)
      exact stored segment size read (by omega) attempted

/-- The shape of the array along a run. -/
theorem run_shaped {t : State} {segments : List Nat} (shaped : s.Shaped)
    (admitted : s.AdmittedRun segments) (run : runFrom attempt s segments = some t) :
    t.Shaped := by
  induction segments generalizing s with
  | nil =>
      cases run
      exact shaped
  | cons segment segments ih =>
      obtain ⟨s', first, rest⟩ := runFrom_cons_eq_some.mp run
      exact ih (attempt_shaped shaped admitted.1 first) (admitted.2 s' first) rest

end State

/-- **The partitions keep to the calibrator tree where the thresholds admit the requests.** In
every run of insertions from the empty array whose attempts all meet the condition, an attempt in a
full segment asks for a rebalance, which is respected; and a resize leaves room in every segment for
the insertion that is tried again. -/
theorem rebalance_respected {array : ApmaBh07} {predictor : Predictor} {predictorScale : ℚ}
    (capacity : 32 ≤ array.segmentCapacity) {segments : List Nat} {s : State}
    (admitted : (State.initial array predictor predictorScale).AdmittedRun segments)
    (run : runFrom State.attempt (.initial array predictor predictorScale) segments = some s)
    {segment : Nat} (admits : s.Admits segment) (nonempty : s.sizes.sum ≠ 0)
    (full : s.sizes[segment]? = some s.array.segmentCapacity) :
    ∃ r, s.Asks segment r ∧ r.Respected s.predictor ∧
      (r.resize = true → ∀ t, s.rebalance segment = some t →
        ∀ q ∈ t.sizes, q < t.array.segmentCapacity) := by
  have initial : (State.initial array predictor predictorScale).Shaped :=
    ⟨le_rfl, rfl, by simp [State.initial], capacity⟩
  have shaped := State.run_shaped initial admitted run
  rcases admits nonempty full with ⟨small, requested⟩
  rcases State.request_spec shaped small full with ⟨r, asks, asked⟩
  have respected := asked.respected shaped (requested r asks)
  exact ⟨r, ⟨nonempty, full, asks⟩, respected, fun resize t rebalanced =>
    (State.rebalance_shaped shaped small full asks respected rebalanced).2 resize⟩

/-! ## One and two segments -/

namespace State

/-- What a rebalance asks for, and what the thresholds admit. -/
structure Ask where
  height : Nat
  cardinality : Nat
  windowLength : Nat
  resize : Bool
  weights : Nat
  segmentCapacity : Nat
  rho : ℚ
  theta : ℚ
  sizeMax : Nat
  deriving DecidableEq

def ask (s : State) (segment : Nat) : Option Ask :=
  (s.request segment).map fun r => {
    height := r.height
    cardinality := r.cardinality
    windowLength := r.windowLength
    resize := r.resize
    weights := (r.weights s.predictor).length
    segmentCapacity := r.array.segmentCapacity
    rho := (r.array.thresholds r.height).1
    theta := (r.array.thresholds r.height).2
    sizeMax := r.array.sizeMax r.canFill r.height }

/-- An array of segments of 32 elements that takes these thresholds, without elements. -/
def withThresholds (densityBounds : DensityBounds) : State :=
  initial { threeLevels with densityBounds := densityBounds, height := 1 }
    ⟨List.replicate 4 Predictor.zeroItem, 4, 4, 0, 0, 1, true⟩ 1

end State

/-- Insertions in the first segment, with mild thresholds: the last one asks to resize an array of
four segments, which divides its elements unevenly among eight. -/
theorem rebalance_respected_eight : ∃ s r,
    runFrom State.attempt (State.withThresholds .mild) (List.replicate 98 0) = some s ∧
      s.sizes = [32, 32, 16, 16] ∧ s.Asks 0 r ∧ Uneven r.resize (r.first s.predictor) ∧
      r.windowLength = 8 ∧ r.Respected s.predictor := by
  have admitted : (State.withThresholds .mild).AdmittedRun (List.replicate 98 0) := by
    decide +kernel
  have ran : (runFrom State.attempt (State.withThresholds .mild) (List.replicate 98 0)).map
      (fun s => (s.sizes, s.array.segmentCapacity, decide (s.Admits 0), s.ask 0)) =
        some ([32, 32, 16, 16], 32, true, some ⟨4, 96, 8, true, 1, 32, 3 / 8, 3 / 4, 106⟩) := by
    decide +kernel
  obtain ⟨s, run, shape⟩ := Option.map_eq_some_iff.mp ran
  simp only [Prod.mk.injEq, decide_eq_true_eq] at shape
  obtain ⟨sizes, capacity, admits, asked⟩ := shape
  obtain ⟨r, asks, respected, -⟩ := rebalance_respected (show 32 ≤ 32 by decide) admitted run admits
    (show s.sizes.sum ≠ 0 by rw [sizes]; decide)
    (show s.sizes[0]? = some s.array.segmentCapacity by rw [sizes, capacity]; rfl)
  rw [State.ask, asks.2.2] at asked
  simp only [Option.map_some, Option.some.injEq, State.Ask.mk.injEq] at asked
  obtain ⟨-, -, windowLength, -, weights, -⟩ := asked
  refine ⟨s, r, run, sizes, asks, ⟨?_, ?_, ?_⟩, windowLength, respected⟩
  · change r.windowLength ≠ 1
    omega
  · change (r.weights s.predictor).length ≠ 0
    omega
  · intro both
    have two : r.windowLength = 2 := both.2
    omega

/-- With tight thresholds the first resize leaves the array below its lower density. With
moderate ones, 61 elements of two segments are within the upper density of the window, 61, but
more than twice what a segment admits, 30.75. -/
theorem rebalance_respected_fails :
    (∃ segments s r, runFrom State.attempt (State.withThresholds .tight) segments = some s ∧
      s.Asks 0 r ∧ ¬r.Respected s.predictor) ∧
    ∃ segments s r, runFrom State.attempt (State.withThresholds .moderate) segments = some s ∧
      s.Asks 0 r ∧ ¬r.Respected s.predictor := by
  constructor
  · have ran : (runFrom State.attempt (State.withThresholds .tight)
        (List.replicate 32 0)).map (fun s => (s.sizes, s.array.segmentCapacity, s.ask 0)) =
          some ([32], 32, some ⟨2, 32, 2, true, 0, 32, 7 / 8, 15 / 16, 31⟩) := by
      decide +kernel
    obtain ⟨s, run, shape⟩ := Option.map_eq_some_iff.mp ran
    simp only [Prod.mk.injEq] at shape
    obtain ⟨sizes, capacity, asked⟩ := shape
    obtain ⟨r, request, asked⟩ := Option.map_eq_some_iff.mp asked
    simp only [State.Ask.mk.injEq] at asked
    obtain ⟨-, cardinality, windowLength, -, -, segmentCapacity, rho, -, -⟩ := asked
    refine ⟨_, s, r, run, ⟨by rw [sizes]; decide, by rw [sizes, capacity]; rfl, request⟩, ?_⟩
    intro respected
    have lower : (r.windowLength * r.array.segmentCapacity : ℚ) *
        (r.array.thresholds r.height).1 ≤ r.cardinality := (respected.bounded _ .refl).lower
    rw [windowLength, segmentCapacity, rho, cardinality] at lower
    norm_num at lower
  · have ran : (runFrom State.attempt (State.withThresholds .moderate)
        (List.replicate 49 0 ++ List.replicate 12 1)).map
          (fun s => (s.sizes, s.array.segmentCapacity, s.ask 0)) =
        some ([32, 28], 32, some ⟨2, 61, 2, false, 1, 32, 3 / 8, 61 / 64, 30⟩) := by
      decide +kernel
    obtain ⟨s, run, shape⟩ := Option.map_eq_some_iff.mp ran
    simp only [Prod.mk.injEq] at shape
    obtain ⟨sizes, capacity, asked⟩ := shape
    obtain ⟨r, request, asked⟩ := Option.map_eq_some_iff.mp asked
    simp only [State.Ask.mk.injEq] at asked
    obtain ⟨-, cardinality, windowLength, resize, weights, -, -, -, sizeMax⟩ := asked
    refine ⟨_, s, r, run, ⟨by rw [sizes]; decide, by rw [sizes, capacity]; rfl, request⟩, ?_⟩
    intro respected
    have uneven : Uneven r.resize (r.first s.predictor) := by
      refine ⟨?_, ?_, ?_⟩
      · change r.windowLength ≠ 1
        omega
      · change (r.weights s.predictor).length ≠ 0
        omega
      · rw [resize]
        exact fun both => Bool.false_ne_true both.1
    have order := (respected.inRange _ .refl uneven).order
    have lower : r.cardinality - r.array.sizeMax r.canFill r.height ≤
        r.array.splitMin r.canFill (r.first s.predictor) := le_max_right _ _
    have upper : r.array.splitMax r.canFill (r.first s.predictor) ≤
        r.array.sizeMax r.canFill r.height := min_le_left _ _
    omega

end ApmaBh07

end Rma
