import Rma.Base.Focus

/-!
# Partitions

A partition is a number of consecutive segments that share a number of elements
evenly, the first ones taking one more where it does not divide. A vector of
partitions gives each segment of a window its size: `quotas` lists the sizes, and
a cursor walks over them backwards, by partition and by offset in the partition.
-/

namespace Rma

structure Partition where
  cardinality : Nat
  segments : Nat
  deriving DecidableEq, Repr

namespace Partition

/-- The number of elements of the segment `i` of the partition. -/
def size (p : Partition) (i : Nat) : Nat :=
  p.cardinality / p.segments + if i < p.cardinality % p.segments then 1 else 0

/-- The sizes of the segments of the partition. -/
def sizes (p : Partition) : List Nat := (List.range p.segments).map p.size

/-- The sizes of the segments of all the partitions. -/
def quotas (partitions : List Partition) : List Nat := partitions.flatMap sizes

@[simp] theorem length_sizes (p : Partition) : p.sizes.length = p.segments := by
  simp [sizes]

theorem length_quotas (partitions : List Partition) :
    (quotas partitions).length = (partitions.map segments).sum := by
  simp [quotas, List.length_flatMap]

/-- The sizes of the segments add up to the cardinality. -/
theorem sum_sizes {p : Partition} (nonempty : 0 < p.segments) : p.sizes.sum = p.cardinality := by
  have extra : ∀ n k : Nat, k ≤ n →
      ((List.range n).map fun i => if i < k then 1 else 0).sum = k := by
    intro n
    induction n with
    | zero => intro k bounded; simp; omega
    | succ n ih =>
        intro k bounded
        rw [List.range_succ, List.map_append, List.sum_append, List.map_singleton,
          List.sum_singleton]
        rcases Nat.eq_or_lt_of_le bounded with rfl | below
        · have all := ih n le_rfl
          have same : (List.range n).map (fun i => if i < n + 1 then 1 else 0) =
              (List.range n).map fun i => if i < n then 1 else 0 := by
            apply List.map_congr_left
            intro i member
            have inside := List.mem_range.mp member
            rw [if_pos inside, if_pos (by omega)]
          rw [same, all, if_pos (Nat.lt_succ_self n)]
        · rw [ih k (by omega), if_neg (by omega), Nat.add_zero]
  have whole := Nat.div_add_mod p.cardinality p.segments
  have small := Nat.mod_lt p.cardinality nonempty
  change ((List.range p.segments).map fun i => p.cardinality / p.segments +
    if i < p.cardinality % p.segments then 1 else 0).sum = _
  rw [List.sum_map_add, extra _ _ small.le, List.map_const', List.sum_replicate,
    List.length_range, smul_eq_mul]
  exact whole

/-- An even division gives each segment an element, where there are enough, and no more than fit. -/
theorem mem_sizes {p : Partition} {n c : Nat} (member : n ∈ p.sizes)
    (enough : p.segments ≤ p.cardinality) (room : p.cardinality ≤ p.segments * c) :
    1 ≤ n ∧ n ≤ c := by
  obtain ⟨i, inside, rfl⟩ := List.mem_map.mp member
  have some : 0 < p.segments := Nat.zero_lt_of_lt (List.mem_range.mp inside)
  have least : 1 ≤ p.cardinality / p.segments := (Nat.one_le_div_iff some).mpr enough
  have most : p.cardinality / p.segments ≤ c := Nat.div_le_of_le_mul room
  refine ⟨le_add_right least, ?_⟩
  unfold size
  by_cases first : i < p.cardinality % p.segments
  · have whole := Nat.div_add_mod p.cardinality p.segments
    have less : p.cardinality / p.segments < c :=
      Nat.lt_of_mul_lt_mul_left (show p.segments * _ < p.segments * c by omega)
    rw [if_pos first]
    exact less
  · rw [if_neg first]
    exact most

theorem sum_quotas {partitions : List Partition} (nonempty : ∀ p ∈ partitions, 0 < p.segments) :
    (quotas partitions).sum = (partitions.map cardinality).sum := by
  induction partitions with
  | nil => rfl
  | cons p partitions ih =>
      have rest := ih fun q member => nonempty q (by simp [member])
      have split : quotas (p :: partitions) = p.sizes ++ quotas partitions := rfl
      rw [split, List.sum_append, sum_sizes (nonempty p (by simp)), rest, List.map_cons,
        List.sum_cons]

/-! ## The cursor -/

/-- `get_partition_current` -/
def getCurrent (partitions : List Partition) (partitionId offset : Nat) : Nat :=
  match partitions[partitionId]? with
  | none => 0
  | some p => p.size offset

/-- `get_partition_next` -/
def getNext (partitions : List Partition) (partitionId offset : Nat) : Nat :=
  match partitions[partitionId]? with
  | none => 0
  | some p =>
    if offset + 1 ≥ p.segments then getCurrent partitions (partitionId + 1) 0
    else p.size (offset + 1)

/-- `move_current_partition_backwards_by(N)`. Every turn moves by one segment at
least, so `fuel` is `N`. -/
def moveBackwards (partitions : List Partition) : (fuel n partitionId offset : Nat) → Nat × Nat
  | 0, _, partitionId, offset => (partitionId, offset)
  | fuel + 1, n, partitionId, offset =>
    if n = 0 then (partitionId, offset)
    else if partitionId = 0 ∧ offset = 0 then (partitionId, offset)
    else
      let step := min n (offset + 1)
      if step > offset then
        if partitionId > 0 then
          moveBackwards partitions fuel (n - step) (partitionId - 1)
            ((partitions.getD (partitionId - 1) ⟨0, 0⟩).segments - 1)
        else moveBackwards partitions fuel (n - step) partitionId 0
      else moveBackwards partitions fuel (n - step) partitionId (offset - step)

/-- The cursor stands at a segment of the vector, the `i`-th of all. -/
def At (partitions : List Partition) (partitionId offset i : Nat) : Prop :=
  ∃ pre p post, partitions = pre ++ p :: post ∧ pre.length = partitionId ∧
    offset < p.segments ∧ i = (quotas pre).length + offset

section Cursor

variable {partitions pre post : List Partition} {p : Partition} {partitionId offset i n fuel : Nat}

theorem quotas_append (pre post : List Partition) :
    quotas (pre ++ post) = quotas pre ++ quotas post := List.flatMap_append

theorem quotas_focus (pre : List Partition) (p : Partition) (post : List Partition) :
    quotas (pre ++ p :: post) = quotas pre ++ (p.sizes ++ quotas post) := by
  rw [quotas_append]
  rfl

theorem length_quotas_concat (pre : List Partition) (p : Partition) :
    (quotas (pre ++ [p])).length = (quotas pre).length + p.segments := by
  simp [quotas]

@[simp] theorem getElem?_focus : (pre ++ p :: post)[pre.length]? = some p := by
  simp

/-- The size of the segment at an offset of a partition. -/
theorem getD_quotas (inside : offset < p.segments) :
    (quotas (pre ++ p :: post)).getD ((quotas pre).length + offset) 0 = p.size offset := by
  rw [quotas_focus, List.getD_append_right _ _ _ _ (Nat.le_add_right _ _),
    Nat.add_sub_cancel_left, List.getD_append _ _ _ _ (by simpa using inside)]
  simp [sizes, inside]

theorem At.getCurrent_eq (at_ : At partitions partitionId offset i) :
    getCurrent partitions partitionId offset = (quotas partitions).getD i 0 := by
  rcases at_ with ⟨pre, p, post, rfl, rfl, inside, rfl⟩
  rw [getCurrent, getElem?_focus, getD_quotas inside]

theorem At.getNext_eq (at_ : At partitions partitionId offset i)
    (nonempty : ∀ p ∈ partitions, 0 < p.segments) :
    getNext partitions partitionId offset = (quotas partitions).getD (i + 1) 0 := by
  rcases at_ with ⟨pre, p, post, rfl, rfl, inside, rfl⟩
  rw [getNext, getElem?_focus]
  simp only
  by_cases last : offset + 1 ≥ p.segments
  · -- the next segment is the first one of the next partition
    have length : (quotas pre).length + offset + 1 = (quotas (pre ++ [p])).length := by
      rw [quotas_focus]
      simp only [quotas, List.flatMap_nil, List.append_nil, List.length_append, length_sizes]
      omega
    rw [if_pos last, length]
    cases post with
    | nil => simp [getCurrent]
    | cons q post =>
        have split : pre ++ p :: q :: post = (pre ++ [p]) ++ q :: post := by simp
        have next : At (pre ++ p :: q :: post) (pre.length + 1) 0 (quotas (pre ++ [p])).length :=
          ⟨pre ++ [p], q, post, split, by simp, nonempty q (by simp), rfl⟩
        exact next.getCurrent_eq
  · rw [if_neg last, Nat.add_assoc, getD_quotas (not_le.mp last)]

/-- The cursor moves back by `n` segments, or to the first one. -/
theorem At.moveBackwards (at_ : At partitions partitionId offset i)
    (nonempty : ∀ p ∈ partitions, 0 < p.segments) (enough : n ≤ fuel) :
    At partitions (moveBackwards partitions fuel n partitionId offset).1
      (moveBackwards partitions fuel n partitionId offset).2 (i - n) := by
  induction fuel generalizing n partitionId offset i with
  | zero =>
      rw [Nat.le_zero.mp enough]
      exact at_
  | succ fuel ih =>
      rcases at_ with ⟨pre, p, post, rfl, rfl, inside, rfl⟩
      rw [Partition.moveBackwards]
      by_cases still : n = 0
      · rw [if_pos still, still]
        exact ⟨pre, p, post, rfl, rfl, inside, rfl⟩
      rw [if_neg still]
      by_cases first : pre.length = 0 ∧ offset = 0
      · rw [if_pos first, List.length_eq_zero_iff.mp first.1, first.2]
        exact ⟨[], p, post, rfl, rfl, by omega, by simp [quotas]⟩
      rw [if_neg first]
      by_cases beyond : min n (offset + 1) > offset
      · have step : min n (offset + 1) = offset + 1 := by omega
        simp only [step, Nat.lt_succ_self, if_true, gt_iff_lt]
        rcases List.eq_nil_or_concat pre with rfl | ⟨pre, q, rfl⟩
        · have start : At ([] ++ p :: post) 0 0 0 :=
            ⟨[], p, post, rfl, rfl, lt_of_le_of_lt (Nat.zero_le _) inside, rfl⟩
          have rest := @ih _ _ _ (n - (offset + 1)) start (by omega)
          have target : (quotas []).length + offset - n = 0 - (n - (offset + 1)) := by
            simp only [quotas, List.flatMap_nil, List.length_nil]
            omega
          rw [target]
          exact rest
        · rw [List.concat_eq_append] at ih nonempty ⊢
          have some := nonempty q (by simp)
          have before : At (pre ++ [q] ++ p :: post) pre.length (q.segments - 1)
              ((quotas (pre ++ [q])).length - 1) :=
            ⟨pre, q, p :: post, by simp, rfl, by omega, by rw [length_quotas_concat]; omega⟩
          have rest := @ih _ _ _ (n - (offset + 1)) before (by omega)
          have target : (quotas (pre ++ [q])).length - 1 - (n - (offset + 1)) =
              (quotas (pre ++ [q])).length + offset - n := by
            rw [length_quotas_concat]
            omega
          rw [target] at rest
          simpa using rest
      · have step : min n (offset + 1) = n := by omega
        have back : At (pre ++ p :: post) pre.length (offset - n)
            ((quotas pre).length + offset - n) :=
          ⟨pre, p, post, rfl, rfl, lt_of_le_of_lt (Nat.sub_le _ _) inside, by omega⟩
        have rest := @ih _ _ _ 0 back (Nat.zero_le fuel)
        simp only [step] at beyond ⊢
        rwa [if_neg beyond, Nat.sub_self]

/-- The last segment of the last partition. -/
theorem at_last (nonempty : ∀ p ∈ partitions, 0 < p.segments) (some : partitions ≠ []) :
    At partitions (partitions.length - 1)
      ((partitions.getD (partitions.length - 1) ⟨0, 0⟩).segments - 1)
      ((quotas partitions).length - 1) := by
  rcases List.eq_nil_or_concat partitions with rfl | ⟨pre, p, rfl⟩
  · exact absurd rfl some
  · have segments := nonempty p (by simp)
    rw [List.concat_eq_append]
    refine ⟨pre, p, [], rfl, by simp, ?_, ?_⟩
    · simp
      omega
    · rw [length_quotas_concat, List.length_append, List.length_singleton, Nat.add_sub_cancel,
        Base.getD_focus]
      omega

end Cursor

end Partition

end Rma
