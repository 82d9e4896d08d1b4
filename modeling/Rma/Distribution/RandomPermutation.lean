import Rma.Base.Runs
import Rma.CByteArray

/-!
# The parallel random permutation

`compute_random_permutation_parallel` deals the numbers below `size` to a number of buckets and
permutes each bucket: a first round of tasks, one for each bucket, sends the numbers of its range
to buckets that it draws, through the chunk of the target that belongs to the task; a second round
stores the chunks of a bucket in an array of bytes and shuffles it; the arrays are then merged.

The tasks of a round run in parallel. The schedule of the first round is the order in which they
send, with the bucket that is drawn for each number; the tasks of the second round only access
their own bucket, and run in any order. `Outcome` holds both, the indices that the shuffles draw,
and what new memory holds.
-/

namespace Rma

open Base

namespace RandomPermutation

/-- `compute_bytes_per_elements(sz)`, at least one byte; the logarithm is exact. -/
def computeBytesPerElements (sz : Nat) : Nat := max ((Nat.clog 2 sz + 7) / 8) 1

/-- What the tasks draw and the order in which they run. -/
structure Outcome where
  schedule : List (Nat × Nat)
  order : List Nat
  index : (bucket i capacity : Nat) → Nat
  unset : (bucket : Nat) → Nat → UInt8
  unsetMerged : Nat → UInt8

/-! ## Exchange the elements in the buckets -/

/-- The ranges of the tasks from `i` on. -/
def taskRanges (rangeStep rangeMod : Nat) : (n i rangeStart rangeEnd : Nat) → List (Nat × Nat)
  | 0, _, _, _ => []
  | n + 1, i, rangeStart, rangeEnd =>
    let rangeEnd := if i < rangeMod then rangeEnd + 1 else rangeEnd
    (rangeStart, rangeEnd) :: taskRanges rangeStep rangeMod n (i + 1) rangeEnd (rangeEnd + rangeStep)

/-- The ranges of all the tasks. -/
def ranges (size noBuckets : Nat) : List (Nat × Nat) :=
  taskRanges (size / noBuckets) (size % noBuckets) noBuckets 0 0 (size / noBuckets)

/-- The next number of each task, and the chunks: `chunks target task`. -/
structure Exchange where
  next : Nat → Nat
  chunks : Nat → Nat → List Int

/-- The buckets before the tasks start. -/
def Exchange.start (ranges : List (Nat × Nat)) : Exchange :=
  ⟨fun i => (ranges.getD i (0, 0)).1, fun _ _ => []⟩

/-- `stores[target_bucket]->push_back(i)`: a turn of the loop of a task. -/
def exchangeStep (ranges : List (Nat × Nat)) (s : Exchange) (turn : Nat × Nat) : Option Exchange :=
  let (task, target) := turn
  if task < ranges.length ∧ target < ranges.length ∧ s.next task < (ranges.getD task (0, 0)).2 then
    some
      { next := Function.update s.next task (s.next task + 1)
        chunks := Function.update s.chunks target
          (Function.update (s.chunks target) task (s.chunks target task ++ [(s.next task : Int)])) }
  else none

/-- The chunks after all the tasks; undefined where a task has not ended. -/
def exchange (ranges : List (Nat × Nat)) (schedule : List (Nat × Nat)) :
    Option (Nat → Nat → List Int) := do
  let s ← runFrom (exchangeStep ranges) (Exchange.start ranges) schedule
  if ∀ i < ranges.length, s.next i = (ranges.getD i (0, 0)).2 then some s.chunks else none

/-! ## Perform a local permutation -/

/-- `bucket->permutation->set_value_at(index++, vector->at(j))`, for the values of the chunks. -/
def storeValues : (values : List Int) → (index : Nat) → CByteArray → Option CByteArray
  | [], _, permutation => some permutation
  | value :: values, index, permutation => do
    let permutation ← permutation.setValueAt index value
    storeValues values (index + 1) permutation

/-- The swaps, of `room` positions from `i` on; `index i` is drawn in `[i, capacity)`. -/
def permuteLoop (index : Nat → Nat) : (room i : Nat) → CByteArray → Option CByteArray
  | 0, _, permutation => some permutation
  | room + 1, i, permutation => do
    let permutation ← permutation.swap i (index i)
    permuteLoop index room (i + 1) permutation

/-- `local_permutation`: the chunks of a bucket are stored and shuffled. -/
def localPermutation (bytesPerElement : Nat) (chunks : List (List Int)) (index : Nat → Nat → Nat)
    (unset : Nat → UInt8) : Option CByteArray := do
  let capacity := (chunks.map List.length).sum
  let permutation ← CByteArray.create bytesPerElement capacity unset
  let permutation ← storeValues chunks.flatten 0 permutation
  if capacity ≥ 2 then permuteLoop (fun i => index i capacity) (capacity - 2) 0 permutation
  else some permutation

/-- The tasks of the second round, in the given order. -/
def runTasks (task : Nat → Option CByteArray) : (order : List Nat) →
    (Nat → Option CByteArray) → Option (Nat → Option CByteArray)
  | [], permutation => some permutation
  | i :: order, permutation => do
    let c ← task i
    runTasks task order (Function.update permutation i (some c))

/-- `compute_random_permutation_parallel(size, no_buckets, seed)` -/
def computeRandomPermutationParallel (size noBuckets : Nat) (o : Outcome) : Option CByteArray := do
  let noBuckets := if noBuckets > size then size else noBuckets
  let bytesPerElement := computeBytesPerElements size
  let chunks ← exchange (ranges size noBuckets) o.schedule
  let permutation ← runTasks (fun i => localPermutation bytesPerElement
    ((List.range noBuckets).map (chunks i)) (o.index i) (o.unset i)) o.order fun _ => none
  CByteArray.merge ((List.range noBuckets).map permutation) o.unsetMerged

/-! ## The outcomes -/

/-- Every task sends all of its numbers to some bucket, every bucket is permuted once, and the
indices are drawn in their ranges. -/
structure Outcome.Admissible (o : Outcome) (ranges : List (Nat × Nat)) : Prop where
  targets : ∀ turn ∈ o.schedule, turn.1 < ranges.length ∧ turn.2 < ranges.length
  complete : ∀ i r, ranges[i]? = some r → r.1 + (o.schedule.map Prod.fst).count i = r.2
  order : o.order.Perm (List.range ranges.length)
  index : ∀ bucket i capacity, i < capacity →
    i ≤ o.index bucket i capacity ∧ o.index bucket i capacity < capacity

/-- The outcomes of a call. -/
def Outcome.Drawn (o : Outcome) (size noBuckets : Nat) : Prop :=
  o.Admissible (ranges size (if noBuckets > size then size else noBuckets))

/-! ## The ranges -/

section Ranges

variable {rangeStep rangeMod n i start size noBuckets : Nat}

@[simp] theorem length_taskRanges (rangeStep rangeMod n i rangeStart rangeEnd : Nat) :
    (taskRanges rangeStep rangeMod n i rangeStart rangeEnd).length = n := by
  induction n generalizing i rangeStart rangeEnd with
  | zero => rfl
  | succ n ih => rw [taskRanges, List.length_cons, ih]

/-- The ranges are consecutive; the first `rangeMod` of them are one longer. -/
theorem taskRanges_spec (rangeStep rangeMod n i start : Nat) :
    (∀ r ∈ taskRanges rangeStep rangeMod n i start (start + rangeStep), r.1 ≤ r.2) ∧
      (taskRanges rangeStep rangeMod n i start (start + rangeStep)).flatMap
        (fun r => List.range' r.1 (r.2 - r.1)) =
          List.range' start (n * rangeStep + (min rangeMod (i + n) - min rangeMod i)) := by
  induction n generalizing i start with
  | zero => simp [taskRanges]
  | succ n ih =>
      obtain ⟨e, last⟩ : ∃ e, e = if i < rangeMod then start + rangeStep + 1
        else start + rangeStep := ⟨_, rfl⟩
      obtain ⟨ordered, rest⟩ := ih (i + 1) e
      rw [taskRanges, ← last]
      have after : start ≤ e := by
        rw [last]
        split <;> omega
      refine ⟨fun r member => ?_, ?_⟩
      · rcases List.mem_cons.mp member with rfl | later
        · exact after
        · exact ordered r later
      · have whole : n.succ * rangeStep + (min rangeMod (i + (n + 1)) - min rangeMod i) =
            (e - start) + (n * rangeStep + (min rangeMod (i + 1 + n) - min rangeMod (i + 1))) := by
          rw [Nat.succ_mul, last]
          split <;> omega
        rw [List.flatMap_cons, rest, whole, ← @List.range'_append_1 start (e - start),
          Nat.add_sub_cancel' after]

theorem ranges_spec (positive : 0 < noBuckets) (size : Nat) :
    (ranges size noBuckets).length = noBuckets ∧ (∀ r ∈ ranges size noBuckets, r.1 ≤ r.2) ∧
      (ranges size noBuckets).flatMap (fun r => List.range' r.1 (r.2 - r.1)) =
        List.range size := by
  obtain ⟨ordered, all⟩ :=
    taskRanges_spec (size / noBuckets) (size % noBuckets) noBuckets 0 0
  have rest := Nat.mod_lt size positive
  have division := Nat.div_add_mod size noBuckets
  rw [Nat.zero_add] at ordered all
  rw [Nat.zero_add, Nat.min_eq_left rest.le, Nat.min_zero, Nat.sub_zero, division,
    ← List.range_eq_range'] at all
  exact ⟨length_taskRanges _ _ _ _ _ _, ordered, all⟩

end Ranges

/-! ## The first round -/

section Exchanges

variable {ranges : List (Nat × Nat)} {s s' : Exchange} {task target : Nat}

/-- The numbers that each task has sent are in its chunks. -/
structure Exchange.Sent (ranges : List (Nat × Nat)) (s : Exchange) : Prop where
  next : ∀ i r, ranges[i]? = some r → r.1 ≤ s.next i
  sent : ∀ i r, ranges[i]? = some r → ((List.range ranges.length).flatMap
    fun target => s.chunks target i).Perm ((List.range' r.1 (s.next i - r.1)).map Nat.cast)

/-- One more element in one of the parts. -/
theorem flatMap_update {α β : Type} [DecidableEq α] {l : List α} (nodup : l.Nodup) {a : α}
    (member : a ∈ l) (f : α → List β) (x : β) :
    (l.flatMap (Function.update f a (f a ++ [x]))).Perm (l.flatMap f ++ [x]) := by
  induction l with
  | nil => cases member
  | cons b l ih =>
      obtain ⟨fresh, nodup⟩ := List.nodup_cons.mp nodup
      rw [List.flatMap_cons, List.flatMap_cons]
      rcases List.mem_cons.mp member with rfl | later
      · have others : l.flatMap (Function.update f a (f a ++ [x])) = l.flatMap f :=
          List.flatMap_congr fun c memberC => Function.update_of_ne
            (fun same : c = a => fresh (same ▸ memberC)) _ _
        rw [Function.update_self, others, List.append_assoc, List.append_assoc]
        exact List.perm_append_comm.append_left _
      · rw [Function.update_of_ne fun same : b = a => fresh (same ▸ later), List.append_assoc]
        exact (ih nodup later).append_left _

theorem exchangeStep_eq (insideTask : task < ranges.length) (insideTarget : target < ranges.length)
    {r : Nat × Nat} (range : ranges[task]? = some r) (more : s.next task < r.2) :
    exchangeStep ranges s (task, target) = some
      { next := Function.update s.next task (s.next task + 1)
        chunks := Function.update s.chunks target
          (Function.update (s.chunks target) task
            (s.chunks target task ++ [(s.next task : Int)])) } := by
  rw [exchangeStep, List.getD_eq_getElem?_getD, range, Option.getD_some,
    if_pos ⟨insideTask, insideTarget, more⟩]

/-- A turn of a task sends its next number. -/
theorem Exchange.Sent.step (sent : s.Sent ranges) (insideTask : task < ranges.length)
    (insideTarget : target < ranges.length) {r : Nat × Nat} (range : ranges[task]? = some r)
    (more : s.next task < r.2) : ∃ s', exchangeStep ranges s (task, target) = some s' ∧
      s'.Sent ranges ∧ s'.next = Function.update s.next task (s.next task + 1) := by
  refine ⟨_, exchangeStep_eq insideTask insideTarget range more, ⟨fun i r' range' => ?_,
    fun i r' range' => ?_⟩, rfl⟩
  · have before := sent.next i r' range'
    dsimp only
    by_cases same : i = task
    · subst same
      rw [Function.update_self]
      omega
    · rwa [Function.update_of_ne same]
  · have before := sent.sent i r' range'
    dsimp only
    by_cases same : i = task
    · subst same
      have column : ∀ t, Function.update s.chunks target (Function.update (s.chunks target) i
            (s.chunks target i ++ [(s.next i : Int)])) t i =
          Function.update (fun t => s.chunks t i) target
            (s.chunks target i ++ [(s.next i : Int)]) t := by
        intro t
        by_cases here : t = target
        · subst here
          rw [Function.update_self, Function.update_self, Function.update_self]
        · rw [Function.update_of_ne here, Function.update_of_ne here]
      have least := sent.next i r' range'
      have pushed := flatMap_update List.nodup_range (List.mem_range.mpr insideTarget)
        (fun t => s.chunks t i) ((s.next i : Nat) : Int)
      rw [List.flatMap_congr fun t _ => column t, Function.update_self,
        show s.next i + 1 - r'.1 = s.next i - r'.1 + 1 by omega, List.range'_1_concat,
        List.map_append, Nat.add_sub_cancel' least]
      exact pushed.trans (before.append_right _)
    · have column : ∀ t, Function.update s.chunks target (Function.update (s.chunks target) task
            (s.chunks target task ++ [(s.next task : Int)])) t i = s.chunks t i := by
        intro t
        by_cases here : t = target
        · subst here
          rw [Function.update_self, Function.update_of_ne same]
        · rw [Function.update_of_ne here]
      rw [List.flatMap_congr fun t _ => column t, Function.update_of_ne same]
      exact before

/-- A complete schedule sends all the numbers. -/
theorem Exchange.Sent.run {schedule : List (Nat × Nat)} (sent : s.Sent ranges)
    (targets : ∀ turn ∈ schedule, turn.1 < ranges.length ∧ turn.2 < ranges.length)
    (complete : ∀ i r, ranges[i]? = some r →
      s.next i + (schedule.map Prod.fst).count i = r.2) :
    ∃ s', runFrom (exchangeStep ranges) s schedule = some s' ∧ s'.Sent ranges ∧
      ∀ i r, ranges[i]? = some r → s'.next i = r.2 := by
  induction schedule generalizing s with
  | nil => exact ⟨s, rfl, sent, fun i r range => by simpa using complete i r range⟩
  | cons turn schedule ih =>
      obtain ⟨task, target⟩ := turn
      have insideTask : task < ranges.length := (targets _ List.mem_cons_self).1
      have insideTarget : target < ranges.length := (targets _ List.mem_cons_self).2
      have range : ranges[task]? = some ranges[task] := List.getElem?_eq_getElem insideTask
      have left : s.next task + ((schedule.map Prod.fst).count task + 1) = ranges[task].2 := by
        have total := complete task _ range
        rwa [List.map_cons, List.count_cons_self] at total
      obtain ⟨s₁, step, sent₁, next⟩ := sent.step insideTask insideTarget range (by omega)
      obtain ⟨s', rest, sent', ended⟩ := ih sent₁
        (fun turn member => targets turn (List.mem_cons_of_mem _ member)) (by
          intro i r range'
          have total := complete i r range'
          rw [next]
          by_cases same : i = task
          · subst same
            have total : s.next i + ((schedule.map Prod.fst).count i + 1) = r.2 := by
              rwa [List.map_cons, List.count_cons_self] at total
            rw [Function.update_self]
            omega
          · rw [List.map_cons, List.count_cons_of_ne (Ne.symm same)] at total
            rwa [Function.update_of_ne same])
      exact ⟨s', runFrom_cons_eq_some.mpr ⟨s₁, step, rest⟩, sent', ended⟩

end Exchanges

/-! ## The second round -/

section Local

variable {c : CByteArray} {n capacity i : Nat} {l : List Int}

/-- The values are stored one after the other. -/
theorem storeValues_spec {values : List Int} (filled : c.Filled n capacity l)
    (stored : ∀ v ∈ values, CByteArray.stored n v = v) (room : l.length + values.length = capacity) :
    ∃ c', storeValues values l.length c = some c' ∧ c'.Filled n capacity (l ++ values) := by
  induction values generalizing c l with
  | nil => exact ⟨c, rfl, by rwa [List.append_nil]⟩
  | cons v values ih =>
      rw [List.length_cons] at room
      obtain ⟨c₁, store, filled₁⟩ := filled.push (by omega) v
      rw [stored v List.mem_cons_self] at filled₁
      obtain ⟨c', rest, filled'⟩ := ih filled₁
        (fun v member => stored v (List.mem_cons_of_mem _ member)) (by
          rw [List.length_append, List.length_singleton]
          omega)
      rw [List.length_append, List.length_singleton] at rest
      rw [List.append_assoc] at filled'
      refine ⟨c', ?_, filled'⟩
      rw [storeValues, store]
      exact rest

/-- The swaps permute the values. -/
theorem permuteLoop_spec (index : Nat → Nat) (room : Nat) (holds : c.Holds n l)
    (inside : i + room ≤ l.length) (drawn : ∀ i < l.length, index i < l.length) :
    ∃ c' l', permuteLoop index room i c = some c' ∧ c'.Holds n l' ∧ l'.Perm l := by
  induction room generalizing i c l with
  | zero => exact ⟨c, l, rfl, holds, List.Perm.refl l⟩
  | succ room ih =>
      obtain ⟨l₁, swapped⟩ := exists_swapAt (show i < l.length by omega) (drawn i (by omega))
      obtain ⟨c₁, swap, holds₁⟩ := holds.swap swapped
      have perm := swapAt_perm swapped
      obtain ⟨c', l', rest, holds', perm'⟩ := @ih c₁ (i + 1) l₁ holds₁
        (by rw [perm.length_eq]; omega) (by rwa [perm.length_eq])
      refine ⟨c', l', ?_, holds', perm'.trans perm⟩
      rw [permuteLoop, swap]
      exact rest

/-- The array of a bucket holds its values. -/
theorem localPermutation_spec {chunks : List (List Int)} {index : Nat → Nat → Nat}
    (positive : 0 < n) (small : n ≤ 8) (stored : ∀ v ∈ chunks.flatten, CByteArray.stored n v = v)
    (drawn : ∀ i capacity, i < capacity → index i capacity < capacity) (unset : Nat → UInt8) :
    ∃ c l, localPermutation n chunks index unset = some c ∧ c.Holds n l ∧
      l.Perm chunks.flatten := by
  have capacity : (chunks.map List.length).sum = chunks.flatten.length := List.length_flatten.symm
  obtain ⟨c₀, created, filled⟩ :=
    CByteArray.create_filled chunks.flatten.length positive small unset
  obtain ⟨c₁, store, filled₁⟩ := storeValues_spec filled stored (Nat.zero_add _)
  rw [List.length_nil] at store
  have holds := filled₁.holds (by rw [List.nil_append])
  rw [List.nil_append] at holds
  rw [localPermutation, capacity, created, Option.bind_eq_bind, Option.bind_some, store,
    Option.bind_some]
  by_cases several : chunks.flatten.length ≥ 2
  · obtain ⟨c, l, loop, holds', perm⟩ := permuteLoop_spec (i := 0)
      (fun i => index i chunks.flatten.length) (chunks.flatten.length - 2) holds (by omega)
      (fun i inside => drawn i _ inside)
    exact ⟨c, l, by rw [if_pos several, loop], holds', perm⟩
  · exact ⟨c₁, chunks.flatten, by rw [if_neg several], holds, List.Perm.refl _⟩

/-- Each task leaves its array. -/
theorem runTasks_spec {task : Nat → Option CByteArray} {result : Nat → CByteArray}
    {order : List Nat} (each : ∀ i ∈ order, task i = some (result i))
    (permutation : Nat → Option CByteArray) : ∃ permutation',
      runTasks task order permutation = some permutation' ∧
        (∀ i ∈ order, permutation' i = some (result i)) ∧
        ∀ i ∉ order, permutation' i = permutation i := by
  induction order generalizing permutation with
  | nil => exact ⟨permutation, rfl, fun i member => (nomatch member), fun _ _ => rfl⟩
  | cons i order ih =>
      obtain ⟨permutation', rest, done, others⟩ :=
        ih (fun j member => each j (List.mem_cons_of_mem _ member))
          (Function.update permutation i (some (result i)))
      refine ⟨permutation', ?_, fun j member => ?_, fun j absent => ?_⟩
      · rw [runTasks, each i List.mem_cons_self]
        exact rest
      · by_cases later : j ∈ order
        · exact done j later
        · obtain rfl := (List.mem_cons.mp member).resolve_right later
          rw [others j later, Function.update_self]
      · rw [List.mem_cons, not_or] at absent
        rw [others j absent.2, Function.update_of_ne absent.1]

end Local

/-! ## The permutation -/

/-- Two nested loops in the other order. -/
theorem flatMap_comm {α β γ : Type} (l : List α) (m : List β) (f : α → β → List γ) :
    (l.flatMap fun a => m.flatMap fun b => f a b).Perm
      (m.flatMap fun b => l.flatMap fun a => f a b) := by
  induction l with
  | nil => simp
  | cons a l ih =>
      rw [List.flatMap_cons]
      exact (ih.append_left _).trans (List.flatMap_append_perm m (f a) _)

theorem flatMap_getElem? {α β : Type} {l : List α} {f : Nat → List β} {g : α → List β}
    (same : ∀ i x, l[i]? = some x → (f i).Perm (g x)) :
    ((List.range l.length).flatMap f).Perm (l.flatMap g) := by
  induction l using List.reverseRecOn with
  | nil => exact List.Perm.refl _
  | append_singleton l x ih =>
      rw [List.length_append, List.length_singleton, List.range_succ, List.flatMap_append,
        List.flatMap_append]
      refine (ih fun i y found => same i y ?_).append ?_
      · rw [List.getElem?_append_left (List.getElem?_eq_some_iff.mp found).1, found]
      · simpa using same l.length x (getElem?_middle rfl)

/-- The bytes of an element hold the numbers below the size. -/
theorem computeBytesPerElements_spec {sz : Nat} (small : sz ≤ 2 ^ 63) :
    0 < computeBytesPerElements sz ∧ computeBytesPerElements sz ≤ 8 ∧
      sz ≤ 256 ^ computeBytesPerElements sz := by
  have bits : Nat.clog 2 sz ≤ 63 := Nat.clog_le_of_le_pow small
  have bytes : Nat.clog 2 sz ≤ 8 * computeBytesPerElements sz := by
    rw [computeBytesPerElements]
    omega
  have pow : (256 : Nat) ^ computeBytesPerElements sz = 2 ^ (8 * computeBytesPerElements sz) := by
    rw [pow_mul]
    norm_num
  refine ⟨Nat.lt_of_lt_of_le Nat.one_pos (le_max_right _ _), ?_, ?_⟩
  · rw [computeBytesPerElements]
    omega
  · rw [pow]
    exact (Nat.le_pow_clog (by norm_num) sz).trans (Nat.pow_le_pow_right (by norm_num) bytes)

/-- The chunks hold every number below the size, once. -/
theorem exchange_spec {size noBuckets : Nat} {o : Outcome} (positive : 0 < noBuckets)
    (drawn : o.Admissible (ranges size noBuckets)) :
    ∃ chunks, exchange (ranges size noBuckets) o.schedule = some chunks ∧
      ((List.range noBuckets).flatMap fun target =>
        (List.range noBuckets).flatMap (chunks target)).Perm ((List.range size).map Nat.cast) := by
  obtain ⟨length, ordered, all⟩ := ranges_spec positive size
  have begins : ∀ i r, (ranges size noBuckets)[i]? = some r →
      (Exchange.start (ranges size noBuckets)).next i = r.1 := by
    intro i r range
    rw [Exchange.start]
    dsimp only
    rw [List.getD_eq_getElem?_getD, range, Option.getD_some]
  have start : (Exchange.start (ranges size noBuckets)).Sent (ranges size noBuckets) := by
    refine ⟨fun i r range => (begins i r range).ge, fun i r range => ?_⟩
    rw [begins i r range, Nat.sub_self]
    simp [Exchange.start]
  obtain ⟨s, run, sent, ended⟩ := start.run drawn.targets fun i r range => by
    rw [begins i r range, drawn.complete i r range]
  have join : ∀ i < (ranges size noBuckets).length,
      s.next i = ((ranges size noBuckets).getD i (0, 0)).2 := by
    intro i inside
    have range := List.getElem?_eq_getElem inside
    rw [ended i _ range, List.getD_eq_getElem?_getD, range, Option.getD_some]
  refine ⟨s.chunks, ?_, ?_⟩
  · rw [exchange, run, Option.bind_eq_bind, Option.bind_some, if_pos join]
  · refine (flatMap_comm _ _ _).trans ?_
    have columns := flatMap_getElem? (l := ranges size noBuckets)
      (f := fun i => (List.range noBuckets).flatMap fun target => s.chunks target i)
      (g := fun r => (List.range' r.1 (r.2 - r.1)).map Nat.cast) fun i r range => by
        have column := sent.sent i r range
        rwa [length, ended i r range] at column
    rw [length, ← List.map_flatMap, all] at columns
    exact columns

/-- The numbers that are exchanged fit in the bytes. -/
theorem stored_chunks {size nb : Nat} (small : size ≤ 2 ^ 63) {chunks : Nat → Nat → List Int}
    (all : ((List.range nb).flatMap fun target => (List.range nb).flatMap (chunks target)).Perm
      ((List.range size).map Nat.cast)) {i : Nat} (inside : i < nb) :
    ∀ v ∈ ((List.range nb).map (chunks i)).flatten,
      CByteArray.stored (computeBytesPerElements size) v = v := by
  obtain ⟨-, bytesLe, fits⟩ := computeBytesPerElements_spec small
  intro v member
  have sent : v ∈ (List.range size).map (Nat.cast : Nat → Int) := by
    refine all.mem_iff.mp (List.mem_flatMap.mpr ⟨i, List.mem_range.mpr inside, ?_⟩)
    rwa [← List.flatMap_def] at member
  obtain ⟨m, below, rfl⟩ := List.mem_map.mp sent
  have less := List.mem_range.mp below
  exact CByteArray.stored_of_lt bytesLe (Int.natCast_nonneg m)
    (by exact_mod_cast Nat.lt_of_lt_of_le less fits) (by omega)

/-- The result holds the contents of the buckets, one after the other. -/
theorem merged_spec {size noBuckets nb : Nat} {o : Outcome}
    (buckets : nb = if noBuckets > size then size else noBuckets) (positive : 0 < nb)
    (drawn : o.Admissible (ranges size nb)) {chunks : Nat → Nat → List Int}
    (exchanged : exchange (ranges size nb) o.schedule = some chunks) {result : Nat → CByteArray}
    {contents : Nat → List Int} (task : ∀ i < nb, localPermutation (computeBytesPerElements size)
      ((List.range nb).map (chunks i)) (o.index i) (o.unset i) = some (result i) ∧
        (result i).Holds (computeBytesPerElements size) (contents i)) :
    ∃ c, computeRandomPermutationParallel size noBuckets o = some c ∧
      c.Holds (computeBytesPerElements size) ((List.range nb).flatMap contents) := by
  have length := (ranges_spec positive size).1
  obtain ⟨permutation, ran, done, -⟩ := runTasks_spec (fun i member =>
    (task i (by rw [← length]; exact List.mem_range.mp (drawn.order.mem_iff.mp member))).1)
    fun _ => none
  have arrays : (List.range nb).map permutation = ((List.range nb).map result).map some := by
    rw [List.map_map]
    refine List.map_congr_left fun i member => ?_
    exact done i (drawn.order.mem_iff.mpr (by rwa [length]))
  have inside : ∀ i ∈ List.range nb, i < nb := fun i member => List.mem_range.mp member
  obtain ⟨c, merged, holds⟩ := CByteArray.merge_spec ((List.range nb).map result)
    (n := computeBytesPerElements size) (by simp [positive.ne'])
    (fun c member => by
      obtain ⟨i, below, rfl⟩ := List.mem_map.mp member
      exact ⟨_, (task i (inside i below)).2⟩) o.unsetMerged
  have values : ((List.range nb).map result).flatMap CByteArray.values =
      (List.range nb).flatMap contents := by
    rw [List.flatMap_map]
    exact List.flatMap_congr fun i member => (task i (inside i member)).2.values
  refine ⟨c, ?_, values ▸ holds⟩
  rw [computeRandomPermutationParallel]
  simp only [← buckets, exchanged, ran, arrays, Option.bind_eq_bind, Option.bind_some]
  exact merged

/-- **The parallel permutation.** Whatever the number of buckets, the order of the tasks and what
they draw, the array holds each of the numbers below the size once. -/
theorem computeRandomPermutationParallel_spec {size noBuckets : Nat} {o : Outcome}
    (positive : 0 < size) (small : size ≤ 2 ^ 63) (several : 0 < noBuckets)
    (drawn : o.Drawn size noBuckets) :
    ∃ c l, computeRandomPermutationParallel size noBuckets o = some c ∧
      c.Holds (computeBytesPerElements size) l ∧ l.Perm ((List.range size).map Nat.cast) := by
  obtain ⟨bytes, bytesLe, -⟩ := computeBytesPerElements_spec small
  obtain ⟨nb, buckets⟩ : ∃ nb, nb = if noBuckets > size then size else noBuckets := ⟨_, rfl⟩
  have someBuckets : 0 < nb := by
    rw [buckets]
    split <;> omega
  rw [Outcome.Drawn, ← buckets] at drawn
  obtain ⟨chunks, exchanged, all⟩ := exchange_spec someBuckets drawn
  have each : ∀ i, ∃ c l, i < nb → localPermutation (computeBytesPerElements size)
      ((List.range nb).map (chunks i)) (o.index i) (o.unset i) = some c ∧
        c.Holds (computeBytesPerElements size) l ∧ l.Perm ((List.range nb).flatMap (chunks i)) := by
    intro i
    by_cases inside : i < nb
    · obtain ⟨c, l, task⟩ := localPermutation_spec bytes bytesLe (stored_chunks small all inside)
        (fun j capacity less => (drawn.index i j capacity less).2) (o.unset i)
      exact ⟨c, l, fun _ => task⟩
    · exact ⟨⟨0, 0, fun _ => 0⟩, [], fun inside' => absurd inside' inside⟩
  choose result contents task using each
  obtain ⟨c, run, holds⟩ := merged_spec buckets someBuckets drawn exchanged fun i inside =>
    ⟨(task i inside).1, (task i inside).2.1⟩
  exact ⟨c, _, run, holds, (List.Perm.flatMap_left _ fun i member =>
    (task i (List.mem_range.mp member)).2.2).trans all⟩

end RandomPermutation

end Rma
