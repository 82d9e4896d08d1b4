import Rma.ApmaBaseline.Rebalance
import Rma.Base.Multimap

/-!
# Insertions in the adaptive packed memory array

An insertion takes a free slot of the segment of its position, and if this was the last one of the
segment, the rebalance leaves a free slot in every segment again. The new element is put before
the first one from where the index points to that is not less; a spread and a resize keep the
order.
-/

namespace Rma

open Base

namespace ApmaBaseline

variable {t u : ApmaBaseline} {sizes : List Nat} {balance : Balance} {weights : Weights}
  {pairs : List (Int × Int)} {key value : Int} {pointer i n k : Nat}

theorem Loaded.length_contents (loaded : t.Loaded sizes) :
    (contents t.elements).length = t.cardinality := by
  rw [ApmaBaseline.length_contents, loaded.laid.cells, count_layout, loaded.cardinality]

/-- The array without elements has one segment. -/
theorem Balanced.of_empty (balanced : t.Balanced sizes) (empty : t.cardinality = 0) :
    t.height = 1 ∧ sizes = [0] := by
  have length := balanced.length
  have none := balanced.cardinality
  rw [empty] at none
  have single : t.height = 1 := by
    by_contra several
    have tall := balanced.shape.tall several
    have quarter := tall.quarter
    have wide := tall.wide
    have height := tall.height
    obtain ⟨m, rest, rfl⟩ := List.exists_cons_of_length_pos (length ▸ Nat.two_pow_pos _)
    have least := balanced.quarter several m List.mem_cons_self
    rw [List.sum_cons] at none
    omega
  rw [single] at length
  obtain ⟨m, rfl⟩ := List.length_eq_one_iff.mp length
  rw [List.sum_singleton] at none
  exact ⟨single, none ▸ rfl⟩

/-- The first insertion. -/
theorem Balanced.insertEmpty (balanced : t.Balanced sizes) (empty : t.cardinality = 0)
    (valid : 0 ≤ key) (value : Int) : (t.insertEmpty key value).Balanced [1] ∧
      contents (t.insertEmpty key value).elements = [(key, value)] := by
  obtain ⟨single, rfl⟩ := balanced.of_empty empty
  have several := balanced.shape.several
  have laid := balanced.laid
  have read : ([0] : List Nat)[0]? = some 0 := rfl
  have length := laid.length
  have bound := laid.segment_le read
  rw [occupied, List.length_map] at length
  refine ⟨⟨⟨balanced.shape.congr rfl rfl rfl, ⟨?_, ?_, laid.capacity⟩, balanced.length, rfl,
    fun other => absurd single other⟩, ?_⟩, ?_⟩
  · have marked := layout_set laid.fits read (show 0 < t.segmentCapacity by omega)
    rw [← laid.cells, Nat.zero_mul] at marked
    change occupied (t.elements.set 0 (key, value)) = layout t.segmentCapacity ([0].set 0 1)
    rw [← marked, occupied, List.map_set, decide_eq_true valid]
    rfl
  · intro m member
    rw [List.mem_singleton.mp member]
    change 1 ≤ t.segmentCapacity
    omega
  · intro m member
    rw [List.mem_singleton.mp member]
    exact several
  · have none : contents t.elements = [] := by
      rw [← List.length_eq_zero_iff, balanced.length_contents, empty]
    have free := laid.free read le_rfl (show 0 < t.segmentCapacity by omega)
    rw [Nat.zero_mul, List.drop_zero, none] at free
    change contents (t.elements.set 0 (key, value)) = _
    rw [List.set_eq_take_append_cons_drop, if_pos (by omega), List.take_zero, List.nil_append,
      contents_cons valid, ← free]

/-- What an insertion finds and stores, before the rebalance. -/
structure Stored (t : ApmaBaseline) (sizes : List Nat) (key value : Int)
    (pointer i n k : Nat) (u : ApmaBaseline) : Prop where
  slot : t.Slot sizes key pointer i n k
  room : n < t.segmentCapacity
  stored : t.storeElement key value pointer = some (u, i * t.segmentCapacity + k)
  loaded : u.Loaded (sizes.set i (n + 1))
  segmentCapacity : u.segmentCapacity = t.segmentCapacity
  cardinality : u.cardinality = t.cardinality + 1
  contents : contents u.elements = contents (t.elements.take (i * t.segmentCapacity + k)) ++
    (key, value) :: contents (t.elements.drop (i * t.segmentCapacity + k))

theorem Balanced.storeElement (balanced : t.Balanced sizes) (stored : t.cardinality ≠ 0)
    (valid : 0 ≤ key) (value : Int) (inside : pointer < t.capacity) :
    ∃ i n k u, t.Stored sizes key value pointer i n k u := by
  have nonempty : sizes ≠ [] :=
    List.ne_nil_of_length_pos (balanced.length ▸ Nat.two_pow_pos _)
  obtain ⟨i, n, k, slot⟩ := balanced.laid.findSlot (balanced.filled stored) balanced.free
    balanced.shape.several nonempty valid inside
  have room := balanced.free n (List.mem_of_getElem? slot.read)
  obtain ⟨u, done, laid, order, capacity, segmentCapacity, height, cardinality⟩ :=
    slot.storeElement balanced.laid valid value room
  refine ⟨i, n, k, u, slot, room, done, ⟨balanced.shape.congr capacity segmentCapacity height,
    laid, ?_, ?_, ?_⟩, segmentCapacity, cardinality, order⟩
  · rw [List.length_set, height]
    exact balanced.length
  · obtain ⟨bound, rfl⟩ := List.getElem?_eq_some_iff.mp slot.read
    have sum := List.sum_set sizes i (sizes[i] + 1)
    have parts := congrArg List.sum (List.take_append_drop i sizes)
    rw [List.drop_eq_getElem_cons bound, List.sum_append, List.sum_cons] at parts
    rw [if_pos bound] at sum
    rw [cardinality, balanced.cardinality, sum]
    omega
  · intro single m member
    rw [height] at single
    rw [segmentCapacity]
    have least := balanced.quarter single
    rcases List.mem_or_eq_of_mem_set member with old | rfl
    · exact least m old
    · exact (least n (List.mem_of_getElem? slot.read)).trans (Nat.le_succ n)

namespace Stored

/-- The position is in the segment that takes the element. -/
theorem segment (stored : t.Stored sizes key value pointer i n k u) :
    (i * t.segmentCapacity + k) / t.segmentCapacity = i ∧
      (i * t.segmentCapacity + n) / t.segmentCapacity = i := by
  have room := stored.room
  have order := stored.slot.order
  have positive : 0 < t.segmentCapacity := by omega
  rw [Nat.mul_comm, Nat.mul_add_div positive, Nat.mul_add_div positive, Nat.div_eq_of_lt room,
    Nat.div_eq_of_lt (by omega)]
  exact ⟨rfl, rfl⟩

/-- The size of the segment afterwards, and of the others. -/
theorem reads (stored : t.Stored sizes key value pointer i n k u) :
    (sizes.set i (n + 1))[i]? = some (n + 1) ∧
      ∀ j, j ≠ i → (sizes.set i (n + 1))[j]? = sizes[j]? := by
  obtain ⟨bound, -⟩ := List.getElem?_eq_some_iff.mp stored.slot.read
  exact ⟨by rw [List.getElem?_set_self bound], fun j other => List.getElem?_set_ne (by omega)⟩

/-- What the rebalance after an insertion does. -/
theorem rebalance (stored : t.Stored sizes key value pointer i n k u)
    (balanced : t.Balanced sizes) (balance : Balance) (weights : Weights) :
    (∀ w, u.storageIsSegmentFull i = some true → u.findWindow i = some w → ¬w.density ≥ w.theta →
        u.Feasible balance weights w) ∧
      (∀ v, u.storageRebalance balance weights (i * t.segmentCapacity + k) = some v →
        (∃ sizes', v.Balanced sizes') ∧ v.Same u) ∧
      (t.capacity * 2 ≤ maxElements →
        ∃ v, u.storageRebalance balance weights (i * t.segmentCapacity + k) = some v) := by
  have located : (i * t.segmentCapacity + k) / u.segmentCapacity = i := by
    rw [stored.segmentCapacity]
    exact stored.segment.1
  have room := stored.room
  have several := balanced.shape.several
  obtain ⟨here, others⟩ := stored.reads
  have isFull := stored.loaded.laid.isSegmentFull here (by rw [stored.segmentCapacity]; omega)
  have capacity : u.capacity = t.capacity := by
    rw [stored.loaded.laid.capacity, List.length_set, stored.segmentCapacity, balanced.laid.capacity]
  have others : ∀ j m, j ≠ i → (sizes.set i (n + 1))[j]? = some m → m < u.segmentCapacity := by
    intro j m other read
    rw [others j other] at read
    rw [stored.segmentCapacity]
    exact balanced.free m (List.mem_of_getElem? read)
  by_cases full : n + 1 = u.segmentCapacity
  · obtain ⟨feasible, kept, done⟩ := stored.loaded.rebalance balance weights
      (by have := stored.cardinality; omega) (here.trans (congrArg some full)) others located
    rw [← capacity]
    exact ⟨fun w _ => feasible w, kept, done⟩
  · -- there is a free slot left
    have rebalance : u.storageRebalance balance weights (i * t.segmentCapacity + k) = some u := by
      unfold storageRebalance
      simp only [located, isFull, decide_eq_false full, Option.bind_eq_bind, Option.bind_some]
      rfl
    have free : ∀ m ∈ sizes.set i (n + 1), m < u.segmentCapacity := by
      intro m member
      obtain ⟨j, read⟩ := List.mem_iff_getElem?.mp member
      rcases eq_or_ne j i with rfl | other
      · rw [here, Option.some.injEq] at read
        have := stored.segmentCapacity
        omega
      · exact others j m other read
    refine ⟨fun w whole => ?_, fun v done => ?_, fun _ => ⟨u, rebalance⟩⟩
    · rw [isFull, decide_eq_false full] at whole
      cases whole
    · rw [rebalance, Option.some.injEq] at done
      subst done
      exact ⟨⟨_, stored.loaded, free⟩, rfl, rfl⟩

end Stored

/-- The invariant over a run. -/
theorem Run.balanced (run : Run balance pairs t) : ∃ sizes, t.Balanced sizes := by
  induction run with
  | create => exact ⟨[0], create_balanced⟩
  | @insert pairs t t' weights key value pointer _ valid inside done ih =>
      obtain ⟨sizes, balanced⟩ := ih
      rw [ApmaBaseline.insert] at done
      by_cases empty : t.cardinality = 0
      · rw [if_pos empty, Option.some.injEq] at done
        exact done ▸ ⟨_, (balanced.insertEmpty empty valid value).1⟩
      · obtain ⟨i, n, k, u, stored⟩ := balanced.storeElement empty valid value inside
        rw [if_neg empty, insertStorage, stored.stored] at done
        exact ((stored.rebalance balanced balance weights).2.1 t' done).1

/-- Every insertion finds a free slot in the segment of its position, and every window that the
rebalance spreads can be divided, whatever the weights say. An insertion fails only when the
array cannot be doubled. -/
theorem partitions_feasible (run : Run balance pairs t) (stored : t.cardinality ≠ 0)
    (valid : 0 ≤ key) (inside : pointer < t.capacity) (value : Int) (weights : Weights) :
    ∃ u indexInsert slot, t.findSlot key pointer = some (indexInsert, slot) ∧
      t.storageIsCellEmpty slot = some true ∧
      indexInsert / t.segmentCapacity = slot / t.segmentCapacity ∧
      t.storeElement key value pointer = some (u, indexInsert) ∧
      (∀ w, u.storageIsSegmentFull (indexInsert / t.segmentCapacity) = some true →
        u.findWindow (indexInsert / t.segmentCapacity) = some w → ¬w.density ≥ w.theta →
          u.Feasible balance weights w) ∧
      (t.capacity * 2 ≤ maxElements →
        ∃ v, t.insertStorage balance weights key value pointer = some v) := by
  obtain ⟨sizes, balanced⟩ := run.balanced
  obtain ⟨i, n, k, u, stored⟩ := balanced.storeElement stored valid value inside
  obtain ⟨feasible, -, done⟩ := stored.rebalance balanced balance weights
  obtain ⟨position, segment⟩ := stored.segment
  refine ⟨u, _, _, stored.slot.found, ?_, position.trans segment.symm, stored.stored, ?_,
    fun small => ?_⟩
  · rw [balanced.laid.isCellEmpty stored.slot.read stored.room, decide_eq_true le_rfl]
  · rw [position]
    exact feasible
  · obtain ⟨v, rebalanced⟩ := done small
    exact ⟨v, by rw [insertStorage, stored.stored]; exact rebalanced⟩

/-- Insertions one after the other, with what the index and the predictor answer. -/
def insertAll (balance : Balance) (t : ApmaBaseline) :
    List (Int × Int × Nat × Weights) → Option ApmaBaseline
  | [] => some t
  | (key, value, pointer, weights) :: items =>
    if 0 ≤ key ∧ pointer < t.capacity then do
      let t ← t.insert balance weights key value pointer
      insertAll balance t items
    else none

theorem Run.insertAll {items : List (Int × Int × Nat × Weights)} (run : Run balance pairs t)
    (done : ApmaBaseline.insertAll balance t items = some u) :
    Run balance ((items.map fun x => (x.1, x.2.1)).reverse ++ pairs) u := by
  induction items generalizing pairs t with
  | nil =>
      cases done
      exact run
  | cons item items ih =>
      obtain ⟨key, value, pointer, weights⟩ := item
      rw [ApmaBaseline.insertAll] at done
      split at done
      next inside =>
        obtain ⟨t', inserted, rest⟩ := Option.bind_eq_some_iff.mp done
        have run' := ih (run.insert inside.1 inside.2 inserted) rest
        rwa [List.map_cons, List.reverse_cons, List.append_assoc, List.singleton_append]
      next => cases done

/-- The weights of two segments, more in the second one. -/
def twoWeights : Weights := ⟨fun i => [⟨0, 1⟩, ⟨1, 3⟩].getD i ⟨0, 0⟩, 2⟩

/-- The array with ten elements, which was doubled with the eighth. -/
def ten : ApmaBaseline where
  elements := [(0, 0), (5, 5), (10, 1), (-1, -1), (20, 2), (25, 6), (30, 3), (-1, -1),
    (40, 4), (50, 5), (-1, -1), (-1, -1), (60, 6), (70, 7), (-1, -1), (-1, -1)]
  capacity := 16
  segmentCapacity := 4
  height := 3
  cardinality := 10

theorem run_ten : Run exactBalance [(25, 6), (5, 5), (70, 7), (60, 6), (50, 5), (40, 4), (30, 3),
    (20, 2), (10, 1), (0, 0)] ten :=
  Run.insertAll Run.create (show ApmaBaseline.insertAll exactBalance create
    [(0, 0, 0, noWeights), (10, 1, 0, noWeights), (20, 2, 0, noWeights), (30, 3, 0, noWeights),
      (40, 4, 0, noWeights), (50, 5, 0, noWeights), (60, 6, 0, noWeights), (70, 7, 0, noWeights),
      (5, 5, 0, noWeights), (25, 6, 4, noWeights)] = some ten by decide +kernel)

/-- The second segment is full with key 26, and the window is the array. The weights leave more
room in it than an even spread. -/
theorem partitions_feasible_ten : ∃ u w, ten.findSlot 26 4 = some (6, 7) ∧
    ten.storageIsCellEmpty 7 = some true ∧ ten.storeElement 26 8 4 = some (u, 6) ∧
    u.findWindow 1 = some w ∧ w.windowLength = 4 ∧ u.Feasible exactBalance twoWeights w ∧
    u.apmaPartitions exactBalance twoWeights w.height w.numElements w.windowStart w.windowLength =
      some [3, 2, 3, 3] := by
  obtain ⟨u, indexInsert, slot, found, empty, -, stored, feasible, -⟩ := partitions_feasible
    run_ten (by decide) (show (0 : Int) ≤ 26 by decide) (show 4 < ten.capacity by decide) 8
    twoWeights
  have found' : ten.findSlot 26 4 = some (6, 7) := by decide +kernel
  cases found.symm.trans found'
  have eleven : ten.storeElement 26 8 4 = some ({ ten with
      elements := [(0, 0), (5, 5), (10, 1), (-1, -1), (20, 2), (25, 6), (26, 8), (30, 3),
        (40, 4), (50, 5), (-1, -1), (-1, -1), (60, 6), (70, 7), (-1, -1), (-1, -1)]
      cardinality := 11 }, 6) := by decide +kernel
  cases stored.symm.trans eleven
  refine ⟨_, ⟨3, 4, 0, 0, 0, 4, 11, 3 / 4, 11 / 16⟩, found', empty, eleven, ?_, rfl,
    feasible _ ?_ ?_ ?_, ?_⟩
  all_goals decide +kernel

/-- The elements after an insertion. -/
theorem Run.insert_contents (run : Run balance pairs t) (valid : 0 ≤ key)
    (inside : pointer < t.capacity) (done : t.insert balance weights key value pointer = some u) :
    ∃ before after, contents t.elements = before ++ after ∧
      contents u.elements = before ++ (key, value) :: after ∧
      before = contents (t.elements.take pointer) ++
        (contents (t.elements.drop pointer)).takeWhile (fun e => decide (e.1 < key)) ∧
      after = (contents (t.elements.drop pointer)).dropWhile fun e => decide (e.1 < key) := by
  obtain ⟨sizes, balanced⟩ := run.balanced
  rw [ApmaBaseline.insert] at done
  by_cases empty : t.cardinality = 0
  · rw [if_pos empty, Option.some.injEq] at done
    subst done
    have none : contents t.elements = [] := by
      rw [← List.length_eq_zero_iff, balanced.length_contents, empty]
    have split := contents_split t.elements pointer
    rw [none, List.append_eq_nil_iff] at split
    rw [none, split.1, split.2, (balanced.insertEmpty empty valid value).2]
    exact ⟨[], [], rfl, rfl, rfl, rfl⟩
  · obtain ⟨i, n, k, v, stored⟩ := balanced.storeElement empty valid value inside
    rw [if_neg empty, insertStorage, stored.stored] at done
    have same := ((stored.rebalance balanced balance weights).2.1 u done).2
    have after := stored.slot.after
    have whole := (contents_split t.elements (i * t.segmentCapacity + k)).trans
      (contents_split t.elements pointer).symm
    have parts := List.takeWhile_append_dropWhile (p := fun e => decide (e.1 < key))
      (l := contents (t.elements.drop pointer))
    conv_rhs at whole => rw [← parts, ← List.append_assoc]
    rw [after] at whole
    exact ⟨_, _, (contents_split t.elements _).symm, same.contents.trans stored.contents,
      List.append_cancel_right whole, after⟩

/-- The elements are the pairs that were inserted. -/
theorem Run.perm (run : Run balance pairs t) : (contents t.elements).Perm pairs := by
  induction run with
  | create =>
      have none : contents ApmaBaseline.create.elements = [] := by
        rw [← List.length_eq_zero_iff, create_balanced.length_contents]
        rfl
      rw [none]
  | insert run valid inside done ih =>
      obtain ⟨before, after, split, inserted, -, -⟩ := run.insert_contents valid inside done
      rw [inserted]
      rw [split] at ih
      exact List.perm_middle.trans (ih.cons _)

/-- The array holds the pairs that were inserted, whatever the index and the predictor answer. An
insertion puts the pair before the first one from the pointer on whose key is not less, and the
order of the others is kept; so a sorted array remains sorted just when no key before the pointer
is greater than the new one. -/
theorem insert_order (run : Run balance pairs t) (valid : 0 ≤ key) (inside : pointer < t.capacity)
    (done : t.insert balance weights key value pointer = some u) :
    (contents t.elements).Perm pairs ∧ t.cardinality = pairs.length ∧
      contents u.elements = contents (t.elements.take pointer) ++
        (contents (t.elements.drop pointer)).takeWhile (fun e => decide (e.1 < key)) ++
          (key, value) :: (contents (t.elements.drop pointer)).dropWhile
            (fun e => decide (e.1 < key)) ∧
      (SortedPairs (contents t.elements) → (SortedPairs (contents u.elements) ↔
        ∀ e ∈ contents (t.elements.take pointer), e.1 ≤ key)) := by
  obtain ⟨before, after, split, inserted, rfl, rfl⟩ := run.insert_contents valid inside done
  obtain ⟨sizes, balanced⟩ := run.balanced
  refine ⟨run.perm, ?_, inserted, fun sorted => ?_⟩
  · rw [← run.perm.length_eq, balanced.length_contents]
  · rw [inserted]
    rw [← contents_split t.elements pointer] at sorted
    exact sorted.insert_iff (e := (key, value))

/-- The array is sorted, and the key is put between those of the second segment. Then the elements
are spread. -/
theorem insert_order_ten : ∃ u, ten.insert exactBalance twoWeights 26 8 4 = some u ∧
    contents u.elements = [(0, 0), (5, 5), (10, 1)] ++ [(20, 2), (25, 6)] ++ (26, 8) ::
      [(30, 3), (40, 4), (50, 5), (60, 6), (70, 7)] ∧ SortedPairs (contents u.elements) := by
  have spread : ten.insert exactBalance twoWeights 26 8 4 = some { ten with
      elements := [(0, 0), (5, 5), (10, 1), (-1, 0), (20, 2), (25, 6), (-1, 0), (-1, 0),
        (26, 8), (30, 3), (40, 4), (-1, 0), (50, 5), (60, 6), (70, 7), (-1, 0)]
      cardinality := 11 } := by decide +kernel
  obtain ⟨-, -, order, sorted⟩ := insert_order run_ten (show (0 : Int) ≤ 26 by decide)
    (show 4 < ten.capacity by decide) spread
  refine ⟨_, spread, order.trans ?_, (sorted ?_).mpr ?_⟩
  · decide +kernel
  · rw [SortedPairs]
    decide +kernel
  · decide +kernel

end ApmaBaseline

end Rma
