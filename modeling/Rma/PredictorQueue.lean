import Rma.Predictor

/-!
# The predictor follows the queue

`Holds s l` says where the items `l` of the queue are in the circular buffer of the
predictor `s`: the `i`-th one `i` cells after the tail, past the end of the queue
back at its start. Each method has one lemma that gives the items afterwards, and
`predictor_queue` is their induction over a run.
-/

namespace Rma

open Base

/-- A list is what is at its positions. -/
theorem filterMap_getElem? {α : Type*} (l : List α) :
    (List.range l.length).filterMap (fun i => l[i]?) = l := by
  induction l with
  | nil => rfl
  | cons x l ih =>
      simp only [List.length_cons, List.range_succ_eq_map, List.filterMap_cons,
        List.getElem?_cons_zero, List.filterMap_map]
      exact congrArg (x :: ·) ih

namespace Predictor

/-! ## The circular buffer -/

/-- The cell of the `i`-th item after the tail. -/
def place (s : Predictor) (i : Nat) : Nat :=
  if s.tail + i < s.capacity then s.tail + i else s.tail + i - s.capacity

/-- The items are in their cells, and the fields of the predictor agree with them. -/
structure Holds (s : Predictor) (l : List Item) : Prop where
  length_buffer : s.buffer.length = s.capacityMax
  capacity_le : s.capacity ≤ s.capacityMax
  tail_lt : s.tail < s.capacity
  length_le : l.length ≤ s.capacity
  head_eq : s.head = s.place l.length
  isEmpty_iff : s.isEmpty = true ↔ l = []
  cells : ∀ i (inside : i < l.length), s.buffer[s.place i]? = some l[i]

section Places

variable {s : Predictor} {l : List Item} {i j k : Nat} {x : Item}

theorem place_lt (tail : s.tail < s.capacity) (inside : i ≤ s.capacity) :
    s.place i < s.capacity := by
  unfold place
  split <;> omega

theorem place_inj (hi : i < s.capacity) (hj : j < s.capacity) :
    s.place i = s.place j ↔ i = j := by
  unfold place
  split <;> split <;> omega

namespace Holds

theorem place_lt_length (holds : Holds s l) (inside : i ≤ s.capacity) :
    s.place i < s.buffer.length := by
  have lower := place_lt holds.tail_lt inside
  have upper := holds.capacity_le
  rw [holds.length_buffer]
  omega

/-- Where the head is. -/
theorem head_cases (holds : Holds s l) (nonempty : l ≠ []) :
    s.tail < s.head ∧ s.tail + l.length = s.head ∧ s.head < s.capacity ∨
      s.head ≤ s.tail ∧ s.tail + l.length = s.capacity + s.head := by
  have positive := List.length_pos_iff.mpr nonempty
  have head := holds.head_eq
  have bound := holds.length_le
  have tail := holds.tail_lt
  unfold place at head
  split_ifs at head <;> omega

/-- The positions that the source goes through are the cells of the items. -/
theorem positions_eq (holds : Holds s l) (nonempty : l ≠ []) :
    s.positions = (List.range l.length).map s.place := by
  have tail := holds.tail_lt
  rcases holds.head_cases nonempty with ⟨order, length, inside⟩ | ⟨order, length⟩
  · have count : s.head - s.tail = l.length := by omega
    rw [positions, if_pos order, List.range'_eq_map_range, count]
    apply List.map_congr_left
    intro i member
    have inside' := List.mem_range.mp member
    exact (if_pos (by omega)).symm
  · have count : l.length = (s.capacity - s.tail) + s.head := by omega
    rw [positions, if_neg (by omega), List.range'_eq_map_range, count, List.range_add,
      List.map_append, List.map_map]
    congr 1
    · apply List.map_congr_left
      intro i member
      have inside := List.mem_range.mp member
      exact (if_pos (by omega)).symm
    · conv_lhs => rw [← List.map_id (List.range s.head)]
      apply List.map_congr_left
      intro i _
      simp only [Function.comp, id, place]
      rw [if_neg (by omega)]
      omega

theorem stored_eq (holds : Holds s l) : s.stored = l := by
  unfold stored
  split_ifs with empty
  · exact (holds.isEmpty_iff.mp empty).symm
  · have nonempty : l ≠ [] := fun none => empty (holds.isEmpty_iff.mpr none)
    rw [holds.positions_eq nonempty, List.filterMap_map]
    have cells : ∀ i ∈ List.range l.length, (fun i => s.buffer[s.place i]?) i = l[i]? := by
      intro i member
      have inside := List.mem_range.mp member
      rw [List.getElem?_eq_getElem inside]
      exact holds.cells i inside
    exact (List.filterMap_congr cells).trans (filterMap_getElem? l)

theorem size_eq (holds : Holds s l) : s.size = l.length := by
  unfold size
  split_ifs with empty above
  · rw [holds.isEmpty_iff.mp empty]
    rfl
  all_goals
    have tail := holds.tail_lt
    have nonempty : l ≠ [] := fun none => empty (holds.isEmpty_iff.mpr none)
    have cases := holds.head_cases nonempty
    omega

theorem full_iff (holds : Holds s l) : s.full = true ↔ l.length = s.capacity := by
  have tail := holds.tail_lt
  unfold full empty
  rw [Bool.and_eq_true, Bool.not_eq_true', decide_eq_true_iff, ← Bool.not_eq_true,
    holds.isEmpty_iff]
  by_cases nonempty : l = []
  · subst nonempty
    simp
    omega
  · have cases := holds.head_cases nonempty
    have positive := List.length_pos_iff.mpr nonempty
    refine ⟨fun same => by omega, fun full => ⟨nonempty, by omega⟩⟩

/-- Another item in the cell of one of the queue. -/
theorem set (holds : Holds s l) (inside : i < l.length) (x : Item) :
    Holds { s with buffer := s.buffer.set (s.place i) x } (l.set i x) := by
  have bound := holds.length_le
  refine ⟨?_, holds.capacity_le, holds.tail_lt, by simpa using bound, ?_, ?_, ?_⟩
  · simpa using holds.length_buffer
  · rw [List.length_set]
    exact holds.head_eq
  · rw [holds.isEmpty_iff, ← List.length_eq_zero_iff, ← List.length_eq_zero_iff, List.length_set]
  · intro j insideJ
    rw [List.length_set] at insideJ
    change (s.buffer.set (s.place i) x)[s.place j]? = _
    rw [List.getElem_set, List.getElem?_set]
    by_cases same : i = j
    · subst same
      rw [if_pos rfl, if_pos rfl, if_pos (holds.place_lt_length (by omega))]
    · rw [if_neg same, if_neg fun cell => same ((place_inj (by omega) (by omega)).mp cell)]
      exact holds.cells j insideJ

theorem storeItem_eq (holds : Holds s l) (inside : i < l.length) (x : Item) :
    storeItem s.buffer (s.place i) x = some (s.buffer.set (s.place i) x) :=
  if_pos (holds.place_lt_length (by have := holds.length_le; omega))

/-- The queue without its tail. -/
theorem dropTail (holds : Holds s (x :: l)) :
    Holds { s with
      tail := if s.tail + 1 = s.capacity then 0 else s.tail + 1
      isEmpty := s.isEmpty || (if s.tail + 1 = s.capacity then 0 else s.tail + 1) = s.head } l := by
  have tail := holds.tail_lt
  have bound := holds.length_le
  have head := holds.head_eq
  rw [List.length_cons] at bound head
  have shift : ∀ i, i < s.capacity →
      place { s with
        tail := if s.tail + 1 = s.capacity then 0 else s.tail + 1
        isEmpty := s.isEmpty || (if s.tail + 1 = s.capacity then 0 else s.tail + 1) = s.head } i =
        s.place (i + 1) := by
    intro i inside
    unfold place
    simp only
    split_ifs <;> omega
  refine ⟨holds.length_buffer, holds.capacity_le, ?_, show l.length ≤ s.capacity by omega,
    ?_, ?_, ?_⟩
  · simp only
    split <;> omega
  · rw [shift l.length (show l.length < s.capacity by omega)]
    exact head
  · have flag : s.isEmpty = false := by
      rw [← Bool.not_eq_true, holds.isEmpty_iff]
      simp
    simp only [flag, Bool.false_or, decide_eq_true_eq, ← List.length_eq_zero_iff]
    unfold place at head
    split_ifs at head ⊢ <;> omega
  · intro i inside
    rw [shift i (show i < s.capacity by omega)]
    exact holds.cells (i + 1) (by rw [List.length_cons]; omega)

/-- A new item at the head. -/
theorem insert (holds : Holds s l) (room : l.length < s.capacity) (x : Item) :
    Holds { s with
      buffer := s.buffer.set s.head x
      head := if s.head + 1 = s.capacity then 0 else s.head + 1
      isEmpty := false } (l ++ [x]) := by
  have tail := holds.tail_lt
  have head := holds.head_eq
  have inBuffer := holds.place_lt_length room.le
  refine ⟨?_, holds.capacity_le, tail, ?_, ?_, ?_, ?_⟩
  · simpa using holds.length_buffer
  · simpa using room
  · change (if s.head + 1 = s.capacity then 0 else s.head + 1) = s.place (l ++ [x]).length
    rw [List.length_append, List.length_singleton]
    unfold place at head ⊢
    split_ifs at head ⊢ <;> omega
  · simp
  · intro i inside
    change (s.buffer.set s.head x)[s.place i]? = _
    rw [head, List.getElem?_set]
    rw [List.length_append, List.length_singleton] at inside
    rcases Nat.lt_or_eq_of_le (Nat.le_of_lt_succ inside) with old | rfl
    · have apart : s.place l.length ≠ s.place i := fun same => by
        have := (place_inj room (by omega)).mp same
        omega
      rw [if_neg apart, List.getElem_append_left old]
      exact holds.cells i old
    · rw [if_pos rfl, if_pos inBuffer]
      simp

end Holds

/-! ## Update -/

theorem decreaseTail_holds (holds : Holds s l) (nonempty : l ≠ [])
    (counted : ∀ x ∈ l, 1 ≤ x.count ∧ x.count < 2 ^ 16) :
    ∃ s', s.decreaseTail = some s' ∧ Holds s' (Queue.decreaseTail l) ∧
      s'.capacity = s.capacity ∧ s'.countMax = s.countMax := by
  rcases l with _ | ⟨x, l⟩
  · exact absurd rfl nonempty
  have first := holds.cells 0 (by simp)
  have tail : s.place 0 = s.tail := if_pos holds.tail_lt
  have bounds := counted x List.mem_cons_self
  have count : (x.count + 2 ^ 16 - 1) % 2 ^ 16 = x.count - 1 := by omega
  have stored := holds.storeItem_eq (i := 0) (by simp) { x with count := x.count - 1 }
  have changed := holds.set (i := 0) (by simp) { x with count := x.count - 1 }
  rw [tail] at first stored changed
  simp only [decreaseTail, first, List.getElem_cons_zero, count, stored, Option.bind_eq_bind,
    Option.bind_some, Queue.decreaseTail]
  by_cases last : x.count = 1
  · rw [if_pos (by omega), if_pos last]
    exact ⟨_, rfl, changed.dropTail, rfl, rfl⟩
  · rw [if_neg (by omega), if_neg last]
    exact ⟨_, rfl, changed, rfl, rfl⟩

theorem insertNewElement_holds {pointer : Nat} (holds : Holds s l)
    (room : l.length < s.capacity) (narrow : pointer < 2 ^ 48) :
    ∃ s', s.insertNewElement pointer = some s' ∧ Holds s' (l ++ [⟨pointer, 1⟩]) ∧
      s'.capacity = s.capacity ∧ s'.countMax = s.countMax := by
  have inBuffer := holds.place_lt_length room.le
  rw [← holds.head_eq] at inBuffer
  have stored : storeItem s.buffer s.head ⟨pointer, 1⟩ =
      some (s.buffer.set s.head ⟨pointer, 1⟩) := if_pos inBuffer
  simp only [insertNewElement, Nat.mod_eq_of_lt narrow, stored, Option.bind_eq_bind,
    Option.bind_some]
  exact ⟨_, rfl, holds.insert room _, rfl, rfl⟩

/-- A search downwards reads only the positions of its range. -/
theorem searchDown_spec {buffer : List Item} (pointer lo : Nat) {hi : Nat}
    (bound : hi ≤ buffer.length) : ∃ found, searchDown buffer pointer lo hi = some found ∧
      (∀ j, found = some j → lo ≤ j ∧ j < hi ∧ ∃ x, buffer[j]? = some x ∧ x.pointer = pointer) ∧
      (found = none → ∀ j x, lo ≤ j → j < hi → buffer[j]? = some x → x.pointer ≠ pointer) := by
  induction hi with
  | zero => exact ⟨none, rfl, by simp, fun _ j x _ below => absurd below (Nat.not_lt_zero j)⟩
  | succ i ih =>
      rw [searchDown]
      split_ifs with passed
      · exact ⟨none, rfl, by simp, fun _ j x _ _ => by omega⟩
      · have here : buffer[i]? = some buffer[i] := List.getElem?_eq_getElem (by omega)
        simp only [here, Option.bind_eq_bind, Option.bind_some]
        split_ifs with same
        · refine ⟨some i, rfl, ?_, by simp⟩
          rintro j ⟨⟩
          exact ⟨by omega, by omega, _, here, same⟩
        · rcases ih (by omega) with ⟨found, search, inside, absent⟩
          refine ⟨found, search, ?_, ?_⟩
          · intro j isFound
            rcases inside j isFound with ⟨lower, upper, rest⟩
            exact ⟨lower, by omega, rest⟩
          · intro none j x lower upper stored
            rcases Nat.lt_or_eq_of_le (Nat.le_of_lt_succ upper) with before | rfl
            · exact absent none j x lower before stored
            · rw [here, Option.some_inj] at stored
              exact stored ▸ same

/-- The search finds an item with the pointer when there is one. -/
theorem getPosition_spec (holds : Holds s l) (pointer : Nat) :
    ∃ found, s.getPosition pointer = some found ∧
      (∀ j, found = some j → ∃ k, ∃ inside : k < l.length, j = s.place k ∧
        l[k].pointer = pointer) ∧
      (found = none → ∀ x ∈ l, x.pointer ≠ pointer) := by
  unfold getPosition empty
  by_cases empty : s.isEmpty = true
  · rw [if_pos empty, holds.isEmpty_iff.mp empty]
    exact ⟨none, rfl, by simp, by simp⟩
  rw [if_neg empty]
  have nonempty : l ≠ [] := fun none => empty (holds.isEmpty_iff.mpr none)
  have tail := holds.tail_lt
  have inBuffer := holds.capacity_le
  rw [← holds.length_buffer] at inBuffer
  -- a position of the two ranges is the cell of an item
  have cell : ∀ k (inside : k < l.length) j x, s.place k = j → s.buffer[j]? = some x →
      l[k].pointer = x.pointer := by
    intro k inside j x place stored
    have here := holds.cells k inside
    rw [place, stored, Option.some_inj] at here
    rw [here]
  have index : ∀ x ∈ l, ∃ k, k < l.length ∧ s.buffer[s.place k]? = some x := by
    intro x member
    rcases List.mem_iff_getElem.mp member with ⟨k, inside, rfl⟩
    exact ⟨k, inside, holds.cells k inside⟩
  rcases holds.head_cases nonempty with ⟨order, length, inside⟩ | ⟨order, length⟩
  · rw [if_pos order]
    rcases searchDown_spec pointer s.tail (show s.head ≤ s.buffer.length by omega) with
      ⟨found, search, inside', absent⟩
    refine ⟨found, search, ?_, ?_⟩
    · intro j isFound
      rcases inside' j isFound with ⟨lower, upper, x, stored, same⟩
      have place : s.place (j - s.tail) = j := by
        unfold place
        split <;> omega
      exact ⟨j - s.tail, by omega, place.symm, (cell _ (by omega) j x place stored).trans same⟩
    · intro none x member
      rcases index x member with ⟨k, below, stored⟩
      have place : s.place k = s.tail + k := if_pos (by omega)
      exact absent none _ x (by omega) (by omega) stored
  · rw [if_neg (by omega)]
    rcases searchDown_spec pointer 0 (show s.head ≤ s.buffer.length by omega) with
      ⟨found₁, search₁, inside₁, absent₁⟩
    rw [search₁]
    rcases found₁ with _ | i
    · rcases searchDown_spec pointer s.tail inBuffer with ⟨found₂, search₂, inside₂, absent₂⟩
      refine ⟨found₂, search₂, ?_, ?_⟩
      · intro j isFound
        rcases inside₂ j isFound with ⟨lower, upper, x, stored, same⟩
        have place : s.place (j - s.tail) = j := by
          unfold place
          split <;> omega
        exact ⟨j - s.tail, by omega, place.symm, (cell _ (by omega) j x place stored).trans same⟩
      · intro none x member
        rcases index x member with ⟨k, below, stored⟩
        by_cases front : s.tail + k < s.capacity
        · have place : s.place k = s.tail + k := if_pos front
          exact absent₂ none _ x (by omega) (by omega) stored
        · have place : s.place k = s.tail + k - s.capacity := if_neg front
          exact absent₁ rfl _ x (by omega) (by omega) stored
    · refine ⟨some i, rfl, ?_, by simp⟩
      rintro j ⟨⟩
      rcases inside₁ i rfl with ⟨lower, upper, x, stored, same⟩
      have place : s.place (s.capacity - s.tail + i) = i := by
        unfold place
        split <;> omega
      exact ⟨s.capacity - s.tail + i, by omega, place.symm,
        (cell _ (by omega) i x place stored).trans same⟩

/-- Moving an item ahead exchanges it with the next one of the queue. -/
theorem moveAhead_holds {pre post : List Item} (holds : Holds s (pre ++ x :: post))
    (nodup : ((pre ++ x :: post).map Item.pointer).Nodup) :
    ∃ s' pre' post', s.moveAhead (s.place pre.length) = some (s', s'.place pre'.length) ∧
      Queue.moveAhead x.pointer (pre ++ x :: post) = pre' ++ x :: post' ∧
      Holds s' (pre' ++ x :: post') ∧ s'.capacity = s.capacity ∧ s'.countMax = s.countMax := by
  have other : ∀ y ∈ pre, y.pointer ≠ x.pointer := by
    intro y member same
    rw [List.map_append, List.map_cons, List.nodup_append] at nodup
    exact nodup.2.2 _ (List.mem_map_of_mem member) _ List.mem_cons_self same
  have cases := holds.head_cases (by simp)
  have bound := holds.length_le
  have tail := holds.tail_lt
  rw [List.length_append, List.length_cons] at cases bound
  rw [moveAhead]
  rcases post with _ | ⟨y, post⟩
  · -- the item is at the front of the queue
    rw [List.length_nil] at cases bound
    have front : s.place pre.length = if s.head = 0 then s.capacity - 1 else s.head - 1 := by
      unfold place
      split_ifs <;> omega
    refine ⟨s, pre, [], ?_, Queue.moveAhead_last other, holds, rfl, rfl⟩
    simp only [front, if_true]
  · rw [List.length_cons] at cases bound
    have front : s.place pre.length ≠ if s.head = 0 then s.capacity - 1 else s.head - 1 := by
      unfold place
      split_ifs <;> omega
    have next : (if s.place pre.length = s.capacity - 1 then 0 else s.place pre.length + 1) =
        s.place (pre.length + 1) := by
      unfold place
      split_ifs <;> omega
    have insideX : pre.length < (pre ++ x :: y :: post).length := by simp
    have insideY : pre.length + 1 < (pre ++ x :: y :: post).length := by simp
    have cellX : s.buffer[s.place pre.length]? = some x := by
      simpa using holds.cells _ insideX
    have cellY : s.buffer[s.place (pre.length + 1)]? = some y := by
      simpa using holds.cells _ insideY
    have first := holds.set insideX y
    have second := first.set (i := pre.length + 1) (by simp) x
    rw [set_focus] at first second
    rw [show (pre ++ y :: y :: post).set (pre.length + 1) x = pre ++ y :: x :: post from
      set_focus_succ pre post y y x] at second
    have stored := first.storeItem_eq (i := pre.length + 1) (by simp) x
    set buffer := (s.buffer.set (s.place pre.length) y).set (s.place (pre.length + 1)) x
      with buffer_eq
    refine ⟨{ s with buffer := buffer }, pre ++ [y], post, ?_, ?_, ?_, rfl, rfl⟩
    · change storeItem (s.buffer.set (s.place pre.length) y) (s.place (pre.length + 1)) x =
        some buffer at stored
      simp only [if_neg front, next, cellX, cellY, Option.bind_eq_bind, Option.bind_some,
        holds.storeItem_eq insideX, stored, List.length_append, List.length_singleton]
      rfl
    · rw [Queue.moveAhead_focus other]
      simp
    · rw [List.append_assoc]
      exact second

/-- The predictor `s` is in the state of the queue `q`. -/
structure Follows (s : Predictor) (q : Queue) : Prop where
  holds : Holds s q.items
  capacity_eq : s.capacity = q.capacity
  countMax_eq : s.countMax = q.countMax

/-- `update` follows the queue, as long as the count does not outgrow its field. -/
theorem Follows.update {q : Queue} (follows : Follows s q) (valid : q.Valid) {pointer : Nat}
    (narrow : pointer < 2 ^ 48) (counted : ∀ x ∈ q.items, x.pointer = pointer →
      x.count < q.countMax → x.count + 1 < 2 ^ 16) :
    ∃ s', s.update pointer = some s' ∧ Follows s' (q.update pointer) := by
  rcases q with ⟨capacity, countMax, items⟩
  rcases follows with ⟨holds, rfl, rfl⟩
  rcases getPosition_spec holds pointer with ⟨found, search, inside, absent⟩
  simp only at holds inside absent counted
  rw [Predictor.update, search]
  simp only [Option.bind_eq_bind, Option.bind_some]
  rcases found with _ | position
  · rw [Queue.update_of_absent (absent rfl)]
    have full := holds.full_iff
    simp only at full ⊢
    by_cases atCapacity : items.length = s.capacity
    · rw [if_pos (full.mpr atCapacity), if_pos atCapacity]
      have nonempty : items ≠ [] := by
        have capacity := valid.capacity_gt
        rintro rfl
        simp only [List.length_nil] at atCapacity capacity
        omega
      rcases decreaseTail_holds holds nonempty
        (fun x member => ⟨valid.count_pos x member, valid.count_lt x member⟩) with
        ⟨s', done, holds', capacity, countMax⟩
      exact ⟨s', done, holds', capacity, countMax⟩
    · have room := holds.length_le
      rw [if_neg (by rw [full]; exact atCapacity), if_neg atCapacity]
      rcases insertNewElement_holds holds (by omega) narrow with
        ⟨s', done, holds', capacity, countMax⟩
      exact ⟨s', done, holds', capacity, countMax⟩
  · rcases inside position rfl with ⟨k, below, rfl, rfl⟩
    rcases exists_focus below with ⟨pre, x, post, rfl, rfl⟩
    have here : (pre ++ x :: post)[pre.length] = x := by simp
    have found := Queue.find?_focus valid.nodup
    rcases moveAhead_holds holds valid.nodup with
      ⟨s', pre', post', moved, list, holds', capacity, countMax⟩
    have inside' : pre'.length < (pre' ++ x :: post').length := by simp
    have cell : s'.buffer[s'.place pre'.length]? = some x := by
      simpa using holds'.cells _ inside'
    have perm := Queue.moveAhead_perm x.pointer (pre ++ x :: post)
    rw [list] at perm
    rw [here, Queue.update_of_find found, list]
    simp only [moved, Option.bind_some, cell]
    by_cases less : x.count < s'.countMax
    · have nodup' := (perm.map Item.pointer).nodup_iff.mpr valid.nodup
      have fits := counted x (by simp) (by rw [here]) (countMax ▸ less)
      have changed := holds'.set inside' { x with count := x.count + 1 }
      rw [set_focus] at changed
      rw [if_pos less, if_pos (countMax ▸ less), Nat.mod_eq_of_lt fits, holds'.storeItem_eq inside',
        Queue.increment_focus nodup']
      exact ⟨_, rfl, changed, capacity, countMax⟩
    · rw [if_neg less, if_neg (countMax ▸ less)]
      rcases decreaseTail_holds holds' (by simp) (fun y member =>
        ⟨valid.count_pos y (perm.mem_iff.mp member), valid.count_lt y (perm.mem_iff.mp member)⟩)
        with ⟨s'', done, holds'', capacity', countMax'⟩
      exact ⟨s'', done, holds'', capacity'.trans capacity, countMax'.trans countMax⟩

/-! ## Resize -/

/-- The loop that copies items reads none that it has written. -/
theorem copyItems_spec (buffer : List Item) (source : Nat → Nat) (first count : Nat)
    (bound : first + count ≤ buffer.length)
    (sources : ∀ j, first ≤ j → j < first + count →
      source j < buffer.length ∧ (source j < first ∨ j ≤ source j)) :
    ∃ b, copyItems source first count buffer = some b ∧ b.length = buffer.length ∧
      ∀ j, b[j]? = if first ≤ j ∧ j < first + count then buffer[source j]? else buffer[j]? := by
  induction count with
  | zero => exact ⟨buffer, rfl, rfl, fun j => (if_neg (by omega)).symm⟩
  | succ n ih =>
      rcases ih (by omega) (fun j lower upper => sources j lower (by omega)) with
        ⟨b, copied, length, cells⟩
      rcases sources (first + n) (by omega) (by omega) with ⟨inside, unwritten⟩
      have read : b[source (first + n)]? = buffer[source (first + n)]? := by
        rw [cells, if_neg (by omega)]
      rw [List.getElem?_eq_getElem inside] at read
      have stored : storeItem b (first + n) buffer[source (first + n)] =
          some (b.set (first + n) buffer[source (first + n)]) := if_pos (by omega)
      refine ⟨b.set (first + n) buffer[source (first + n)], ?_, by simpa using length, ?_⟩
      · simp only [copyItems, copied, Option.bind_eq_bind, Option.bind_some, read, stored]
      · intro j
        rw [List.getElem?_set]
        by_cases here : first + n = j
        · subst here
          rw [if_pos rfl, if_pos (by omega), if_pos (by omega),
            List.getElem?_eq_getElem inside]
        · rw [if_neg here, cells]
          by_cases before : first ≤ j ∧ j < first + n
          · rw [if_pos before, if_pos (by omega)]
          · rw [if_neg before, if_neg (by omega)]

theorem clearItems_spec (buffer : List Item) (first count : Nat)
    (bound : first + count ≤ buffer.length) :
    ∃ b, clearItems first count buffer = some b ∧ b.length = buffer.length ∧
      ∀ j, (j < first ∨ first + count ≤ j) → b[j]? = buffer[j]? := by
  induction count with
  | zero => exact ⟨buffer, rfl, rfl, fun j _ => rfl⟩
  | succ n ih =>
      rcases ih (by omega) with ⟨b, cleared, length, cells⟩
      have stored : storeItem b (first + n) zeroItem = some (b.set (first + n) zeroItem) :=
        if_pos (by omega)
      refine ⟨b.set (first + n) zeroItem, ?_, by simpa using length, ?_⟩
      · simp only [clearItems, cleared, Option.bind_eq_bind, Option.bind_some, stored]
      · intro j outside
        rw [List.getElem?_set, if_neg (by omega)]
        exact cells j (by omega)

theorem gatherItems_spec (buffer target : List Item) (places : List Nat) (i : Nat)
    (bound : i + places.length ≤ target.length) (inside : ∀ j ∈ places, j < buffer.length) :
    ∃ b, gatherItems buffer places i target = some b ∧ b.length = target.length ∧
      (∀ j, j < i → b[j]? = target[j]?) ∧
      ∀ k (h : k < places.length), b[i + k]? = buffer[places[k]]? := by
  induction places generalizing i target with
  | nil => exact ⟨target, rfl, rfl, fun _ _ => rfl, fun k h => absurd h (Nat.not_lt_zero k)⟩
  | cons p places ih =>
      rw [List.length_cons] at bound
      have insideP := inside p List.mem_cons_self
      have read : buffer[p]? = some buffer[p] := List.getElem?_eq_getElem insideP
      have stored : storeItem target i buffer[p] = some (target.set i buffer[p]) :=
        if_pos (by omega)
      rcases ih (target.set i buffer[p]) (i + 1) (by rw [List.length_set]; omega)
        (fun j member => inside j (List.mem_cons_of_mem p member)) with
        ⟨b, gathered, length, before, after⟩
      rw [List.length_set] at length
      refine ⟨b, ?_, length, ?_, ?_⟩
      · simp only [gatherItems, read, Option.bind_eq_bind, Option.bind_some, stored, gathered]
      · intro j lower
        rw [before j (by omega), List.getElem?_set, if_neg (by omega)]
      · intro k h
        cases k with
        | zero =>
            rw [Nat.add_zero, before i (by omega), List.getElem?_set, if_pos rfl,
              if_pos (by omega), List.getElem_cons_zero, read]
        | succ k =>
            rw [List.length_cons] at h
            have rest := after k (by omega)
            rw [List.getElem_cons_succ, ← rest]
            congr 1
            omega

theorem le_hyperceil (value : Nat) : value ≤ hyperceil value := Nat.le_pow_clog (by norm_num) value

/-- A new buffer, with room for more than the items. -/
theorem resizeWithNewBuffer_holds {sz : Nat} (holds : Holds s l) (nonempty : l ≠ [])
    (room : l.length < sz) :
    ∃ s', s.resizeWithNewBuffer sz = some s' ∧ Holds s' l ∧ s'.capacity = sz ∧
      s'.countMax = s.countMax := by
  have places := holds.positions_eq nonempty
  have length : s.positions.length = l.length := by simp [places]
  have fits := le_hyperceil sz
  have bound := holds.length_le
  have inside : ∀ j ∈ s.positions, j < s.buffer.length := by
    intro j member
    rw [places] at member
    rcases List.mem_map.mp member with ⟨i, inRange, rfl⟩
    have below := List.mem_range.mp inRange
    exact holds.place_lt_length (by omega)
  rcases gatherItems_spec s.buffer (List.replicate (hyperceil sz) zeroItem) s.positions 0
    (by rw [List.length_replicate]; omega) inside with ⟨b, gathered, lengthB, -, cells⟩
  rw [resizeWithNewBuffer, gathered]
  refine ⟨_, rfl, ?_, rfl, rfl⟩
  have straight : ∀ i, i ≤ l.length → (if 0 + i < sz then 0 + i else 0 + i - sz) = i := by
    intro i le
    rw [if_pos (by omega), Nat.zero_add]
  refine ⟨?_, fits, show 0 < sz by omega, room.le, ?_, holds.isEmpty_iff, ?_⟩
  · rw [lengthB, List.length_replicate]
  · exact length.trans (straight _ le_rfl).symm
  · intro i below
    change b[if 0 + i < sz then 0 + i else 0 + i - sz]? = _
    have cell := cells i (by omega)
    rw [Nat.zero_add] at cell
    rw [straight i below.le, cell, ← holds.cells i below]
    simp [places]

/-- The queue that wraps around grows in its buffer. -/
theorem resizeWrapped_holds {sz : Nat} (holds : Holds s l) (nonempty : l ≠ [])
    (wraps : s.head ≤ s.tail) (head : 0 < s.head) (grows : s.capacity < sz)
    (fits : sz ≤ s.capacityMax) :
    ∃ s', s.resizeWrapped sz = some s' ∧ Holds s' l ∧ s'.capacity = sz ∧
      s'.countMax = s.countMax := by
  have tail := holds.tail_lt
  have count : s.tail + l.length = s.capacity + s.head := by
    rcases holds.head_cases nonempty with ⟨order, -, -⟩ | ⟨-, length⟩
    · omega
    · exact length
  have bound := holds.length_le
  have lengthBuffer := holds.length_buffer
  have cell : ∀ i (inside : i < l.length) j, (j = s.tail + i ∧ j < s.capacity ∨
      j + s.capacity = s.tail + i) → s.buffer[j]? = some l[i] := by
    intro i inside j here
    rw [← holds.cells i inside]
    congr 1
    unfold Predictor.place
    split_ifs <;> omega
  rw [resizeWrapped]
  set stop := min sz (s.capacity + s.head) with stop_eq
  have source : ∀ j, s.capacity ≤ j → j < s.capacity + s.head → j % s.capacity = j - s.capacity := by
    intro j lower upper
    rw [Nat.mod_eq_sub_mod lower, Nat.mod_eq_of_lt (by omega)]
  rcases copyItems_spec s.buffer (· % s.capacity) s.capacity (stop - s.capacity) (by omega)
    (fun j lower upper => by
      simp only [source j lower (by omega)]
      omega) with ⟨b, copied, lengthB, cells⟩
  simp only [copied, Option.bind_eq_bind, Option.bind_some]
  -- the part that was before the end of the queue stays where it is
  have old : ∀ i (inside : i < l.length), s.tail + i < s.capacity →
      b[s.tail + i]? = some l[i] := by
    intro i inside before
    rw [cells, if_neg (by omega)]
    exact cell i inside _ (Or.inl ⟨rfl, before⟩)
  have moved : ∀ i (inside : i < l.length), s.capacity ≤ s.tail + i → s.tail + i < stop →
      b[s.tail + i]? = some l[i] := by
    intro i inside after before
    rw [cells, if_pos (by omega), source _ after (by omega)]
    exact cell i inside _ (Or.inr (by omega))
  by_cases all : s.head - (stop - s.capacity) = 0
  · -- there is room for all the items before the tail
    rcases clearItems_spec b 0 s.head (by omega) with ⟨b', cleared, lengthB', cells'⟩
    simp only [if_pos all, cleared, Option.bind_some]
    refine ⟨_, rfl, ⟨?_, fits, tail.trans grows, bound.trans grows.le, ?_, holds.isEmpty_iff, ?_⟩,
      rfl, rfl⟩
    · rw [lengthB', lengthB, lengthBuffer]
    · change stop % sz = if s.tail + l.length < sz then s.tail + l.length
        else s.tail + l.length - sz
      split_ifs with inside
      · rw [Nat.mod_eq_of_lt (by omega)]
        omega
      · rw [show stop = sz by omega, Nat.mod_self]
        omega
    · intro i inside
      change b'[if s.tail + i < sz then s.tail + i else s.tail + i - sz]? = _
      rw [if_pos (by omega), cells' _ (by omega)]
      rcases Nat.lt_or_ge (s.tail + i) s.capacity with before | after
      · exact old i inside before
      · exact moved i inside after (by omega)
  · -- the others move to the start
    rcases copyItems_spec b (stop - s.capacity + ·) 0 (s.head - (stop - s.capacity)) (by omega)
      (fun j _ upper => by omega) with ⟨b', shifted, lengthB', cells'⟩
    rcases clearItems_spec b' (s.head - (stop - s.capacity))
      (s.head - (s.head - (stop - s.capacity))) (by omega) with ⟨b'', cleared, lengthB'', cells''⟩
    simp only [if_neg all, shifted, cleared, Option.bind_some]
    refine ⟨_, rfl, ⟨?_, fits, tail.trans grows, bound.trans grows.le, ?_, holds.isEmpty_iff, ?_⟩,
      rfl, rfl⟩
    · rw [lengthB'', lengthB', lengthB, lengthBuffer]
    · change s.head - (stop - s.capacity) = if s.tail + l.length < sz then s.tail + l.length
        else s.tail + l.length - sz
      split_ifs <;> omega
    · intro i inside
      change b''[if s.tail + i < sz then s.tail + i else s.tail + i - sz]? = _
      rcases Nat.lt_or_ge (s.tail + i) sz with before | after
      · rw [if_pos before, cells'' _ (by omega), cells', if_neg (by omega)]
        rcases Nat.lt_or_ge (s.tail + i) s.capacity with front | past
        · exact old i inside front
        · exact moved i inside past (by omega)
      · rw [if_neg (by omega), cells'' _ (by omega), cells', if_pos (by omega), cells,
          if_neg (by omega)]
        exact cell i inside _ (Or.inr (by omega))

/-- The steps that the code takes as it should: a count stays in its field, the
capacity of an empty queue stays above the head and within the buffer, and a queue
never shrinks to the number of its items. -/
def Safe (s : Predictor) : Op → Prop
  | .update pointer => ∀ x ∈ s.stored, x.pointer = pointer → x.count < s.countMax →
      x.count + 1 < 2 ^ 16
  | .resize sz => 1 < sz → s.size ≤ sz → sz ≠ s.capacity →
      if s.isEmpty then s.head < sz ∧ sz ≤ s.capacityMax else s.capacity < sz ∨ s.size < sz
  | .setMaxCount _ => True
  | .resetPtr _ _ => True

/-- An accepted size, when the step is safe. -/
theorem resizeAccepted_holds {sz : Nat} (holds : Holds s l) (accepted : 1 < sz)
    (enough : l.length ≤ sz) (other : sz ≠ s.capacity) (safe : s.Safe (.resize sz)) :
    ∃ s', s.resizeAccepted sz = some s' ∧ Holds s' l ∧ s'.capacity = sz ∧
      s'.countMax = s.countMax := by
  have tail := holds.tail_lt
  have room := safe accepted (holds.size_eq.trans_le enough) other
  unfold resizeAccepted empty
  by_cases empty : s.isEmpty = true
  · obtain rfl := holds.isEmpty_iff.mp empty
    have head := holds.head_eq
    rw [if_pos empty] at room ⊢
    refine ⟨_, rfl, ⟨holds.length_buffer, room.2, ?_, Nat.zero_le _, ?_, holds.isEmpty_iff,
      by simp⟩, rfl, rfl⟩
    · change s.tail < sz
      unfold place at head
      simp only [List.length_nil] at head
      split_ifs at head <;> omega
    · change s.head = if s.tail + 0 < sz then s.tail + 0 else s.tail + 0 - sz
      unfold place at head
      simp only [List.length_nil] at head
      split_ifs at head ⊢ <;> omega
  · rw [if_neg empty] at room ⊢
    rw [holds.size_eq] at room
    have nonempty : l ≠ [] := fun none => empty (holds.isEmpty_iff.mpr none)
    have bound := holds.length_le
    by_cases grows : sz > s.capacity
    · by_cases inBuffer : sz ≤ s.capacityMax
      · rw [if_pos grows, if_pos inBuffer]
        have front : ∀ i, s.tail + i < s.capacity → s.place i = s.tail + i := fun i before =>
          if_pos before
        rcases holds.head_cases nonempty with ⟨order, length, inside⟩ | ⟨order, length⟩
        · rw [if_pos order]
          refine ⟨_, rfl, ⟨holds.length_buffer, inBuffer, tail.trans grows, bound.trans grows.le, ?_,
            holds.isEmpty_iff, ?_⟩, rfl, rfl⟩
          · change s.head = if s.tail + l.length < sz then _ else _
            rw [if_pos (by omega), length]
          · intro i below
            change s.buffer[if s.tail + i < sz then s.tail + i else _]? = _
            rw [if_pos (by omega), ← front i (by omega)]
            exact holds.cells i below
        · rw [if_neg (by omega)]
          by_cases atStart : s.head = 0
          · rw [if_pos atStart]
            refine ⟨_, rfl, ⟨holds.length_buffer, inBuffer, tail.trans grows,
              bound.trans grows.le, ?_, holds.isEmpty_iff, ?_⟩, rfl, rfl⟩
            · change s.capacity = if s.tail + l.length < sz then s.tail + l.length
                else s.tail + l.length - sz
              rw [if_pos (by omega)]
              omega
            · intro i below
              change s.buffer[if s.tail + i < sz then s.tail + i else _]? = _
              rw [if_pos (by omega), ← front i (by omega)]
              exact holds.cells i below
          · rw [if_neg atStart]
            exact resizeWrapped_holds holds nonempty order (Nat.pos_of_ne_zero atStart) grows
              inBuffer
      · rw [if_pos grows, if_neg inBuffer]
        exact resizeWithNewBuffer_holds holds nonempty (by omega)
    · rw [if_neg grows]
      exact resizeWithNewBuffer_holds holds nonempty (by omega)

/-- The predictor follows the queue by every safe step. -/
theorem Follows.step {q : Queue} (follows : Follows s q) (valid : q.Valid) {op : Op}
    (admissible : q.Admissible op) (safe : s.Safe op) :
    ∃ s', s.step op = some s' ∧ Follows s' (q.step op) := by
  rcases q with ⟨capacity, countMax, items⟩
  rcases follows with ⟨holds, rfl, rfl⟩
  cases op with
  | update pointer =>
      have counted := safe
      simp only [Safe, holds.stored_eq] at counted
      exact Follows.update ⟨holds, rfl, rfl⟩ valid admissible counted
  | resize sz =>
      have size := holds.size_eq
      have length := valid.length_le
      have capacity := valid.capacity_gt
      simp only [Predictor.step, Predictor.resize, Queue.step, Queue.resize] at size length capacity ⊢
      by_cases same : sz = s.capacity
      · subst same
        rw [if_pos rfl, if_pos ⟨capacity, length⟩]
        exact ⟨s, rfl, holds, rfl, rfl⟩
      rw [if_neg same]
      by_cases tooSmall : sz ≤ 1
      · rw [if_pos tooSmall, if_neg (show ¬(1 < sz ∧ items.length ≤ sz) by omega)]
        exact ⟨s, rfl, holds, rfl, rfl⟩
      rw [if_neg tooSmall]
      by_cases tooMany : sz < s.size
      · rw [if_pos tooMany, if_neg (show ¬(1 < sz ∧ items.length ≤ sz) by omega)]
        exact ⟨s, rfl, holds, rfl, rfl⟩
      · rw [if_neg tooMany, if_pos (show 1 < sz ∧ items.length ≤ sz by omega)]
        rcases resizeAccepted_holds holds (by omega) (show items.length ≤ sz by omega) same safe with
          ⟨s', done, holds', capacity', countMax'⟩
        exact ⟨s', done, holds', capacity', countMax'⟩
  | setMaxCount value =>
      simp only [Predictor.step, Predictor.setMaxCount, Queue.step, Queue.setMaxCount]
      by_cases accepted : 1 ≤ value ∧ value ≤ 2 ^ 16
      · rw [if_neg (by omega), if_pos accepted]
        refine ⟨_, rfl, ?_, rfl, rfl⟩
        exact ⟨holds.length_buffer, holds.capacity_le, holds.tail_lt, holds.length_le,
          holds.head_eq, holds.isEmpty_iff, holds.cells⟩
      · rw [if_pos (by omega), if_neg accepted]
        exact ⟨s, rfl, holds, rfl, rfl⟩
  | resetPtr k pmaPosition =>
      rcases admissible with ⟨inside, narrow, -⟩
      simp only at inside holds
      have nonempty : items ≠ [] := List.ne_nil_of_length_pos (by omega)
      have index : s.positions[k]? = some (s.place k) := by
        simp [holds.positions_eq nonempty, inside]
      have cell := holds.cells k inside
      have changed := holds.set inside { items[k] with pointer := pmaPosition }
      simp only [Predictor.step, index, Predictor.resetPtr, cell, Option.bind_eq_bind,
        Option.bind_some, Nat.mod_eq_of_lt narrow, holds.storeItem_eq inside]
      refine ⟨_, rfl, ?_, rfl, rfl⟩
      simp only [Queue.step, Queue.resetPtr, List.modify_eq_set_getElem?,
        List.getElem?_eq_getElem inside]
      exact changed

end Places

/-! ## Runs -/

/-- Every step of the run is safe. -/
def SafeRun : Predictor → List Op → Prop
  | _, [] => True
  | s, op :: ops => s.Safe op ∧
    match s.step op with
    | some s' => SafeRun s' ops
    | none => True

instance (s : Predictor) : DecidablePred s.Safe
  | .update pointer => inferInstanceAs (Decidable (∀ x ∈ s.stored, x.pointer = pointer →
      x.count < s.countMax → x.count + 1 < 2 ^ 16))
  | .resize sz => inferInstanceAs (Decidable (1 < sz → s.size ≤ sz → sz ≠ s.capacity →
      if s.isEmpty then s.head < sz ∧ sz ≤ s.capacityMax else s.capacity < sz ∨ s.size < sz))
  | .setMaxCount _ => isTrue trivial
  | .resetPtr _ _ => isTrue trivial

instance decidableSafeRun : (s : Predictor) → (ops : List Op) → Decidable (s.SafeRun ops)
  | _, [] => isTrue trivial
  | s, op :: ops =>
    have : Decidable (match s.step op with | some s' => SafeRun s' ops | none => True) :=
      match s.step op with
      | some s' => decidableSafeRun s' ops
      | none => isTrue trivial
    inferInstanceAs (Decidable (_ ∧ _))

/-- The predictor shows the queue `q` to its callers, which is bounded and counts
distinct pointers. -/
structure Shows (s : Predictor) (q : Queue) : Prop where
  stored_eq : s.stored = q.items
  capacity_eq : s.capacity = q.capacity
  countMax_eq : s.countMax = q.countMax
  size_eq : s.size = s.stored.length
  size_le : s.size ≤ s.capacity
  nodup : (s.stored.map Item.pointer).Nodup
  count_pos : ∀ x ∈ s.stored, 1 ≤ x.count
  full_iff : s.full = true ↔ s.size = s.capacity
  empty_iff : s.empty = true ↔ s.size = 0

theorem Follows.shows {s : Predictor} {q : Queue} (follows : Follows s q) (valid : q.Valid) :
    s.Shows q := by
  rcases q with ⟨capacity, countMax, items⟩
  rcases follows with ⟨holds, rfl, rfl⟩
  simp only at holds
  have stored := holds.stored_eq
  have size := holds.size_eq
  refine ⟨stored, rfl, rfl, ?_, ?_, ?_, ?_, ?_, ?_⟩
  · rw [stored, size]
  · rw [size]
    exact holds.length_le
  · rw [stored]
    exact valid.nodup
  · rw [stored]
    exact valid.count_pos
  · rw [size]
    exact holds.full_iff
  · rw [size, List.length_eq_zero_iff]
    exact holds.isEmpty_iff

/-- The constructor makes an empty queue. -/
theorem create_follows {size maxCount : Nat} {s : Predictor}
    (created : create size maxCount = .ok s) :
    Follows s ⟨size, maxCount, []⟩ ∧ Queue.Valid ⟨size, maxCount, []⟩ := by
  unfold create at created
  split_ifs at created with counts sizes
  cases created
  have fits := le_hyperceil size
  refine ⟨⟨⟨?_, fits, ?_, Nat.zero_le _, ?_, ?_, ?_⟩, rfl, rfl⟩, ⟨Nat.zero_le _, ?_, ?_, ?_, ?_, ?_⟩⟩
  all_goals simp [place]
  all_goals omega

/-- The predictor keeps following the queue as long as its steps are safe. -/
theorem Follows.run {s : Predictor} {q : Queue} {ops : List Op} (follows : Follows s q)
    (valid : q.Valid) (admissible : q.AdmissibleRun ops) (safe : s.SafeRun ops) :
    ∃ t, runFrom Predictor.step s ops = some t ∧ Follows t (ops.foldl Queue.step q) ∧
      (ops.foldl Queue.step q).Valid := by
  induction ops generalizing s q with
  | nil => exact ⟨s, rfl, follows, valid⟩
  | cons op ops ih =>
      rcases admissible with ⟨first, rest⟩
      rcases safe with ⟨safeFirst, safeRest⟩
      rcases follows.step valid first safeFirst with ⟨s', done, follows'⟩
      simp only [done] at safeRest
      have narrow : ∀ pointer, op = .update pointer → ∀ x ∈ q.items, x.pointer = pointer →
          x.count < q.countMax → x.count + 1 < 2 ^ 16 := by
        rintro pointer rfl x member same less
        refine safeFirst x ?_ same ?_
        · rw [follows.holds.stored_eq]
          exact member
        · rw [follows.countMax_eq]
          exact less
      rcases ih follows' (valid.step first narrow) rest safeRest with ⟨t, run, final⟩
      exact ⟨t, runFrom_cons_eq_some.mpr ⟨s', done, run⟩, final⟩

/-- Along every run of safe steps the predictor makes no access outside its buffer,
and shows the queue that its calls describe. -/
theorem predictor_queue {size maxCount : Nat} {s : Predictor} {ops : List Op}
    (created : create size maxCount = .ok s)
    (admissible : Queue.AdmissibleRun ⟨size, maxCount, []⟩ ops) (safe : s.SafeRun ops) :
    ∃ t, runFrom step s ops = some t ∧
      t.Shows (ops.foldl Queue.step ⟨size, maxCount, []⟩) := by
  rcases create_follows created with ⟨follows, valid⟩
  rcases follows.run valid admissible safe with ⟨t, run, follows', valid'⟩
  exact ⟨t, run, follows'.shows valid'⟩

/-- The calls of a caller that resizes twice, with an item that moves and one that is
reset. -/
def someCalls : List Op :=
  [.update 7, .update 9, .resize 8, .update 7, .setMaxCount 1, .update 9, .resize 3, .resetPtr 0 5]

theorem predictor_queue_someCalls : ∃ s t, create 4 2 = .ok s ∧ runFrom step s someCalls = some t ∧
    t.Shows (someCalls.foldl Queue.step ⟨4, 2, []⟩) := by
  have accepted : (create 4 2).isOk = true := by decide +kernel
  rcases created : create 4 2 with e | s
  · rw [created] at accepted
    cases accepted
  · have safe : ∀ s, (create 4 2).toOption = some s → s.SafeRun someCalls := by decide +kernel
    have made : (create 4 2).toOption = some s := by rw [created]; rfl
    rcases predictor_queue created (by decide) (safe s made) with ⟨t, run, shows⟩
    exact ⟨s, t, rfl, run, shows⟩

/-- A queue that shrinks to the number of its items is no longer full, and the next
item goes past the end of the buffer. -/
theorem predictor_exactFit : ¬∀ (size maxCount : Nat) (s : Predictor) (ops : List Op),
    create size maxCount = .ok s → Queue.AdmissibleRun ⟨size, maxCount, []⟩ ops →
    ∃ t, runFrom step s ops = some t ∧
      t.Shows (ops.foldl Queue.step ⟨size, maxCount, []⟩) := by
  intro claim
  have accepted : (create 4 2).isOk = true := by decide +kernel
  rcases created : create 4 2 with e | s
  · rw [created] at accepted
    cases accepted
  · rcases claim 4 2 s [.update 0, .update 1, .resize 2, .update 2] created (by decide) with
      ⟨t, run, -⟩
    have none : ((create 4 2).toOption.bind fun s =>
        runFrom step s [.update 0, .update 1, .resize 2, .update 2]) = none := by decide +kernel
    rw [created] at none
    exact absurd (run.symm.trans none) (by simp)

end Predictor

end Rma
