import Rma.Base.Runs
import Rma.Base.Words
import Rma.Base.Focus

/-!
# The predictor of BH07

`Predictor` is a queue of pointers with a count each, kept in a circular buffer: the
physical buffer is at least as long as the capacity of the queue, and a flag tells
an empty queue from a full one. An access past the end of the buffer is undefined,
so a method that touches the buffer answers `none` where it makes one.

`Queue` is what the predictor is for, and `Holds` ties the two together. A run of
the predictor follows the queue as long as no step is one of those that `Safe`
leaves out: a resize of an empty queue below its head or above the buffer, a
resize to the exact number of elements, and a count that outgrows its 16 bits.
-/

namespace Rma

open Base

/-- An element of the predictor; the fields are 48 and 16 bits wide. -/
structure Item where
  pointer : Nat
  count : Nat
  deriving DecidableEq, Repr

/-- The fields of `Predictor`. -/
structure Predictor where
  buffer : List Item
  capacity : Nat
  capacityMax : Nat
  tail : Nat
  head : Nat
  countMax : Nat
  isEmpty : Bool
  deriving DecidableEq, Repr

/-- The messages of `std::invalid_argument`. -/
inductive InvalidArgument where
  | size
  | tooManyElements
  | maxCount
  deriving DecidableEq, Repr

namespace Predictor

/-! ## The buffer -/

/-- What `memset` leaves in a cell. -/
def zeroItem : Item := ⟨0, 0⟩

def storeItem (buffer : List Item) (i : Nat) (x : Item) : Option (List Item) :=
  if i < buffer.length then some (buffer.set i x) else none

/-- `for(i = hi -1; i >= lo; i--)`: the position of an item with the pointer. -/
def searchDown (buffer : List Item) (pointer lo : Nat) : (hi : Nat) → Option (Option Nat)
  | 0 => some none
  | i + 1 =>
    if i < lo then some none
    else do
      let item ← buffer[i]?
      if item.pointer = pointer then some (some i) else searchDown buffer pointer lo i

/-- `for(i = first; i < first + count; i++) buffer[i] = buffer[source(i)]` -/
def copyItems (source : Nat → Nat) (first : Nat) : (count : Nat) → List Item → Option (List Item)
  | 0, buffer => some buffer
  | n + 1, buffer => do
    let buffer ← copyItems source first n buffer
    let item ← buffer[source (first + n)]?
    storeItem buffer (first + n) item

/-- `memset(buffer + first, 0, count * sizeof(buffer[0]))` -/
def clearItems (first : Nat) : (count : Nat) → List Item → Option (List Item)
  | 0, buffer => some buffer
  | n + 1, buffer => do
    let buffer ← clearItems first n buffer
    storeItem buffer (first + n) zeroItem

/-- Copy the items at some positions of a buffer to the front of another one. -/
def gatherItems (buffer : List Item) : (positions : List Nat) → (i : Nat) → List Item →
    Option (List Item)
  | [], _, target => some target
  | j :: positions, i, target => do
    let item ← buffer[j]?
    let target ← storeItem target i item
    gatherItems buffer positions (i + 1) target

/-! ## Observers -/

def empty (s : Predictor) : Bool := s.isEmpty

def full (s : Predictor) : Bool := !s.empty && s.tail = s.head

/-- The differences are taken modulo `2 ^ 64`, as in the source. -/
def size (s : Predictor) : Nat :=
  if s.isEmpty then 0
  else if s.head > s.tail then s.head - s.tail
  else s.capacity + s.head - s.tail

/-- The positions of the queue that is not empty, the tail first. -/
def positions (s : Predictor) : List Nat :=
  if s.head > s.tail then List.range' s.tail (s.head - s.tail)
  else List.range' s.tail (s.capacity - s.tail) ++ List.range s.head

/-- The items of the queue, the tail first. -/
def stored (s : Predictor) : List Item :=
  if s.isEmpty then [] else s.positions.filterMap fun i => s.buffer[i]?

/-- The position of the item with the pointer. -/
def getPosition (s : Predictor) (pointer : Nat) : Option (Option Nat) :=
  if s.empty then some none
  else if s.head > s.tail then searchDown s.buffer pointer s.tail s.head
  else do
    match ← searchDown s.buffer pointer 0 s.head with
    | some i => some (some i)
    | none => searchDown s.buffer pointer s.tail s.capacity

/-! ## Update -/

def decreaseTail (s : Predictor) : Option Predictor := do
  let item ← s.buffer[s.tail]?
  let count := (item.count + 2 ^ 16 - 1) % 2 ^ 16
  let buffer ← storeItem s.buffer s.tail { item with count := count }
  if count = 0 then
    let tail := if s.tail + 1 = s.capacity then 0 else s.tail + 1
    some { s with buffer := buffer, tail := tail, isEmpty := s.isEmpty || tail = s.head }
  else some { s with buffer := buffer }

/-- Move an item ahead of one position: the predictor and the new position. -/
def moveAhead (s : Predictor) (itemPosition : Nat) : Option (Predictor × Nat) :=
  let front := if s.head = 0 then s.capacity - 1 else s.head - 1
  if itemPosition = front then some (s, itemPosition)
  else do
    let nextPosition := if itemPosition = s.capacity - 1 then 0 else itemPosition + 1
    let item ← s.buffer[itemPosition]?
    let next ← s.buffer[nextPosition]?
    let buffer ← storeItem s.buffer itemPosition next
    let buffer ← storeItem buffer nextPosition item
    some ({ s with buffer := buffer }, nextPosition)

def insertNewElement (s : Predictor) (pointer : Nat) : Option Predictor := do
  let buffer ← storeItem s.buffer s.head ⟨pointer % 2 ^ 48, 1⟩
  let head := if s.head + 1 = s.capacity then 0 else s.head + 1
  some { s with buffer := buffer, head := head, isEmpty := false }

def update (s : Predictor) (pointer : Nat) : Option Predictor := do
  match ← s.getPosition pointer with
  | some position =>
    let (s, position) ← s.moveAhead position
    let item ← s.buffer[position]?
    if item.count < s.countMax then
      let buffer ← storeItem s.buffer position { item with count := (item.count + 1) % 2 ^ 16 }
      some { s with buffer := buffer }
    else s.decreaseTail
  | none =>
    if s.full then s.decreaseTail else s.insertNewElement pointer

def resetPtr (s : Predictor) (index pmaPosition : Nat) : Option Predictor := do
  let item ← s.buffer[index]?
  let buffer ← storeItem s.buffer index { item with pointer := pmaPosition % 2 ^ 48 }
  some { s with buffer := buffer }

/-! ## Resize -/

def setMaxCount (s : Predictor) (value : Nat) : Except InvalidArgument Predictor :=
  if value < 1 ∨ value > 2 ^ 16 then .error .maxCount else .ok { s with countMax := value }

def resizeWithNewBuffer (s : Predictor) (sz : Nat) : Option Predictor := do
  let buffer ← gatherItems s.buffer s.positions 0 (List.replicate (hyperceil sz) zeroItem)
  some { s with
    buffer := buffer
    tail := 0
    head := s.positions.length
    capacity := sz
    capacityMax := hyperceil sz }

/-- The part of `resize` that grows a queue that wraps around, in its buffer. -/
def resizeWrapped (s : Predictor) (sz : Nat) : Option Predictor := do
  let stop := min sz (s.capacity + s.head)
  let buffer ← copyItems (· % s.capacity) s.capacity (stop - s.capacity) s.buffer
  let copied := stop - s.capacity
  let leftover := s.head - copied
  if leftover = 0 then
    let buffer ← clearItems 0 s.head buffer
    some { s with buffer := buffer, head := stop % sz, capacity := sz }
  else
    let buffer ← copyItems (copied + ·) 0 leftover buffer
    let buffer ← clearItems leftover (s.head - leftover) buffer
    some { s with buffer := buffer, head := leftover, capacity := sz }

/-- `resize`, once the argument has been accepted. -/
def resizeAccepted (s : Predictor) (sz : Nat) : Option Predictor :=
  if s.empty then some { s with capacity := sz }
  else if sz > s.capacity then
    if sz ≤ s.capacityMax then
      if s.tail < s.head then some { s with capacity := sz }
      else if s.head = 0 then some { s with head := s.capacity, capacity := sz }
      else s.resizeWrapped sz
    else s.resizeWithNewBuffer sz
  else s.resizeWithNewBuffer sz

def resize (s : Predictor) (sz : Nat) : Except InvalidArgument (Option Predictor) :=
  if sz = s.capacity then .ok (some s)
  else if sz ≤ 1 then .error .size
  else if sz < s.size then .error .tooManyElements
  else .ok (s.resizeAccepted sz)

/-- The constructor. -/
def create (size maxCount : Nat) : Except InvalidArgument Predictor :=
  if maxCount < 1 ∨ maxCount > 2 ^ 16 then .error .maxCount
  else if size ≤ 1 then .error .size
  else .ok {
    buffer := List.replicate (hyperceil size) zeroItem
    capacity := size
    capacityMax := hyperceil size
    tail := 0
    head := 0
    countMax := maxCount
    isEmpty := true }

/-! ## Steps -/

/-- A call of a method. `resetPtr k` is for the `k`-th item of the queue, whose
position the caller has from `items`. -/
inductive Op where
  | update (pointer : Nat)
  | resize (sz : Nat)
  | setMaxCount (value : Nat)
  | resetPtr (k pmaPosition : Nat)
  deriving DecidableEq, Repr

/-- The state after a call; an argument that is not accepted changes nothing. -/
def step (s : Predictor) : Op → Option Predictor
  | .update pointer => s.update pointer
  | .resize sz => (s.resize sz).toOption.getD (some s)
  | .setMaxCount value => some ((s.setMaxCount value).toOption.getD s)
  | .resetPtr k pmaPosition =>
    match s.positions[k]? with
    | some index => s.resetPtr index pmaPosition
    | none => some s

end Predictor

/-! ## The queue -/

/-- What the predictor is for: a bounded queue of counted pointers, the tail first. -/
structure Queue where
  capacity : Nat
  countMax : Nat
  items : List Item
  deriving DecidableEq, Repr

namespace Queue

/-- Decrement the count of the tail, which goes at 0. -/
def decreaseTail : List Item → List Item
  | [] => []
  | x :: items => if x.count = 1 then items else { x with count := x.count - 1 } :: items

/-- Exchange the item with the pointer and the one after it. -/
def moveAhead (pointer : Nat) : List Item → List Item
  | [] => []
  | [x] => [x]
  | x :: y :: items =>
    if x.pointer = pointer then y :: x :: items else x :: moveAhead pointer (y :: items)

/-- Increment the count of the pointer. -/
def increment (pointer : Nat) (items : List Item) : List Item :=
  items.map fun x => if x.pointer = pointer then { x with count := x.count + 1 } else x

def update (q : Queue) (pointer : Nat) : Queue :=
  match q.items.find? fun x => x.pointer = pointer with
  | some x =>
    let items := moveAhead pointer q.items
    { q with items := if x.count < q.countMax then increment pointer items else decreaseTail items }
  | none =>
    { q with items :=
        if q.items.length = q.capacity then decreaseTail q.items else q.items ++ [⟨pointer, 1⟩] }

def resize (q : Queue) (sz : Nat) : Queue :=
  if 1 < sz ∧ q.items.length ≤ sz then { q with capacity := sz } else q

def setMaxCount (q : Queue) (value : Nat) : Queue :=
  if 1 ≤ value ∧ value ≤ 2 ^ 16 then { q with countMax := value } else q

def resetPtr (q : Queue) (k pmaPosition : Nat) : Queue :=
  { q with items := q.items.modify k fun x => { x with pointer := pmaPosition } }

def step (q : Queue) : Predictor.Op → Queue
  | .update pointer => q.update pointer
  | .resize sz => q.resize sz
  | .setMaxCount value => q.setMaxCount value
  | .resetPtr k pmaPosition => q.resetPtr k pmaPosition

/-- The items have distinct pointers and are counted at least once. -/
structure Valid (q : Queue) : Prop where
  length_le : q.items.length ≤ q.capacity
  capacity_gt : 1 < q.capacity
  nodup : (q.items.map Item.pointer).Nodup
  count_pos : ∀ x ∈ q.items, 1 ≤ x.count
  count_lt : ∀ x ∈ q.items, x.count < 2 ^ 16
  pointer_lt : ∀ x ∈ q.items, x.pointer < 2 ^ 48

/-! ## The operations of the queue -/

variable {q : Queue} {l items : List Item} {x y : Item} {pointer : Nat}

theorem moveAhead_perm (pointer : Nat) (items : List Item) :
    (moveAhead pointer items).Perm items := by
  fun_induction moveAhead pointer items with
  | case1 => exact List.Perm.refl _
  | case2 => exact List.Perm.refl _
  | case3 x y items => exact List.Perm.swap x y items
  | case4 x y items _ ih => exact ih.cons x

theorem map_pointer_increment (pointer : Nat) (items : List Item) :
    (increment pointer items).map Item.pointer = items.map Item.pointer := by
  rw [increment, List.map_map]
  apply List.map_congr_left
  intro x _
  simp only [Function.comp]
  split <;> rfl

/-- The item with a pointer, at the end of the queue. -/
theorem moveAhead_last {pre : List Item} (other : ∀ y ∈ pre, y.pointer ≠ pointer) :
    moveAhead pointer (pre ++ [x]) = pre ++ [x] := by
  induction pre with
  | nil => rfl
  | cons y pre ih =>
      have rest := ih fun z member => other z (List.mem_cons_of_mem y member)
      rcases pre with _ | ⟨z, pre⟩
      · simp [moveAhead, other y]
      · simp only [List.cons_append, moveAhead, other y List.mem_cons_self, if_false] at rest ⊢
        rw [rest]

/-- The item with a pointer, before another one. -/
theorem moveAhead_focus {pre post : List Item} (other : ∀ z ∈ pre, z.pointer ≠ x.pointer) :
    moveAhead x.pointer (pre ++ x :: y :: post) = pre ++ y :: x :: post := by
  induction pre with
  | nil => simp [moveAhead]
  | cons z pre ih =>
      have rest := ih fun w member => other w (List.mem_cons_of_mem z member)
      rcases pre with _ | ⟨w, pre⟩ <;>
        simp only [List.cons_append, List.nil_append, moveAhead, other z List.mem_cons_self,
          if_false] at rest ⊢ <;>
        rw [rest]

theorem increment_of_absent (other : ∀ y ∈ items, y.pointer ≠ pointer) :
    increment pointer items = items := by
  rw [increment]
  conv_rhs => rw [← List.map_id items]
  apply List.map_congr_left
  intro y member
  exact if_neg (other y member)

theorem increment_focus {pre post : List Item}
    (nodup : ((pre ++ x :: post).map Item.pointer).Nodup) :
    increment x.pointer (pre ++ x :: post) =
      pre ++ { x with count := x.count + 1 } :: post := by
  rw [List.map_append, List.map_cons, List.nodup_append, List.nodup_cons] at nodup
  have before : increment x.pointer pre = pre := increment_of_absent fun y member same =>
    nodup.2.2 _ (List.mem_map_of_mem member) _ List.mem_cons_self same
  have after : increment x.pointer post = post := increment_of_absent fun y member same =>
    nodup.2.1.1 (same ▸ List.mem_map_of_mem member)
  rw [increment, List.map_append, List.map_cons, if_pos rfl]
  exact congrArg₂ (fun l₁ l₂ => l₁ ++ _ :: l₂) before after

/-- The one item with a pointer. -/
theorem find?_focus {pre post : List Item}
    (nodup : ((pre ++ x :: post).map Item.pointer).Nodup) :
    (pre ++ x :: post).find? (fun y => y.pointer = x.pointer) = some x := by
  rw [List.map_append, List.map_cons, List.nodup_append] at nodup
  have before : pre.find? (fun y => decide (y.pointer = x.pointer)) = none := by
    rw [List.find?_eq_none]
    intro y member same
    exact nodup.2.2 _ (List.mem_map_of_mem member) _ List.mem_cons_self (of_decide_eq_true same)
  rw [List.find?_append, before, List.find?_cons_of_pos (by simp)]
  rfl

/-! ## The queue keeps its items apart and counted -/

theorem decreaseTail_sublist (items : List Item) :
    ((decreaseTail items).map Item.pointer).Sublist (items.map Item.pointer) := by
  rcases items with _ | ⟨x, items⟩
  · exact List.Sublist.slnil
  · rw [decreaseTail]
    split
    · exact List.sublist_cons_self _ _
    · exact List.Sublist.refl _

/-- What decreasing the tail does to an item. -/
theorem mem_decreaseTail (member : y ∈ decreaseTail items) (counted : ∀ x ∈ items, 1 ≤ x.count) :
    ∃ x ∈ items, y.pointer = x.pointer ∧ y.count ≤ x.count ∧ 1 ≤ y.count := by
  rcases items with _ | ⟨x, items⟩
  · cases member
  · have positive := counted x List.mem_cons_self
    rw [decreaseTail] at member
    split at member
    · have old := List.mem_cons_of_mem x member
      exact ⟨y, old, rfl, le_rfl, counted y old⟩
    · rcases List.mem_cons.mp member with rfl | member
      · exact ⟨x, List.mem_cons_self, rfl, Nat.sub_le _ _, by simp only; omega⟩
      · have old := List.mem_cons_of_mem x member
        exact ⟨y, old, rfl, le_rfl, counted y old⟩

/-- The steps that are asked for: pointers fit their field, and one that is reset is fresh. -/
def Admissible (q : Queue) : Predictor.Op → Prop
  | .update pointer => pointer < 2 ^ 48
  | .resize _ => True
  | .setMaxCount _ => True
  | .resetPtr k pmaPosition => k < q.items.length ∧ pmaPosition < 2 ^ 48 ∧
      pmaPosition ∉ q.items.map Item.pointer

/-- Every step of the run is asked for. -/
def AdmissibleRun : Queue → List Predictor.Op → Prop
  | _, [] => True
  | q, op :: ops => q.Admissible op ∧ (q.step op).AdmissibleRun ops

instance (q : Queue) : DecidablePred q.Admissible
  | .update pointer => inferInstanceAs (Decidable (pointer < 2 ^ 48))
  | .resize _ => isTrue trivial
  | .setMaxCount _ => isTrue trivial
  | .resetPtr k pmaPosition => inferInstanceAs (Decidable (k < q.items.length ∧
      pmaPosition < 2 ^ 48 ∧ pmaPosition ∉ q.items.map Item.pointer))

instance decidableAdmissibleRun : (q : Queue) → (ops : List Predictor.Op) →
    Decidable (q.AdmissibleRun ops)
  | _, [] => isTrue trivial
  | q, op :: ops =>
    have := decidableAdmissibleRun (q.step op) ops
    inferInstanceAs (Decidable (_ ∧ _))

theorem Valid.decreaseTail (valid : q.Valid) (perm : items.Perm q.items) :
    Valid { q with items := decreaseTail items } := by
  have counted : ∀ x ∈ items, 1 ≤ x.count := fun x member => valid.count_pos x (perm.mem_iff.mp member)
  have sublist := decreaseTail_sublist items
  refine ⟨?_, valid.capacity_gt, ?_, ?_, ?_, ?_⟩
  · have shorter := sublist.length_le
    rw [List.length_map, List.length_map, perm.length_eq] at shorter
    exact shorter.trans valid.length_le
  · exact (((perm.map _).nodup_iff).mpr valid.nodup).sublist sublist
  all_goals
    intro y member
    rcases mem_decreaseTail member counted with ⟨x, old, pointer, le, positive⟩
    have old := perm.mem_iff.mp old
  · exact positive
  · exact lt_of_le_of_lt le (valid.count_lt x old)
  · rw [pointer]
    exact valid.pointer_lt x old

theorem Valid.append (valid : q.Valid) (absent : ∀ x ∈ q.items, x.pointer ≠ pointer)
    (room : q.items.length < q.capacity) (narrow : pointer < 2 ^ 48) :
    Valid { q with items := q.items ++ [⟨pointer, 1⟩] } := by
  refine ⟨?_, valid.capacity_gt, ?_, ?_, ?_, ?_⟩
  · simpa using room
  · simp only [List.map_append, List.map_cons, List.map_nil]
    refine List.nodup_append.mpr ⟨valid.nodup, List.nodup_singleton _, ?_⟩
    intro p old _ new
    rcases List.mem_map.mp old with ⟨x, member, rfl⟩
    rw [List.mem_singleton.mp new]
    exact absent x member
  all_goals
    intro y member
    rcases List.mem_append.mp member with member | member
  · exact valid.count_pos y member
  · rw [List.mem_singleton.mp member]
  · exact valid.count_lt y member
  · rw [List.mem_singleton.mp member]
    norm_num
  · exact valid.pointer_lt y member
  · rw [List.mem_singleton.mp member]
    exact narrow

theorem Valid.increment (valid : q.Valid) (perm : items.Perm q.items)
    (narrow : ∀ x ∈ q.items, x.pointer = pointer → x.count + 1 < 2 ^ 16) :
    Valid { q with items := increment pointer items } := by
  -- an item is incremented or as it was
  have changed : ∀ y ∈ Queue.increment pointer items, ∃ x ∈ q.items, y.pointer = x.pointer ∧
      x.count ≤ y.count ∧ y.count < 2 ^ 16 := by
    intro y member
    rcases List.mem_map.mp member with ⟨x, before, rfl⟩
    have old := perm.mem_iff.mp before
    split_ifs with same
    · exact ⟨x, old, rfl, Nat.le_succ _, narrow x old same⟩
    · exact ⟨x, old, rfl, le_rfl, valid.count_lt x old⟩
  refine ⟨?_, valid.capacity_gt, ?_, ?_, ?_, ?_⟩
  · simpa [Queue.increment, perm.length_eq] using valid.length_le
  · rw [map_pointer_increment]
    exact ((perm.map _).nodup_iff).mpr valid.nodup
  all_goals
    intro y member
    rcases changed y member with ⟨x, old, pointer, le, lt⟩
  · exact (valid.count_pos x old).trans le
  · exact lt
  · rw [pointer]
    exact valid.pointer_lt x old

theorem Valid.resetPtr {k pmaPosition : Nat} (valid : q.Valid) (inside : k < q.items.length)
    (narrow : pmaPosition < 2 ^ 48) (fresh : pmaPosition ∉ q.items.map Item.pointer) :
    (q.resetPtr k pmaPosition).Valid := by
  rcases q with ⟨capacity, countMax, items⟩
  rcases exists_focus inside with ⟨pre, x, post, rfl, rfl⟩
  have nodup := valid.nodup
  simp only [List.map_append, List.map_cons, List.nodup_middle, List.nodup_cons, List.mem_append,
    List.mem_cons, not_or] at nodup fresh
  rw [Queue.resetPtr, modify_focus]
  refine ⟨?_, valid.capacity_gt, ?_, ?_, ?_, ?_⟩
  · simpa using valid.length_le
  · simp only [List.map_append, List.map_cons, List.nodup_middle, List.nodup_cons, List.mem_append,
      not_or]
    exact ⟨⟨fresh.1, fresh.2.2⟩, nodup.2⟩
  all_goals
    intro y member
    have old : y ∈ pre ++ x :: post ∨ y = { x with pointer := pmaPosition } := by
      simp only [List.mem_append, List.mem_cons] at member ⊢
      tauto
    rcases old with old | rfl
  · exact valid.count_pos y old
  · exact valid.count_pos x (by simp)
  · exact valid.count_lt y old
  · exact valid.count_lt x (by simp)
  · exact valid.pointer_lt y old
  · exact narrow

theorem update_of_absent (absent : ∀ x ∈ q.items, x.pointer ≠ pointer) :
    q.update pointer = { q with
      items :=
        if q.items.length = q.capacity then decreaseTail q.items
        else q.items ++ [⟨pointer, 1⟩] } := by
  have found : q.items.find? (fun x => x.pointer = pointer) = none := by
    rw [List.find?_eq_none]
    intro x member
    simpa using absent x member
  rw [update, found]

theorem update_of_find (found : q.items.find? (fun x => x.pointer = pointer) = some x) :
    q.update pointer = { q with
      items :=
        if x.count < q.countMax then increment pointer (moveAhead pointer q.items)
        else decreaseTail (moveAhead pointer q.items) } := by
  rw [update, found]

/-- A step keeps the items apart, as long as a count does not outgrow its field. -/
theorem Valid.step (valid : q.Valid) {op : Predictor.Op} (admissible : q.Admissible op)
    (narrow : ∀ pointer, op = .update pointer → ∀ x ∈ q.items, x.pointer = pointer →
      x.count < q.countMax → x.count + 1 < 2 ^ 16) : (q.step op).Valid := by
  cases op with
  | update pointer =>
      rw [Queue.step]
      rcases found : q.items.find? (fun x => decide (x.pointer = pointer)) with _ | x
      · have absent : ∀ x ∈ q.items, x.pointer ≠ pointer := fun x member => by
          simpa using List.find?_eq_none.mp found x member
        rw [update_of_absent absent]
        split_ifs with full
        · exact valid.decreaseTail (List.Perm.refl _)
        · exact valid.append absent (lt_of_le_of_ne valid.length_le full) admissible
      · have perm := moveAhead_perm pointer q.items
        rw [update_of_find found]
        split_ifs with less
        · apply valid.increment perm
          intro y member same
          have found' := List.mem_of_find?_eq_some found
          have same' : x.pointer = pointer := by simpa using List.find?_some found
          have unique : y = x :=
            List.inj_on_of_nodup_map valid.nodup member found' (same.trans same'.symm)
          exact narrow pointer rfl y member same (unique ▸ less)
        · exact valid.decreaseTail perm
  | resize sz =>
      rw [Queue.step, Queue.resize]
      split_ifs with accepted
      · exact ⟨accepted.2, accepted.1, valid.nodup, valid.count_pos, valid.count_lt,
          valid.pointer_lt⟩
      · exact valid
  | setMaxCount value =>
      rw [Queue.step, Queue.setMaxCount]
      split_ifs
      · exact ⟨valid.length_le, valid.capacity_gt, valid.nodup, valid.count_pos, valid.count_lt,
          valid.pointer_lt⟩
      · exact valid
  | resetPtr k pmaPosition =>
      exact valid.resetPtr admissible.1 admissible.2.1 admissible.2.2

end Queue

end Rma
