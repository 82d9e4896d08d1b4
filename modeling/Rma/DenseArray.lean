import Rma.Base.Multimap
import Rma.Base.Slice
import Rma.Logarithms
import Rma.SumResult

/-!
# The dense array

The elements are in two arrays in key order, under a static index with the key of every
`node_size`-th element. New elements wait in the delta until `build()` merges them with the arrays
into new ones. The searches start from an entry of the index and walk forward. `dense_spec` says
that the array is the sorted multimap of what was inserted before the last build that returned. A
build does not return where `rebuild` does not, with a height that is rounded to one too many.
-/

namespace Rma

open Base StaticIndex SumResult

namespace DenseArray

/-- The call of `acquire_memory` that fails. -/
inductive Fault where
  | memfdCreateKeys
  | memfdCreateValues
  | ftruncateKeys
  | ftruncateValues
  | mmapKeys
  | mmapValues
  deriving DecidableEq, Repr

/-- What `build` raises: a `DenseArrayRuntimeException`, or what the index raises. -/
inductive Exception where
  | acquireMemory (fault : Fault)
  | index (e : StaticIndexException)
  deriving DecidableEq, Repr

/-- What `build` does not choose itself: the order that `std::sort` gives to the delta, the first
call of `acquire_memory` that fails, and the block of memory for the index. -/
structure Outcome where
  sort : List (Int × Int)
  fault : Option Fault
  block : Option (Nat → Int)

end DenseArray

/-- The fields of `DenseArray`; `elements` are the pairs of `m_keys` and `m_values`, of which there
are `m_cardinality`. -/
structure DenseArray where
  index : StaticIndex
  elements : List (Int × Int)
  delta : List (Int × Int)

namespace DenseArray

/-- The constructor; its index is for one entry, and raises where the nodes are too big. -/
def create (nodeSize : Nat) (memory : StaticIndex) : Option DenseArray :=
  match StaticIndex.create nodeSize 1 none memory with
  | .ok _ index => some ⟨index, [], []⟩
  | .error _ _ => none

/-- `insert(k, v)` -/
def insert (a : DenseArray) (k v : Int) : DenseArray := { a with delta := a.delta ++ [(k, v)] }

/-- The key of a position, for positions inside of the array. -/
def keyAt (l : List (Int × Int)) (i : Nat) : Int := (l.getD i (0, 0)).1

/-! ## Build -/

/-- The three loops that merge the old elements with the sorted delta. -/
def merge : (old delta : List (Int × Int)) → List (Int × Int)
  | [], delta => delta
  | old, [] => old
  | x :: old, y :: delta =>
    if x.1 < y.1 then x :: merge old (y :: delta) else y :: merge (x :: old) delta

/-- `cardinality_index` -/
def cardinalityIndex (nodeSize cardinality : Nat) : Nat :=
  cardinality / nodeSize + if 0 < cardinality % nodeSize then 1 else 0

/-- The loop that sets the separators of the index. -/
def setSeparators (index : StaticIndex) (key : Nat → Int) (n : Nat) : StaticIndex :=
  (List.range n).foldl (fun index i => index.setSeparatorKey i (key i)) index

/-- What `build()` leaves, when the index is rebuilt. -/
def replace (a : DenseArray) (elements : List (Int × Int)) (index : StaticIndex) : DenseArray where
  index := setSeparators index (fun i => keyAt elements (i * a.index.nodeSize))
    (cardinalityIndex a.index.nodeSize elements.length)
  elements := elements
  delta := []

/-- `build()`, undefined where it does not return. -/
def build (logs : Logarithms) (o : Outcome) (a : DenseArray) :
    Option (EStateM.Result Exception DenseArray Unit) :=
  if a.delta = [] then some (.ok () a)
  else
    -- sort the delta
    let a := { a with delta := o.sort }
    -- acquire some physical memory
    match o.fault with
    | some fault => some (.error (.acquireMemory fault) a)
    | none =>
      let elements := merge a.elements a.delta
      -- rebuild the index
      match StaticIndex.rebuildIn logs (cardinalityIndex a.index.nodeSize elements.length) o.block
        a.index with
      | none => none
      | some (.ok _ index) => some (.ok () (a.replace elements index))
      | some (.error e index) => some (.error (.index e) { a with index := index })

/-! ## Find -/

/-- `while(i < m_cardinality && p(keys[i])) i++;` -/
def scan (a : DenseArray) (p : Int → Bool) (i : Nat) : Option Nat :=
  scanUpM (fun j => (a.elements[j]?).map fun e => p e.1) i (a.elements.length - i)

/-- `find(key)` -/
def find (a : DenseArray) (key : Int) : Option Int :=
  if a.elements = [] then some (-1)
  else do
    let i ← a.scan (fun k => k < key) (a.index.findFirst key * a.index.nodeSize)
    if i < a.elements.length then do
      let e ← a.elements[i]?
      some (if e.1 = key then e.2 else -1)
    else some (-1)

/-- What the iterator of `find(min, max)` gives until it is at its end. -/
def findRange (a : DenseArray) (min max : Int) : Option (List (Int × Int)) :=
  if max < min ∨ a.elements = [] then some []
  else do
    let first ← a.scan (fun k => k < min) (a.index.findFirst min * a.index.nodeSize)
    let last ← a.scan (fun k => k ≤ max) (a.index.findLast max * a.index.nodeSize)
    if first < last then slice a.elements first (last - first) else some []

/-- `sum(min, max)` -/
def sum (a : DenseArray) (min max : Int) : Option SumResult :=
  if max < min ∨ a.elements = [] then some SumResult.empty
  else do
    let offset ← a.scan (fun k => k < min) (a.index.findFirst min * a.index.nodeSize)
    let last ← a.scan (fun k => k ≤ max) (a.index.findLast max * a.index.nodeSize)
    if last ≤ offset then some SumResult.empty
    else do
      let e ← a.elements[offset]?
      let e' ← a.elements[last - 1]?
      let part ← slice a.elements offset (last - offset)
      some (accumulate { SumResult.empty with firstKey := e.1, lastKey := e'.1 } part)

/-! ## The merge -/

theorem merge_eq (old delta : List (Int × Int)) :
    merge old delta = delta.merge old fun y x => decide (y.1 ≤ x.1) := by
  fun_induction merge old delta with
  | case1 delta => rw [List.merge_right]
  | case2 old => rw [List.nil_merge]
  | case3 x old y delta less ih =>
      rw [ih, List.cons_merge_cons_neg _ _ _ (by simpa using less)]
  | case4 x old y delta notLess ih =>
      rw [ih, List.cons_merge_cons_pos _ _ _ (by simpa using notLess)]

theorem merge_perm (old delta : List (Int × Int)) : (merge old delta).Perm (old ++ delta) := by
  rw [merge_eq]
  exact (List.merge_perm_append _).trans List.perm_append_comm

theorem merge_sorted {old delta : List (Int × Int)} (sortedOld : SortedPairs old)
    (sortedDelta : SortedPairs delta) : SortedPairs (merge old delta) := by
  have transitive : ∀ x y z : Int × Int, decide (x.1 ≤ y.1) = true → decide (y.1 ≤ z.1) = true →
      decide (x.1 ≤ z.1) = true := fun x y z left right =>
    decide_eq_true ((of_decide_eq_true left).trans (of_decide_eq_true right))
  have total : ∀ x y : Int × Int, (decide (x.1 ≤ y.1) || decide (y.1 ≤ x.1)) = true := by
    intro x y
    rcases le_total x.1 y.1 with le | le <;> simp [le]
  rw [merge_eq]
  exact (List.pairwise_merge transitive total _ _ (sortedDelta.imp decide_eq_true)
    (sortedOld.imp decide_eq_true)).imp of_decide_eq_true

/-! ## The index -/

/-- The number of entries of the index is the number of nodes, rounded up. -/
theorem cardinalityIndex_spec {nodeSize n : Nat} (positive : 0 < nodeSize) :
    (cardinalityIndex nodeSize n - 1) * nodeSize ≤ n ∧ n ≤ cardinalityIndex nodeSize n * nodeSize ∧
      (0 < n → 0 < cardinalityIndex nodeSize n ∧
        (cardinalityIndex nodeSize n - 1) * nodeSize < n) := by
  have division := Nat.div_add_mod' n nodeSize
  have bound := Nat.mod_lt n positive
  rw [cardinalityIndex]
  generalize n / nodeSize = q at *
  generalize n % nodeSize = r at *
  split
  · rw [Nat.add_sub_cancel, Nat.add_mul, Nat.one_mul]
    omega
  · obtain rfl : r = 0 := by omega
    rw [Nat.add_zero] at *
    cases q with
    | zero => omega
    | succ q =>
        rw [Nat.add_sub_cancel, Nat.add_mul, Nat.one_mul] at *
        omega

/-- The loop over the separators sets them all. -/
theorem setSeparators_spec {index : StaticIndex} {n : Nat} (sized : index.Sized n)
    (key : Nat → Int) (m : Nat) (within : m ≤ n) :
    (setSeparators index key m).Separators n
        (fun i => if i < m then key i else index.getSeparatorKey i) ∧
      (setSeparators index key m).nodeSize = index.nodeSize := by
  induction m with
  | zero => exact ⟨⟨sized, fun i _ => rfl⟩, rfl⟩
  | succ m ih =>
      obtain ⟨separators, size⟩ := ih (by omega)
      have stored := separators.set (show m < n by omega) (key m)
      rw [setSeparators, List.range_succ, List.foldl_concat]
      refine ⟨⟨stored.sized, fun i inside => (stored.stored i inside).trans ?_⟩, ?_⟩
      · rw [Function.update_apply]
        by_cases last : i = m
        · rw [if_pos last, if_pos (by omega), last]
        · rw [if_neg last]
          by_cases before : i < m
          · rw [if_pos before, if_pos (by omega)]
          · rw [if_neg before, if_neg (by omega)]
      · rw [← size, StaticIndex.setSeparatorKey]
        split <;> rfl

/-! ## The searches -/

/-- The index has the key of every `node_size`-th element. -/
structure Indexed (a : DenseArray) : Prop where
  base : 1 < a.index.nodeSize
  sorted : SortedPairs a.elements
  separators : a.elements ≠ [] →
    a.index.Separators (cardinalityIndex a.index.nodeSize a.elements.length)
      fun i => keyAt a.elements (i * a.index.nodeSize)

section Searches

variable {a : DenseArray} {min max key : Int}

theorem keyAt_eq {l : List (Int × Int)} {i : Nat} (inside : i < l.length) :
    keyAt l i = (l[i]).1 := by
  simp [keyAt, inside]

/-- In a sorted list the elements before one that passes a test pass it, too. -/
theorem before_takeWhile {l : List (Int × Int)} (sorted : SortedPairs l) {p : Int → Bool}
    (downward : ∀ x y, x ≤ y → p y = true → p x = true) {i : Nat} (inside : i < l.length)
    (passes : p (keyAt l i) = true) : i < (l.takeWhile fun e => p e.1).length := by
  rw [keyAt_eq inside] at passes
  have whole : ∀ e ∈ l.take (i + 1), p e.1 = true := by
    intro e member
    obtain ⟨j, bound, rfl⟩ := List.mem_iff_getElem.mp member
    rw [List.length_take] at bound
    rw [List.getElem_take]
    exact downward _ _ (sorted.getElem_le (by omega) inside) passes
  have split := congrArg List.length (@List.takeWhile_append_of_pos _
    (fun e => p e.1) _ (l.drop (i + 1)) whole)
  rw [List.take_append_drop, List.length_append, List.length_take] at split
  omega

/-- The entry that a search of the index finds is not beyond the elements that pass the test. -/
theorem Indexed.start (indexed : a.Indexed) (some_ : a.elements ≠ []) {p : Int → Bool}
    (downward : ∀ x y, x ≤ y → p y = true → p x = true) :
    Nat.findGreatest (fun i => p (keyAt a.elements (i * a.index.nodeSize)) = true)
        (cardinalityIndex a.index.nodeSize a.elements.length - 1) * a.index.nodeSize ≤
      (a.elements.takeWhile fun e => p e.1).length := by
  have positive := List.length_pos_of_ne_nil some_
  obtain ⟨-, -, inside⟩ := @cardinalityIndex_spec a.index.nodeSize a.elements.length
    (by have := indexed.base; omega)
  obtain ⟨entry, found⟩ : ∃ entry, Nat.findGreatest (fun i =>
      p (keyAt a.elements (i * a.index.nodeSize)) = true)
    (cardinalityIndex a.index.nodeSize a.elements.length - 1) = entry := ⟨_, rfl⟩
  rw [found]
  rcases Nat.eq_zero_or_pos entry with rfl | later
  · omega
  · have passes := Nat.findGreatest_of_ne_zero found (by omega)
    have bound := Nat.findGreatest_le (P := fun i =>
      p (keyAt a.elements (i * a.index.nodeSize)) = true)
      (cardinalityIndex a.index.nodeSize a.elements.length - 1)
    rw [found] at bound
    have within := Nat.mul_le_mul_right a.index.nodeSize bound
    exact (before_takeWhile indexed.sorted downward (by have := (inside positive).2; omega)
      passes).le

/-- The entries of the index are in order. -/
theorem Indexed.entries_le (indexed : a.Indexed) (some_ : a.elements ≠ []) (i j : Nat)
    (order : i ≤ j) (bound : j < cardinalityIndex a.index.nodeSize a.elements.length) :
    keyAt a.elements (i * a.index.nodeSize) ≤ keyAt a.elements (j * a.index.nodeSize) := by
  have positive := List.length_pos_of_ne_nil some_
  obtain ⟨-, -, inside⟩ := @cardinalityIndex_spec a.index.nodeSize a.elements.length
    (by have := indexed.base; omega)
  have last := (inside positive).2
  have within := Nat.mul_le_mul_right a.index.nodeSize (show j ≤
    cardinalityIndex a.index.nodeSize a.elements.length - 1 by omega)
  have ordered := Nat.mul_le_mul_right a.index.nodeSize order
  rw [keyAt_eq (by omega), keyAt_eq (by omega)]
  exact indexed.sorted.getElem_le ordered (by omega)

/-- The scan for the first element that is not smaller. -/
theorem Indexed.scan_first (indexed : a.Indexed) (some_ : a.elements ≠ []) (key : Int) :
    a.scan (fun k => k < key) (a.index.findFirst key * a.index.nodeSize) =
      some (a.elements.takeWhile fun e => e.1 < key).length := by
  have search := ((indexed.separators some_).find_spec (indexed.entries_le some_) key).2.1
  have start := indexed.start some_ (p := fun k => decide (k < key)) fun x y le less =>
    decide_eq_true (lt_of_le_of_lt le (of_decide_eq_true less))
  simp only [decide_eq_true_eq] at start
  rw [search, scan]
  exact scanUpM_takeWhile a.elements (fun e => decide (e.1 < key)) start

/-- The scan for the first element that is greater. -/
theorem Indexed.scan_last (indexed : a.Indexed) (some_ : a.elements ≠ []) (key : Int) :
    a.scan (fun k => k ≤ key) (a.index.findLast key * a.index.nodeSize) =
      some (a.elements.takeWhile fun e => e.1 ≤ key).length := by
  have search := ((indexed.separators some_).find_spec (indexed.entries_le some_) key).2.2
  have start := indexed.start some_ (p := fun k => decide (k ≤ key)) fun x y le atMost =>
    decide_eq_true (le.trans (of_decide_eq_true atMost))
  simp only [decide_eq_true_eq] at start
  rw [search, scan]
  exact scanUpM_takeWhile a.elements (fun e => decide (e.1 ≤ key)) start

/-- `find` returns the value of a pair with the key, or -1 where there is none. -/
theorem Indexed.find_spec (indexed : a.Indexed) (key : Int) :
    (∃ v, (key, v) ∈ a.elements ∧ a.find key = some v) ∨
      (∀ v, (key, v) ∉ a.elements) ∧ a.find key = some (-1) := by
  rw [find]
  by_cases empty : a.elements = []
  · rw [if_pos empty, empty]
    exact Or.inr ⟨fun v => List.not_mem_nil, rfl⟩
  · obtain ⟨l₁, l₂, split, below, above, sorted₂, first⟩ := indexed.sorted.split_first key
    rw [if_neg empty, indexed.scan_first empty, first, Option.bind_eq_bind, Option.bind_some, split,
      List.getElem?_append_right le_rfl, Nat.sub_self, List.length_append]
    have missing : ∀ v, (key, v) ∈ l₁ ++ l₂ → (key, v) ∈ l₂ := fun v member =>
      (List.mem_append.mp member).resolve_left fun early => lt_irrefl _ (below _ early)
    cases l₂ with
    | nil =>
        rw [List.length_nil, if_neg (by omega)]
        exact Or.inr ⟨fun v member => List.not_mem_nil (missing v member), rfl⟩
    | cons e l =>
        rw [if_pos (by rw [List.length_cons]; omega), List.getElem?_cons_zero,
          Option.bind_eq_bind, Option.bind_some]
        by_cases same : e.1 = key
        · rw [if_pos same]
          exact Or.inl ⟨e.2, List.mem_append_right _ (same ▸ List.mem_cons_self), rfl⟩
        · rw [if_neg same]
          refine Or.inr ⟨fun v member => same ?_, rfl⟩
          exact le_antisymm (sorted₂.head_le _ (missing v member)) (above e List.mem_cons_self)

/-- The two scans of an interval are around its elements. -/
theorem Indexed.interval (indexed : a.Indexed) (some_ : a.elements ≠ []) (order : min ≤ max) :
    ∃ l₁ out l₃, a.elements = l₁ ++ (out ++ l₃) ∧
      a.elements.filter (fun x => min ≤ x.1 ∧ x.1 ≤ max) = out ∧
      a.scan (fun k => k < min) (a.index.findFirst min * a.index.nodeSize) = some l₁.length ∧
      a.scan (fun k => k ≤ max) (a.index.findLast max * a.index.nodeSize) =
        some (l₁.length + out.length) := by
  obtain ⟨l₁, l₂, split, below, above, sorted₂, first⟩ := indexed.sorted.split_first min
  have last : (a.elements.takeWhile fun e => decide (e.1 ≤ max)) =
      l₁ ++ l₂.takeWhile fun e => decide (e.1 ≤ max) := by
    rw [split, List.takeWhile_append_of_pos fun x member =>
      decide_eq_true ((below x member).le.trans order)]
  refine ⟨l₁, l₂.takeWhile fun e => decide (e.1 ≤ max), l₂.dropWhile fun e => decide (e.1 ≤ max),
    ?_, ?_, ?_, ?_⟩
  · rw [List.takeWhile_append_dropWhile, split]
  · rw [split]
    exact sorted₂.filter_interval below above max
  · rw [indexed.scan_first some_, first]
  · rw [indexed.scan_last some_, last, List.length_append]

/-- An interval that is empty, or an array that is. -/
theorem filter_empty (nothing : max < min ∨ a.elements = []) :
    a.elements.filter (fun x => min ≤ x.1 ∧ x.1 ≤ max) = [] := by
  rcases nothing with disordered | empty
  · rw [List.filter_eq_nil_iff]
    intro x member
    simp only [decide_eq_true_eq, not_and, not_le]
    intro least
    omega
  · rw [empty, List.filter_nil]

theorem slice_middle {l₁ out l₃ : List (Int × Int)} :
    slice (l₁ ++ (out ++ l₃)) l₁.length out.length = some out := by
  rw [slice_eq (by rw [List.length_append, List.length_append]; omega), List.drop_left,
    List.take_left]

/-- `find(min, max)` enumerates the pairs of the interval. -/
theorem Indexed.findRange_spec (indexed : a.Indexed) (min max : Int) :
    a.findRange min max = some (a.elements.filter fun x => min ≤ x.1 ∧ x.1 ≤ max) := by
  rw [findRange]
  by_cases nothing : max < min ∨ a.elements = []
  · rw [if_pos nothing, filter_empty nothing]
  · rw [not_or, not_lt] at nothing
    obtain ⟨l₁, out, l₃, split, filtered, first, last⟩ := indexed.interval nothing.2 nothing.1
    rw [if_neg (by rw [not_or, not_lt]; exact nothing), filtered, first, last, Option.bind_eq_bind,
      Option.bind_some, Option.bind_some, Nat.add_sub_cancel_left, split, slice_middle]
    split
    · rfl
    · next none_ => rw [List.eq_nil_of_length_eq_zero (show out.length = 0 by omega)]

/-- `sum(min, max)` adds up the pairs of the interval. -/
theorem Indexed.sum_spec (indexed : a.Indexed) (min max : Int) :
    ∃ result, a.sum min max = some result ∧
      Sums (a.elements.filter fun x => min ≤ x.1 ∧ x.1 ≤ max) result := by
  rw [sum]
  by_cases nothing : max < min ∨ a.elements = []
  · rw [if_pos nothing, filter_empty nothing]
    exact ⟨_, rfl, sums_empty⟩
  · rw [not_or, not_lt] at nothing
    obtain ⟨l₁, out, l₃, split, filtered, first, last⟩ := indexed.interval nothing.2 nothing.1
    rw [if_neg (by rw [not_or, not_lt]; exact nothing), filtered, first, last, Option.bind_eq_bind,
      Option.bind_some, Option.bind_some, Nat.add_sub_cancel_left, split, slice_middle]
    cases out with
    | nil => exact ⟨_, if_pos le_rfl, sums_empty⟩
    | cons e out =>
        obtain ⟨e', final⟩ : ∃ e', (e :: out).getLast? = some e' :=
          ⟨_, List.getLast?_eq_some_getLast (List.cons_ne_nil e out)⟩
        have firstRead : (l₁ ++ (e :: out ++ l₃))[l₁.length]? = some e := by
          rw [List.getElem?_append_right le_rfl, Nat.sub_self]
          rfl
        have lastRead : (l₁ ++ (e :: out ++ l₃))[l₁.length + (e :: out).length - 1]? = some e' := by
          rw [List.length_cons, Nat.add_succ_sub_one, List.getElem?_append_right (by omega),
            Nat.add_sub_cancel_left, List.getElem?_append_left (by rw [List.length_cons]; omega),
            ← final, List.getLast?_eq_getElem?, List.length_cons, Nat.add_sub_cancel]
        rw [if_neg (by rw [List.length_cons]; omega), firstRead, lastRead]
        exact ⟨_, rfl, sums_accumulate rfl final⟩

end Searches

/-! ## The build -/

/-- What `std::sort` can make of the delta. -/
def Outcome.Sorts (o : Outcome) (delta : List (Int × Int)) : Prop :=
  o.sort.Perm delta ∧ SortedPairs o.sort

/-- The levels of the index over so many elements. -/
def Levels (a : DenseArray) (n : Nat) : Nat :=
  heightOf a.index.nodeSize (cardinalityIndex a.index.nodeSize n)

section Build

variable {logs : Logarithms} {a a' : DenseArray} {o : Outcome}

theorem build_nothing (nothing : a.delta = []) : build logs o a = some (.ok () a) :=
  if_pos nothing

theorem build_of_fault {fault : Fault} (some_ : a.delta ≠ []) (raises : o.fault = some fault) :
    build logs o a = some (.error (.acquireMemory fault) { a with delta := o.sort }) := by
  rw [build, if_neg some_, raises]

/-- With the memory of the new arrays, it is up to the index whether they take effect. -/
theorem build_ok_of_acquired (some_ : a.delta ≠ []) (acquired : o.fault = none) :
    build logs o a = some (.ok () a') ↔ ∃ index, StaticIndex.rebuildIn logs
        (cardinalityIndex a.index.nodeSize (merge a.elements o.sort).length) o.block a.index =
          some (.ok () index) ∧ a' = a.replace (merge a.elements o.sort) index := by
  rw [build, if_neg some_, acquired]
  dsimp only
  split
  next nothing =>
    rw [nothing]
    simp
  next index rebuilt =>
    rw [rebuilt]
    constructor
    · intro ok
      cases ok
      exact ⟨index, rfl, rfl⟩
    · rintro ⟨index', same, rfl⟩
      cases same
      rfl
  next e index raised =>
    rw [raised]
    simp

theorem build_error_of_acquired {e : Exception} (some_ : a.delta ≠ []) (acquired : o.fault = none)
    (raised : build logs o a = some (.error e a')) : ∃ e' index, StaticIndex.rebuildIn logs
        (cardinalityIndex a.index.nodeSize (merge a.elements o.sort).length) o.block a.index =
          some (.error e' index) ∧ e = .index e' ∧ a' = ⟨index, a.elements, o.sort⟩ := by
  rw [build, if_neg some_, acquired] at raised
  dsimp only at raised
  split at raised
  next => cases raised
  next => cases raised
  next e' index raised' =>
    cases raised
    exact ⟨e', index, raised', rfl, rfl⟩

theorem length_merge (sorts : o.Sorts a.delta) :
    (merge a.elements o.sort).length = a.elements.length + a.delta.length := by
  rw [(merge_perm a.elements o.sort).length_eq, List.length_append, sorts.1.length_eq]

theorem cardinalityIndex_pos (base : 1 < a.index.nodeSize) (some_ : a.delta ≠ []) :
    0 < cardinalityIndex a.index.nodeSize (a.elements.length + a.delta.length) := by
  have positive := List.length_pos_of_ne_nil some_
  exact ((cardinalityIndex_spec (by omega)).2.2 (by omega)).1

/-- A build that returns has merged the delta, and has set the index to the new elements. -/
theorem build_ok {n : Nat} (indexed : a.Indexed) (sized : a.index.Sized n)
    (sorts : o.Sorts a.delta) (ok : build logs o a = some (.ok () a')) :
    a'.Indexed ∧ a'.index.nodeSize = a.index.nodeSize ∧ (∃ n, a'.index.Sized n) ∧
      a'.elements.Perm (a.elements ++ a.delta) ∧ a'.delta = [] := by
  by_cases nothing : a.delta = []
  · rw [build_nothing nothing] at ok
    cases ok
    exact ⟨indexed, rfl, ⟨n, sized⟩, by rw [nothing, List.append_nil], nothing⟩
  · cases raises : o.fault with
    | some fault =>
        rw [build_of_fault nothing raises] at ok
        cases ok
    | none =>
        obtain ⟨index, rebuilt, rfl⟩ := (build_ok_of_acquired nothing raises).mp ok
        obtain ⟨sized', size, -⟩ := rebuild_ok indexed.base sized.allocated_of_height
          ((rebuildIn_eq_ok indexed.base).mp rebuilt).1
        obtain ⟨separators, size'⟩ := setSeparators_spec sized'
          (fun i => keyAt (merge a.elements o.sort) (i * a.index.nodeSize)) _ le_rfl
        refine ⟨⟨?_, merge_sorted indexed.sorted sorts.2, fun _ => ?_⟩, size'.trans size,
          ⟨_, separators.sized⟩, (merge_perm _ _).trans (List.Perm.append_left _ sorts.1), rfl⟩
        · rw [replace, size', size]
          exact indexed.base
        · rw [replace, size', size]
          exact ⟨separators.sized, fun i inside =>
            (separators.stored i inside).trans (if_pos inside)⟩

/-- A build that raises has only sorted the delta, unless the index is left without memory. -/
theorem build_error {e : Exception} (sorts : o.Sorts a.delta)
    (raised : build logs o a = some (.error e a')) :
    a'.elements = a.elements ∧ a'.delta.Perm a.delta ∧
      (e ≠ .index .badAlloc → a'.index = a.index) := by
  by_cases nothing : a.delta = []
  · rw [build_nothing nothing] at raised
    cases raised
  · cases raises : o.fault with
    | some fault =>
        rw [build_of_fault nothing raises] at raised
        cases raised
        exact ⟨rfl, sorts.1, fun _ => rfl⟩
    | none =>
        obtain ⟨e', index, result, rfl, rfl⟩ := build_error_of_acquired nothing raises raised
        exact ⟨rfl, sorts.1, fun other => rebuildIn_error result fun same => other (same ▸ rfl)⟩

/-- The index has no place for more than eight levels. -/
theorem build_of_levels (sorts : o.Sorts a.delta) (base : 1 < a.index.nodeSize)
    (some_ : a.delta ≠ [])
    (high : rightmostSz < a.Levels (a.elements.length + a.delta.length)) :
    ∃ e, build logs o a = some (.error e { a with delta := o.sort }) := by
  cases raises : o.fault with
  | some fault => exact ⟨_, build_of_fault some_ raises⟩
  | none =>
      refine ⟨.index .tooManyKeys, ?_⟩
      rw [Levels, ← length_merge sorts] at high
      have positive := cardinalityIndex_pos base some_
      rw [← length_merge sorts] at positive
      rw [build, if_neg some_, raises]
      dsimp only
      rw [rebuildIn_high positive.ne' high]

/-- When a build takes effect. -/
theorem build_ok_iff (sorts : o.Sorts a.delta) (base : 1 < a.index.nodeSize) :
    (∃ a', build logs o a = some (.ok () a')) ↔ a.delta = [] ∨ o.fault = none ∧
      a.Levels (a.elements.length + a.delta.length) ≤ rightmostSz ∧
      (a.Levels (a.elements.length + a.delta.length) = a.index.height ∨ o.block ≠ none) ∧
      logs.Right a.index.nodeSize
        (cardinalityIndex a.index.nodeSize (a.elements.length + a.delta.length)) := by
  by_cases nothing : a.delta = []
  · exact iff_of_true ⟨a, build_nothing nothing⟩ (Or.inl nothing)
  · rw [or_iff_right nothing]
    cases raises : o.fault with
    | some fault =>
        rw [build_of_fault nothing raises]
        simp
    | none =>
        have positive := (cardinalityIndex_pos base nothing).ne'
        have result : (∃ a', build logs o a = some (.ok () a')) ↔ ∃ index, StaticIndex.rebuildIn
            logs (cardinalityIndex a.index.nodeSize (a.elements.length + a.delta.length)) o.block
              a.index = some (.ok () index) := by
          rw [← length_merge sorts]
          constructor
          · rintro ⟨a', ok⟩
            obtain ⟨index, rebuilt, -⟩ := (build_ok_of_acquired nothing raises).mp ok
            exact ⟨index, rebuilt⟩
          · rintro ⟨index, rebuilt⟩
            exact ⟨_, (build_ok_of_acquired nothing raises).mpr ⟨index, rebuilt, rfl⟩⟩
        rw [result, and_iff_right rfl, Levels]
        constructor
        · rintro ⟨index, rebuilt⟩
          obtain ⟨exact_, right⟩ := (rebuildIn_eq_ok base).mp rebuilt
          obtain ⟨-, fit, room, -⟩ := rebuild_eq_ok.mp exact_
          exact ⟨fit, room, right⟩
        · rintro ⟨fit, room, right⟩
          exact ⟨_, (rebuildIn_eq_ok base).mpr
            ⟨rebuild_eq_ok.mpr ⟨positive, fit, room, rfl⟩, right⟩⟩

end Build

/-! ## The runs -/

/-- The states of an array of nodes of the given size, with the pairs that were inserted before the
last build that returned and those that were inserted since. A build that raises may be tried again;
where it has left the index without memory, the run ends. -/
inductive Reachable (logs : Logarithms) (nodeSize : Nat) :
    DenseArray → (built pending : List (Int × Int)) → Prop
  | create {memory : StaticIndex} {a : DenseArray} :
    create nodeSize memory = some a → Reachable logs nodeSize a [] []
  | insert {a : DenseArray} {built pending : List (Int × Int)} (k v : Int) :
    Reachable logs nodeSize a built pending →
    Reachable logs nodeSize (a.insert k v) built (pending ++ [(k, v)])
  | build_ok {a a' : DenseArray} {built pending : List (Int × Int)} {o : Outcome} :
    Reachable logs nodeSize a built pending → o.Sorts a.delta → build logs o a = some (.ok () a') →
    Reachable logs nodeSize a' (built ++ pending) []
  | build_error {a a' : DenseArray} {built pending : List (Int × Int)} {o : Outcome}
    {e : Exception} : Reachable logs nodeSize a built pending → o.Sorts a.delta →
    build logs o a = some (.error e a') → e ≠ .index .badAlloc →
    Reachable logs nodeSize a' built pending

/-- The invariant. -/
structure Valid (nodeSize : Nat) (a : DenseArray) (built pending : List (Int × Int)) : Prop where
  indexed : a.Indexed
  size : a.index.nodeSize = nodeSize
  sized : ∃ n, a.index.Sized n
  holds : a.elements.Perm built
  waiting : a.delta.Perm pending

section Runs

variable {logs : Logarithms} {nodeSize : Nat} {a a' : DenseArray} {built pending : List (Int × Int)}

theorem create_valid {memory : StaticIndex} (base : 2 ≤ nodeSize)
    (created : create nodeSize memory = some a) : Valid nodeSize a [] [] := by
  rw [create] at created
  split at created
  · next index ok =>
    cases created
    have sized := create_ok base ok
    have size : index.nodeSize = nodeSize := by
      rw [StaticIndex.create] at ok
      obtain ⟨_, _, raised, ok⟩ := bind_eq_ok.mp ok
      obtain ⟨-, rfl⟩ := raiseIf_eq_ok.mp raised
      obtain ⟨_, _, blanked, rebuilt⟩ := bind_eq_ok.mp ok
      obtain rfl := set_eq_ok.mp blanked
      exact (@rebuild_ok (blank nodeSize) _ _ _ _ base (fun above => absurd above (lt_irrefl 0))
        rebuilt).2.1
    exact ⟨⟨sized.base, List.Pairwise.nil, fun some_ => absurd rfl some_⟩, size, ⟨1, sized⟩,
      List.Perm.refl [], List.Perm.refl []⟩
  · cases created

theorem Reachable.valid (base : 2 ≤ nodeSize)
    (reachable : Reachable logs nodeSize a built pending) :
    Valid nodeSize a built pending := by
  induction reachable with
  | create created => exact create_valid base created
  | insert k v _ valid =>
      obtain ⟨⟨base', sorted, separators⟩, size, sized, holds, waiting⟩ := valid
      exact ⟨⟨base', sorted, separators⟩, size, sized, holds, waiting.append_right _⟩
  | build_ok _ sorts ok valid =>
      obtain ⟨n, sized⟩ := valid.sized
      obtain ⟨indexed, size, sized', perm, cleared⟩ :=
        DenseArray.build_ok valid.indexed sized sorts ok
      exact ⟨indexed, size.trans valid.size, sized',
        perm.trans (valid.holds.append valid.waiting), by rw [cleared]⟩
  | @build_error a a' built pending o e _ sorts raised other valid =>
      obtain ⟨elements, delta, index⟩ := DenseArray.build_error sorts raised
      obtain ⟨⟨base', sorted, separators⟩, size, sized, holds, waiting⟩ := valid
      rw [← elements, ← index other] at separators
      rw [← index other] at base' size sized
      rw [← elements] at sorted holds
      exact ⟨⟨base', sorted, separators⟩, size, sized, holds, delta.trans waiting⟩

end Runs

/-- What the array shows of the pairs that were built. -/
structure Shows (a : DenseArray) (built : List (Int × Int)) : Prop where
  sorted : SortedPairs a.elements
  holds : a.elements.Perm built
  find : ∀ key, (∃ v, (key, v) ∈ built ∧ a.find key = some v) ∨
    (∀ v, (key, v) ∉ built) ∧ a.find key = some (-1)
  findRange : ∀ min max, ∃ out, a.findRange min max = some out ∧ SortedPairs out ∧
    out.Perm (built.filter fun x => min ≤ x.1 ∧ x.1 ≤ max)
  sum : ∀ min max, ∃ out result, a.findRange min max = some out ∧ a.sum min max = some result ∧
    Sums out result

theorem Valid.shows {nodeSize : Nat} {a : DenseArray} {built pending : List (Int × Int)}
    (valid : Valid nodeSize a built pending) : a.Shows built where
  sorted := valid.indexed.sorted
  holds := valid.holds
  find := fun key => by
    rcases valid.indexed.find_spec key with ⟨v, member, found⟩ | ⟨missing, found⟩
    · exact Or.inl ⟨v, valid.holds.mem_iff.mp member, found⟩
    · exact Or.inr ⟨fun v member => missing v (valid.holds.mem_iff.mpr member), found⟩
  findRange := fun min max => ⟨_, valid.indexed.findRange_spec min max,
    valid.indexed.sorted.filter _, valid.holds.filter _⟩
  sum := fun min max => by
    obtain ⟨result, total, sums⟩ := valid.indexed.sum_spec min max
    exact ⟨_, result, valid.indexed.findRange_spec min max, total, sums⟩

/-- **The dense array is the sorted multimap of what was built.** Between builds the searches answer
for the pairs that were inserted before the last build that returned. A build takes effect unless
the memory of the new arrays or of the index cannot be had, the index would have more than eight
levels, or its heights are not rounded to the exact ones; where it raises, the content and the
pending pairs are unchanged, and so is the index unless it was left without memory. -/
theorem dense_spec {logs : Logarithms} {nodeSize : Nat} {a : DenseArray}
    {built pending : List (Int × Int)} (base : 2 ≤ nodeSize)
    (reachable : Reachable logs nodeSize a built pending) :
    a.Shows built ∧ a.delta.Perm pending ∧ ∀ o : Outcome, o.Sorts a.delta →
      ((∃ a', build logs o a = some (.ok () a')) ↔ pending = [] ∨ o.fault = none ∧
        heightOf nodeSize (cardinalityIndex nodeSize (built.length + pending.length)) ≤ 8 ∧
        (heightOf nodeSize (cardinalityIndex nodeSize (built.length + pending.length)) =
          a.index.height ∨ o.block ≠ none) ∧
        logs.Right nodeSize (cardinalityIndex nodeSize (built.length + pending.length))) ∧
      (∀ a', build logs o a = some (.ok () a') → a'.Shows (built ++ pending) ∧ a'.delta = []) ∧
      ∀ e a', build logs o a = some (.error e a') → a'.elements = a.elements ∧
        a'.delta.Perm pending ∧ (e ≠ .index .badAlloc → a'.index = a.index ∧ a'.Shows built) := by
  have valid := reachable.valid base
  refine ⟨valid.shows, valid.waiting, fun o sorts => ⟨?_, fun a' ok => ?_, fun e a' raised => ?_⟩⟩
  · have nothing : a.delta = [] ↔ pending = [] := by
      rw [← List.length_eq_zero_iff, ← List.length_eq_zero_iff, valid.waiting.length_eq]
    rw [build_ok_iff sorts valid.indexed.base, Levels, nothing, valid.size, valid.holds.length_eq,
      valid.waiting.length_eq]
    rfl
  · have after := (Reachable.build_ok reachable sorts ok).valid base
    exact ⟨after.shows, after.waiting.eq_nil⟩
  · obtain ⟨elements, delta, index⟩ := DenseArray.build_error sorts raised
    exact ⟨elements, delta.trans valid.waiting, fun other => ⟨index other,
      ((Reachable.build_error reachable sorts raised other).valid base).shows⟩⟩

/-- Two pairs with key 3 and one with key 1, built in nodes of two, and one more pair. -/
theorem dense_spec_two : ∃ a,
    Reachable Logarithms.above 2 a [(3, 30), (1, 10), (3, 31)] [(2, 20)] ∧
      a.Shows [(3, 30), (1, 10), (3, 31)] ∧ a.delta.Perm [(2, 20)] := by
  obtain ⟨a, created⟩ : ∃ a, create 2 (blank 2) = some a := ⟨_, rfl⟩
  have filled := (((@Reachable.create Logarithms.above _ _ _ created).insert 3 30).insert 1
    10).insert 3 31
  have sorts : Outcome.Sorts ⟨[(1, 10), (3, 30), (3, 31)], none, some fun _ => 0⟩
      (((a.insert 3 30).insert 1 10).insert 3 31).delta := by
    cases created
    exact ⟨by decide, by rw [SortedPairs]; decide⟩
  have right : Logarithms.above.Right 2 2 := .node (by decide) rfl .leaf
  obtain ⟨a', ok⟩ := (build_ok_iff sorts (filled.valid le_rfl).indexed.base).mpr
    (by cases created; exact Or.inr ⟨rfl, by decide +kernel, Or.inr (Option.some_ne_none _), right⟩)
  have reachable := (filled.build_ok sorts ok).insert 2 20
  have spec := dense_spec le_rfl reachable
  exact ⟨_, reachable, spec.1, spec.2.1⟩

/-- In nodes of two, the index of 513 pairs has nine levels: no build takes them. -/
theorem not_built : ∃ a, Reachable Logarithms.above 2 a [] (List.replicate 513 (0, 0)) ∧
    ∀ o : Outcome, o.Sorts a.delta → ∃ e a',
      build Logarithms.above o a = some (.error e a') ∧ a'.elements = [] := by
  have filled : ∀ n, ∃ a, Reachable Logarithms.above 2 a [] (List.replicate n (0, 0)) := by
    intro n
    induction n with
    | zero => exact ⟨_, @Reachable.create _ 2 (blank 2) _ rfl⟩
    | succ n ih =>
        obtain ⟨a, reachable⟩ := ih
        refine ⟨a.insert 0 0, ?_⟩
        rw [List.replicate_succ']
        exact reachable.insert 0 0
  obtain ⟨a, reachable⟩ := filled 513
  have valid := reachable.valid le_rfl
  have total : a.elements.length + a.delta.length = 513 := by
    rw [valid.holds.length_eq, valid.waiting.length_eq, List.length_nil, List.length_replicate]
  have none_ : a.elements = [] := valid.holds.eq_nil
  refine ⟨a, reachable, fun o sorts => ?_⟩
  obtain ⟨e, raised⟩ := @build_of_levels Logarithms.above a o sorts valid.indexed.base
    (by
      intro nothing
      rw [none_, nothing] at total
      cases total)
    (by
      rw [Levels, valid.size, total]
      decide +kernel)
  exact ⟨e, _, raised, none_⟩

end DenseArray

end Rma
