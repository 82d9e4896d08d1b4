import Rma.ABTree.Multimap
import Rma.Base.Chunks
import Mathlib.Data.Nat.Log

/-!
# Bulk loading of an (a,b)-tree

`initialize_from_array` builds the tree in one pass over the sorted elements. It fills the
leaves from left to right, and a closure `propagate` attaches each leaf to the levels above,
which are all under construction: a level passes its current node to the level above when a
child arrives that does not fit in it, and at the end. How many children a node takes is
computed in advance, so that the nodes of a level differ by one child at most; the root takes
what comes.

The logarithms of the source are exact here, and so is its division of the number of elements.
-/

namespace Rma.ABTree

open Base Node

/-- `std::sort` by key, which may leave equal keys in any order. -/
structure Sorting where
  sort : List (Int × Int) → List (Int × Int)
  perm : ∀ l, (sort l).Perm l
  sorted : ∀ l, SortedPairs (sort l)

/-- A stable sort. -/
def Sorting.stable : Sorting where
  sort l := l.mergeSort fun e1 e2 => e1.1 ≤ e2.1
  perm l := List.mergeSort_perm l _
  sorted l := by
    have trans : ∀ e1 e2 e3 : Int × Int, decide (e1.1 ≤ e2.1) = true →
        decide (e2.1 ≤ e3.1) = true → decide (e1.1 ≤ e3.1) = true := by
      simp only [decide_eq_true_eq]
      omega
    have total : ∀ e1 e2 : Int × Int,
        (decide (e1.1 ≤ e2.1) || decide (e2.1 ≤ e1.1)) = true := by
      simp only [Bool.or_eq_true, decide_eq_true_eq]
      omega
    exact (List.pairwise_mergeSort trans total l).imp fun le => by simpa using le

/-- `ceil(a / b)` -/
def ceilDiv (a b : Nat) : Nat := (a + b - 1) / b

/-! ## The levels under construction -/

/-- `NodeState`, of the nodes whose children are at a level. -/
structure NodeState (level : Nat) where
  node : Option (InternalNode (Node level))
  firstKey : Int
  fillFactor : Nat
  index : Nat
  bbpoint : Nat

/-- `levels`, from the level of the root down. -/
def Levels : Nat → Type
  | 0 => Unit
  | n + 1 => NodeState n × Levels n

/-- Whether the current node of a level has all its children. -/
def NodeState.Full {level : Nat} (s : NodeState level) (node : InternalNode (Node level)) : Prop :=
  s.index < s.bbpoint ∧ node.children.length = s.fillFactor + 1 ∨
    s.index ≥ s.bbpoint ∧ node.children.length = s.fillFactor

instance {level : Nat} (s : NodeState level) (node : InternalNode (Node level)) :
    Decidable (s.Full node) :=
  inferInstanceAs (Decidable (_ ∨ _))

/-- A call of `propagate` at one level: the level after it, and what it passes to the one
above. -/
def NodeState.propagate {level : Nat} (root : Bool) (s : NodeState level) (child : Node level)
    (key : Int) (last : Bool) : NodeState level × Option (Node (level + 1) × Int) :=
  match s.node with
  | none => ({ s with node := some ⟨[], [child]⟩, firstKey := key }, none)
  | some node =>
    if s.Full node then
      ({ s with node := some ⟨[], [child]⟩, firstKey := key, index := s.index + 1 },
        some (.inner node.keys node.children, s.firstKey))
    else
      let node : InternalNode (Node level) := ⟨node.keys ++ [key], node.children ++ [child]⟩
      ({ s with node := some node },
        if last ∧ ¬root then some (.inner node.keys node.children, s.firstKey) else none)

/-- `propagate(level, child, key, last)`, from the lowest level up. What is passed above the
levels given is returned with them. -/
def propagate (root : Bool) : {n : Nat} → Levels n → Leaf → (last : Bool) →
    Levels n × Option (Node n × Int)
  | 0, levels, l, _ => (levels, some (.leaf l, keyAt l.elements 0))
  | _ + 1, (s, below), l, last =>
    match propagate false below l last with
    | (below, none) => ((s, below), none)
    | (below, some (child, key)) =>
      let (s, passed) := s.propagate root child key last
      ((s, below), passed)

/-- The number of nodes at a level, when there are `num_leaves` leaves. -/
def numNodes (b : Bounds) (numLeaves : Nat) : (level : Nat) → Nat
  | 0 => numLeaves
  | level + 1 => ceilDiv (numNodes b numLeaves level) b.intnodeB

/-- The fill factors and the break points of the levels below the root. -/
def Levels.create (b : Bounds) (numLeaves : Nat) : (n : Nat) → Levels n
  | 0 => ()
  | n + 1 =>
    let numChildren := numNodes b numLeaves n
    let numNodes := numNodes b numLeaves (n + 1)
    (⟨none, 0, numChildren / numNodes, 0, numChildren % numNodes⟩, Levels.create b numLeaves n)

/-! ## The leaves -/

/-- `create_leaf` -/
def createLeaf (heap : Heap) : Leaf × Heap :=
  (⟨heap.fresh, []⟩,
    { heap with
      links :=
        { next := Function.update heap.links.next heap.fresh none
          previous := Function.update heap.links.previous heap.fresh none }
      fresh := heap.fresh + 1 })

/-- `leaf->N = n`: undefined where the elements have not been written. -/
def setSize (l : Leaf) (n : Nat) : Option Leaf :=
  if n ≤ l.elements.length then some { l with elements := l.elements.take n } else none

/-- Attach a leaf to the levels: undefined where the root would be split. -/
def attach {n : Nat} (levels : Levels n) (l : Leaf) (last : Bool) : Option (Levels n) :=
  match propagate true levels l last with
  | (levels, none) => some levels
  | (_, some _) => none

/-- What the loop over the elements changes. -/
structure Loading (n : Nat) where
  leafCurrent : Leaf
  heap : Heap
  levels : Levels n

/-- Close the current leaf and link a new one after it. -/
def nextLeaf {n : Nat} (leafFf leafBbpoint i : Nat) (s : Loading n) : Option (Loading n) := do
  let leafClosed ← setSize s.leafCurrent (leafFf + if i ≤ leafBbpoint then 1 else 0)
  let levels ← attach s.levels leafClosed false
  let (leafNext, heap) := createLeaf s.heap
  some
    { leafCurrent := leafNext
      heap := { heap with
        links :=
          { next := Function.update heap.links.next leafClosed.address (some leafNext.address)
            previous :=
              Function.update heap.links.previous leafNext.address (some leafClosed.address) } }
      levels := levels }

/-- One turn of the loop: undefined where the leaf has no space. -/
def loadElement (b : Bounds) {n : Nat} (leafFf leafBbpoint i : Nat) (s : Loading n)
    (e : Int × Int) : Option (Loading n) := do
  let leafIndex := s.leafCurrent.elements.length
  let s ←
    if (i < leafBbpoint ∧ leafIndex > leafFf) ∨ (i ≥ leafBbpoint ∧ leafIndex ≥ leafFf) then
      nextLeaf leafFf leafBbpoint i s
    else some s
  if s.leafCurrent.elements.length < b.leafB then
    some { s with
      leafCurrent := { s.leafCurrent with elements := s.leafCurrent.elements ++ [e] } }
  else none

/-- The loop over the elements, from the position `i` on. -/
def loadElements (b : Bounds) {n : Nat} (leafFf leafBbpoint : Nat) :
    (elements : List (Int × Int)) → (i : Nat) → Loading n → Option (Loading n)
  | [], _, s => some s
  | e :: elements, i, s => do
    let s ← loadElement b leafFf leafBbpoint i s e
    loadElements b leafFf leafBbpoint elements (i + 1) s

/-- The general case of `initialize_from_array`, when the elements do not fit in a leaf. -/
def initializeLevels (b : Bounds) (heap : Heap) (elements : List (Int × Int)) : Option ABTree :=
  let numLeaves := ceilDiv elements.length b.leafB
  let leafFf := elements.length / numLeaves
  let leafFfMod := elements.length % numLeaves
  match Nat.clog b.intnodeB numLeaves with -- num_levels
  | 0 => none
  | n + 1 => do
    let (leafFirst, heap) := createLeaf heap
    let root : NodeState n := ⟨none, 0, b.intnodeB, 0, 1⟩
    let s ← loadElements b leafFf (leafFfMod * (leafFf + 1)) elements 0
      (⟨leafFirst, heap, (root, Levels.create b numLeaves n)⟩ : Loading (n + 1))
    let leafLast ← setSize s.leafCurrent leafFf
    let levels ← attach s.levels leafLast true
    let node ← levels.1.node
    some ⟨b, n + 1, .inner node.keys node.children,
      { s.heap with cardinality := elements.length }⟩

/-- `initialize_from_array(elements, size, do_sort)`, for a tree whose height is 1: the tree,
and the array after it. -/
def initializeFromArray (sorting : Sorting) (b : Bounds) (heap : Heap)
    (elements : List (Int × Int)) (doSort : Bool) : Option (ABTree × List (Int × Int)) :=
  let elements := if doSort then sorting.sort elements else elements
  if elements.length ≤ b.leafB then
    let (l, heap) := createLeaf heap
    some (⟨b, 0, .leaf { l with elements := elements },
      { heap with cardinality := elements.length }⟩, elements)
  else (initializeLevels b heap elements).map fun t => (t, elements)

/-- Whether the keys are in order. -/
def inOrder : List (Int × Int) → Bool
  | e1 :: e2 :: elements => if e1.1 ≤ e2.1 then inOrder (e2 :: elements) else false
  | _ => true

/-- `load(elements, elements_sz)`: the tree, and the array of the caller. It throws where the
tree is not empty; the root is a leaf where it is. -/
def load (sorting : Sorting) (t : ABTree) (elements : List (Int × Int)) :
    Option (ABTree × List (Int × Int)) :=
  if t.heap.cardinality > 0 ∨ t.levels ≠ 0 then none
  else if inOrder elements then
    initializeFromArray sorting t.bounds t.heap elements false
  else
    -- a copy of the array is sorted
    (initializeFromArray sorting t.bounds t.heap elements true).map fun p => (p.1, elements)

/-! ## Dividing nodes evenly -/

section Even

variable {a upper total : Nat}

/-- The number of nodes that `ceil` gives. -/
theorem ceilDiv_bounds (positive : 0 < upper) (some : 0 < total) :
    (ceilDiv total upper - 1) * upper < total ∧ total ≤ ceilDiv total upper * upper ∧
      0 < ceilDiv total upper := by
  unfold ceilDiv
  have whole := Nat.div_add_mod (total + upper - 1) upper
  have small := Nat.mod_lt (total + upper - 1) positive
  have least : 0 < (total + upper - 1) / upper := Nat.div_pos (by omega) positive
  obtain ⟨k, count⟩ := Nat.exists_eq_add_of_lt least
  rw [count] at whole ⊢
  simp only [Nat.zero_add, Nat.add_sub_cancel, Nat.mul_add, Nat.mul_one, Nat.add_mul,
    Nat.one_mul] at whole ⊢
  rw [Nat.mul_comm k upper]
  omega

/-- Nodes that share what one node cannot hold are within the bounds, for a lower bound that
is at most half of the upper one. -/
theorem even_bounds (half : 2 * a - 1 ≤ upper) (several : 2 ≤ a) (more : upper < total) :
    2 ≤ ceilDiv total upper ∧ a ≤ total / ceilDiv total upper ∧
      (∀ j, chunkSize (total / ceilDiv total upper) (total % ceilDiv total upper) j ≤ upper) ∧
      chunkStart (total / ceilDiv total upper) (total % ceilDiv total upper)
        (ceilDiv total upper) = total := by
  obtain ⟨below, enough, positive⟩ := ceilDiv_bounds (show 0 < upper by omega)
    (show 0 < total by omega)
  generalize ceilDiv total upper = count at *
  have two : 2 ≤ count := by
    by_contra few
    have : count = 1 := by omega
    subst this
    omega
  have lower : a ≤ total / count := by
    rw [Nat.le_div_iff_mul_le positive]
    obtain ⟨n, rfl⟩ := Nat.exists_eq_add_of_le' two
    simp only [show n + 2 - 1 = n + 1 by omega] at below
    have widened := Nat.mul_le_mul_left (n + 1) (show 2 * a ≤ upper + 1 by omega)
    have more := Nat.mul_le_mul_left n (show 1 ≤ a by omega)
    nlinarith only [below, widened, more]
  refine ⟨two, lower, fun j => ?_, chunkStart_even total count positive⟩
  have whole := Nat.div_add_mod total count
  unfold chunkSize
  split
  · next before =>
      have := Nat.lt_of_mul_lt_mul_left (show count * (total / count) < count * upper by omega)
      omega
  · have := Nat.le_of_mul_le_mul_left (show count * (total / count) ≤ count * upper by omega)
      positive
    omega

end Even

/-! ## One level -/

/-- A child that is attached, with the key that is the minimum below it. -/
def Ready (b : Bounds) {level : Nat} (p : Node level × Int) : Prop :=
  Fits b p.1 ∧ p.2 = minKey p.1

/-- The node of some children. -/
def build {level : Nat} (chunk : List (Node level × Int)) : Node (level + 1) × Int :=
  (.inner (chunk.tail.map Prod.snd) (chunk.map Prod.fst), (chunk.map Prod.snd).headD 0)

/-- The elements and the leaves below some nodes. -/
def listed {level : Nat} (nodes : List (Node level × Int)) : List (Int × Int) × List Nat :=
  (nodes.flatMap fun p => p.1.elements, nodes.flatMap fun p => p.1.leaves)

section Level

variable {b : Bounds} {level fill breaks : Nat} {s : NodeState level}
  {inputs current chunk : List (Node level × Int)}
  {done : List (List (Node level × Int))}
  {x : Node level × Int}

theorem good_build (ready : ∀ p ∈ chunk, Ready b p) : Good b (build chunk).1 := by
  refine good_inner.mpr ⟨?_, ?_⟩
  · rw [separators, ← List.map_tail, List.map_map]
    exact List.map_congr_left fun p member => (ready p (List.mem_of_mem_tail member)).2
  · intro c member
    obtain ⟨p, inChunk, rfl⟩ := List.mem_map.mp member
    exact (ready p inChunk).1

theorem ready_build (ready : ∀ p ∈ chunk, Ready b p) (nonempty : chunk ≠ [])
    (lower : b.intnodeA ≤ chunk.length) (upper : chunk.length ≤ b.intnodeB) :
    Ready b (build chunk) := by
  refine ⟨⟨good_build ready, ?_, ?_⟩, ?_⟩
  · simpa [build, size_inner] using lower
  · simpa [build, size_inner] using upper
  · obtain ⟨p, rest, rfl⟩ := List.exists_cons_of_ne_nil nonempty
    have first := ready p List.mem_cons_self
    simp only [build, List.map_cons, List.headD_cons]
    rw [minKey_inner first.1.elements_ne_nil, first.2]

theorem listed_build (chunks : List (List (Node level × Int))) :
    listed (chunks.map build) = listed chunks.flatten := by
  induction chunks with
  | nil => rfl
  | cons chunk chunks ih =>
      simp only [listed, Prod.mk.injEq] at ih ⊢
      simp only [List.map_cons, List.flatMap_cons, List.flatten_cons, List.flatMap_append, ih.1,
        ih.2]
      simp only [build, elements_inner, leaves_inner, List.flatMap_map, and_self]

/-- A level that has received some children. -/
structure NodeState.Fed (s : NodeState level) (fill breaks : Nat)
    (inputs : List (Node level × Int)) (done : List (List (Node level × Int)))
    (current : List (Node level × Int)) : Prop where
  chunked : Chunked fill breaks inputs done current
  fillFactor : s.fillFactor = fill
  bbpoint : s.bbpoint = breaks
  index : s.index = done.length
  node : s.node =
    current.head?.map fun _ => ⟨current.tail.map Prod.snd, current.map Prod.fst⟩
  firstKey : current ≠ [] → s.firstKey = (build current).2
  begun : current = [] → done = []

namespace NodeState.Fed

theorem create (fill breaks : Nat) :
    (⟨none, 0, fill, 0, breaks⟩ : NodeState level).Fed fill breaks [] [] [] :=
  ⟨.nil, rfl, rfl, rfl, rfl, fun h => absurd rfl h, fun _ => rfl⟩

theorem full_iff (fed : s.Fed fill breaks inputs done current) (keys : List Int) :
    s.Full ⟨keys, current.map Prod.fst⟩ ↔ current.length = chunkSize fill breaks done.length := by
  unfold NodeState.Full chunkSize
  rw [fed.fillFactor, fed.bbpoint, fed.index, List.length_map]
  split <;> omega

/-- A level that has a node has received its children. -/
theorem node_eq (fed : s.Fed fill breaks inputs done current) (nonempty : current ≠ []) :
    s.node = some ⟨current.tail.map Prod.snd, current.map Prod.fst⟩ := by
  rw [fed.node]
  obtain ⟨y, rest, rfl⟩ := List.exists_cons_of_ne_nil nonempty
  rfl

/-- A child that does not fit begins the next node, and the current one is passed on. -/
theorem propagate_full (fed : s.Fed fill breaks inputs done current) (root : Bool)
    (positive : 0 < fill) (full : current.length = chunkSize fill breaks done.length)
    (x : Node level × Int) (last : Bool) :
    (s.propagate root x.1 x.2 last).2 = some (build current) ∧
      (s.propagate root x.1 x.2 last).1.Fed fill breaks (inputs ++ [x]) (done ++ [current])
        [x] := by
  have nonempty : current ≠ [] := by
    rintro rfl
    have := le_chunkSize fill breaks done.length
    rw [List.length_nil] at full
    omega
  unfold NodeState.propagate
  rw [fed.node_eq nonempty]
  simp only [if_pos ((fed.full_iff _).mpr full)]
  refine ⟨by rw [fed.firstKey nonempty]; rfl, fed.chunked.next positive full x, fed.fillFactor,
    fed.bbpoint, ?_, rfl, fun _ => rfl, fun none => by cases none⟩
  rw [fed.index, List.length_append, List.length_singleton]

/-- A child that fits is added to the current node. -/
theorem propagate_room (fed : s.Fed fill breaks inputs done current) (root : Bool)
    (room : current.length < chunkSize fill breaks done.length) (x : Node level × Int)
    (last : Bool) :
    (s.propagate root x.1 x.2 last).2 =
        (if last ∧ ¬root ∧ current ≠ [] then some (build (current ++ [x])) else none) ∧
      (s.propagate root x.1 x.2 last).1.Fed fill breaks (inputs ++ [x]) done (current ++ [x]) := by
  have pushed := fed.chunked.push room x
  unfold NodeState.propagate
  by_cases nonempty : current = []
  · subst nonempty
    have none : s.node = none := fed.node
    rw [none, fed.begun rfl] at *
    exact ⟨by simp, pushed, fed.fillFactor, fed.bbpoint, fed.index, rfl, fun _ => rfl,
      fun h => by cases h⟩
  · obtain ⟨y, rest, rfl⟩ := List.exists_cons_of_ne_nil nonempty
    rw [fed.node_eq nonempty]
    have notFull : ¬s.Full ⟨(y :: rest).tail.map Prod.snd, (y :: rest).map Prod.fst⟩ := by
      rw [fed.full_iff]
      omega
    simp only [if_neg notFull]
    have first := fed.firstKey nonempty
    refine ⟨?_, pushed, fed.fillFactor, fed.bbpoint, fed.index, by simp, fun _ => ?_,
      fun none => by simp at none⟩
    · simp [build, first]
    · simpa [build] using first

end NodeState.Fed

end Level

/-! ## The levels below the root -/

/-- How many children a node takes, and how many nodes take one more. -/
def fillFactor (b : Bounds) (numLeaves level : Nat) : Nat :=
  numNodes b numLeaves level / numNodes b numLeaves (level + 1)

def breakPoint (b : Bounds) (numLeaves level : Nat) : Nat :=
  numNodes b numLeaves level % numNodes b numLeaves (level + 1)

/-- The levels have received some leaves, and passed some nodes above. -/
def Levels.Fed (b : Bounds) (numLeaves : Nat) : {n : Nat} → Levels n → (leaves : List Leaf) →
    (passed : List (Node n × Int)) → Prop
  | 0, _, leaves, passed => passed = leaves.map fun l => (.leaf l, keyAt l.elements 0)
  | n + 1, (s, below), leaves, passed => ∃ inputs done current,
      Levels.Fed b numLeaves below leaves inputs ∧
        s.Fed (fillFactor b numLeaves n) (breakPoint b numLeaves n) inputs done current ∧
        passed = done.map build

/-- The nodes of the levels below some level do not fit in one node. -/
def Crowded (b : Bounds) (numLeaves n : Nat) : Prop := ∀ h < n, b.intnodeB < numNodes b numLeaves h

section Levels

variable {b : Bounds} {numLeaves n : Nat} {levels : Levels n} {leaves : List Leaf} {l : Leaf}
  {passed : List (Node n × Int)}

theorem propagate_passed {root last : Bool} {s : NodeState n} {below : Levels n}
    {child : Node n × Int} (passed : (propagate false below l last).2 = some child) :
    @propagate root (n + 1) (s, below) l last =
      (((s.propagate root child.1 child.2 last).1, (propagate false below l last).1),
        (s.propagate root child.1 child.2 last).2) := by
  rcases found : propagate false below l last with ⟨below', _ | child'⟩
  · rw [found] at passed
    cases passed
  · rw [found] at passed
    cases passed
    simp only [propagate, found]
    rfl

theorem propagate_kept {root last : Bool} {s : NodeState n} {below : Levels n}
    (kept : (propagate false below l last).2 = none) :
    @propagate root (n + 1) (s, below) l last = ((s, (propagate false below l last).1), none) := by
  rcases found : propagate false below l last with ⟨below', _ | child'⟩
  · simp only [propagate, found]
    rfl
  · rw [found] at kept
    cases kept

theorem Levels.create_fed (b : Bounds) (numLeaves n : Nat) :
    (Levels.create b numLeaves n).Fed b numLeaves [] [] := by
  induction n with
  | zero => rfl
  | succ n ih => exact ⟨[], [], [], ih, .create _ _, rfl⟩

/-- The plan of a level. -/
theorem Crowded.even (crowded : Crowded b numLeaves (n + 1)) :
    b.intnodeA ≤ fillFactor b numLeaves n ∧
      (∀ j, chunkSize (fillFactor b numLeaves n) (breakPoint b numLeaves n) j ≤ b.intnodeB) ∧
      chunkStart (fillFactor b numLeaves n) (breakPoint b numLeaves n)
        (numNodes b numLeaves (n + 1)) = numNodes b numLeaves n :=
  (even_bounds b.intnode_b (by have := b.intnode_a; omega) (crowded n (Nat.lt_succ_self n))).2

theorem Crowded.below (crowded : Crowded b numLeaves (n + 1)) : Crowded b numLeaves n :=
  fun h less => crowded h (by omega)

/-- The levels receive another leaf. -/
theorem Levels.Fed.propagate (fed : levels.Fed b numLeaves leaves passed)
    (crowded : Crowded b numLeaves n) (l : Leaf) :
    (propagate false levels l false).1.Fed b numLeaves (leaves ++ [l])
      (passed ++ (ABTree.propagate false levels l false).2.toList) := by
  induction n with
  | zero => simp [Levels.Fed, ABTree.propagate, show passed = _ from fed]
  | succ n ih =>
      obtain ⟨s, below⟩ := levels
      obtain ⟨inputs, done, current, fedBelow, fedS, rfl⟩ := fed
      have next := ih fedBelow crowded.below
      cases found : (ABTree.propagate false below l false).2 with
      | none =>
          rw [found, Option.toList_none, List.append_nil] at next
          rw [propagate_kept found, Option.toList_none, List.append_nil]
          exact ⟨inputs, done, current, next, fedS, rfl⟩
      | some child =>
          rw [found, Option.toList_some] at next
          rw [propagate_passed found]
          have positive : 0 < fillFactor b numLeaves n := by
            have := crowded.even.1
            have := b.intnode_a
            omega
          rcases Nat.lt_or_ge current.length (chunkSize _ _ done.length) with room | full
          · have step := fedS.propagate_room false room child false
            refine ⟨_, _, _, next, step.2, ?_⟩
            simp [step.1]
          · have step := fedS.propagate_full false positive
              (le_antisymm fedS.chunked.fits full) child false
            refine ⟨_, _, _, next, step.2, ?_⟩
            simp [step.1]

/-- No level has more nodes than planned. -/
theorem Levels.Fed.length_le (fed : levels.Fed b numLeaves leaves passed)
    (crowded : Crowded b numLeaves n) (few : leaves.length ≤ numLeaves) :
    passed.length ≤ numNodes b numLeaves n := by
  induction n with
  | zero =>
      rw [show passed = _ from fed, List.length_map]
      exact few
  | succ n ih =>
      obtain ⟨s, below⟩ := levels
      obtain ⟨inputs, done, current, fedBelow, fedS, rfl⟩ := fed
      have few := ih fedBelow crowded.below
      rw [List.length_map]
      by_cases none : current = []
      · simp [fedS.begun none]
      · exact (fedS.chunked.length_done_lt none (crowded.even.2.2 ▸ few)).le

/-- What the levels pass above, when all the leaves have arrived: as many nodes as planned,
ready to be attached, with the leaves and the elements of the leaves in order. -/
structure Passed (b : Bounds) (numLeaves : Nat) (leaves : List Leaf)
    (passed : List (Node n × Int)) : Prop where
  length : passed.length = numNodes b numLeaves n
  ready : ∀ p ∈ passed, Ready b p
  elements : (listed passed).1 = leaves.flatMap Leaf.elements
  addresses : (listed passed).2 = leaves.map Leaf.address

/-- The last leaf completes the levels. -/
theorem Levels.Fed.propagate_last (fed : levels.Fed b numLeaves leaves passed)
    (crowded : Crowded b numLeaves n) (all : leaves.length + 1 = numLeaves)
    (sizes : ∀ l' ∈ leaves ++ [l], b.leafA ≤ l'.elements.length ∧ l'.elements.length ≤ b.leafB) :
    ∃ y, (ABTree.propagate false levels l true).2 = some y ∧
      Passed b numLeaves (leaves ++ [l]) (passed ++ [y]) := by
  induction n with
  | zero =>
      refine ⟨(.leaf l, keyAt l.elements 0), rfl, ?_⟩
      have whole : passed ++ [((Node.leaf l : Node 0), keyAt l.elements 0)] =
          (leaves ++ [l]).map fun l => (.leaf l, keyAt l.elements 0) := by
        rw [show passed = _ from fed, List.map_append]
        rfl
      rw [whole]
      refine ⟨by simpa [numNodes] using all, ?_, ?_, ?_⟩
      · intro p member
        obtain ⟨l', inside, rfl⟩ := List.mem_map.mp member
        exact ⟨⟨trivial, sizes l' inside⟩, rfl⟩
      · simp only [listed, List.flatMap_map]
        rfl
      · simp only [listed, List.flatMap_map, Node.leaves]
        exact List.map_eq_flatMap.symm
  | succ n ih =>
      obtain ⟨s, below⟩ := levels
      obtain ⟨inputs, done, current, fedBelow, fedS, rfl⟩ := fed
      obtain ⟨y, passedOn, complete⟩ := ih fedBelow crowded.below
      obtain ⟨lower, upper, planned⟩ := crowded.even
      have several := b.intnode_a
      have length := complete.length
      rw [List.length_append, List.length_singleton] at length
      have room := fedS.chunked.room_of_last (by omega) (length.trans planned.symm)
      have step := fedS.propagate_room false room y true
      have nonempty : current ≠ [] := by
        intro none
        have whole := fedS.chunked.whole
        rw [none, fedS.begun none] at whole
        have := crowded n (Nat.lt_succ_self n)
        have := b.intnode_b
        rw [whole] at length
        simp only [List.flatten_nil, List.append_nil, List.length_nil] at length
        omega
      refine ⟨build (current ++ [y]), ?_, ?_⟩
      · rw [propagate_passed passedOn, step.1, if_pos ⟨rfl, by simp, nonempty⟩]
      · have chunked := step.2.chunked
        have last := chunked.complete (by omega) (by simp)
          (show (inputs ++ [y]).length = _ by rw [complete.length, planned])
        have whole : done.map build ++ [build (current ++ [y])] =
            (done ++ [current ++ [y]]).map build := by simp
        have flat : (done ++ [current ++ [y]]).flatten = inputs ++ [y] := by
          rw [chunked.whole, List.flatten_append, List.flatten_singleton]
        rw [whole]
        refine ⟨?_, ?_, ?_, ?_⟩
        · simpa using last.1
        · intro p member
          obtain ⟨chunk, inside, rfl⟩ := List.mem_map.mp member
          have planned : ∃ j, chunk.length =
              chunkSize (fillFactor b numLeaves n) (breakPoint b numLeaves n) j := by
            rcases List.mem_append.mp inside with early | final
            · exact chunked.size_done early
            · exact ⟨done.length, by rw [List.mem_singleton.mp final]; exact last.2⟩
          obtain ⟨j, size⟩ := planned
          have size : b.intnodeA ≤ chunk.length ∧ chunk.length ≤ b.intnodeB := by
            have := le_chunkSize (fillFactor b numLeaves n) (breakPoint b numLeaves n) j
            have := upper j
            omega
          refine ready_build (fun p inChunk => complete.ready p ?_) ?_ size.1 size.2
          · rw [← flat]
            exact List.mem_flatten.mpr ⟨chunk, inside, inChunk⟩
          · rintro rfl
            rw [List.length_nil] at size
            omega
        · rw [listed_build, flat, complete.elements]
        · rw [listed_build, flat, complete.addresses]

end Levels

/-! ## The root -/

section Root

variable {b : Bounds} {numLeaves n : Nat} {levels : Levels (n + 1)} {leaves : List Leaf} {l : Leaf}

/-- All the levels have received some leaves: what is passed to the root is below it. -/
def RootFed (b : Bounds) (numLeaves : Nat) (levels : Levels (n + 1)) (leaves : List Leaf) : Prop :=
  ∃ inputs, Levels.Fed b numLeaves levels.2 leaves inputs ∧
    levels.1.Fed b.intnodeB 1 inputs [] inputs

/-- The root has space for as many nodes as an inner node may have. -/
theorem root_room {inputs : List (Node n × Int)} (few : inputs.length ≤ b.intnodeB) :
    inputs.length < chunkSize b.intnodeB 1 ([] : List (List (Node n × Int))).length := by
  simp only [chunkSize, List.length_nil, if_pos Nat.one_pos]
  omega

theorem RootFed.attach (fed : RootFed b numLeaves levels leaves) (crowded : Crowded b numLeaves n)
    (fits : numNodes b numLeaves n ≤ b.intnodeB) (more : leaves.length + 1 ≤ numLeaves) (l : Leaf) :
    ∃ levels', attach levels l false = some levels' ∧
      RootFed b numLeaves levels' (leaves ++ [l]) := by
  obtain ⟨s, below⟩ := levels
  obtain ⟨inputs, fedBelow, fedS⟩ := fed
  have next := fedBelow.propagate crowded l
  have few := next.length_le crowded (by simpa using more)
  unfold ABTree.attach
  cases found : (propagate false below l false).2 with
  | none =>
      rw [found, Option.toList_none, List.append_nil] at next
      rw [propagate_kept found]
      exact ⟨_, rfl, inputs, next, fedS⟩
  | some child =>
      rw [found, Option.toList_some, List.length_append, List.length_singleton] at few
      rw [found, Option.toList_some] at next
      have step := fedS.propagate_room true (root_room (by omega)) child false
      rw [propagate_passed found, step.1]
      exact ⟨_, rfl, _, next, step.2⟩

/-- The last leaf completes the tree. -/
theorem RootFed.attach_last (fed : RootFed b numLeaves levels leaves)
    (crowded : Crowded b numLeaves n) (fits : numNodes b numLeaves n ≤ b.intnodeB)
    (all : leaves.length + 1 = numLeaves)
    (sizes : ∀ l' ∈ leaves ++ [l], b.leafA ≤ l'.elements.length ∧ l'.elements.length ≤ b.leafB) :
    ∃ levels' nodes, ABTree.attach levels l true = some levels' ∧
      levels'.1.node = some ⟨nodes.tail.map Prod.snd, nodes.map Prod.fst⟩ ∧
      Passed b numLeaves (leaves ++ [l]) nodes := by
  obtain ⟨s, below⟩ := levels
  obtain ⟨inputs, fedBelow, fedS⟩ := fed
  obtain ⟨y, found, complete⟩ := fedBelow.propagate_last crowded all sizes
  have length := complete.length
  rw [List.length_append, List.length_singleton] at length
  have step := fedS.propagate_room true (root_room (by omega)) y true
  unfold ABTree.attach
  rw [propagate_passed found, step.1]
  exact ⟨_, inputs ++ [y], rfl, step.2.node_eq (by simp), complete⟩

end Root

/-! ## The leaves -/

section Leaves

variable {b : Bounds} {numLeaves leafFf leafFfMod n i : Nat} {s : Loading (n + 1)}
  {seen : List (Int × Int)} {leaves : List Leaf}

/-- The plan of a load: what the numbers that are computed in advance satisfy. -/
structure Plan (b : Bounds) (size numLeaves leafFf leafFfMod n : Nat) : Prop where
  lower : b.leafA ≤ leafFf
  upper : ∀ j, chunkSize leafFf leafFfMod j ≤ b.leafB
  total : chunkStart leafFf leafFfMod numLeaves = size
  spare : leafFfMod < numLeaves
  crowded : Crowded b numLeaves n
  fits : numNodes b numLeaves n ≤ b.intnodeB
  several : 2 ≤ numNodes b numLeaves n

/-- The loop has loaded some elements: they are in the leaves attached and in the current
one, and all the leaves are linked. -/
structure Loaded (b : Bounds) (numLeaves leafFf leafFfMod : Nat) (seen : List (Int × Int))
    (leaves : List Leaf) (s : Loading (n + 1)) : Prop where
  chunked : Chunked leafFf leafFfMod seen (leaves.map Leaf.elements) s.leafCurrent.elements
  begun : s.leafCurrent.elements = [] → leaves = []
  fed : RootFed b numLeaves s.levels leaves
  linked : s.heap.Linked (leaves.map Leaf.address ++ [s.leafCurrent.address])

/-- The new leaf becomes the last one of the chain. -/
theorem createLeaf_linked {heap : Heap} {pre : List Nat} {a : Nat}
    (linked : heap.Linked (pre ++ [a])) :
    Heap.Linked
      { (createLeaf heap).2 with
        links :=
          { next := Function.update (createLeaf heap).2.links.next a (some heap.fresh)
            previous :=
              Function.update (createLeaf heap).2.links.previous heap.fresh (some a) } }
      (pre ++ [a] ++ [heap.fresh]) := by
  have new : heap.fresh ∉ pre ++ [a] := fun member => absurd (linked.fresh _ member) (lt_irrefl _)
  have last : heap.links.next a = none := (Links.segment_append.mp linked.chain.linked).2.2.1
  have inserted := linked.chain.insertAfter new
  refine ⟨?_, ?_⟩
  · rw [List.append_assoc, List.singleton_append]
    convert inserted using 1
    unfold Links.insertAfter createLeaf
    simp only [last, Function.update_idem]
  · intro x member
    have fresh : (createLeaf heap).2.fresh = heap.fresh + 1 := rfl
    rcases List.mem_append.mp member with old | new
    · have := linked.fresh x old
      simp only [fresh]
      omega
    · rw [List.mem_singleton.mp new]
      simp only [fresh]
      omega

/-- The condition of the source for the next leaf, and the size it gives the current one. -/
theorem Loaded.full_iff (loaded : Loaded b numLeaves leafFf leafFfMod seen leaves s)
    (positive : 0 < leafFf) :
    ((seen.length < leafFfMod * (leafFf + 1) ∧ s.leafCurrent.elements.length > leafFf ∨
        seen.length ≥ leafFfMod * (leafFf + 1) ∧ s.leafCurrent.elements.length ≥ leafFf) ↔
      s.leafCurrent.elements.length = chunkSize leafFf leafFfMod leaves.length) ∧
    (s.leafCurrent.elements.length = chunkSize leafFf leafFfMod leaves.length →
      leafFf + (if seen.length ≤ leafFfMod * (leafFf + 1) then 1 else 0) =
        s.leafCurrent.elements.length) := by
  have length := loaded.chunked.length_inputs
  have fits := loaded.chunked.fits
  rw [List.length_map] at length fits
  rw [← chunkStart_breaks]
  rcases Nat.lt_or_ge leaves.length leafFfMod with before | after
  · have first := chunkStart_add_le leafFf leafFfMod before
    have size : chunkSize leafFf leafFfMod leaves.length = leafFf + 1 := by
      rw [chunkSize, if_pos before]
    refine ⟨by omega, fun full => ?_⟩
    rw [if_pos (by omega)]
    omega
  · have first := chunkStart_le leafFf leafFfMod after
    have size : chunkSize leafFf leafFfMod leaves.length = leafFf := by
      rw [chunkSize, if_neg (by omega), Nat.add_zero]
    refine ⟨by omega, fun full => ?_⟩
    rw [if_neg (by omega)]
    omega

/-- The current leaf is closed and attached, and a new one takes an element. -/
theorem Loaded.next {size : Nat} (plan : Plan b size numLeaves leafFf leafFfMod n)
    (loaded : Loaded b numLeaves leafFf leafFfMod seen leaves s) (more : seen.length < size)
    (full : s.leafCurrent.elements.length = chunkSize leafFf leafFfMod leaves.length)
    (e : Int × Int) :
    ∃ s', nextLeaf leafFf (leafFfMod * (leafFf + 1)) seen.length s = some s' ∧
      s'.leafCurrent.elements = [] ∧
      Loaded b numLeaves leafFf leafFfMod (seen ++ [e]) (leaves ++ [s.leafCurrent])
        { s' with leafCurrent := { s'.leafCurrent with elements := [e] } } := by
  have positive : 0 < leafFf := by
    have := plan.lower
    have := b.leaf_a
    omega
  have nonempty : s.leafCurrent.elements ≠ [] := by
    intro none
    have := le_chunkSize leafFf leafFfMod leaves.length
    rw [none, List.length_nil] at full
    omega
  have few := loaded.chunked.length_done_lt nonempty (by rw [plan.total]; exact more.le)
  rw [List.length_map] at few
  obtain ⟨levels', attached, fed⟩ :=
    loaded.fed.attach plan.crowded plan.fits few s.leafCurrent
  have closed : setSize s.leafCurrent s.leafCurrent.elements.length = some s.leafCurrent := by
    rw [setSize, if_pos le_rfl, List.take_length]
  have chunked := loaded.chunked.next positive (by rw [List.length_map]; exact full) e
  unfold nextLeaf
  rw [(loaded.full_iff positive).2 full, closed]
  simp only [Option.bind_eq_bind, Option.bind_some, attached]
  refine ⟨_, rfl, rfl, by simpa using chunked, (fun none => by cases none), fed, ?_⟩
  rw [List.map_append, List.map_singleton]
  exact createLeaf_linked loaded.linked

/-- A turn of the loop loads an element. -/
theorem Loaded.element {size : Nat} (plan : Plan b size numLeaves leafFf leafFfMod n)
    (loaded : Loaded b numLeaves leafFf leafFfMod seen leaves s) (more : seen.length < size)
    (e : Int × Int) :
    ∃ leaves' s',
      loadElement b leafFf (leafFfMod * (leafFf + 1)) seen.length s e = some s' ∧
      Loaded b numLeaves leafFf leafFfMod (seen ++ [e]) leaves' s' := by
  have lower := plan.lower
  have several := b.leaf_a
  have condition := (loaded.full_iff (by omega)).1
  have upper := plan.upper leaves.length
  have fits := loaded.chunked.fits
  rw [List.length_map] at fits
  unfold loadElement
  by_cases full : s.leafCurrent.elements.length = chunkSize leafFf leafFfMod leaves.length
  · obtain ⟨s', next, fresh, loaded'⟩ := loaded.next plan more full e
    simp only [if_pos (condition.mpr full), next, Option.bind_eq_bind, Option.bind_some, fresh,
      List.length_nil, List.nil_append, if_pos (show 0 < b.leafB by omega)]
    exact ⟨_, _, rfl, loaded'⟩
  · simp only [if_neg (mt condition.mp full), Option.bind_eq_bind, Option.bind_some,
      if_pos (show s.leafCurrent.elements.length < b.leafB by omega)]
    refine ⟨leaves, _, rfl, loaded.chunked.push ?_ e, fun none => ?_, loaded.fed, loaded.linked⟩
    · rw [List.length_map]
      omega
    · simp at none

/-- The loop loads all the elements. -/
theorem Loaded.elements {size : Nat} (plan : Plan b size numLeaves leafFf leafFfMod n)
    (loaded : Loaded b numLeaves leafFf leafFfMod seen leaves s) (rest : List (Int × Int))
    (all : seen.length + rest.length = size) :
    ∃ leaves' s',
      loadElements b leafFf (leafFfMod * (leafFf + 1)) rest seen.length s = some s' ∧
      Loaded b numLeaves leafFf leafFfMod (seen ++ rest) leaves' s' := by
  induction rest generalizing seen leaves s with
  | nil => exact ⟨leaves, s, rfl, by simpa using loaded⟩
  | cons e rest ih =>
      rw [List.length_cons] at all
      obtain ⟨leaves1, s1, step, loaded1⟩ := loaded.element plan (by omega) e
      obtain ⟨leaves', s', run, loaded'⟩ := ih loaded1 (by simp; omega)
      rw [List.length_append, List.length_singleton] at run
      rw [List.append_assoc, List.singleton_append] at loaded'
      refine ⟨leaves', s', ?_, loaded'⟩
      rw [loadElements, step, Option.bind_eq_bind, Option.bind_some]
      exact run

end Leaves

/-! ## The tree -/

section Tree

variable {b : Bounds} {heap : Heap}

/-- A level has more nodes than a power of the number of children if the level below has. -/
theorem numNodes_bounds {numLeaves top : Nat}
    (lower : b.intnodeB ^ top < numLeaves) (upper : numLeaves ≤ b.intnodeB ^ (top + 1)) :
    ∀ h ≤ top, b.intnodeB ^ (top - h) < numNodes b numLeaves h ∧
      numNodes b numLeaves h ≤ b.intnodeB ^ (top - h + 1) := by
  have positive : 0 < b.intnodeB := by
    have := b.intnode_a
    have := b.intnode_b
    omega
  intro h
  induction h with
  | zero => exact fun _ => ⟨lower, upper⟩
  | succ h ih =>
      intro below
      obtain ⟨more, few⟩ := ih (by omega)
      rw [show top - h = top - (h + 1) + 1 by omega] at more few
      have first := pow_succ b.intnodeB (top - (h + 1))
      have second := pow_succ b.intnodeB (top - (h + 1) + 1)
      simp only [numNodes, ceilDiv]
      constructor
      · rw [Nat.lt_iff_add_one_le, Nat.le_div_iff_mul_le positive, Nat.add_one_mul, ← first]
        omega
      · rw [Nat.div_le_iff_le_mul positive, ← second]
        omega

/-- The numbers that are computed in advance. -/
theorem plan_of_more {size n : Nat} (more : b.leafB < size)
    (levels : Nat.clog b.intnodeB (ceilDiv size b.leafB) = n + 1) :
    Plan b size (ceilDiv size b.leafB) (size / ceilDiv size b.leafB)
      (size % ceilDiv size b.leafB) n := by
  have leaf_a := b.leaf_a
  have intnode_a := b.intnode_a
  have intnode_b := b.intnode_b
  obtain ⟨several, lower, upper, total⟩ := even_bounds b.leaf_b (by omega) more
  have base : 1 < b.intnodeB := by omega
  have bounds := @numNodes_bounds b (ceilDiv size b.leafB) n
    (by
      have := Nat.pow_pred_clog_lt_self base several
      rwa [levels] at this)
    (by
      have := Nat.le_pow_clog base (ceilDiv size b.leafB)
      rwa [levels] at this)
  have root := bounds n le_rfl
  rw [Nat.sub_self, pow_zero, pow_one] at root
  refine ⟨lower, upper, total, Nat.mod_lt _ (by omega), fun h below => ?_, root.2, root.1⟩
  refine lt_of_le_of_lt ?_ (bounds h below.le).1
  exact Nat.le_self_pow (by omega) _

/-- A new leaf is a chain of its own. -/
theorem createLeaf_single (heap : Heap) :
    (createLeaf heap).2.Linked [(createLeaf heap).1.address] := by
  refine ⟨⟨List.nodup_singleton _, ?_, ?_, trivial⟩, fun a member => ?_⟩
  · exact Function.update_self ..
  · exact Function.update_self ..
  · rw [List.mem_singleton.mp member]
    exact Nat.lt_succ_self _

/-- The tree that is built from sorted elements is valid, and holds the elements in order. -/
theorem initializeLevels_valid (heap : Heap) {elements : List (Int × Int)}
    (sorted : SortedPairs elements) (more : b.leafB < elements.length) :
    ∃ t, initializeLevels b heap elements = some t ∧ Valid t ∧ t.bounds = b ∧
      t.root.elements = elements := by
  have leaf_a := b.leaf_a
  have intnode_a := b.intnode_a
  have intnode_b := b.intnode_b
  have several := (even_bounds b.leaf_b (by omega) more).1
  have single := createLeaf_single heap
  unfold initializeLevels
  dsimp only
  cases levels : Nat.clog b.intnodeB (ceilDiv elements.length b.leafB) with
  | zero =>
      have := Nat.le_pow_clog (show 1 < b.intnodeB by omega) (ceilDiv elements.length b.leafB)
      rw [levels, pow_zero] at this
      omega
  | succ n =>
      have plan := plan_of_more more levels
      generalize created : createLeaf heap = leafHeap at *
      obtain ⟨leafFirst, heap'⟩ := leafHeap
      generalize ceilDiv elements.length b.leafB = numLeaves at *
      have first : Loaded b numLeaves (elements.length / numLeaves) (elements.length % numLeaves)
          [] [] (⟨leafFirst, heap', (⟨none, 0, b.intnodeB, 0, 1⟩,
            Levels.create b numLeaves n)⟩ : Loading (n + 1)) := by
        have fresh : leafFirst.elements = [] :=
          (congrArg (fun p : Leaf × Heap => p.1.elements) created).symm
        refine ⟨?_, fun _ => rfl, ⟨[], Levels.create_fed b numLeaves n, .create _ _⟩, single⟩
        simp only [fresh]
        exact .nil
      obtain ⟨leaves, s, run, loaded⟩ := first.elements plan elements (by simp)
      rw [List.nil_append] at loaded
      have chunked := loaded.chunked
      have nonempty : s.leafCurrent.elements ≠ [] := by
        intro none
        have whole := chunked.whole
        rw [none, loaded.begun none] at whole
        rw [whole] at more
        simp at more
      obtain ⟨last, size⟩ := chunked.complete (by have := plan.lower; omega) nonempty
        plan.total.symm
      rw [List.length_map] at last size
      have leafSize : s.leafCurrent.elements.length = elements.length / numLeaves := by
        have := plan.spare
        rw [size, chunkSize, if_neg (by omega), Nat.add_zero]
      have closed : setSize s.leafCurrent (elements.length / numLeaves) = some s.leafCurrent := by
        rw [← leafSize, setSize, if_pos le_rfl, List.take_length]
      have sizes : ∀ l ∈ leaves ++ [s.leafCurrent],
          b.leafA ≤ l.elements.length ∧ l.elements.length ≤ b.leafB := by
        intro l member
        have planned : ∃ j, l.elements.length =
            chunkSize (elements.length / numLeaves) (elements.length % numLeaves) j := by
          rcases List.mem_append.mp member with early | final
          · exact chunked.size_done (List.mem_map_of_mem early)
          · exact ⟨leaves.length, by rw [List.mem_singleton.mp final]; exact size⟩
        obtain ⟨j, size⟩ := planned
        have lower := plan.lower
        have upper := plan.upper j
        have := le_chunkSize (elements.length / numLeaves) (elements.length % numLeaves) j
        omega
      obtain ⟨levels', nodes, attached, node, complete⟩ :=
        loaded.fed.attach_last plan.crowded plan.fits last sizes
      have length := complete.length
      have contents : (build nodes).1.elements = elements := by
        simp only [build, elements_inner, List.flatMap_map]
        rw [chunked.whole]
        refine complete.elements.trans ?_
        rw [List.flatMap_append, List.flatMap_singleton, List.flatMap_def]
      have addresses : (build nodes).1.leaves =
          leaves.map Leaf.address ++ [s.leafCurrent.address] := by
        simp only [build, leaves_inner, List.flatMap_map]
        refine complete.addresses.trans ?_
        rw [List.map_append, List.map_singleton]
      refine ⟨⟨b, n + 1, (build nodes).1, { s.heap with cardinality := elements.length }⟩, ?_,
        ⟨good_build complete.ready, ?_, ?_, ?_, ?_⟩, rfl, contents⟩
      · rw [List.length_nil] at run
        simp only [run, Option.bind_eq_bind, Option.bind_some, closed, attached, node]
        rfl
      · rw [RootSize, if_neg (Nat.succ_ne_zero n)]
        have size : (build nodes).1.size = nodes.length := by simp [build, size_inner]
        rw [size, length]
        exact ⟨plan.several, plan.fits⟩
      · exact contents.symm ▸ sorted
      · exact ⟨addresses.symm ▸ loaded.linked.chain, addresses.symm ▸ loaded.linked.fresh⟩
      · exact congrArg (fun l : List (Int × Int) => (l.length : Int)) contents.symm

/-- `initialize_from_array` builds a valid tree of the sorted elements. -/
theorem initializeFromArray_valid (sorting : Sorting) (b : Bounds) (heap : Heap)
    (elements : List (Int × Int)) (doSort : Bool)
    (sorted : doSort = false → SortedPairs elements) :
    ∃ t, initializeFromArray sorting b heap elements doSort =
        some (t, if doSort then sorting.sort elements else elements) ∧
      Valid t ∧ t.bounds = b ∧
      t.root.elements = if doSort then sorting.sort elements else elements := by
  have inOrder : SortedPairs (if doSort then sorting.sort elements else elements) := by
    split
    · exact sorting.sorted elements
    · next keep => exact sorted (by simpa using keep)
  unfold initializeFromArray
  generalize (if doSort then sorting.sort elements else elements) = array at *
  simp only
  by_cases few : array.length ≤ b.leafB
  · have single := createLeaf_single heap
    rw [if_pos few]
    exact ⟨⟨b, 0, .leaf { (createLeaf heap).1 with elements := array },
      { (createLeaf heap).2 with cardinality := array.length }⟩, rfl,
      ⟨trivial, few, inOrder, ⟨single.chain, single.fresh⟩, rfl⟩, rfl, rfl⟩
  · rw [if_neg few]
    obtain ⟨t, built, valid, bounds, contents⟩ :=
      initializeLevels_valid heap inOrder (Nat.lt_of_not_le few)
    exact ⟨t, by rw [built]; rfl, valid, bounds, contents⟩

theorem inOrder_iff (elements : List (Int × Int)) :
    inOrder elements = true ↔ SortedPairs elements := by
  fun_induction inOrder elements with
  | case1 e1 e2 elements le ih =>
      rw [ih, SortedPairs, SortedPairs, List.pairwise_cons (a := e1)]
      refine ⟨fun rest => ⟨fun x member => ?_, rest⟩, fun all => all.2⟩
      rcases List.mem_cons.mp member with rfl | later
      · exact le
      · exact le.trans (List.rel_of_pairwise_cons rest later)
  | case2 e1 e2 elements gt =>
      refine iff_of_false (by simp) fun sorted => gt ?_
      exact List.rel_of_pairwise_cons sorted List.mem_cons_self
  | case3 elements short =>
      refine iff_of_true rfl ?_
      rcases elements with _ | ⟨e1, _ | ⟨e2, elements⟩⟩
      · exact List.Pairwise.nil
      · exact List.pairwise_singleton _ _
      · exact absurd rfl (short e1 e2 elements)

/-- **Bulk loading.** `load` builds a valid tree from any array: it holds the pairs of the
array in order of their keys, and the array is not modified. -/
theorem load_valid (sorting : Sorting) {t : ABTree} (valid : Valid t)
    (vacant : t.heap.cardinality = 0) (elements : List (Int × Int)) :
    ∃ t', load sorting t elements = some (t', elements) ∧ Valid t' ∧ MultimapState t' ∧
      t'.bounds = t.bounds ∧ t'.root.elements.Perm elements ∧ t'.sizeOf = elements.length := by
  have leaf : t.levels = 0 := by
    by_contra above
    have size := valid.size
    rw [RootSize, if_neg above] at size
    have count := valid.cardinality
    rw [vacant] at count
    exact elements_ne_nil valid.good (by omega) (List.eq_nil_of_length_eq_zero (by omega))
  have enters : ¬(t.heap.cardinality > 0 ∨ t.levels ≠ 0) := by omega
  unfold load
  rw [if_neg enters]
  by_cases sorted : inOrder elements = true
  · obtain ⟨t', built, valid', bounds, contents⟩ := initializeFromArray_valid sorting t.bounds
      t.heap elements false fun _ => (inOrder_iff elements).mp sorted
    simp only [Bool.false_eq_true, if_false] at built contents
    rw [if_pos sorted]
    refine ⟨t', built, valid', valid'.state, bounds, by rw [contents], ?_⟩
    rw [sizeOf, valid'.cardinality, contents]
  · obtain ⟨t', built, valid', bounds, contents⟩ := initializeFromArray_valid sorting t.bounds
      t.heap elements true fun no => by cases no
    simp only [if_true] at built contents
    rw [if_neg sorted, built]
    refine ⟨t', rfl, valid', valid'.state, bounds, contents ▸ sorting.perm elements, ?_⟩
    rw [sizeOf, valid'.cardinality, contents, (sorting.perm elements).length_eq]

/-- Twenty pairs that are not sorted, in a tree of three levels. -/
theorem load_valid_twenty :
    ∃ t', load .stable (empty ⟨2, 3, 2, 3, by decide, by decide, by decide, by decide⟩)
        ((List.range 20).map fun i => (((i * 7 % 11 : Nat) : Int), (i : Int))) =
          some (t', (List.range 20).map fun i => (((i * 7 % 11 : Nat) : Int), (i : Int))) ∧
      Valid t' ∧ t'.sizeOf = 20 := by
  obtain ⟨t', built, valid, -, -, -, size⟩ := load_valid .stable (empty_valid _) rfl
    ((List.range 20).map fun i => (((i * 7 % 11 : Nat) : Int), (i : Int)))
  exact ⟨t', built, valid, size⟩

end Tree

end Rma.ABTree
