import Rma.DynamicIndex.RemoveAny
import Rma.Base.Runs

/-!
# The dynamic index is a sorted multimap

`Valid` is the invariant of the index. `insert_valid`, `removeAny_valid` and
`clear_valid` say what one operation does to a valid index, and `dynamicIndex_run_multimap` is
the result over whole runs from the empty index.
-/

namespace Rma

namespace DynamicIndex

open Base SearchTree Node

variable {K V : Type} [LinearOrder K] [Inhabited K] [Inhabited V]

/-! ## Find any -/

theorem findNode_leaf (l : Leaf K V) (key : K) : findNode (.leaf l) key =
    if scanUp (fun j => keyAt l.elements j < key) 0 l.elements.length < l.elements.length ∧
      keyAt l.elements (scanUp (fun j => keyAt l.elements j < key) 0 l.elements.length) = key then
      some (l.elements.getD (scanUp (fun j => keyAt l.elements j < key) 0 l.elements.length)
        default).2
    else none :=
  rfl

/-- In a leaf, `find_any` stops at the first pair with the key. -/
theorem findLeaf_spec (l : Leaf K V) (key : K) (sorted : SortedPairs l.elements) :
    (∀ v, findNode (.leaf l) key = some v → (key, v) ∈ l.elements) ∧
      (findNode (.leaf l) key = none → ∀ e ∈ l.elements, e.1 ≠ key) := by
  have scan := sorted.scan_key (fun j inside => keyAt_eq inside) key
  rw [findNode_leaf]
  generalize scanUp (fun j => decide (keyAt l.elements j < key)) 0 l.elements.length = i at *
  split_ifs with hit
  · refine ⟨fun v found => ?_, fun absent => nomatch absent⟩
    have member : l.elements.getD i default ∈ l.elements := by
      rw [List.getD_eq_getElem _ _ hit.1]
      exact List.getElem_mem hit.1
    cases found
    rw [← hit.2]
    exact member
  · exact ⟨fun v found => (nomatch found), fun _ => scan hit⟩

/-- `find_any` succeeds exactly when a pair with the key is below the node. -/
theorem findNode_spec {b : Bounds} {level : Nat} {n : Node K V level} (good : Good b.limits n)
    (sorted : SortedPairs n.elements) (nonempty : 0 < level → 0 < n.size) (key : K) :
    (∀ v, findNode n key = some v → (key, v) ∈ n.elements) ∧
      (findNode n key = none → ∀ e ∈ n.elements, e.1 ≠ key) := by
  induction level with
  | zero => exact findLeaf_spec n key sorted
  | succ level ih =>
      cases n using Node.inner_cases with
      | inner keys children =>
          rcases good_inner.mp good with ⟨rfl, fits⟩
          have positive : children ≠ [] :=
            List.ne_nil_of_length_pos (nonempty (Nat.succ_pos level))
          rcases exists_descent (· ≤ key) fits positive sorted with ⟨pre, c, post, rfl, descent⟩
          have fitsC : Fits b.limits c := fits c (by simp)
          rcases ih fitsC.1 descent.sorted
            (fun _ => (b.limits.positive level).trans_le fitsC.2.1) with ⟨found, absent⟩
          have step : findNode (.inner (separators minKey (pre ++ c :: post)) (pre ++ c :: post))
              key = findNode c key := by
            simp only [findNode, descent.index, getD_focus]
          rw [step]
          constructor
          · intro v hit
            have member := found v hit
            rw [elements_inner, List.flatMap_append, List.flatMap_cons]
            simp [member]
          · intro miss e member same
            simp only [elements_inner, List.flatMap_append, List.flatMap_cons,
              List.mem_append] at member
            rcases member with member | member | member
            · -- a pair to the left of the child has the key only if the minimum has it too
              have notFirst : pre ≠ [] := by
                rintro rfl
                cases member
              rcases exists_minKey fitsC.elements_ne_nil with ⟨f, l, eq, min⟩
              have le := descent.below e member
              have ge := descent.before notFirst
              exact absent miss f (by simp [eq]) (by rw [← min]; exact le_antisymm ge (same ▸ le))
            · exact absent miss e member same
            · cases post with
              | nil => cases member
              | cons d rest =>
                  have le := descent.above d rest rfl e member
                  exact absurd (same ▸ le) (descent.after d rest rfl)

/-! ## The invariant -/

/-- The root is exempt from the lower bound. -/
def RootSize (b : Bounds) {level : Nat} (n : Node K V level) : Prop :=
  if level = 0 then n.size ≤ b.leafB else 2 ≤ n.size ∧ n.size ≤ b.inodeB

/-- The invariant of the index. -/
structure Valid (t : DynamicIndex K V) : Prop where
  good : Good t.bounds.limits t.root
  size : RootSize t.bounds t.root
  sorted : SortedPairs t.root.elements
  owns : t.heap.Owns t.root.leaves t.root.inodes
  cardinality : t.heap.cardinality = t.root.elements.length

/-- A single leaf without elements. -/
theorem single_valid (b : Bounds) (heap : Heap) (numInodes : heap.numInodes = 0)
    (numLeaves : heap.numLeaves = 0) :
    Valid ⟨b, 0, Node.leaf (⟨heap.fresh, []⟩ : Leaf K V),
      { createLeaf heap with cardinality := 0 }⟩ := by
  refine ⟨trivial, Nat.zero_le _, List.Pairwise.nil, ⟨⟨List.nodup_singleton _, ?_⟩, ?_, ?_,
    numInodes⟩, rfl⟩
  · exact ⟨Function.update_self .., Function.update_self .., trivial⟩
  · intro a member
    rw [List.mem_singleton.mp member]
    exact Nat.lt_succ_self _
  · change heap.numLeaves + 1 = 1
    rw [numLeaves, zero_add]

theorem empty_valid (b : Bounds) : Valid (empty b : DynamicIndex K V) :=
  single_valid b ⟨⟨fun _ => none, fun _ => none⟩, 0, 0, 0, 0⟩ rfl rfl

section Insert

variable {b : Bounds} {level level' : Nat} {key : K} {value : V} {heap heap' : Heap}

omit [LinearOrder K] [Inhabited K] [Inhabited V] in
/-- A root above the root. -/
theorem follows_newRoot {n : Node K V level} (keys : List K) :
    Follows heap (createInode heap) [n] [Node.inner keys [n]] := by
  intro pre post m owns
  simp only [List.flatMap_cons, List.flatMap_nil, leaves_inner, List.map_cons, List.map_nil,
    inodes_inner, List.sum_cons, List.sum_nil, List.append_nil, Nat.add_zero] at owns ⊢
  refine ⟨owns.chain, owns.fresh, owns.numLeaves, ?_⟩
  change heap.numInodes + 1 = _
  rw [owns.numInodes]
  push_cast
  ring

/-- The index after an insertion, from what the insertion did to the nodes. -/
theorem inserted_valid {n : Node K V level} {m : Node K V level'}
    (valid : Valid ⟨b, level, n, heap⟩) (good : Good b.limits m) (size : RootSize b m)
    (inserted : Inserted (key, value) n.elements m.elements) (follows : Follows heap heap' [n] [m])
    (cardinality : heap'.cardinality = heap.cardinality + 1) :
    Valid ⟨b, level', m, heap'⟩ ∧ Inserted (key, value) n.elements m.elements := by
  refine ⟨⟨good, size, inserted.sorted valid.sorted, follows.owns valid.owns, ?_⟩, inserted⟩
  have before := valid.cardinality
  change heap'.cardinality = (m.elements.length : Int)
  rw [cardinality, before, inserted.length_eq]
  rfl

/-- A root of two nodes that hold the elements of the old one and the new pair. -/
theorem newRoot_valid {n m1 m2 : Node K V level} (valid : Valid ⟨b, level, n, heap⟩)
    (fits1 : Fits b.limits m1) (fits2 : Fits b.limits m2)
    (inserted : Inserted (key, value) n.elements (m1.elements ++ m2.elements))
    (follows : Follows (createInode heap) heap' [n] [m1, m2])
    (cardinality : heap'.cardinality = heap.cardinality + 1) :
    Valid ⟨b, level + 1, .inner [m2.minKey] [m1, m2], heap'⟩ ∧
      Inserted (key, value) n.elements (Node.inner [m2.minKey] [m1, m2]).elements := by
  have inodeB := b.inode_b
  apply inserted_valid valid _ _ _ _ cardinality
  · refine ⟨rfl, fun d member => ?_⟩
    rcases List.mem_pair.mp member with rfl | rfl
    · exact fits1
    · exact fits2
  · exact ⟨le_rfl, by change 2 ≤ b.inodeB; omega⟩
  · simpa [elements_inner] using inserted
  · exact (follows_newRoot []).trans (follows.inner [] [m2.minKey])

theorem insert_eq {t t1 t2 : DynamicIndex K V}
    (first : (if t.levels = 0 ∧ t.root.size = t.bounds.leafB then t.splitRoot else t) = t1)
    (second : t1.insertRoot key value = t2) : t.insert key value =
      if t2.levels > 0 ∧ t2.root.size > t2.bounds.inodeB then t2.splitRoot else t2 := by
  subst first second
  rfl

omit [LinearOrder K] in
theorem splitRoot_eq {n n1 n2 : Node K V level} {pivot : K}
    (result : splitChild n (createInode heap) = ((n1, pivot, n2), heap')) :
    splitRoot ⟨b, level, n, heap⟩ = ⟨b, level + 1, .inner [pivot] [n1, n2], heap'⟩ := by
  simp [splitRoot, split, result]

/-- A full leaf at the root is divided before the insertion. -/
theorem insert_fullRoot {n : Node K V 0} (valid : Valid ⟨b, 0, n, heap⟩) (full : n.size = b.leafB) :
    Valid (DynamicIndex.insert ⟨b, 0, n, heap⟩ key value) ∧
      Inserted (key, value) n.elements
        (DynamicIndex.insert ⟨b, 0, n, heap⟩ key value).root.elements := by
  have leafB := b.leaf_b
  have inodeB := b.inode_b
  rcases result : splitChild n (createInode heap) with ⟨⟨n1, pivot, n2⟩, heap1⟩
  have good : Good b.limits n := valid.good
  have halves : Halves b n n1 pivot n2 (createInode heap) heap1 :=
    splitChild_spec good (by omega) result
  have size1 := halves.size1
  have size2 := halves.size2
  simp only [leftHalf, if_true, full] at size1 size2
  have sorted : SortedPairs n.elements := valid.sorted
  rcases insert_halves halves full sorted key value with
    ⟨m1, m2, which, fits1, fits2, min2, inserted, follows⟩
  have index : childIndex [pivot] 2 key = if pivot < key then 1 else 0 := by
    simp [childIndex, scanUp]
  -- none of the two halves is full
  have branch : insertNode b (.inner [pivot] [n1, n2]) key value heap1 =
      (.inner [m2.minKey] [m1, m2], { heap1 with cardinality := heap1.cardinality + 1 }) := by
    rw [min2]
    rcases which with ⟨same, right⟩ | ⟨same, left⟩
    · cases same
      have notFull : n2.size ≠ b.leafB := by omega
      simp [insertNode, index, right, notFull]
    · cases same
      have notFull : n1.size ≠ b.leafB := by omega
      simp [insertNode, index, not_lt.mpr left, notFull]
  have condition : 0 = 0 ∧ n.size = b.leafB := ⟨rfl, full⟩
  have second : insertRoot ⟨b, 1, .inner [pivot] [n1, n2], heap1⟩ key value =
      ⟨b, 1, .inner [m2.minKey] [m1, m2],
        { heap1 with cardinality := heap1.cardinality + 1 }⟩ := by
    rw [insertRoot, branch]
  have small : ¬(1 > 0 ∧ (Node.inner [m2.minKey] [m1, m2]).size > b.inodeB) := by
    rw [size_inner]
    simp only [List.length_cons, List.length_nil]
    omega
  have final : DynamicIndex.insert ⟨b, 0, n, heap⟩ key value =
      ⟨b, 1, .inner [m2.minKey] [m1, m2],
        { heap1 with cardinality := heap1.cardinality + 1 }⟩ := by
    rw [insert_eq ((if_pos condition).trans (splitRoot_eq result)) second]
    exact if_neg small
  rw [final]
  exact newRoot_valid valid fits1 fits2 inserted follows (congrArg (· + 1) halves.cardinality)

/-- A full inner root is divided after it has grown. -/
theorem insert_overflowRoot {n n' : Node K V (level + 1)} (valid : Valid ⟨b, level + 1, n, heap⟩)
    (inserted : InsertedNode b n key value n' heap heap') (overflow : n'.size > b.inodeB) :
    Valid (splitRoot ⟨b, level + 1, n', heap'⟩) ∧
      Inserted (key, value) n.elements (splitRoot ⟨b, level + 1, n', heap'⟩).root.elements := by
  have inodeB := b.inode_b
  have size : 2 ≤ n.size ∧ n.size ≤ b.inodeB := valid.size
  have grown := inserted.size_le
  rcases result : splitChild n' (createInode heap') with ⟨⟨n1, pivot, n2⟩, heap2⟩
  have halves := splitChild_spec inserted.good (by omega) result
  have size1 := halves.size1
  have size2 := halves.size2
  simp only [leftHalf, Nat.succ_ne_zero, if_false] at size1 size2
  rw [splitRoot_eq result, halves.pivot_eq]
  apply inserted_valid valid
  · refine ⟨rfl, fun d member => ?_⟩
    rcases List.mem_pair.mp member with rfl | rfl
    · exact ⟨halves.good1, by rw [Bounds.lower_succ]; omega, by rw [Bounds.upper_succ]; omega⟩
    · exact ⟨halves.good2, by rw [Bounds.lower_succ]; omega, by rw [Bounds.upper_succ]; omega⟩
  · exact ⟨le_rfl, by change 2 ≤ b.inodeB; omega⟩
  · simpa [elements_inner, halves.elements] using inserted.inserted
  · exact inserted.follows.trans
      ((follows_newRoot []).trans (halves.follows.inner [] [n2.minKey]))
  · rw [halves.cardinality]
    exact inserted.cardinality

/-- Insertion in a valid index. -/
theorem insert_valid {t : DynamicIndex K V} (valid : Valid t) (key : K) (value : V) :
    Valid (t.insert key value) ∧
      Inserted (key, value) t.root.elements (t.insert key value).root.elements := by
  rcases t with ⟨b, level, root, heap⟩
  by_cases full : level = 0 ∧ root.size = b.leafB
  · rcases full with ⟨rfl, full⟩
    exact insert_fullRoot valid full
  · have nonempty : 0 < level → 0 < root.size := by
      intro above
      have size := valid.size
      rw [RootSize, if_neg (Nat.ne_of_gt above)] at size
      exact Nat.lt_of_lt_of_le Nat.two_pos size.1
    have inserted : InsertedNode b root key value (insertNode b root key value heap).1 heap
        (insertNode b root key value heap).2 :=
      insertNode_spec valid.good valid.sorted nonempty
    rcases result : insertNode b root key value heap with ⟨root', heap'⟩
    rw [result] at inserted
    have second : insertRoot ⟨b, level, root, heap⟩ key value = ⟨b, level, root', heap'⟩ := by
      rw [insertRoot, result]
    rw [insert_eq (if_neg full) second]
    by_cases overflow : level > 0 ∧ root'.size > b.inodeB
    · rw [if_pos overflow]
      cases level with
      | zero => exact absurd overflow.1 (lt_irrefl 0)
      | succ level => exact insert_overflowRoot valid inserted overflow.2
    · rw [if_neg overflow]
      refine inserted_valid valid inserted.good ?_ inserted.inserted inserted.follows
        inserted.cardinality
      have size := valid.size
      cases level with
      | zero =>
          have room : root.size ≤ b.leafB := size
          have grown : root'.size = root.size + 1 := inserted.leaf_size rfl
          have notFull : root.size ≠ b.leafB := fun h => full ⟨rfl, h⟩
          change root'.size ≤ b.leafB
          omega
      | succ level =>
          have several : 2 ≤ root.size := size.1
          have grown : root.size ≤ root'.size := inserted.le_size
          refine ⟨several.trans grown, ?_⟩
          by_contra more
          exact overflow ⟨Nat.succ_pos level, not_le.mp more⟩

end Insert

section Remove

variable {b : Bounds} {level : Nat} {key : K} {heap heap' : Heap}

theorem removeAny_eq {n : Node K V level} {r : Removed K V level}
    (result : removeNode b n key false true heap = (r, heap')) :
    removeAny ⟨b, level, n, heap⟩ key =
      if r.value.isSome then
        (if r.node.size = 1 ∧ level > 0 then
          shorten ⟨b, level, r.node, { heap' with cardinality := heap'.cardinality - 1 }⟩
        else ⟨b, level, r.node, { heap' with cardinality := heap'.cardinality - 1 }⟩, r.value)
      else (⟨b, level, r.node, heap'⟩, r.value) := by
  rw [removeAny]
  simp only [result]

omit [LinearOrder K] [Inhabited K] [Inhabited V] in
/-- The only child of a root takes its place. -/
theorem follows_shorten {keys : List K} {c : Node K V level} :
    Follows heap (deleteNode (.inner [] [] : Node K V (level + 1)) heap) [Node.inner keys [c]]
      [c] := by
  intro pre post m owns
  simp only [List.flatMap_cons, List.flatMap_nil, leaves_inner, List.map_cons, List.map_nil,
    inodes_inner, List.sum_cons, List.sum_nil, List.append_nil, Nat.add_zero] at owns ⊢
  refine ⟨owns.chain, owns.fresh, owns.numLeaves, ?_⟩
  change heap.numInodes - 1 = _
  rw [owns.numInodes]
  push_cast
  ring

omit [LinearOrder K] in
/-- The only child of a root is a root. -/
theorem shorten_valid {n : Node K V (level + 1)} (heap : Heap) (good : Good b.limits n)
    (single : n.size = 1)
    (cardinality : heap.cardinality = n.elements.length) :
    ∃ c, shorten ⟨b, level + 1, n, heap⟩ =
        ⟨b, level, c, deleteNode (.inner [] [] : Node K V (level + 1)) heap⟩ ∧
      Good b.limits c ∧ RootSize b c ∧ c.elements = n.elements ∧
      Follows heap (deleteNode (.inner [] [] : Node K V (level + 1)) heap) [n] [c] ∧
      heap.cardinality = c.elements.length := by
  cases n using Node.inner_cases with
  | inner keys children =>
      obtain ⟨c, rfl⟩ := List.length_eq_one_iff.mp single
      have fits : Fits b.limits c := (good_inner.mp good).2 c (by simp)
      have same : (Node.inner keys [c]).elements = c.elements := by
        rw [elements_inner, List.flatMap_singleton]
      rw [same] at cardinality
      refine ⟨c, rfl, fits.1, ?_, same.symm, follows_shorten, cardinality⟩
      have lower := b.two_le_lower level
      cases level with
      | zero => exact fits.2.2
      | succ level => exact ⟨lower.trans fits.2.1, fits.2.2⟩

/-- Removal from a valid index: one pair with the key is taken out, or there is none
and nothing changes. -/
theorem removeAny_valid {t : DynamicIndex K V} (valid : Valid t) (key : K) :
    Valid (t.removeAny key).1 ∧
      ((∃ v, (t.removeAny key).2 = some v ∧
          Base.Removed key v t.root.elements (t.removeAny key).1.root.elements) ∨
        (∀ e ∈ t.root.elements, e.1 ≠ key) ∧ t.removeAny key = (t, none)) := by
  rcases t with ⟨b, level, n, heap⟩
  have several : 0 < level → 2 ≤ n.size := by
    intro above
    have size := valid.size
    rw [RootSize, if_neg (Nat.ne_of_gt above)] at size
    exact size.1
  have removed : RemovedNode b n key false (removeNode b n key false true heap).1 heap
      (removeNode b n key false true heap).2 :=
    removeNode_spec valid.good valid.sorted several fun h => absurd h Bool.false_ne_true
  rcases result : removeNode b n key false true heap with ⟨r, heap'⟩
  rw [result] at removed
  simp only at removed
  rw [removeAny_eq result]
  rcases removed.outcome with ⟨v, value, taken⟩ | ⟨value, same, sameHeap, none⟩
  · have sorted := taken.sorted valid.sorted
    have owns : heap'.Owns r.node.leaves r.node.inodes := removed.follows.owns valid.owns
    have cardinality : heap'.cardinality - 1 = r.node.elements.length := by
      have before : heap.cardinality = n.elements.length := valid.cardinality
      rw [removed.cardinality, before, taken.length_eq]
      push_cast
      ring
    rw [if_pos (by rw [value]; rfl)]
    by_cases single : r.node.size = 1 ∧ level > 0
    · rw [if_pos single]
      cases level with
      | zero => exact absurd single.2 (lt_irrefl 0)
      | succ level =>
          rcases shorten_valid { heap' with cardinality := heap'.cardinality - 1 }
            removed.good single.1 cardinality with ⟨c, short, good, size, same, follows, count⟩
          rw [short]
          refine ⟨⟨good, size, ?_, ?_, count⟩, Or.inl ⟨v, value, ?_⟩⟩
          · change SortedPairs c.elements
            rw [same]
            exact sorted
          · exact follows.owns ⟨owns.chain, owns.fresh, owns.numLeaves, owns.numInodes⟩
          · change Base.Removed key v n.elements c.elements
            rw [same]
            exact taken
    · rw [if_neg single]
      refine ⟨⟨removed.good, ?_, sorted,
        ⟨owns.chain, owns.fresh, owns.numLeaves, owns.numInodes⟩, cardinality⟩,
        Or.inl ⟨v, value, taken⟩⟩
      have sizeLe := removed.size_le
      have leSize := removed.le_size
      have size := valid.size
      cases level with
      | zero => exact sizeLe.trans size
      | succ level =>
          have bounds : 2 ≤ n.size ∧ n.size ≤ b.inodeB := size
          have other : r.node.size ≠ 1 := fun h => single ⟨h, Nat.succ_pos level⟩
          exact ⟨show 2 ≤ r.node.size by omega, sizeLe.trans bounds.2⟩
  · rw [value, same, sameHeap]
    exact ⟨valid, Or.inr ⟨none, rfl⟩⟩

end Remove

/-! ## Clear -/

omit [LinearOrder K] [Inhabited K] [Inhabited V] in
/-- `delete_node` gives every node of the subtree back, once. -/
theorem deleteNode_eq {level : Nat} (n : Node K V level) (heap : Heap) :
    deleteNode n heap = { heap with
      numInodes := heap.numInodes - n.inodes
      numLeaves := heap.numLeaves - n.leaves.length } := by
  induction level generalizing heap with
  | zero => simp [deleteNode, Node.inodes, Node.leaves]
  | succ level ih =>
      cases n using Node.inner_cases with
      | inner keys children =>
          have folded : children.foldl (fun heap child => deleteNode child heap) heap =
              { heap with
                numInodes := heap.numInodes - (children.map inodes).sum
                numLeaves := heap.numLeaves - (children.flatMap leaves).length } := by
            induction children generalizing heap with
            | nil => simp
            | cons c children more =>
                rw [List.foldl_cons, more, ih]
                simp only [List.map_cons, List.sum_cons, List.flatMap_cons, List.length_append]
                push_cast
                congr 1 <;> ring
          simp only [deleteNode, folded, inodes_inner, leaves_inner]
          push_cast
          congr 1
          ring

theorem clear_valid {t : DynamicIndex K V} (valid : Valid t) : Valid t.clear := by
  have owns := valid.owns
  apply single_valid
  · rw [deleteNode_eq]
    exact sub_eq_zero.mpr owns.numInodes
  · rw [deleteNode_eq]
    exact sub_eq_zero.mpr owns.numLeaves

/-! ## Runs -/

/-- The operations that change the index. -/
inductive Op (K V : Type) where
  | insert (key : K) (value : V)
  | removeAny (key : K)
  | clear

/-- The index after an operation. -/
def perform (t : DynamicIndex K V) : Op K V → DynamicIndex K V
  | .insert key value => t.insert key value
  | .removeAny key => (t.removeAny key).1
  | .clear => t.clear

/-- The index after a sequence of operations, from the empty one. -/
def run (b : Bounds) (ops : List (Op K V)) : DynamicIndex K V := ops.foldl perform (empty b)

/-- The pairs stored in the index. -/
def contents (t : DynamicIndex K V) : Multiset (K × V) := t.root.elements

/-- What an operation does to a sorted multimap: `insert` adds a pair, `remove_any` takes
out one pair with the key and returns its value, or changes nothing when there is none. -/
def MultimapStep (t : DynamicIndex K V) : Op K V → Prop
  | .insert key value => (t.insert key value).contents = (key, value) ::ₘ t.contents
  | .removeAny key =>
    (∃ v, (t.removeAny key).2 = some v ∧ t.contents = (key, v) ::ₘ (t.removeAny key).1.contents) ∨
      (∀ v, (key, v) ∉ t.contents) ∧ t.removeAny key = (t, none)
  | .clear => t.clear.contents = 0

/-- Every operation on a valid index. -/
theorem perform_valid {t : DynamicIndex K V} (valid : Valid t) (op : Op K V) :
    Valid (t.perform op) ∧ MultimapStep t op := by
  cases op with
  | insert key value =>
      rcases insert_valid valid key value with ⟨after, inserted⟩
      exact ⟨after, Multiset.coe_eq_coe.mpr inserted.perm⟩
  | removeAny key =>
      rcases removeAny_valid valid key with ⟨after, ⟨v, value, removed⟩ | ⟨none, same⟩⟩
      · exact ⟨after, Or.inl ⟨v, value, Multiset.coe_eq_coe.mpr removed.perm⟩⟩
      · exact ⟨after, Or.inr ⟨fun v member => none (key, v) member rfl, same⟩⟩
  | clear => exact ⟨clear_valid valid, rfl⟩

omit [LinearOrder K] in
theorem splitRoot_bounds (t : DynamicIndex K V) (full : Prop) [Decidable full] :
    (if full then t.splitRoot else t).bounds = t.bounds := by
  split <;> rfl

/-- The bounds are those of the template. -/
theorem perform_bounds (t : DynamicIndex K V) (op : Op K V) : (t.perform op).bounds = t.bounds := by
  cases op with
  | insert key value =>
      rw [perform, insert_eq rfl rfl, splitRoot_bounds]
      exact splitRoot_bounds t _
  | removeAny key =>
      rcases t with ⟨b, level, n, heap⟩
      rcases result : removeNode b n key false true heap with ⟨r, heap'⟩
      rw [perform, removeAny_eq result]
      split_ifs with _ single
      · cases level with
        | zero => exact absurd single.2 (lt_irrefl 0)
        | succ level =>
            cases node : r.node using Node.inner_cases
            rfl
      · rfl
      · rfl
  | clear => rfl

/-- What is promised of an index. The leaves are all at the depth of the index by the
type of the nodes. -/
structure MultimapState (t : DynamicIndex K V) : Prop where
  /-- Every node but the root is within its bounds, and every key of an inner node is the
  minimum of the child on its right. -/
  nodes : Good t.bounds.limits t.root
  sorted : SortedPairs t.root.elements
  /-- Reading the leaves along `next` lists the pairs in order, and ends there. -/
  chain : ∀ count ≥ t.root.leaves.length, readChain t.root t.heap.links count = t.root.elements
  previous : ∀ a ∈ t.root.leaves, ∀ b ∈ t.root.leaves,
    t.heap.links.next a = some b ↔ t.heap.links.previous b = some a
  /-- `find_any` returns the value of a pair with the key, or there is none. -/
  found : ∀ key v, t.findAny key = some v → (key, v) ∈ t.contents
  absent : ∀ key, t.findAny key = none → ∀ v, (key, v) ∉ t.contents
  size : t.sizeOf = Multiset.card t.contents
  /-- The counters are those of the nodes below the root. -/
  numLeaves : t.heap.numLeaves = t.root.leaves.length
  numInodes : t.heap.numInodes = t.root.inodes
  /-- The next operation changes the contents as a multimap does. -/
  operation : ∀ op, MultimapStep t op

theorem Valid.state {t : DynamicIndex K V} (valid : Valid t) : MultimapState t := by
  have nonempty : 0 < t.levels → 0 < t.root.size := by
    intro above
    have size := valid.size
    rw [RootSize, if_neg (Nat.ne_of_gt above)] at size
    exact Nat.lt_of_lt_of_le Nat.two_pos size.1
  have find := findNode_spec valid.good valid.sorted nonempty
  have owns := valid.owns
  exact ⟨valid.good, valid.sorted, fun count enough => readChain_eq owns.chain enough,
    fun a memA b memB => owns.chain.previous_iff memA memB, fun key => (find key).1,
    fun key miss v member => (find key).2 miss _ member rfl, valid.cardinality, owns.numLeaves,
    owns.numInodes, fun op => (perform_valid valid op).2⟩

/-- After every sequence of operations the index is a sorted multimap. -/
theorem dynamicIndex_run_multimap (b : Bounds) (ops : List (Op K V)) :
    (run b ops).bounds = b ∧ MultimapState (run b ops) := by
  have both : (run b ops).bounds = b ∧ Valid (run b ops) := by
    refine List.foldlRecOn (motive := fun t => t.bounds = b ∧ Valid t) ops perform
      ⟨rfl, empty_valid b⟩ ?_
    intro t invariant op _
    exact ⟨(perform_bounds t op).trans invariant.1, (perform_valid invariant.2 op).1⟩
  exact ⟨both.1, both.2.state⟩

/-- Duplicates to three levels of nodes, and a removal of each of them. -/
example : (run ⟨4, 4, le_rfl, le_rfl⟩ ((List.range 20).map (fun i => Op.insert (i % 3) i) ++
    (List.range 7).map fun _ => Op.removeAny 1)).root.elements.map Prod.fst =
      [0, 0, 0, 0, 0, 0, 0, 2, 2, 2, 2, 2, 2] := by
  decide +kernel

end DynamicIndex

end Rma
