import Rma.DynamicIndex.Basic

/-!
# Insertion in the dynamic index

A split divides a node in two; `splitChild_spec` says what the halves are and
`split_eq` what the parent becomes. `insertNode_spec` is the induction over the
levels: the node stays good, it grows by at most one child, and its elements are
the old ones with the new pair at a sorted position.
-/

namespace Rma.DynamicIndex

open Base SearchTree Node

/-- The limits of the nodes that are not the root. -/
def Bounds.limits (b : Bounds) : Limits where
  lower := b.lowerbound
  upper := b.upperbound
  positive := by
    intro level
    have first := b.leaf_b
    have second := b.inode_b
    unfold Bounds.lowerbound
    split <;> omega

namespace Bounds

variable (b : Bounds) (level : Nat)

@[simp] theorem lower_zero : b.limits.lower 0 = b.leafB / 2 := rfl

@[simp] theorem upper_zero : b.limits.upper 0 = b.leafB := rfl

@[simp] theorem lower_succ : b.limits.lower (level + 1) = b.inodeB / 2 := rfl

@[simp] theorem upper_succ : b.limits.upper (level + 1) = b.inodeB := rfl

theorem two_le_lower : 2 ≤ b.limits.lower level := by
  have first := b.leaf_b
  have second := b.inode_b
  cases level with
  | zero =>
      rw [lower_zero]
      omega
  | succ level =>
      rw [lower_succ]
      omega

/-- Two nodes at the lower bound fit in one. -/
theorem two_mul_lower_le : 2 * b.limits.lower level ≤ b.limits.upper level := by
  cases level with
  | zero => exact Nat.mul_div_le b.leafB 2
  | succ level => exact Nat.mul_div_le b.inodeB 2

end Bounds

/-! ## The nodes of the heap -/

section Heap

variable {K V : Type} {level : Nat} {heap : Heap}

/-- The next free address is not one of a leaf. -/
theorem fresh_notMem {leaves : List Nat} {inodes : Nat} (owns : heap.Owns leaves inodes) :
    heap.fresh ∉ leaves :=
  fun member => absurd (owns.fresh heap.fresh member) (lt_irrefl _)

/-- A leaf whose right part moves to a new leaf. -/
theorem follows_splitLeaf (l : Leaf K V) (left right : List (K × V)) :
    Follows heap
      { createLeaf heap with
        links := (createLeaf heap).links.insertAfter l.address heap.fresh }
      [Node.leaf l] [Node.leaf ⟨l.address, left⟩, Node.leaf ⟨heap.fresh, right⟩] := by
  intro pre post m owns
  change heap.Owns (pre ++ [l.address] ++ post) (0 + m) at owns
  change Heap.Owns _ (pre ++ [l.address, heap.fresh] ++ post) (0 + m)
  have absent := fresh_notMem owns
  have other : ∀ a ∈ pre ++ [l.address] ++ post, a ≠ heap.fresh :=
    fun a member same => absent (same ▸ member)
  have chain : (createLeaf heap).links.Chain (pre ++ l.address :: post) := by
    refine ⟨by simpa using owns.chain.nodup, ?_⟩
    apply Links.Segment.congr (by simpa using owns.chain.linked)
    · exact fun a member => Function.update_of_ne (other a (by simpa using member)) _ _
    · exact fun a member => Function.update_of_ne (other a (by simpa using member)) _ _
  refine ⟨by simpa using chain.insertAfter (by simpa using absent), ?_, ?_, owns.numInodes⟩
  · intro a member
    have old : a = heap.fresh ∨ a ∈ pre ++ [l.address] ++ post := by
      simp only [List.mem_append, List.mem_cons] at member ⊢
      tauto
    rcases old with rfl | old
    · exact Nat.lt_succ_self _
    · exact Nat.lt_succ_of_lt (owns.fresh a old)
  · change heap.numLeaves + 1 = _
    rw [owns.numLeaves]
    simp only [List.length_append, List.length_cons, List.length_nil]
    push_cast
    ring

/-- Two leaves that become one. -/
theorem follows_mergeLeaf (l1 l2 : Leaf K V) (elements : List (K × V)) :
    Follows heap
      (deleteNode (.leaf { l2 with elements := [] } : Node K V 0)
        { heap with links := heap.links.removeAfter l1.address l2.address })
      [Node.leaf l1, Node.leaf l2] [Node.leaf ⟨l1.address, elements⟩] := by
  intro pre post m owns
  change heap.Owns (pre ++ [l1.address, l2.address] ++ post) (0 + m) at owns
  change Heap.Owns _ (pre ++ [l1.address] ++ post) (0 + m)
  have chain : (heap.links.removeAfter l1.address l2.address).Chain (pre ++ l1.address :: post) :=
    Links.Chain.removeAfter (by simpa using owns.chain)
  refine ⟨?_, ?_, ?_, owns.numInodes⟩
  · rw [List.append_assoc]
    exact chain
  · intro a member
    apply owns.fresh a
    simp only [List.mem_append, List.mem_cons] at member ⊢
    tauto
  · change heap.numLeaves - 1 = _
    rw [owns.numLeaves]
    simp only [List.length_append, List.length_cons, List.length_nil]
    push_cast
    ring

/-- The children of an inner node that are shared out between it and a new one. -/
theorem follows_createInode {keys keys1 keys2 : List K} {children children1 children2 :
    List (Node K V level)} (split : children1 ++ children2 = children) :
    Follows heap (createInode heap) [Node.inner keys children]
      [Node.inner keys1 children1, Node.inner keys2 children2] := by
  subst split
  intro pre post m owns
  simp only [List.flatMap_cons, List.flatMap_nil, leaves_inner, List.flatMap_append, List.map_cons,
    List.map_nil, inodes_inner, List.map_append, List.sum_append, List.sum_cons, List.sum_nil,
    List.append_nil] at owns ⊢
  refine ⟨owns.chain, owns.fresh, owns.numLeaves, ?_⟩
  change heap.numInodes + 1 = _
  rw [owns.numInodes]
  push_cast
  ring

/-- Two inner nodes that become one. -/
theorem follows_deleteInode {keys keys1 keys2 : List K} {children1 children2 :
    List (Node K V level)} :
    Follows heap (deleteNode (.inner [] [] : Node K V (level + 1)) heap)
      [Node.inner keys1 children1, Node.inner keys2 children2]
      [Node.inner keys (children1 ++ children2)] := by
  intro pre post m owns
  simp only [List.flatMap_cons, List.flatMap_nil, leaves_inner, List.flatMap_append, List.map_cons,
    List.map_nil, inodes_inner, List.map_append, List.sum_append, List.sum_cons, List.sum_nil,
    List.append_nil] at owns ⊢
  refine ⟨owns.chain, owns.fresh, owns.numLeaves, ?_⟩
  change heap.numInodes - 1 = _
  rw [owns.numInodes]
  push_cast
  ring

end Heap

variable {K V : Type} [LinearOrder K] [Inhabited K] [Inhabited V] {b : Bounds} {level : Nat}

/-! ## Split -/

section Split

/-- The number of entries that stay in the left half of a split. -/
def leftHalf (level n : Nat) : Nat := if level = 0 then (n + 1) / 2 else n / 2 + 1

/-- The two halves of a node that is divided. -/
structure Halves (b : Bounds) {level : Nat} (n n1 : Node K V level) (pivot : K)
    (n2 : Node K V level) (heap heap' : Heap) : Prop where
  good1 : Good b.limits n1
  good2 : Good b.limits n2
  elements : n1.elements ++ n2.elements = n.elements
  size1 : n1.size = leftHalf level n.size
  size2 : n2.size = n.size - leftHalf level n.size
  pivot_eq : pivot = n2.minKey
  follows : Follows heap heap' [n] [n1, n2]
  cardinality : heap'.cardinality = heap.cardinality

variable {n n1 n2 : Node K V level} {pivot : K} {heap heap' : Heap}

omit [LinearOrder K] in
theorem splitChild_spec (good : Good b.limits n) (size : 3 ≤ n.size)
    (result : splitChild n heap = ((n1, pivot, n2), heap')) :
    Halves b n n1 pivot n2 heap heap' := by
  cases level with
  | zero =>
      cases result
      refine ⟨trivial, trivial, List.take_append_drop _ _, ?_, List.length_drop, rfl,
        follows_splitLeaf n _ _, rfl⟩
      change (List.take ((n.size + 1) / 2) n.elements).length = (n.size + 1) / 2
      exact List.length_take_of_le (by change _ ≤ n.size; omega)
  | succ level =>
      cases n using Node.inner_cases with
      | inner keys children =>
          cases result
          rw [size_inner] at size
          rcases good.divide (i := children.length / 2 + 1) (Nat.succ_pos _) (by omega) with
            ⟨good1, good2, pivot_eq⟩
          rw [Nat.add_sub_cancel] at good1 pivot_eq
          refine ⟨good1, good2, ?_, ?_, ?_, pivot_eq,
            follows_createInode (List.take_append_drop _ _), rfl⟩
          · rw [elements_inner, elements_inner, ← List.flatMap_append, List.take_append_drop]
            rfl
          · rw [size_inner, size_inner, leftHalf, if_neg (Nat.succ_ne_zero _)]
            exact List.length_take_of_le (by omega)
          · rw [size_inner, size_inner, leftHalf, if_neg (Nat.succ_ne_zero _)]
            exact List.length_drop

omit [LinearOrder K] in
/-- Splitting a child replaces it by its halves. -/
theorem split_eq {pre post : List (Node K V level)} (same : n1.minKey = n.minKey)
    (pivot_eq : pivot = n2.minKey) (result : splitChild n heap = ((n1, pivot, n2), heap')) :
    split (separators minKey (pre ++ n :: post)) (pre ++ n :: post) pre.length heap =
      ((separators minKey (pre ++ n1 :: n2 :: post), pre ++ n1 :: n2 :: post), heap') := by
  subst pivot_eq
  simp only [split, getD_focus, result, set_focus, insertIdx_focus_succ,
    separators_insertIdx (Or.inr same.symm)]

omit [LinearOrder K] in
/-- The left half keeps the minimum. -/
theorem Halves.minKey_eq (halves : Halves b n n1 pivot n2 heap heap') (size : 2 ≤ n.size) :
    n1.minKey = n.minKey := by
  have nonempty : n1.elements ≠ [] := by
    apply elements_ne_nil halves.good1
    rw [halves.size1, leftHalf]
    split <;> omega
  exact (minKey_congr nonempty halves.elements.symm).symm

end Split

/-! ## Insertion in a leaf -/

section Insert

variable {key : K} {value : V} {heap heap' : Heap}

/-- A leaf receives the pair at a sorted position. -/
theorem insertLeaf_spec (l : Leaf K V) (key : K) (value : V) (sorted : SortedPairs l.elements) :
    Inserted (key, value) l.elements (insertLeaf l key value).elements := by
  rcases scanDown_spec (fun j => decide (key < keyAt l.elements j)) l.elements.length with
    ⟨upper, passed, stopped⟩
  unfold insertLeaf
  simp only
  generalize scanDown (fun j => decide (key < keyAt l.elements j)) l.elements.length = i at *
  refine ⟨l.elements.take i, l.elements.drop i, (List.take_append_drop _ _).symm, ?_, ?_, ?_⟩
  · have context := insertIdx_focus (l.elements.take i) (l.elements.drop i) (key, value)
    rwa [List.take_append_drop, List.length_take, min_eq_left upper] at context
  · intro x member
    rcases List.mem_take_iff_getElem.mp member with ⟨j, inside, rfl⟩
    have last : keyAt l.elements (i - 1) ≤ key := by
      simpa using stopped (by omega)
    have le := keyAt_le sorted (show j ≤ i - 1 by omega) (by omega)
    rw [keyAt_eq (by omega)] at le
    exact le.trans last
  · intro x member
    rcases List.mem_drop_iff_getElem.mp member with ⟨j, inside, rfl⟩
    have inside : i + j < l.elements.length := by omega
    have above := of_decide_eq_true (passed (i + j) (by omega) inside)
    rw [keyAt_eq inside] at above
    exact above.le

/-! ## The induction over the levels -/

/-- What an insertion in a node leaves. -/
structure InsertedNode (b : Bounds) {level : Nat} (n : Node K V level) (key : K) (value : V)
    (n' : Node K V level) (heap heap' : Heap) : Prop where
  good : Good b.limits n'
  inserted : Inserted (key, value) n.elements n'.elements
  size_le : n'.size ≤ n.size + 1
  le_size : n.size ≤ n'.size
  leaf_size : level = 0 → n'.size = n.size + 1
  follows : Follows heap heap' [n] [n']
  cardinality : heap'.cardinality = heap.cardinality + 1

theorem InsertedNode.leaf (b : Bounds) (key : K) (value : V) (heap : Heap) (n : Node K V 0)
    (sorted : SortedPairs n.elements) :
    InsertedNode b n key value (insertNode b n key value heap).1 heap
      (insertNode b n key value heap).2 := by
  have inserted := insertLeaf_spec n key value sorted
  have length := inserted.length_eq
  refine ⟨trivial, inserted, length.le, (Nat.le_succ _).trans length.ge, fun _ => length, ?_, rfl⟩
  exact (Follows.same rfl rfl).cardinality _

/-- A pair inserted after the minimum of a node leaves the minimum as it is. -/
theorem minKey_inserted {c c' : Node K V level} (nonempty : c.elements ≠ [])
    (inserted : Inserted (key, value) c.elements c'.elements) (greater : c.minKey < key) :
    c'.minKey = c.minKey := by
  rcases exists_minKey nonempty with ⟨e, l, elements, min⟩
  rw [min] at greater
  rw [elements] at inserted
  rcases inserted.head greater with ⟨l', head⟩
  rw [min, minKey_eq head]

/-- The separators when a child receives a pair after its minimum. -/
theorem minKey_descent {pre post : List (Node K V level)} {c c' : Node K V level}
    (nonempty : c.elements ≠ []) (inserted : Inserted (key, value) c.elements c'.elements)
    (descent : Descent (· < key) pre c post) : pre = [] ∨ c.minKey = c'.minKey := by
  rcases List.eq_nil_or_concat pre with rfl | ⟨_, _, rfl⟩
  · exact Or.inl rfl
  · exact Or.inr (minKey_inserted nonempty inserted (descent.before (by simp))).symm

/-- Replacing the elements of a child by those with the pair inserted. -/
theorem inserted_children {pre post : List (Node K V level)} {c : Node K V level}
    {l : List (K × V)} (descent : Descent (· < key) pre c post)
    (inserted : Inserted (key, value) c.elements l) :
    Inserted (key, value) ((pre ++ c :: post).flatMap elements)
      (pre.flatMap elements ++ l ++ post.flatMap elements) := by
  simpa using inserted.context _ _ descent.apart.1 descent.apart.2

/-- The insertion in one of the two halves of a full leaf. -/
theorem insert_halves {c n1 n2 : Node K V 0} {pivot : K} {heap1 : Heap}
    (halves : Halves b c n1 pivot n2 heap heap1) (full : c.size = b.leafB)
    (sorted : SortedPairs c.elements) (key : K) (value : V) :
    ∃ m1 m2, ((m1, m2) = (n1, (insertNode b n2 key value heap1).1) ∧ pivot < key ∨
        (m1, m2) = ((insertNode b n1 key value heap1).1, n2) ∧ key ≤ pivot) ∧
      Fits b.limits m1 ∧ Fits b.limits m2 ∧ m2.minKey = pivot ∧
      Inserted (key, value) c.elements (m1.elements ++ m2.elements) ∧
      Follows heap { heap1 with cardinality := heap1.cardinality + 1 } [c] [m1, m2] := by
  have leafB := b.leaf_b
  have size1 := halves.size1
  have size2 := halves.size2
  simp only [leftHalf, if_true, full] at size1 size2
  rw [← halves.elements, SortedPairs.append_iff] at sorted
  rcases sorted with ⟨sorted1, sorted2, apart⟩
  have nonempty2 := elements_ne_nil halves.good2 (by omega)
  rcases exists_minKey nonempty2 with ⟨e, l, eq, min⟩
  have fits1 : Fits b.limits n1 := ⟨halves.good1, by simp; omega, by simp; omega⟩
  have fits2 : Fits b.limits n2 := ⟨halves.good2, by simp; omega, by simp; omega⟩
  by_cases right : pivot < key
  · -- the new pair goes to the right half
    have inserted := InsertedNode.leaf b key value heap1 n2 sorted2
    have size := inserted.leaf_size rfl
    refine ⟨_, _, Or.inl ⟨rfl, right⟩, fits1, ⟨inserted.good, ?_, ?_⟩, ?_, ?_, ?_⟩
    · rw [size]
      exact fits2.2.1.trans (Nat.le_succ _)
    · rw [size, Bounds.upper_zero]
      omega
    · rw [halves.pivot_eq] at right ⊢
      exact minKey_inserted nonempty2 inserted.inserted right
    · rw [← halves.elements]
      have context := inserted.inserted.context n1.elements [] ?_ (fun x member => nomatch member)
      · simpa using context
      · intro x member
        have le := apart x member e (by simp [eq])
        rw [← min, ← halves.pivot_eq] at le
        exact le.trans right.le
    · exact halves.follows.trans (inserted.follows.context [n1] [])
  · -- the new pair goes to the left half
    have inserted := InsertedNode.leaf b key value heap1 n1 sorted1
    have size := inserted.leaf_size rfl
    refine ⟨_, _, Or.inr ⟨rfl, not_lt.mp right⟩, ⟨inserted.good, ?_, ?_⟩, fits2,
      halves.pivot_eq.symm, ?_, ?_⟩
    · rw [size]
      exact fits1.2.1.trans (Nat.le_succ _)
    · rw [size, Bounds.upper_zero]
      omega
    · rw [← halves.elements]
      have context := inserted.inserted.context [] n2.elements (fun x member => nomatch member) ?_
      · simpa using context
      · intro x member
        rw [eq] at sorted2 member
        have le := sorted2.head_le x member
        rw [← min, ← halves.pivot_eq] at le
        exact (not_lt.mp right).trans le
    · exact halves.follows.trans (inserted.follows.context [] [n2])

/-- A child that is replaced by two nodes with the pair inserted. -/
theorem InsertedNode.split {pre post : List (Node K V level)} {c m1 m2 : Node K V level}
    {keys : List K} (fits : ∀ d ∈ pre ++ c :: post, Fits b.limits d)
    (descent : Descent (· < key) pre c post) (fits1 : Fits b.limits m1) (fits2 : Fits b.limits m2)
    (inserted : Inserted (key, value) c.elements (m1.elements ++ m2.elements))
    (follows : Follows heap heap' [c] [m1, m2])
    (cardinality : heap'.cardinality = heap.cardinality + 1) :
    InsertedNode b (.inner keys (pre ++ c :: post)) key value
      (.inner (separators minKey (pre ++ m1 :: m2 :: post)) (pre ++ m1 :: m2 :: post)) heap
      heap' := by
  refine ⟨⟨rfl, ?_⟩, ?_, ?_, ?_, fun h => absurd h (Nat.succ_ne_zero level), ?_, cardinality⟩
  · intro d member
    simp only [List.mem_append, List.mem_cons] at member
    rcases member with member | rfl | rfl | member
    · exact fits d (by simp [member])
    · exact fits1
    · exact fits2
    · exact fits d (by simp [member])
  · simpa [elements_inner] using inserted_children descent inserted
  · simp only [size_inner, List.length_append, List.length_cons]
    omega
  · simp [size_inner]
  · simpa using (follows.context pre post).inner keys (separators minKey (pre ++ m1 :: m2 :: post))

/-- A child that is replaced by one with the pair inserted. -/
theorem InsertedNode.child {pre post : List (Node K V level)} {c c' : Node K V level}
    (fits : ∀ d ∈ pre ++ c :: post, Fits b.limits d) (descent : Descent (· < key) pre c post)
    (inserted : InsertedNode b c key value c' heap heap') (room : c'.size ≤ b.limits.upper level) :
    InsertedNode b (.inner (separators minKey (pre ++ c :: post)) (pre ++ c :: post)) key value
      (.inner (separators minKey (pre ++ c :: post)) (pre ++ c' :: post)) heap heap' := by
  have fitsC : Fits b.limits c := fits c (by simp)
  refine ⟨⟨?_, ?_⟩, ?_, ?_, ?_, fun h => absurd h (Nat.succ_ne_zero level), ?_,
    inserted.cardinality⟩
  · rw [separators_focus minKey pre c, separators_focus minKey pre c',
      separators_congr (minKey_descent fitsC.elements_ne_nil inserted.inserted descent)]
  · intro d member
    simp only [List.mem_append, List.mem_cons] at member
    rcases member with member | rfl | member
    · exact fits d (by simp [member])
    · exact ⟨inserted.good, fitsC.2.1.trans inserted.le_size, room⟩
    · exact fits d (by simp [member])
  · simpa [elements_inner] using inserted_children descent inserted.inserted
  · simp [size_inner]
  · simp [size_inner]
  · simpa using (inserted.follows.context pre post).inner _
      (separators minKey (pre ++ c :: post))

/-- The insertion in a full leaf, which is divided first. -/
theorem insert_fullLeaf {pre post : List (Node K V 0)} {c : Node K V 0}
    (fits : ∀ d ∈ pre ++ c :: post, Fits b.limits d) (descent : Descent (· < key) pre c post)
    (full : c.size = b.leafB) :
    InsertedNode b (.inner (separators minKey (pre ++ c :: post)) (pre ++ c :: post)) key value
      (insertNode b (.inner (separators minKey (pre ++ c :: post)) (pre ++ c :: post)) key value
        heap).1 heap
      (insertNode b (.inner (separators minKey (pre ++ c :: post)) (pre ++ c :: post)) key value
        heap).2 := by
  have fitsC : Fits b.limits c := fits c (by simp)
  have leafB := b.leaf_b
  have index : childIndex (separators minKey (pre ++ c :: post)) (pre ++ c :: post).length key =
      pre.length := descent.index
  rcases result : splitChild c heap with ⟨⟨n1, pivot, n2⟩, heap1⟩
  have halves := splitChild_spec fitsC.1 (by omega) result
  have min1 := halves.minKey_eq (by omega)
  rcases insert_halves halves full descent.sorted key value with
    ⟨m1, m2, which, fits1, fits2, min2, inserted, follows⟩
  have pivotKey := halves.pivot_eq
  have divided : insertNode b (.inner (separators minKey (pre ++ c :: post)) (pre ++ c :: post))
      key value heap = (let i := if key > pivot then pre.length + 1 else pre.length
        let (child, heap2) := insertNode b ((pre ++ n1 :: n2 :: post).getD i default) key value heap1
        (.inner (separators minKey (pre ++ n1 :: n2 :: post))
          ((pre ++ n1 :: n2 :: post).set i child), heap2)) := by
    simp only [insertNode, index, getD_focus, full, and_self, if_true,
      split_eq min1 pivotKey result]
    rw [separators_getD, pivotKey]
  have branch : insertNode b (.inner (separators minKey (pre ++ c :: post)) (pre ++ c :: post)) key
      value heap = (.inner (separators minKey (pre ++ m1 :: m2 :: post)) (pre ++ m1 :: m2 :: post),
        { heap1 with cardinality := heap1.cardinality + 1 }) := by
    rw [divided]
    rcases which with ⟨same, right⟩ | ⟨same, left⟩
    · cases same
      simp only [gt_iff_lt, right, if_true, getD_focus_succ, set_focus_succ]
      rw [separators_focus_right (min2.trans pivotKey)]
      rfl
    · cases same
      simp only [gt_iff_lt, not_lt.mpr left, if_false, getD_focus, set_focus]
      have nonempty1 := elements_ne_nil halves.good1 (by
        rw [halves.size1, leftHalf, if_pos rfl]
        omega)
      have sorted1 : SortedPairs n1.elements := by
        have sorted := descent.sorted
        rw [← halves.elements, SortedPairs.append_iff] at sorted
        exact sorted.1
      have same1 : pre = [] ∨ n1.minKey = (insertNode b n1 key value heap1).1.minKey := by
        rcases List.eq_nil_or_concat pre with rfl | ⟨_, _, rfl⟩
        · exact Or.inl rfl
        · right
          apply (minKey_inserted nonempty1 (InsertedNode.leaf b key value heap1 n1
            sorted1).inserted _).symm
          rw [min1]
          exact descent.before (by simp)
      rw [separators_focus minKey pre n1, separators_congr same1, ← separators_focus]
      rfl
  rw [branch]
  exact InsertedNode.split fits descent fits1 fits2 inserted follows
    (congrArg (· + 1) halves.cardinality)

/-- Insertion in a good node. -/
theorem insertNode_spec {level : Nat} {n : Node K V level} {heap : Heap} (good : Good b.limits n)
    (sorted : SortedPairs n.elements) (nonempty : 0 < level → 0 < n.size) :
    InsertedNode b n key value (insertNode b n key value heap).1 heap
      (insertNode b n key value heap).2 := by
  induction level generalizing heap with
  | zero => exact InsertedNode.leaf b key value heap n sorted
  | succ level ih =>
      cases n using Node.inner_cases with
      | inner keys children =>
          rcases good_inner.mp good with ⟨rfl, fits⟩
          have childrenNe : children ≠ [] :=
            List.ne_nil_of_length_pos (nonempty (Nat.succ_pos level))
          rcases exists_descent (· < key) fits childrenNe sorted with ⟨pre, c, post, rfl, descent⟩
          have fitsC : Fits b.limits c := fits c (by simp)
          have index : childIndex (separators minKey (pre ++ c :: post))
              (pre ++ c :: post).length key = pre.length := descent.index
          by_cases fullLeaf : level = 0 ∧ c.size = b.leafB
          · rcases fullLeaf with ⟨rfl, full⟩
            exact insert_fullLeaf fits descent full
          · have inserted : InsertedNode b c key value (insertNode b c key value heap).1 heap
                (insertNode b c key value heap).2 := ih fitsC.1 descent.sorted
              fun _ => (b.limits.positive level).trans_le fitsC.2.1
            rcases result : insertNode b c key value heap with ⟨c', heap1⟩
            rw [result] at inserted
            simp only at inserted
            simp only [insertNode, index, getD_focus, fullLeaf, if_false, result, set_focus]
            have sizeLe := inserted.size_le
            have upper := fitsC.2.2
            by_cases overflow : level ≠ 0 ∧ c.size = b.inodeB ∧ c'.size > b.inodeB
            · -- a full inner child has grown, and is divided
              rw [if_pos overflow]
              rcases overflow with ⟨above, full, exceeds⟩
              obtain ⟨level, rfl⟩ := Nat.exists_eq_succ_of_ne_zero above
              have inodeB := b.inode_b
              have size : c'.size = b.inodeB + 1 := by omega
              rcases divided : splitChild c' heap1 with ⟨⟨n1, pivot, n2⟩, heap2⟩
              have halves := splitChild_spec inserted.good (by omega) divided
              have size1 := halves.size1
              have size2 := halves.size2
              simp only [leftHalf, Nat.succ_ne_zero, if_false, size] at size1 size2
              rw [separators_focus minKey pre c,
                separators_congr (minKey_descent fitsC.elements_ne_nil inserted.inserted descent),
                ← separators_focus, split_eq (halves.minKey_eq (by omega)) halves.pivot_eq divided]
              refine InsertedNode.split fits descent ⟨halves.good1, ?_, ?_⟩
                ⟨halves.good2, ?_, ?_⟩ ?_ (inserted.follows.trans halves.follows) ?_
              · rw [Bounds.lower_succ]
                omega
              · rw [Bounds.upper_succ]
                omega
              · rw [Bounds.lower_succ]
                omega
              · rw [Bounds.upper_succ]
                omega
              · rw [halves.elements]
                exact inserted.inserted
              · rw [halves.cardinality, inserted.cardinality]
            · rw [if_neg overflow]
              apply InsertedNode.child fits descent inserted
              cases level with
              | zero =>
                  rw [Bounds.upper_zero] at upper ⊢
                  have notFull : c.size ≠ b.leafB := fun full => fullLeaf ⟨rfl, full⟩
                  omega
              | succ level =>
                  rw [Bounds.upper_succ] at upper ⊢
                  by_contra exceeds
                  exact overflow ⟨Nat.succ_ne_zero level, by omega, by omega⟩

end Insert

end Rma.DynamicIndex
