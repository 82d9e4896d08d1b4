import Rma.ABTree.Shape

/-!
# Insertion in an (a,b)-tree

A split divides a node in two; `splitChild_spec` says what the halves are and
`split_eq` what the parent becomes. `insertNode_spec` is the induction over the
levels: the node stays good, it grows by at most one child, and its elements are
the old ones with the new pair at a sorted position.

A leaf of `2a - 1` elements does not divide into two leaves of `a`: the right half
gets one less, and has enough elements only when the new one goes there. An inner
node of `2a` children always leaves `a - 1` of them to the right half. The
condition `InsertAdmissible` excludes these splits.
-/

namespace Rma.ABTree

open Base Node

section Split

variable {b : Bounds} {level : Nat}

/-- The number of entries that stay in the left half of a split. -/
def leftHalf (level n : Nat) : Nat := if level = 0 then (n + 1) / 2 else n / 2 + 1

/-- The two halves of a node that is divided. -/
structure Halves (b : Bounds) {level : Nat} (n n1 : Node level) (pivot : Int) (n2 : Node level)
    (heap heap' : Heap) : Prop where
  good1 : Good b n1
  good2 : Good b n2
  elements : n1.elements ++ n2.elements = n.elements
  size1 : n1.size = leftHalf level n.size
  size2 : n2.size = n.size - leftHalf level n.size
  pivot_eq : pivot = n2.minKey
  linked : ∀ pre post, heap.Linked (pre ++ n.leaves ++ post) →
    heap'.Linked (pre ++ (n1.leaves ++ n2.leaves) ++ post)
  cardinality : heap'.cardinality = heap.cardinality

theorem splitChild_spec {n n1 n2 : Node level} {pivot : Int} {heap heap' : Heap}
    (good : Good b n) (size : 3 ≤ n.size)
    (result : splitChild n heap = ((n1, pivot, n2), heap')) :
    Halves b n n1 pivot n2 heap heap' := by
  cases level with
  | zero =>
      cases result
      refine ⟨trivial, trivial, List.take_append_drop _ _, ?_, ?_, rfl, ?_, rfl⟩
      · change (List.take _ _).length = _
        rw [List.length_take]
        change min _ n.size = _
        simp only [leftHalf, if_true]
        change min ((n.size + 1) / 2) n.size = _
        omega
      · exact List.length_drop
      · intro pre post linked
        change heap.Linked (pre ++ [n.address] ++ post) at linked
        change Heap.Linked _ (pre ++ ([n.address] ++ [heap.fresh]) ++ post)
        have absent : heap.fresh ∉ pre ++ n.address :: post := fun member =>
          absurd (linked.fresh heap.fresh (by simpa using member)) (lt_irrefl _)
        refine ⟨by simpa using Links.Chain.insertAfter (by simpa using linked.chain) absent, ?_⟩
        intro a member
        have old : a = heap.fresh ∨ a ∈ pre ++ [n.address] ++ post := by
          simp only [List.mem_append, List.mem_singleton] at member ⊢
          tauto
        rcases old with rfl | old
        · exact Nat.lt_succ_self _
        · exact Nat.lt_succ_of_lt (linked.fresh a old)
  | succ level =>
      cases n using Node.inner_cases with
      | inner keys children =>
          cases result
          rcases good_inner.mp good with ⟨rfl, fits⟩
          rw [size_inner] at size
          obtain ⟨c, children, rfl⟩ : ∃ c l, children = c :: l :=
            List.exists_cons_of_ne_nil (List.ne_nil_of_length_pos (by omega))
          refine ⟨?_, ?_, ?_, ?_, ?_, ?_, ?_, rfl⟩
          · exact ⟨by simp [separators], fun d member => fits d (List.mem_of_mem_take member)⟩
          · refine ⟨?_, fun d member => fits d (List.mem_of_mem_drop member)⟩
            simp only [separators, List.tail_cons, List.drop_succ_cons, List.tail_drop,
              List.map_drop]
          · change List.flatMap _ (List.take _ _) ++ List.flatMap _ (List.drop _ _) = _
            rw [← List.flatMap_append, List.take_append_drop]
            rfl
          · change (List.take _ _).length = _
            rw [List.length_take, leftHalf, if_neg (by omega), size_inner]
            exact min_eq_left (Nat.div_lt_self (Nat.succ_pos _) one_lt_two)
          · change (List.drop _ _).length = _
            rw [List.length_drop, leftHalf, if_neg (by omega), size_inner]
          · have inside : (c :: children).length / 2 < children.length := by
              simp only [List.length_cons] at size ⊢
              omega
            rcases exists_focus inside with ⟨pre, d, post, rfl, length⟩
            have fitsD : Fits b d := fits d (by simp)
            rw [← length]
            simp only [separators, List.tail_cons, List.map_append, List.map_cons,
              List.drop_succ_cons, List.drop_left]
            rw [minKey_inner fitsD.elements_ne_nil]
            simp
          · intro pre post linked
            have whole : (Node.inner (separators minKey (c :: children))
                (c :: children)).leaves = List.flatMap leaves (List.take
                  ((c :: children).length / 2 + 1) (c :: children)) ++ List.flatMap leaves
                  (List.drop ((c :: children).length / 2 + 1) (c :: children)) := by
              rw [← List.flatMap_append, List.take_append_drop]
              rfl
            rw [whole] at linked
            exact linked

/-- Splitting a child replaces it by its halves. -/
theorem split_eq {pre post : List (Node level)} {n n1 n2 : Node level} {pivot : Int}
    {heap heap' : Heap} (same : n1.minKey = n.minKey) (pivot_eq : pivot = n2.minKey)
    (result : splitChild n heap = ((n1, pivot, n2), heap')) :
    split (separators minKey (pre ++ n :: post)) (pre ++ n :: post) pre.length heap =
      ((separators minKey (pre ++ n1 :: n2 :: post), pre ++ n1 :: n2 :: post), heap') := by
  subst pivot_eq
  simp only [split, getD_focus, result, set_focus, insertIdx_focus_succ,
    separators_insertIdx (Or.inr same.symm)]

/-- The left half keeps the minimum. -/
theorem Halves.minKey_eq {n n1 n2 : Node level} {pivot : Int} {heap heap' : Heap}
    (halves : Halves b n n1 pivot n2 heap heap') (size : 2 ≤ n.size) : n1.minKey = n.minKey := by
  have nonempty : n1.elements ≠ [] := by
    apply elements_ne_nil halves.good1
    rw [halves.size1, leftHalf]
    split <;> omega
  exact (minKey_congr nonempty halves.elements.symm).symm

end Split

/-! ## Insertion in a leaf -/

/-- A leaf receives the pair at a sorted position. -/
theorem insertLeaf_spec (l : Leaf) (key value : Int) (sorted : SortedPairs l.elements) :
    Inserted (key, value) l.elements (insertLeaf l key value).elements := by
  rcases scanDown_spec (fun j => decide (key < keyAt l.elements j)) l.elements.length with
    ⟨upper, passed, stopped⟩
  unfold insertLeaf
  simp only
  generalize scanDown (fun j => decide (key < keyAt l.elements j)) l.elements.length = i at *
  refine ⟨l.elements.take i, l.elements.drop i, (List.take_append_drop _ _).symm, ?_, ?_, ?_⟩
  · have context := insertIdx_focus (l.elements.take i) (l.elements.drop i) (key, value)
    rwa [List.take_append_drop, List.length_take, min_eq_left upper] at context
  · intro x member
    rcases List.mem_take_iff_getElem.mp member with ⟨j, inside, rfl⟩
    have last : keyAt l.elements (i - 1) ≤ key := by
      simpa using stopped (by omega)
    have le := keyAt_le sorted (show j ≤ i - 1 by omega) (by omega)
    rw [keyAt_eq (by omega)] at le
    exact le.trans last
  · intro x member
    rcases List.mem_drop_iff_getElem.mp member with ⟨j, inside, rfl⟩
    have inside : i + j < l.elements.length := by omega
    have above := of_decide_eq_true (passed (i + j) (by omega) inside)
    rw [keyAt_eq inside] at above
    exact above.le

/-! ## The induction over the levels -/

/-- The leaf where a key is inserted. -/
def insertionLeaf : {level : Nat} → Node level → Int → Leaf
  | 0, .leaf l, _ => l
  | _ + 1, .inner keys children, key =>
    insertionLeaf (children.getD (insertIndex keys children.length key) default) key

theorem insertionLeaf_inner {level : Nat} (keys : List Int) (children : List (Node level))
    (key : Int) : insertionLeaf (.inner keys children) key =
      insertionLeaf (children.getD (insertIndex keys children.length key) default) key :=
  rfl

/-- The size of the parent of the leaf where a key is inserted; 0 for a root. -/
def insertionParentSize : {level : Nat} → Node level → Int → Nat
  | 0, .leaf _, _ => 0
  | level + 1, .inner keys children, key =>
    if level = 0 then children.length
    else insertionParentSize (children.getD (insertIndex keys children.length key) default) key

/-- The insertion does not split a node into halves one of which is too small: a
full leaf of `2a - 1` elements receives the key in its right half, and the parent
of a full leaf is not full with `2a - 1` children. -/
def InsertAdmissible (b : Bounds) {level : Nat} (n : Node level) (key : Int) : Prop :=
  (insertionLeaf n key).elements.length = b.leafB →
    (b.leafB = 2 * b.leafA - 1 →
      keyAt (insertionLeaf n key).elements ((b.leafB + 1) / 2) < key) ∧
    (insertionParentSize n key = b.intnodeB → b.intnodeB ≠ 2 * b.intnodeA - 1)

instance (b : Bounds) {level : Nat} (n : Node level) (key : Int) :
    Decidable (InsertAdmissible b n key) :=
  inferInstanceAs (Decidable (_ → _ ∧ _))

/-- What an insertion in a node leaves. -/
structure InsertedNode (b : Bounds) {level : Nat} (n : Node level) (key value : Int)
    (n' : Node level) (heap heap' : Heap) : Prop where
  good : Good b n'
  inserted : Inserted (key, value) n.elements n'.elements
  size_le : n'.size ≤ n.size + 1
  le_size : n.size ≤ n'.size
  leaf_size : level = 0 → n'.size = n.size + 1
  /-- A node above the leaves grows only when the leaf and every node between are full. -/
  grown : 0 < level → n'.size = n.size + 1 →
    (insertionLeaf n key).elements.length = b.leafB ∧
      (1 < level → insertionParentSize n key = b.intnodeB)
  linked : ∀ pre post, heap.Linked (pre ++ n.leaves ++ post) →
    heap'.Linked (pre ++ n'.leaves ++ post)
  cardinality : heap'.cardinality = heap.cardinality + 1

section Descend

variable {b : Bounds} {level : Nat} {key value : Int} {heap heap' : Heap}

theorem InsertedNode.leaf (b : Bounds) (key value : Int) (heap : Heap) (n : Node 0)
    (sorted : SortedPairs n.elements) :
    InsertedNode b n key value (insertNode b n key value heap).1 heap
      (insertNode b n key value heap).2 := by
  have inserted := insertLeaf_spec n key value sorted
  have length := inserted.length_eq
  refine ⟨trivial, inserted, length.le, ?_, fun _ => length, fun pos => absurd pos (lt_irrefl 0),
    fun pre post linked => ⟨linked.chain, linked.fresh⟩, rfl⟩
  exact (Nat.le_succ _).trans length.ge

/-- Where an insertion descends, and that the elements on both sides of the child
are on the right side of the key. -/
theorem insert_focus {children : List (Node level)} (fits : ∀ c ∈ children, Fits b c)
    (nonempty : children ≠ []) (sorted : SortedPairs (children.flatMap elements)) (key : Int) :
    ∃ pre c post, children = pre ++ c :: post ∧
      insertIndex (separators minKey children) children.length key = pre.length ∧
      (pre ≠ [] → c.minKey < key) ∧ SortedPairs c.elements ∧
      (∀ x ∈ pre.flatMap elements, x.1 ≤ key) ∧ ∀ x ∈ post.flatMap elements, key ≤ x.1 := by
  rcases exists_descent (· < key) fits nonempty sorted with ⟨pre, c, post, rfl, descent⟩
  refine ⟨pre, c, post, rfl, descent.index, descent.before, descent.sorted, ?_, ?_⟩
  · intro x member
    have notFirst : pre ≠ [] := by
      rintro rfl
      cases member
    exact (descent.below x member).trans (descent.before notFirst).le
  · intro x member
    rcases post with _ | ⟨d, rest⟩
    · cases member
    · exact (not_lt.mp (descent.after d rest rfl)).trans (descent.above d rest rfl x member)

/-- A pair inserted after the minimum of a node leaves the minimum as it is. -/
theorem minKey_inserted {c c' : Node level} (nonempty : c.elements ≠ [])
    (inserted : Inserted (key, value) c.elements c'.elements) (greater : c.minKey < key) :
    c'.minKey = c.minKey := by
  rcases exists_minKey nonempty with ⟨e, l, elements, min⟩
  rw [min] at greater
  rw [elements] at inserted
  rcases inserted.head greater with ⟨l', head⟩
  rw [min, minKey_eq head]

/-- Replacing a child by one with the pair inserted. -/
theorem inserted_children {pre post : List (Node level)} {c c' : Node level}
    (inserted : Inserted (key, value) c.elements c'.elements)
    (below : ∀ x ∈ pre.flatMap elements, x.1 ≤ key)
    (above : ∀ x ∈ post.flatMap elements, key ≤ x.1) :
    Inserted (key, value) ((pre ++ c :: post).flatMap elements)
      ((pre ++ c' :: post).flatMap elements) := by
  simpa using inserted.context _ _ below above

/-- The insertion in a full leaf: the leaf is divided first. -/
theorem insert_fullLeaf {children : List (Node 0)} {pre post : List (Node 0)} {c : Node 0}
    (focus : children = pre ++ c :: post) (fits : ∀ d ∈ children, Fits b d)
    (index : insertIndex (separators minKey children) children.length key = pre.length)
    (before : pre ≠ [] → c.minKey < key) (sortedC : SortedPairs c.elements)
    (below : ∀ x ∈ pre.flatMap elements, x.1 ≤ key)
    (above : ∀ x ∈ post.flatMap elements, key ≤ x.1) (full : c.size = b.leafB)
    (admissible : b.leafB = 2 * b.leafA - 1 → keyAt c.elements ((b.leafB + 1) / 2) < key) :
    InsertedNode b (.inner (separators minKey children) children) key value
      (insertNode b (.inner (separators minKey children) children) key value heap).1 heap
      (insertNode b (.inner (separators minKey children) children) key value heap).2 ∧
      (insertNode b (.inner (separators minKey children) children) key value heap).1.size =
        children.length + 1 := by
  subst focus
  have fitsC : Fits b c := fits c (by simp)
  have leafA := b.leaf_a
  have leafB := b.leaf_b
  rcases result : splitChild c heap with ⟨⟨n1, pivot, n2⟩, heap1⟩
  have halves := splitChild_spec fitsC.1 (by omega) result
  have min1 := halves.minKey_eq (by omega)
  have size1 := halves.size1
  have size2 := halves.size2
  simp only [leftHalf, if_true, full] at size1 size2
  have sorted12 := sortedC
  rw [← halves.elements, SortedPairs.append_iff] at sorted12
  rcases sorted12 with ⟨sorted1, sorted2, apart⟩
  have nonempty1 := elements_ne_nil halves.good1 (by omega)
  have nonempty2 := elements_ne_nil halves.good2 (by omega)
  have pivotKey : pivot = keyAt c.elements ((b.leafB + 1) / 2) := by
    have length1 : n1.elements.length = (b.leafB + 1) / 2 := size1
    rw [halves.pivot_eq, minKey, ← halves.elements, ← length1, keyAt, keyAt]
    rcases List.exists_cons_of_ne_nil nonempty2 with ⟨e, l, eq⟩
    rw [eq, getD_focus]
    rfl
  have branch : insertNode b (.inner (separators minKey (pre ++ c :: post)) (pre ++ c :: post)) key
      value heap = (let i := if key > pivot then pre.length + 1 else pre.length
        let r := insertNode b ((pre ++ n1 :: n2 :: post).getD i default) key value heap1
        (.inner (separators minKey (pre ++ n1 :: n2 :: post))
          ((pre ++ n1 :: n2 :: post).set i r.1), r.2)) := by
    simp only [insertNode, index, getD_focus, full, and_self, if_true,
      split_eq min1 halves.pivot_eq result]
    rw [separators_getD, halves.pivot_eq]
  have linkedSplit : ∀ P S, heap.Linked (P ++ (pre ++ c :: post).flatMap leaves ++ S) →
      heap1.Linked (P ++ (pre ++ n1 :: n2 :: post).flatMap leaves ++ S) := by
    intro P S linked
    have moved := halves.linked (P ++ pre.flatMap leaves) (post.flatMap leaves ++ S)
      (by simpa using linked)
    simpa using moved
  have fits1 : b.leafA ≤ n1.size ∧ n1.size < b.leafB := by omega
  have fits2 : b.leafA ≤ n2.size + 1 ∧ n2.size < b.leafB := by omega
  have reached : (insertionLeaf (.inner (separators minKey (pre ++ c :: post))
      (pre ++ c :: post)) key).elements.length = b.leafB := by
    rw [insertionLeaf_inner, index, getD_focus]
    exact full
  rw [branch]
  by_cases right : key > pivot
  · -- the new pair goes to the right half
    have inserted := InsertedNode.leaf b key value heap1 n2 sorted2
    have min2 : (insertNode b n2 key value heap1).1.minKey = n2.minKey :=
      minKey_inserted nonempty2 inserted.inserted (by rw [← halves.pivot_eq]; exact right)
    simp only [right, if_true, getD_focus_succ, set_focus_succ]
    have size2' := inserted.leaf_size rfl
    refine ⟨⟨⟨?_, ?_⟩, ?_, ?_, ?_, fun h => absurd h (by omega), ?_, ?_, ?_⟩, ?_⟩
    · exact (separators_focus_right min2).symm
    · intro d member
      simp only [List.mem_append, List.mem_cons] at member
      rcases member with member | rfl | rfl | member
      · exact fits d (by simp [member])
      · exact ⟨halves.good1, fits1.1, fits1.2.le⟩
      · refine ⟨inserted.good, ?_, ?_⟩
        · rw [Bounds.lower_zero]
          omega
        · rw [Bounds.upper_zero]
          omega
      · exact fits d (by simp [member])
    · have context := inserted.inserted.context (pre.flatMap elements ++ n1.elements)
        (post.flatMap elements) (fun x member => ?_) above
      · simpa [elements_inner, ← halves.elements] using context
      · rcases List.mem_append.mp member with member | member
        · exact below x member
        · rcases exists_minKey nonempty2 with ⟨e, l, eq, min⟩
          have le := apart x member e (by simp [eq])
          rw [← min, ← halves.pivot_eq] at le
          exact le.trans right.le
    · simp only [size_inner, List.length_append, List.length_cons]
      omega
    · simp only [size_inner, List.length_append, List.length_cons]
      omega
    · exact fun _ _ => ⟨reached, fun h => absurd h (by omega)⟩
    · intro P S linked
      have moved := inserted.linked (P ++ pre.flatMap leaves ++ n1.leaves)
        (post.flatMap leaves ++ S) (by simpa using linkedSplit P S linked)
      simpa [leaves_inner] using moved
    · rw [inserted.cardinality, halves.cardinality]
    · simp only [size_inner, List.length_append, List.length_cons]
      omega
  · -- the new pair goes to the left half
    have inserted := InsertedNode.leaf b key value heap1 n1 sorted1
    have min1' : pre = [] ∨ n1.minKey = (insertNode b n1 key value heap1).1.minKey := by
      rcases List.eq_nil_or_concat pre with rfl | ⟨_, _, rfl⟩
      · exact Or.inl rfl
      · right
        exact (minKey_inserted nonempty1 inserted.inserted
          (by rw [min1]; exact before (by simp))).symm
    simp only [right, if_false, getD_focus, set_focus]
    have size1' := inserted.leaf_size rfl
    refine ⟨⟨⟨?_, ?_⟩, ?_, ?_, ?_, fun h => absurd h (by omega), ?_, ?_, ?_⟩, ?_⟩
    · rw [separators_focus minKey pre n1, separators_congr min1', ← separators_focus]
    · intro d member
      simp only [List.mem_append, List.mem_cons] at member
      rcases member with member | rfl | rfl | member
      · exact fits d (by simp [member])
      · refine ⟨inserted.good, ?_, ?_⟩
        · rw [Bounds.lower_zero]
          omega
        · rw [Bounds.upper_zero]
          omega
      · refine ⟨halves.good2, ?_, fits2.2.le⟩
        rw [Bounds.lower_zero]
        have notTight : b.leafB ≠ 2 * b.leafA - 1 := fun tight =>
          right (pivotKey ▸ admissible tight)
        omega
      · exact fits d (by simp [member])
    · have context := inserted.inserted.context (pre.flatMap elements)
        (n2.elements ++ post.flatMap elements) below (fun x member => ?_)
      · simpa [elements_inner, ← halves.elements] using context
      · rcases List.mem_append.mp member with member | member
        · rcases exists_minKey nonempty2 with ⟨e, l, eq, min⟩
          rw [eq] at sorted2 member
          have le := sorted2.head_le x member
          rw [← min, ← halves.pivot_eq] at le
          exact (not_lt.mp right).trans le
        · exact above x member
    · simp only [size_inner, List.length_append, List.length_cons]
      omega
    · simp only [size_inner, List.length_append, List.length_cons]
      omega
    · exact fun _ _ => ⟨reached, fun h => absurd h (by omega)⟩
    · intro P S linked
      have moved := inserted.linked (P ++ pre.flatMap leaves)
        (n2.leaves ++ post.flatMap leaves ++ S) (by simpa using linkedSplit P S linked)
      simpa [leaves_inner] using moved
    · rw [inserted.cardinality, halves.cardinality]
    · simp only [size_inner, List.length_append, List.length_cons]
      omega

/-- The separators when a child receives a pair after its minimum. -/
theorem separators_inserted {pre : List (Node level)} {c c' : Node level}
    (nonempty : c.elements ≠ []) (inserted : Inserted (key, value) c.elements c'.elements)
    (before : pre ≠ [] → c.minKey < key) : pre = [] ∨ c.minKey = c'.minKey := by
  rcases List.eq_nil_or_concat pre with rfl | ⟨_, _, rfl⟩
  · exact Or.inl rfl
  · exact Or.inr (minKey_inserted nonempty inserted (before (by simp))).symm

theorem insertionParentSize_inner (children : List (Node (level + 1))) (keys : List Int) :
    insertionParentSize (.inner keys children) key =
      insertionParentSize (children.getD (insertIndex keys children.length key) default) key :=
  rfl

/-- The insertion in a child that has room, or that does not overflow. -/
theorem InsertedNode.child {pre post : List (Node level)} {c c' : Node level}
    (fits : ∀ d ∈ pre ++ c :: post, Fits b d) (inserted : InsertedNode b c key value c' heap heap')
    (before : pre ≠ [] → c.minKey < key) (below : ∀ x ∈ pre.flatMap elements, x.1 ≤ key)
    (above : ∀ x ∈ post.flatMap elements, key ≤ x.1) (room : c'.size ≤ b.upper level) :
    InsertedNode b (.inner (separators minKey (pre ++ c :: post)) (pre ++ c :: post)) key value
      (.inner (separators minKey (pre ++ c :: post)) (pre ++ c' :: post)) heap heap' := by
  have fitsC : Fits b c := fits c (by simp)
  refine ⟨⟨?_, ?_⟩, inserted_children inserted.inserted below above, ?_, ?_,
    fun h => absurd h (Nat.succ_ne_zero level), ?_, ?_, inserted.cardinality⟩
  · rw [separators_focus minKey pre c, separators_focus minKey pre c',
      separators_congr (separators_inserted fitsC.elements_ne_nil inserted.inserted before)]
  · intro d member
    simp only [List.mem_append, List.mem_cons] at member
    rcases member with member | rfl | member
    · exact fits d (by simp [member])
    · exact ⟨inserted.good, fitsC.2.1.trans inserted.le_size, room⟩
    · exact fits d (by simp [member])
  · simp [size_inner]
  · simp [size_inner]
  · intro _ grows
    simp [size_inner] at grows
  · intro P S linked
    have moved := inserted.linked (P ++ pre.flatMap leaves) (post.flatMap leaves ++ S)
      (by simpa [leaves_inner] using linked)
    simpa [leaves_inner] using moved

/-- The insertion in a full inner child that overflows, and is divided afterwards. -/
theorem InsertedNode.split {pre post : List (Node (level + 1))} {c c' n1 n2 : Node (level + 1)}
    {pivot : Int} {heap1 : Heap}
    (index : insertIndex (separators minKey (pre ++ c :: post)) (pre ++ c :: post).length key =
      pre.length)
    (fits : ∀ d ∈ pre ++ c :: post, Fits b d) (inserted : InsertedNode b c key value c' heap heap1)
    (before : pre ≠ [] → c.minKey < key) (below : ∀ x ∈ pre.flatMap elements, x.1 ≤ key)
    (above : ∀ x ∈ post.flatMap elements, key ≤ x.1) (full : c.size = b.intnodeB)
    (overflow : b.intnodeB < c'.size)
    (admissible : InsertAdmissible b
      (.inner (separators minKey (pre ++ c :: post)) (pre ++ c :: post)) key)
    (halves : Halves b c' n1 pivot n2 heap1 heap') :
    InsertedNode b (.inner (separators minKey (pre ++ c :: post)) (pre ++ c :: post)) key value
      (.inner (separators minKey (pre ++ n1 :: n2 :: post)) (pre ++ n1 :: n2 :: post)) heap
      heap' := by
  have size : c'.size = b.intnodeB + 1 := by
    have grown := inserted.size_le
    omega
  rcases inserted.grown (Nat.succ_pos level) (by omega) with ⟨leafFull, parentFull⟩
  -- the lowest inner node on the path is full as well
  have reached : (insertionLeaf (.inner (separators minKey (pre ++ c :: post))
      (pre ++ c :: post)) key).elements.length = b.leafB := by
    rw [insertionLeaf_inner, index, getD_focus]
    exact leafFull
  have parent : insertionParentSize (.inner (separators minKey (pre ++ c :: post))
      (pre ++ c :: post)) key = b.intnodeB := by
    rw [insertionParentSize_inner, index, getD_focus]
    cases level with
    | zero => exact full
    | succ level => exact parentFull (by omega)
  have notTight := (admissible reached).2 parent
  have intA := b.intnode_a
  have intB := b.intnode_b
  have size1 := halves.size1
  have size2 := halves.size2
  simp only [leftHalf, Nat.add_one_ne_zero, if_false, size] at size1 size2
  refine ⟨⟨rfl, ?_⟩, ?_, ?_, ?_, fun h => absurd h (Nat.succ_ne_zero _), ?_, ?_, ?_⟩
  · intro d member
    simp only [List.mem_append, List.mem_cons] at member
    rcases member with member | rfl | rfl | member
    · exact fits d (by simp [member])
    · exact ⟨halves.good1, by rw [Bounds.lower_succ]; omega, by rw [Bounds.upper_succ]; omega⟩
    · exact ⟨halves.good2, by rw [Bounds.lower_succ]; omega, by rw [Bounds.upper_succ]; omega⟩
    · exact fits d (by simp [member])
  · have context := inserted_children inserted.inserted below above
    rw [elements_inner, elements_inner]
    simpa [← halves.elements] using context
  · simp only [size_inner, List.length_append, List.length_cons]
    omega
  · simp only [size_inner, List.length_append, List.length_cons]
    omega
  · exact fun _ _ => ⟨reached, fun _ => parent⟩
  · intro P S linked
    have moved := halves.linked (P ++ pre.flatMap leaves) (post.flatMap leaves ++ S)
      (inserted.linked _ _ (by simpa [leaves_inner] using linked))
    simpa [leaves_inner] using moved
  · rw [halves.cardinality, inserted.cardinality]

/-- Insertion in a good node. -/
theorem insertNode_spec {level : Nat} {n : Node level} {heap : Heap} (good : Good b n)
    (sorted : SortedPairs n.elements) (nonempty : 0 < level → 0 < n.size)
    (admissible : InsertAdmissible b n key) :
    InsertedNode b n key value (insertNode b n key value heap).1 heap
      (insertNode b n key value heap).2 := by
  induction level generalizing heap with
  | zero => exact InsertedNode.leaf b key value heap n sorted
  | succ level ih =>
      cases n using Node.inner_cases with
      | inner keys children =>
          rcases good_inner.mp good with ⟨rfl, fits⟩
          have childrenNe : children ≠ [] :=
            List.ne_nil_of_length_pos (nonempty (Nat.succ_pos level))
          rcases insert_focus fits childrenNe sorted key with
            ⟨pre, c, post, rfl, index, before, sortedC, below, above⟩
          have fitsC : Fits b c := fits c (by simp)
          by_cases fullLeaf : level = 0 ∧ c.size = b.leafB
          · rcases fullLeaf with ⟨rfl, full⟩
            refine (insert_fullLeaf rfl fits index before sortedC below above full ?_).1
            have leaf : insertionLeaf (.inner (separators minKey (pre ++ c :: post))
                (pre ++ c :: post)) key = c := by
              rw [insertionLeaf_inner, index, getD_focus]
              rfl
            have allowed := admissible
            unfold InsertAdmissible at allowed
            rw [leaf] at allowed
            exact (allowed full).1
          · have lower := b.two_le_lower level
            have admissibleC : InsertAdmissible b c key := by
              intro leafFull
              have allowed := admissible (by
                rw [insertionLeaf_inner, index, getD_focus]
                exact leafFull)
              rw [insertionLeaf_inner, index, getD_focus] at allowed
              refine ⟨allowed.1, fun parentFull => ?_⟩
              cases level with
              | zero => exact absurd ⟨rfl, leafFull⟩ fullLeaf
              | succ level =>
                  apply allowed.2
                  rw [insertionParentSize_inner, index, getD_focus]
                  exact parentFull
            have inserted : InsertedNode b c key value (insertNode b c key value heap).1 heap
                (insertNode b c key value heap).2 := ih fitsC.1 sortedC
              (fun _ => by have := fitsC.2.1; omega) admissibleC
            rcases result : insertNode b c key value heap with ⟨c', heap1⟩
            rw [result] at inserted
            simp only at inserted
            simp only [insertNode, index, getD_focus, fullLeaf, if_false, result, set_focus]
            have sizeLe := inserted.size_le
            have upper := fitsC.2.2
            by_cases overflow : level ≠ 0 ∧ c.size = b.intnodeB ∧ c'.size > b.intnodeB
            · rw [if_pos overflow]
              rcases overflow with ⟨above0, full, exceeds⟩
              obtain ⟨level, rfl⟩ := Nat.exists_eq_succ_of_ne_zero above0
              have intA := b.intnode_a
              have intB := b.intnode_b
              rcases divided : splitChild c' heap1 with ⟨⟨n1, pivot, n2⟩, heap2⟩
              have halves := splitChild_spec inserted.good (by omega) divided
              have keysEq : separators minKey (pre ++ c :: post) =
                  separators minKey (pre ++ c' :: post) := by
                rw [separators_focus minKey pre c, separators_focus minKey pre c',
                  separators_congr
                    (separators_inserted fitsC.elements_ne_nil inserted.inserted before)]
              have final := InsertedNode.split index fits inserted before below above full exceeds
                admissible halves
              rw [keysEq] at final ⊢
              rw [split_eq (halves.minKey_eq (by omega)) halves.pivot_eq divided]
              exact final
            · rw [if_neg overflow]
              apply InsertedNode.child fits inserted before below above
              cases level with
              | zero =>
                  rw [Bounds.upper_zero] at upper ⊢
                  have notFull : c.size ≠ b.leafB := fun full => fullLeaf ⟨rfl, full⟩
                  omega
              | succ level =>
                  rw [Bounds.upper_succ] at upper ⊢
                  by_contra exceeds
                  exact overflow ⟨Nat.succ_ne_zero level, by omega, by omega⟩

end Descend

end Rma.ABTree
