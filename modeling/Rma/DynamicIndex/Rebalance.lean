import Rma.DynamicIndex.Insert

/-!
# Rebalancing the dynamic index

A removal leaves a child one entry short of the lower bound; `rebalanceLb` takes
one or two entries from a sibling, or merges the child with one.
`rebalanceLb_spec` says that this restores the bounds, that the elements stay
where they are, and that the chain of leaves follows.

The copying loops of the two rotations are right for one or two entries only,
which is all that a single removal asks for.
-/

namespace Rma.DynamicIndex

open Base SearchTree Node

variable {K V : Type} [Inhabited K] [Inhabited V]

section Siblings

variable {b : Bounds} {level : Nat} {heap heap' : Heap}

/-- Two siblings between which entries have moved. -/
structure Rotated (b : Bounds) {level : Nat} (x y x' : Node K V level) (pivot : K)
    (y' : Node K V level) : Prop where
  good1 : Good b.limits x'
  good2 : Good b.limits y'
  elements : x'.elements ++ y'.elements = x.elements ++ y.elements
  leaves : x'.leaves ++ y'.leaves = x.leaves ++ y.leaves
  inodes : x'.inodes + y'.inodes = x.inodes + y.inodes
  pivot_eq : pivot = y'.minKey

/-- Two inner nodes whose entries are shared out in another way. -/
theorem Rotated.inner {keys1 keys2 : List K} {children1 children2 : List (Node K V level)} {i : Nat}
    (good1 : Good b.limits (.inner keys1 children1)) (good2 : Good b.limits (.inner keys2 children2))
    (nonempty1 : children1 ≠ []) (nonempty2 : children2 ≠ []) (first : 0 < i)
    (second : i < children1.length + children2.length) :
    let keys := keys1 ++ (Node.inner keys2 children2).minKey :: keys2
    Rotated b (.inner keys1 children1) (.inner keys2 children2)
      (.inner (keys.take (i - 1)) ((children1 ++ children2).take i)) (keys.getD (i - 1) default)
      (.inner (keys.drop i) ((children1 ++ children2).drop i)) := by
  rcases (good1.join good2 nonempty1 nonempty2).divide first (by simpa using second) with
    ⟨left, right, pivot_eq⟩
  have split := List.take_append_drop i (children1 ++ children2)
  refine ⟨left, right, ?_, ?_, ?_, pivot_eq⟩
  · simp only [elements_inner]
    rw [← List.flatMap_append, split, List.flatMap_append]
  · simp only [leaves_inner]
    rw [← List.flatMap_append, split, List.flatMap_append]
  · have total := congrArg (fun l => (l.map Node.inodes).sum) split
    simp only [List.map_append, List.sum_append] at total
    simp only [inodes_inner]
    omega

/-- The last entries of a list, one by one. -/
theorem drop_eq_getD_cons {α : Type} {l : List α} {i : Nat} (d : α) (inside : i < l.length) :
    l.drop i = l.getD i d :: l.drop (i + 1) := by
  rw [List.getD_eq_getElem _ _ inside, List.getElem_cons_drop]

/-- Where it moves one or two entries, `rotate_right` shares out the entries of the
two nodes in another way. -/
theorem rotateRight_inner {keys1 keys2 : List K} {children1 children2 : List (Node K V level)}
    {pivot : K} {need : Nat} (few : need = 1 ∨ need = 2) (room : need < children1.length)
    (length : keys1.length = children1.length - 1) :
    rotateRightChildren (.inner keys1 children1) pivot (.inner keys2 children2) need =
      (.inner ((keys1 ++ pivot :: keys2).take (children1.length - need - 1))
          ((children1 ++ children2).take (children1.length - need)),
        (keys1 ++ pivot :: keys2).getD (children1.length - need - 1) default,
        .inner ((keys1 ++ pivot :: keys2).drop (children1.length - need))
          ((children1 ++ children2).drop (children1.length - need))) := by
  have takeKeys : (keys1 ++ pivot :: keys2).take (children1.length - need - 1) =
      keys1.take (children1.length - need - 1) := List.take_append_of_le_length (by omega)
  have takeChildren : (children1 ++ children2).take (children1.length - need) =
      children1.take (children1.length - need) := List.take_append_of_le_length (by omega)
  have between : (keys1 ++ pivot :: keys2).getD (children1.length - need - 1) default =
      keys1.getD (children1.length - need - 1) default := List.getD_append _ _ _ _ (by omega)
  rw [takeKeys, takeChildren, between]
  rcases few with rfl | rfl
  · -- one entry: the last child
    have apart : (children1 ++ children2).drop (children1.length - 1) =
        children1.drop (children1.length - 1) ++ children2 :=
      List.drop_append_of_le_length (by omega)
    rw [apart, drop_eq_getD_cons default (show children1.length - 1 < children1.length by omega),
      List.drop_of_length_le (l := children1) (by omega), ← length, List.drop_left]
    simp [rotateRightChildren, length]
  · -- two entries: the last two children, and the key between them
    have lastKey : keys1.drop (children1.length - 2) =
        [keys1.getD (children1.length - 2) default] := by
      rw [drop_eq_getD_cons default (by omega), List.drop_of_length_le (by omega)]
    have lastChildren : children1.drop (children1.length - 2) =
        [children1.getD (children1.length - 2) default,
          children1.getD (children1.length - 1) default] := by
      rw [drop_eq_getD_cons default (by omega), drop_eq_getD_cons default (by omega),
        List.drop_of_length_le (by omega), show children1.length - 2 + 1 = children1.length - 1 by
          omega]
    have apartKeys : (keys1 ++ pivot :: keys2).drop (children1.length - 2) =
        keys1.drop (children1.length - 2) ++ pivot :: keys2 :=
      List.drop_append_of_le_length (by omega)
    have apart : (children1 ++ children2).drop (children1.length - 2) =
        children1.drop (children1.length - 2) ++ children2 :=
      List.drop_append_of_le_length (by omega)
    rw [apartKeys, apart, lastKey, lastChildren]
    simp [rotateRightChildren]

/-- Where it moves one or two entries, `rotate_left` shares out the entries of the
two nodes in another way. -/
theorem rotateLeft_inner {keys1 keys2 : List K} {children1 children2 : List (Node K V level)}
    {pivot : K} {need : Nat} (few : need = 1 ∨ need = 2) (room : need < children2.length)
    (length1 : keys1.length = children1.length - 1) (nonempty : children1 ≠ [])
    (length2 : keys2.length = children2.length - 1) :
    rotateLeftChildren (.inner keys1 children1) pivot (.inner keys2 children2) need =
      (.inner ((keys1 ++ pivot :: keys2).take (children1.length + need - 1))
          ((children1 ++ children2).take (children1.length + need)),
        (keys1 ++ pivot :: keys2).getD (children1.length + need - 1) default,
        .inner ((keys1 ++ pivot :: keys2).drop (children1.length + need))
          ((children1 ++ children2).drop (children1.length + need))) := by
  have positive := List.length_pos_of_ne_nil nonempty
  have index : children1.length + need - 1 = keys1.length + need := by omega
  have index' : children1.length + need = keys1.length + (need + 1) := by omega
  rw [index, List.take_length_add_append, List.drop_length_add_append,
    List.take_length_add_append, List.getD_append_right _ _ _ _ (Nat.le_add_right _ _),
    Nat.add_sub_cancel_left, index', List.drop_length_add_append]
  rcases few with rfl | rfl
  · obtain ⟨c, children2, rfl⟩ := List.exists_cons_of_ne_nil
      (List.ne_nil_of_length_pos (show 0 < children2.length by omega))
    simp [rotateLeftChildren]
  · rcases children2 with _ | ⟨c, _ | ⟨d, children2⟩⟩
    · exact absurd room (by simp)
    · exact absurd room (by simp)
    · rcases keys2 with _ | ⟨k, keys2⟩
      · simp at length2
      · simp [rotateLeftChildren]

/-- One or two entries move from the left sibling to the right one. -/
theorem rotateRightChildren_spec {x y x' y' : Node K V level} {pivot : K} {need : Nat}
    (goodX : Good b.limits x) (goodY : Good b.limits y) (nonempty : 0 < y.size)
    (few : need = 1 ∨ need = 2) (room : need < x.size)
    (result : rotateRightChildren x y.minKey y need = (x', pivot, y')) :
    Rotated b x y x' pivot y' ∧ x'.size = x.size - need ∧ y'.size = y.size + need := by
  cases level with
  | zero =>
      cases result
      change need < x.elements.length at room
      refine ⟨⟨trivial, trivial, ?_, rfl, rfl, rfl⟩, List.length_take_of_le (Nat.sub_le _ _), ?_⟩
      · change List.take _ x.elements ++ (List.drop _ x.elements ++ y.elements) = _
        rw [← List.append_assoc, List.take_append_drop]
      · have moved := Nat.sub_sub_self room.le
        change (List.drop _ x.elements ++ y.elements).length = y.elements.length + need
        rw [List.length_append, List.length_drop, Nat.add_comm]
        exact congrArg (y.elements.length + ·) moved
  | succ level =>
      cases x using Node.inner_cases with
      | inner keys1 children1 =>
          cases y using Node.inner_cases with
          | inner keys2 children2 =>
              rw [size_inner] at room nonempty
              rw [rotateRight_inner few room goodX.length_keys] at result
              cases result
              refine ⟨Rotated.inner goodX goodY (List.ne_nil_of_length_pos (by omega))
                (List.ne_nil_of_length_pos nonempty) (by omega) (by omega), ?_, ?_⟩
              · simp only [size_inner]
                exact List.length_take_of_le (by simp; omega)
              · simp only [size_inner, List.length_drop, List.length_append]
                omega

/-- One or two entries move from the right sibling to the left one. -/
theorem rotateLeftChildren_spec {x y x' y' : Node K V level} {pivot : K} {need : Nat}
    (goodX : Good b.limits x) (goodY : Good b.limits y) (nonempty : 0 < x.size)
    (few : need = 1 ∨ need = 2) (room : need < y.size)
    (result : rotateLeftChildren x y.minKey y need = (x', pivot, y')) :
    Rotated b x y x' pivot y' ∧ x'.size = x.size + need ∧ y'.size = y.size - need := by
  cases level with
  | zero =>
      cases result
      change need < y.elements.length at room
      refine ⟨⟨trivial, trivial, ?_, rfl, rfl, rfl⟩, ?_, List.length_drop⟩
      · change (x.elements ++ List.take need y.elements) ++ List.drop need y.elements = _
        rw [List.append_assoc, List.take_append_drop]
      · change (x.elements ++ List.take need y.elements).length = x.elements.length + need
        rw [List.length_append, List.length_take_of_le room.le]
  | succ level =>
      cases x using Node.inner_cases with
      | inner keys1 children1 =>
          cases y using Node.inner_cases with
          | inner keys2 children2 =>
              rw [size_inner] at room nonempty
              have ne1 := List.ne_nil_of_length_pos nonempty
              rw [rotateLeft_inner few room goodX.length_keys ne1 goodY.length_keys] at result
              cases result
              refine ⟨Rotated.inner goodX goodY ne1 (List.ne_nil_of_length_pos (by omega))
                (by omega) (by omega), ?_, ?_⟩
              · simp only [size_inner]
                exact List.length_take_of_le (by simp; omega)
              · simp only [size_inner, List.length_drop, List.length_append]
                omega

/-- Two siblings become one. -/
theorem mergeChildren_spec {x y z : Node K V level} (goodX : Good b.limits x)
    (goodY : Good b.limits y) (nonemptyX : 0 < x.size) (nonemptyY : 0 < y.size)
    (result : mergeChildren x y.minKey y heap = (z, heap')) :
    Good b.limits z ∧ z.elements = x.elements ++ y.elements ∧ z.size = x.size + y.size ∧
      Follows heap heap' [x, y] [z] ∧ heap'.cardinality = heap.cardinality := by
  cases level with
  | zero =>
      cases result
      exact ⟨trivial, rfl, List.length_append, follows_mergeLeaf x y _, rfl⟩
  | succ level =>
      cases x using Node.inner_cases with
      | inner keys1 children1 =>
          cases y using Node.inner_cases with
          | inner keys2 children2 =>
              cases result
              refine ⟨goodX.join goodY (List.ne_nil_of_length_pos nonemptyX)
                (List.ne_nil_of_length_pos nonemptyY), List.flatMap_append, List.length_append,
                follows_deleteInode, rfl⟩

end Siblings

/-! ## The children of a node -/

/-- What a rebalance leaves of the children of a node. -/
structure Rebalanced (b : Bounds) {level : Nat} (children : List (Node K V level)) (heap : Heap)
    (keys' : List K) (children' : List (Node K V level)) (heap' : Heap) : Prop where
  keys : keys' = separators minKey children'
  fits : ∀ c ∈ children', Fits b.limits c
  elements : children'.flatMap elements = children.flatMap elements
  length_le : children'.length ≤ children.length
  le_length : children.length ≤ children'.length + 1
  follows : Follows heap heap' children children'
  cardinality : heap'.cardinality = heap.cardinality

section Children

variable {b : Bounds} {level : Nat} {heap heap' : Heap} {pre post : List (Node K V level)}
  {x y x' y' z : Node K V level} {pivot : K} {need : Nat} {keys' : List K}
  {children' : List (Node K V level)}

/-- Children within their bounds are left as they are. -/
theorem Rebalanced.refl {children : List (Node K V level)} (fits : ∀ c ∈ children, Fits b.limits c) :
    Rebalanced b children heap (separators minKey children) children heap :=
  ⟨rfl, fits, rfl, le_rfl, Nat.le_succ _, Follows.refl, rfl⟩

theorem Rotated.minKey_eq (rotated : Rotated b x y x' pivot y') (nonempty : x.elements ≠ [])
    (nonempty' : x'.elements ≠ []) : x.minKey = x'.minKey := by
  rcases exists_minKey nonempty with ⟨e, l, eq, min⟩
  rcases exists_minKey nonempty' with ⟨e', l', eq', min'⟩
  have same := rotated.elements
  rw [eq, eq', List.cons_append, List.cons_append, List.cons.injEq] at same
  rw [min, min', same.1]

theorem rotateRight_eq (same : x.minKey = x'.minKey) (pivot_eq : pivot = y'.minKey)
    (result : rotateRightChildren x y.minKey y need = (x', pivot, y')) :
    rotateRight (separators minKey (pre ++ x :: y :: post)) (pre ++ x :: y :: post)
      (pre.length + 1) need =
        (separators minKey (pre ++ x' :: y' :: post), pre ++ x' :: y' :: post) := by
  subst pivot_eq
  simp only [rotateRight, Nat.add_sub_cancel, getD_focus, getD_focus_succ, separators_getD, result,
    set_focus, set_focus_succ, separators_set (Or.inr same)]

theorem rotateLeft_eq (same : x.minKey = x'.minKey) (pivot_eq : pivot = y'.minKey)
    (result : rotateLeftChildren x y.minKey y need = (x', pivot, y')) :
    rotateLeft (separators minKey (pre ++ x :: y :: post)) (pre ++ x :: y :: post)
      pre.length need =
        (separators minKey (pre ++ x' :: y' :: post), pre ++ x' :: y' :: post) := by
  subst pivot_eq
  simp only [rotateLeft, getD_focus, getD_focus_succ, separators_getD, result, set_focus,
    set_focus_succ, separators_set (Or.inr same)]

theorem merge_eq (same : x.minKey = z.minKey)
    (result : mergeChildren x y.minKey y heap = (z, heap')) :
    merge (separators minKey (pre ++ x :: y :: post)) (pre ++ x :: y :: post) pre.length heap =
      ((separators minKey (pre ++ z :: post), pre ++ z :: post), heap') := by
  simp only [merge, getD_focus, getD_focus_succ, separators_getD, result, set_focus,
    eraseIdx_focus_succ, separators_eraseIdx (Or.inr same)]

/-- Two siblings between which entries have moved, among the others. -/
theorem Rotated.rebalanced (rotated : Rotated b x y x' pivot y')
    (fits : ∀ d ∈ pre ++ post, Fits b.limits d) (fitsX : Fits b.limits x') (fitsY : Fits b.limits y') :
    Rebalanced b (pre ++ x :: y :: post) heap (separators minKey (pre ++ x' :: y' :: post))
      (pre ++ x' :: y' :: post) heap := by
  refine ⟨rfl, ?_, ?_, ?_, ?_, ?_, rfl⟩
  · intro d member
    simp only [List.mem_append, List.mem_cons] at member
    rcases member with member | rfl | rfl | member
    · exact fits d (by simp [member])
    · exact fitsX
    · exact fitsY
    · exact fits d (by simp [member])
  · have same := rotated.elements
    simp only [List.flatMap_append, List.flatMap_cons]
    rw [← List.append_assoc x'.elements, same, List.append_assoc]
  · simp
  · simp
  · have moved : Follows heap heap [x, y] [x', y'] :=
      Follows.same (by simpa using rotated.leaves) (by simpa using rotated.inodes)
    simpa using moved.context pre post

/-- Entries move from the left sibling. -/
theorem rotateRight_rebalanced (fits : ∀ d ∈ pre ++ post, Fits b.limits d) (goodX : Good b.limits x)
    (goodY : Good b.limits y) (nonempty : 0 < y.size) (few : need = 1 ∨ need = 2)
    (lowerX : b.limits.lower level + need ≤ x.size) (upperX : x.size ≤ b.limits.upper level)
    (lowerY : b.limits.lower level ≤ y.size + need) (upperY : y.size + need ≤ b.limits.upper level) :
    Rebalanced b (pre ++ x :: y :: post) heap
      (rotateRight (separators minKey (pre ++ x :: y :: post)) (pre ++ x :: y :: post)
        (pre.length + 1) need).1
      (rotateRight (separators minKey (pre ++ x :: y :: post)) (pre ++ x :: y :: post)
        (pre.length + 1) need).2 heap := by
  have lower := b.two_le_lower level
  rcases result : rotateRightChildren x y.minKey y need with ⟨x', pivot, y'⟩
  rcases rotateRightChildren_spec goodX goodY nonempty few (by omega) result with
    ⟨rotated, size1, size2⟩
  have fitsX : Fits b.limits x' := ⟨rotated.good1, by omega, by omega⟩
  have fitsY : Fits b.limits y' := ⟨rotated.good2, by omega, by omega⟩
  have same := rotated.minKey_eq (elements_ne_nil goodX (by omega)) fitsX.elements_ne_nil
  rw [rotateRight_eq same rotated.pivot_eq result]
  exact rotated.rebalanced fits fitsX fitsY

/-- Entries move from the right sibling. -/
theorem rotateLeft_rebalanced (fits : ∀ d ∈ pre ++ post, Fits b.limits d) (goodX : Good b.limits x)
    (goodY : Good b.limits y) (nonempty : 0 < x.size) (few : need = 1 ∨ need = 2)
    (lowerX : b.limits.lower level ≤ x.size + need) (upperX : x.size + need ≤ b.limits.upper level)
    (lowerY : b.limits.lower level + need ≤ y.size) (upperY : y.size ≤ b.limits.upper level) :
    Rebalanced b (pre ++ x :: y :: post) heap
      (rotateLeft (separators minKey (pre ++ x :: y :: post)) (pre ++ x :: y :: post)
        pre.length need).1
      (rotateLeft (separators minKey (pre ++ x :: y :: post)) (pre ++ x :: y :: post)
        pre.length need).2 heap := by
  have lower := b.two_le_lower level
  rcases result : rotateLeftChildren x y.minKey y need with ⟨x', pivot, y'⟩
  rcases rotateLeftChildren_spec goodX goodY nonempty few (by omega) result with
    ⟨rotated, size1, size2⟩
  have fitsX : Fits b.limits x' := ⟨rotated.good1, by omega, by omega⟩
  have fitsY : Fits b.limits y' := ⟨rotated.good2, by omega, by omega⟩
  have same := rotated.minKey_eq (elements_ne_nil goodX nonempty) fitsX.elements_ne_nil
  rw [rotateLeft_eq same rotated.pivot_eq result]
  exact rotated.rebalanced fits fitsX fitsY

/-- A child is merged with its right sibling. -/
theorem merge_rebalanced (fits : ∀ d ∈ pre ++ post, Fits b.limits d) (goodX : Good b.limits x)
    (goodY : Good b.limits y) (nonemptyX : 0 < x.size) (nonemptyY : 0 < y.size)
    (lower : b.limits.lower level ≤ x.size + y.size) (upper : x.size + y.size ≤ b.limits.upper level)
    (result : merge (separators minKey (pre ++ x :: y :: post)) (pre ++ x :: y :: post)
      pre.length heap = ((keys', children'), heap')) :
    Rebalanced b (pre ++ x :: y :: post) heap keys' children' heap' := by
  rcases merged : mergeChildren x y.minKey y heap with ⟨z, heap1⟩
  rcases mergeChildren_spec goodX goodY nonemptyX nonemptyY merged with
    ⟨good, elements, size, follows, cardinality⟩
  have same := minKey_congr (elements_ne_nil goodX nonemptyX) elements
  rw [merge_eq same.symm merged] at result
  cases result
  refine ⟨rfl, ?_, ?_, ?_, ?_, ?_, cardinality⟩
  · intro d member
    simp only [List.mem_append, List.mem_cons] at member
    rcases member with member | rfl | member
    · exact fits d (by simp [member])
    · exact ⟨good, by omega, by omega⟩
    · exact fits d (by simp [member])
  · simp [elements]
  · simp
  · simp only [List.length_append, List.length_cons]
    exact le_rfl
  · simpa using follows.context pre post

/-- A child that has enough entries stays as it is. -/
theorem rebalanceLb_enough {c : Node K V level} (isRoot : Bool) (keys : List K)
    (enough : b.limits.lower level ≤ c.size) :
    rebalanceLb b isRoot keys (pre ++ c :: post) pre.length heap =
      ((keys, pre ++ c :: post), heap) := by
  rw [rebalanceLb, getD_focus]
  exact if_pos enough

/-- A child that is short of one entry is brought up to the lower bound. -/
theorem rebalanceLb_spec {c : Node K V level} (isRoot : Bool)
    (several : 2 ≤ (pre ++ c :: post).length) (fits : ∀ d ∈ pre ++ post, Fits b.limits d)
    (good : Good b.limits c) (short : b.limits.lower level ≤ c.size + 1)
    (upper : c.size ≤ b.limits.upper level)
    (result : rebalanceLb b isRoot (separators minKey (pre ++ c :: post)) (pre ++ c :: post)
      pre.length heap = ((keys', children'), heap')) :
    Rebalanced b (pre ++ c :: post) heap keys' children' heap' := by
  have two := b.two_le_lower level
  have bounds := b.two_mul_lower_le level
  by_cases enough : c.size ≥ b.limits.lower level
  · rw [rebalanceLb_enough isRoot _ enough] at result
    cases result
    refine Rebalanced.refl fun d member => ?_
    simp only [List.mem_append, List.mem_cons] at member
    rcases member with member | rfl | member
    · exact fits d (by simp [member])
    · exact ⟨good, enough, upper⟩
    · exact fits d (by simp [member])
  · have need : b.limits.lower level - c.size = 1 := by omega
    simp only [rebalanceLb, getD_focus, show b.lowerbound level = b.limits.lower level from rfl]
      at result
    rw [if_neg enough, if_neg (fun h => absurd h.2 (by omega)), need] at result
    have leftFits : ∀ before x, pre = before ++ [x] →
        Fits b.limits x ∧ ∀ d ∈ before ++ post, Fits b.limits d := by
      rintro before x rfl
      exact ⟨fits x (by simp), fun d member => fits d (by simp at member ⊢; tauto)⟩
    have rightFits : ∀ y after, post = y :: after →
        Fits b.limits y ∧ ∀ d ∈ pre ++ after, Fits b.limits d := by
      rintro y after rfl
      exact ⟨fits y (by simp), fun d member => fits d (by simp at member ⊢; tauto)⟩
    split_ifs at result with left2 right2 left1 right1 right0
    · rcases exists_left left2.1 with ⟨before, x, rfl⟩
      rcases leftFits before x rfl with ⟨fitsX, others⟩
      have room := left2.2
      simp only [List.append_assoc, List.singleton_append, List.length_append,
        List.length_singleton, Nat.add_sub_cancel, getD_focus] at room result ⊢
      cases result
      apply rotateRight_rebalanced others fitsX.1 good (by omega) (Or.inr rfl) (by omega)
        fitsX.2.2 (by omega) (by omega)
    · rcases exists_right right2.1 with ⟨y, after, rfl⟩
      rcases rightFits y after rfl with ⟨fitsY, others⟩
      have room := right2.2
      rw [getD_focus_succ] at room
      cases result
      apply rotateLeft_rebalanced others good fitsY.1 (by omega) (Or.inr rfl) (by omega)
        (by omega) (by omega) fitsY.2.2
    · rcases exists_left left1.1 with ⟨before, x, rfl⟩
      rcases leftFits before x rfl with ⟨fitsX, others⟩
      have room := left1.2
      simp only [List.append_assoc, List.singleton_append, List.length_append,
        List.length_singleton, Nat.add_sub_cancel, getD_focus] at room result ⊢
      cases result
      apply rotateRight_rebalanced others fitsX.1 good (by omega) (Or.inl rfl) (by omega)
        fitsX.2.2 (by omega) (by omega)
    · rcases exists_right right1.1 with ⟨y, after, rfl⟩
      rcases rightFits y after rfl with ⟨fitsY, others⟩
      have room := right1.2
      rw [getD_focus_succ] at room
      cases result
      apply rotateLeft_rebalanced others good fitsY.1 (by omega) (Or.inl rfl) (by omega)
        (by omega) (by omega) fitsY.2.2
    · rcases exists_right right0 with ⟨y, after, rfl⟩
      rcases rightFits y after rfl with ⟨fitsY, others⟩
      have tight : y.size < b.limits.lower level + 1 := by
        by_contra more
        exact right1 ⟨right0, by rw [getD_focus_succ]; omega⟩
      have lowerY := fitsY.2.1
      exact merge_rebalanced others good fitsY.1 (by omega) (by omega) (by omega) (by omega) result
    · have left0 : pre.length > 0 := by
        simp only [List.length_append, List.length_cons] at several right0
        omega
      rcases exists_left left0 with ⟨before, x, rfl⟩
      rcases leftFits before x rfl with ⟨fitsX, others⟩
      simp only [List.append_assoc, List.singleton_append, List.length_append,
        List.length_singleton, Nat.add_sub_cancel, getD_focus] at left1 result ⊢
      have tight : x.size < b.limits.lower level + 1 := by
        by_contra more
        exact left1 ⟨Nat.succ_pos _, by omega⟩
      have lowerX := fitsX.2.1
      exact merge_rebalanced others fitsX.1 good (by omega) (by omega) (by omega) (by omega) result

end Children

end Rma.DynamicIndex
