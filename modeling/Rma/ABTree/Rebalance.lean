import Rma.ABTree.Shape

/-!
# Rebalancing an (a,b)-tree

A removal leaves a child one entry short of the lower bound; `rebalanceLb` takes
one or two entries from a sibling, or merges the child with one.
`rebalanceLb_spec` says that this restores the bounds, that the elements stay
where they are, and that the chain of leaves follows.

The copying loops of the two rotations are right for one or two entries only,
which is all that a single removal asks for.
-/

namespace Rma.ABTree

open Base Node

section Siblings

variable {b : Bounds} {level : Nat} {heap heap' : Heap}

/-- Two siblings between which entries have moved. -/
structure Rotated (b : Bounds) {level : Nat} (x y x' : Node level) (pivot : Int)
    (y' : Node level) : Prop where
  good1 : Good b x'
  good2 : Good b y'
  elements : x'.elements ++ y'.elements = x.elements ++ y.elements
  leaves : x'.leaves ++ y'.leaves = x.leaves ++ y.leaves
  pivot_eq : pivot = y'.minKey

/-- One or two entries move from the left sibling to the right one. -/
theorem rotateRightChildren_spec {x y x' y' : Node level} {pivot : Int} {need : Nat}
    (goodX : Good b x) (goodY : Good b y) (nonempty : 0 < y.size) (few : need = 1 ∨ need = 2)
    (room : need < x.size) (result : rotateRightChildren x y.minKey y need = (x', pivot, y')) :
    Rotated b x y x' pivot y' ∧ x'.size = x.size - need ∧ y'.size = y.size + need := by
  cases level with
  | zero =>
      cases result
      change need < x.elements.length at room
      refine ⟨⟨trivial, trivial, ?_, rfl, rfl⟩, ?_, ?_⟩
      · change List.take _ x.elements ++ (List.drop _ x.elements ++ y.elements) = _
        rw [← List.append_assoc, List.take_append_drop]
      · exact List.length_take_of_le (Nat.sub_le _ _)
      · have moved := Nat.sub_sub_self room.le
        change (List.drop _ x.elements ++ y.elements).length = y.elements.length + need
        rw [List.length_append, List.length_drop, Nat.add_comm]
        exact congrArg (y.elements.length + ·) moved
  | succ level =>
      cases x using Node.inner_cases with
      | inner keys1 children1 =>
          cases y using Node.inner_cases with
          | inner keys2 children2 =>
              cases result
              rcases good_inner.mp goodX with ⟨rfl, fits1⟩
              rcases good_inner.mp goodY with ⟨rfl, fits2⟩
              rw [size_inner] at room nonempty
              obtain ⟨y0, rest, rfl⟩ := List.exists_cons_of_ne_nil
                (List.ne_nil_of_length_pos nonempty)
              have pivotEq : (Node.inner (separators minKey (y0 :: rest)) (y0 :: rest)).minKey =
                  y0.minKey := minKey_inner (fits2 y0 (by simp)).elements_ne_nil
              -- the moved children are the last ones, and one is left before them
              obtain ⟨kept, z, moved, rfl, length⟩ : ∃ kept z moved,
                  children1 = kept ++ z :: moved ∧ moved.length = need := by
                refine ⟨children1.take (children1.length - need - 1),
                  children1.getD (children1.length - need - 1) default,
                  children1.drop (children1.length - need), ?_, by simp; omega⟩
                have split := exists_focus (l := children1) (i := children1.length - need - 1)
                  (by omega)
                rcases split with ⟨pre, m, post, rfl, length⟩
                rw [← length, getD_focus, List.take_left]
                congr 2
                have shift : (pre ++ m :: post).length - need = (pre ++ [m]).length := by
                  simp only [List.length_append, List.length_cons, List.length_nil] at length ⊢
                  simp only [List.length_append, List.length_cons] at room
                  omega
                rw [shift, show pre ++ m :: post = (pre ++ [m]) ++ post by simp, List.drop_left]
              rw [pivotEq]
              have total : (kept ++ z :: moved).length - need = (kept ++ [z]).length := by
                simp only [List.length_append, List.length_cons, List.length_nil]
                omega
              have takeChildren : (kept ++ z :: moved).take ((kept ++ z :: moved).length - need) =
                  kept ++ [z] := by
                rw [total, show kept ++ z :: moved = (kept ++ [z]) ++ moved by simp,
                  List.take_left]
              have takeKeys : (separators minKey (kept ++ z :: moved)).take
                  ((kept ++ z :: moved).length - need - 1) = separators minKey (kept ++ [z]) := by
                rw [total, separators_focus, List.length_append, List.length_singleton,
                  Nat.add_sub_cancel, ← length_separators (f := minKey) (x := z), List.take_left]
              have fitsMoved : ∀ m ∈ moved, Fits b m := fun m member => fits1 m (by simp [member])
              have lastKey : (kept ++ z :: moved).length - need - 1 = kept.length := by
                rw [total, List.length_append, List.length_singleton, Nat.add_sub_cancel]
              rcases few with rfl | rfl
              · obtain ⟨m, rfl⟩ := List.length_eq_one_iff.mp length
                simp only [Nat.sub_self, List.range_zero, List.map_nil, List.nil_append]
                have last : (kept ++ [z, m]).getD ((kept ++ [z, m]).length - 1) default = m := by
                  simp
                rw [takeChildren, takeKeys, last, lastKey, separators_getD]
                refine ⟨⟨?_, ?_, ?_, ?_, ?_⟩, ?_, ?_⟩
                · exact ⟨rfl, fun d member => fits1 d (by simp at member ⊢; tauto)⟩
                · refine ⟨by simp [separators], fun d member => ?_⟩
                  rcases List.mem_cons.mp member with rfl | member
                  · exact fitsMoved d (by simp)
                  · exact fits2 d member
                · simp [elements_inner]
                · simp [leaves_inner]
                · exact (minKey_inner (fitsMoved m (by simp)).elements_ne_nil).symm
                · simp [size_inner]
                · simp [size_inner]
              · obtain ⟨m1, m2, rfl⟩ := List.length_eq_two.mp length
                have last : (kept ++ [z, m1, m2]).getD ((kept ++ [z, m1, m2]).length - 1) default =
                    m2 := by
                  simp
                have first : (kept ++ [z, m1, m2]).getD ((kept ++ [z, m1, m2]).length - 2) default =
                    m1 := by
                  simp
                have between : (separators minKey (kept ++ [z, m1, m2])).getD
                    ((kept ++ [z, m1, m2]).length - 2) default = m2.minKey := by
                  have key : (separators minKey ((kept ++ [z]) ++ m1 :: m2 :: [])).getD
                      (kept ++ [z]).length default = m2.minKey := separators_getD default
                  simpa using key
                simp only [show 2 - 1 = 1 from rfl, List.range_one, List.map_singleton, if_true]
                rw [takeChildren, takeKeys, last, first, between, lastKey, separators_getD]
                refine ⟨⟨?_, ?_, ?_, ?_, ?_⟩, ?_, ?_⟩
                · exact ⟨rfl, fun d member => fits1 d (by simp at member ⊢; tauto)⟩
                · refine ⟨by simp [separators], fun d member => ?_⟩
                  simp only [List.singleton_append, List.mem_cons] at member
                  rcases member with rfl | rfl | member
                  · exact fitsMoved d (by simp)
                  · exact fitsMoved d (by simp)
                  · exact fits2 d (by simpa using member)
                · simp [elements_inner]
                · simp [leaves_inner]
                · exact (minKey_inner (fitsMoved m1 (by simp)).elements_ne_nil).symm
                · simp [size_inner]
                · simp [size_inner]

/-- One or two entries move from the right sibling to the left one. -/
theorem rotateLeftChildren_spec {x y x' y' : Node level} {pivot : Int} {need : Nat}
    (goodX : Good b x) (goodY : Good b y) (nonempty : 0 < x.size) (few : need = 1 ∨ need = 2)
    (room : need < y.size) (result : rotateLeftChildren x y.minKey y need = (x', pivot, y')) :
    Rotated b x y x' pivot y' ∧ x'.size = x.size + need ∧ y'.size = y.size - need := by
  cases level with
  | zero =>
      cases result
      change need < y.elements.length at room
      refine ⟨⟨trivial, trivial, ?_, rfl, rfl⟩, ?_, ?_⟩
      · change (x.elements ++ List.take need y.elements) ++ List.drop need y.elements = _
        rw [List.append_assoc, List.take_append_drop]
      · change (x.elements ++ List.take need y.elements).length = x.elements.length + need
        rw [List.length_append, List.length_take_of_le room.le]
      · exact List.length_drop
  | succ level =>
      cases x using Node.inner_cases with
      | inner keys1 children1 =>
          cases y using Node.inner_cases with
          | inner keys2 children2 =>
              cases result
              rcases good_inner.mp goodX with ⟨rfl, fits1⟩
              rcases good_inner.mp goodY with ⟨rfl, fits2⟩
              rw [size_inner] at room nonempty
              have ne1 : children1 ≠ [] := List.ne_nil_of_length_pos nonempty
              rcases few with rfl | rfl
              · obtain ⟨m, d, rest, rfl⟩ : ∃ m d rest, children2 = m :: d :: rest := by
                  rcases children2 with _ | ⟨m, _ | ⟨d, rest⟩⟩
                  · simp at room
                  · simp at room
                  · exact ⟨m, d, rest, rfl⟩
                have fitsOf : ∀ e ∈ m :: d :: rest, e.elements ≠ [] := fun e member =>
                  (fits2 e member).elements_ne_nil
                rw [minKey_inner (fitsOf m (by simp))]
                refine ⟨⟨⟨?_, ?_⟩, ⟨rfl, fun e member => fits2 e (by simp at member ⊢; tauto)⟩,
                  ?_, ?_, ?_⟩, ?_, ?_⟩
                · rw [separators_append minKey ne1]
                  rfl
                · intro e member
                  simp only [Nat.sub_self, List.range_zero, List.map_nil, List.getD_cons_zero,
                    List.mem_append, List.mem_singleton] at member
                  rcases member with member | rfl
                  · exact fits1 e member
                  · exact fits2 e (by simp)
                · simp [elements_inner]
                · simp [leaves_inner]
                · exact (minKey_inner (fitsOf d (by simp))).symm
                · simp [size_inner]
                · simp [size_inner]
              · obtain ⟨m1, m2, d, rest, rfl⟩ : ∃ m1 m2 d rest,
                    children2 = m1 :: m2 :: d :: rest := by
                  rcases children2 with _ | ⟨m1, _ | ⟨m2, _ | ⟨d, rest⟩⟩⟩
                  · simp at room
                  · simp at room
                  · simp at room
                  · exact ⟨m1, m2, d, rest, rfl⟩
                have fitsOf : ∀ e ∈ m1 :: m2 :: d :: rest, e.elements ≠ [] := fun e member =>
                  (fits2 e member).elements_ne_nil
                rw [minKey_inner (fitsOf m1 (by simp))]
                refine ⟨⟨⟨?_, ?_⟩, ⟨rfl, fun e member => fits2 e (by simp at member ⊢; tauto)⟩,
                  ?_, ?_, ?_⟩, ?_, ?_⟩
                · rw [separators_append minKey ne1]
                  rfl
                · intro e member
                  simp only [show 2 - 1 = 1 from rfl, List.range_one, List.map_singleton, if_true,
                    List.getD_cons_zero, List.getD_cons_succ, List.mem_append, List.mem_cons,
                    List.not_mem_nil, or_false] at member
                  rcases member with member | rfl | rfl
                  · exact fits1 e member
                  · exact fits2 e (by simp)
                  · exact fits2 e (by simp)
                · simp [elements_inner]
                · simp [leaves_inner]
                · exact (minKey_inner (fitsOf d (by simp))).symm
                · simp [size_inner]
                · simp [size_inner]

/-- Two siblings become one. -/
theorem mergeChildren_spec {x y z : Node level} (goodX : Good b x) (goodY : Good b y)
    (nonemptyX : 0 < x.size) (nonemptyY : 0 < y.size)
    (result : mergeChildren x y.minKey y heap = (z, heap')) :
    Good b z ∧ z.elements = x.elements ++ y.elements ∧ z.size = x.size + y.size ∧
      (∀ pre post, heap.Linked (pre ++ (x.leaves ++ y.leaves) ++ post) →
        heap'.Linked (pre ++ z.leaves ++ post)) ∧ heap'.cardinality = heap.cardinality := by
  cases level with
  | zero =>
      cases result
      refine ⟨trivial, rfl, List.length_append, ?_, rfl⟩
      intro pre post linked
      change heap.Linked (pre ++ ([x.address] ++ [y.address]) ++ post) at linked
      change Heap.Linked _ (pre ++ [x.address] ++ post)
      refine ⟨by simpa using Links.Chain.removeAfter (by simpa using linked.chain), ?_⟩
      intro a member
      apply linked.fresh a
      simp only [List.mem_append, List.mem_singleton] at member ⊢
      tauto
  | succ level =>
      cases x using Node.inner_cases with
      | inner keys1 children1 =>
          cases y using Node.inner_cases with
          | inner keys2 children2 =>
              cases result
              rcases good_inner.mp goodX with ⟨rfl, fits1⟩
              rcases good_inner.mp goodY with ⟨rfl, fits2⟩
              rw [size_inner] at nonemptyX nonemptyY
              obtain ⟨y0, rest, rfl⟩ := List.exists_cons_of_ne_nil
                (List.ne_nil_of_length_pos nonemptyY)
              rw [minKey_inner (fits2 y0 (by simp)).elements_ne_nil]
              refine ⟨⟨?_, ?_⟩, by simp [elements_inner], by simp [size_inner], ?_, rfl⟩
              · rw [separators_append minKey (List.ne_nil_of_length_pos nonemptyX)]
                simp [separators]
              · intro d member
                exact (List.mem_append.mp member).elim (fits1 d) (fits2 d)
              · intro pre post linked
                simpa [leaves_inner] using linked

end Siblings

/-! ## The children of a node -/

/-- What a rebalance leaves of the children of a node. -/
structure Rebalanced (b : Bounds) {level : Nat} (children : List (Node level)) (heap : Heap)
    (keys' : List Int) (children' : List (Node level)) (heap' : Heap) : Prop where
  keys : keys' = separators minKey children'
  fits : ∀ c ∈ children', Fits b c
  elements : children'.flatMap elements = children.flatMap elements
  length_le : children'.length ≤ children.length
  le_length : children.length ≤ children'.length + 1
  linked : ∀ pre post, heap.Linked (pre ++ children.flatMap leaves ++ post) →
    heap'.Linked (pre ++ children'.flatMap leaves ++ post)
  cardinality : heap'.cardinality = heap.cardinality

section Children

variable {b : Bounds} {level : Nat} {heap heap' : Heap} {pre post : List (Node level)}
  {x y x' y' z : Node level} {pivot : Int} {need : Nat} {keys' : List Int}
  {children' : List (Node level)}

/-- Children within their bounds are left as they are. -/
theorem Rebalanced.refl {children : List (Node level)} (fits : ∀ c ∈ children, Fits b c) :
    Rebalanced b children heap (separators minKey children) children heap :=
  ⟨rfl, fits, rfl, le_rfl, Nat.le_succ _, fun _ _ linked => linked, rfl⟩

theorem Rotated.minKey_eq (rotated : Rotated b x y x' pivot y') (nonempty : x.elements ≠ [])
    (nonempty' : x'.elements ≠ []) : x.minKey = x'.minKey := by
  rcases exists_minKey nonempty with ⟨e, l, eq, min⟩
  rcases exists_minKey nonempty' with ⟨e', l', eq', min'⟩
  have same := rotated.elements
  rw [eq, eq', List.cons_append, List.cons_append, List.cons.injEq] at same
  rw [min, min', same.1]

theorem rotateRight_eq (same : x.minKey = x'.minKey) (pivot_eq : pivot = y'.minKey)
    (result : rotateRightChildren x y.minKey y need = (x', pivot, y')) :
    rotateRight (separators minKey (pre ++ x :: y :: post)) (pre ++ x :: y :: post)
      (pre.length + 1) need =
        (separators minKey (pre ++ x' :: y' :: post), pre ++ x' :: y' :: post) := by
  subst pivot_eq
  simp only [rotateRight, Nat.add_sub_cancel, getD_focus, getD_focus_succ, separators_getD, result,
    set_focus, set_focus_succ, separators_set (Or.inr same)]

theorem rotateLeft_eq (same : x.minKey = x'.minKey) (pivot_eq : pivot = y'.minKey)
    (result : rotateLeftChildren x y.minKey y need = (x', pivot, y')) :
    rotateLeft (separators minKey (pre ++ x :: y :: post)) (pre ++ x :: y :: post)
      pre.length need =
        (separators minKey (pre ++ x' :: y' :: post), pre ++ x' :: y' :: post) := by
  subst pivot_eq
  simp only [rotateLeft, getD_focus, getD_focus_succ, separators_getD, result, set_focus,
    set_focus_succ, separators_set (Or.inr same)]

theorem merge_eq (same : x.minKey = z.minKey)
    (result : mergeChildren x y.minKey y heap = (z, heap')) :
    merge (separators minKey (pre ++ x :: y :: post)) (pre ++ x :: y :: post) pre.length heap =
      ((separators minKey (pre ++ z :: post), pre ++ z :: post), heap') := by
  simp only [merge, getD_focus, getD_focus_succ, separators_getD, result, set_focus,
    eraseIdx_focus_succ, separators_eraseIdx (Or.inr same)]

/-- Two siblings between which entries have moved, among the others. -/
theorem Rotated.rebalanced (rotated : Rotated b x y x' pivot y')
    (fits : ∀ d ∈ pre ++ post, Fits b d) (fitsX : Fits b x') (fitsY : Fits b y') :
    Rebalanced b (pre ++ x :: y :: post) heap (separators minKey (pre ++ x' :: y' :: post))
      (pre ++ x' :: y' :: post) heap := by
  refine ⟨rfl, ?_, ?_, ?_, ?_, ?_, rfl⟩
  · intro d member
    simp only [List.mem_append, List.mem_cons] at member
    rcases member with member | rfl | rfl | member
    · exact fits d (by simp [member])
    · exact fitsX
    · exact fitsY
    · exact fits d (by simp [member])
  · have same := rotated.elements
    simp only [List.flatMap_append, List.flatMap_cons]
    rw [← List.append_assoc x'.elements, same, List.append_assoc]
  · simp
  · simp
  · intro P S linked
    have same := rotated.leaves
    simp only [List.flatMap_append, List.flatMap_cons] at linked ⊢
    rwa [← List.append_assoc x'.leaves, same, List.append_assoc x.leaves]

/-- Entries move from the left sibling. -/
theorem rotateRight_rebalanced (fits : ∀ d ∈ pre ++ post, Fits b d) (goodX : Good b x)
    (goodY : Good b y) (nonempty : 0 < y.size) (few : need = 1 ∨ need = 2)
    (lowerX : b.lower level + need ≤ x.size) (upperX : x.size ≤ b.upper level)
    (lowerY : b.lower level ≤ y.size + need) (upperY : y.size + need ≤ b.upper level) :
    Rebalanced b (pre ++ x :: y :: post) heap
      (rotateRight (separators minKey (pre ++ x :: y :: post)) (pre ++ x :: y :: post)
        (pre.length + 1) need).1
      (rotateRight (separators minKey (pre ++ x :: y :: post)) (pre ++ x :: y :: post)
        (pre.length + 1) need).2 heap := by
  have lower := b.two_le_lower level
  rcases result : rotateRightChildren x y.minKey y need with ⟨x', pivot, y'⟩
  rcases rotateRightChildren_spec goodX goodY nonempty few (by omega) result with
    ⟨rotated, size1, size2⟩
  have fitsX : Fits b x' := ⟨rotated.good1, by omega, by omega⟩
  have fitsY : Fits b y' := ⟨rotated.good2, by omega, by omega⟩
  have same := rotated.minKey_eq (elements_ne_nil goodX (by omega)) fitsX.elements_ne_nil
  rw [rotateRight_eq same rotated.pivot_eq result]
  exact rotated.rebalanced fits fitsX fitsY

/-- Entries move from the right sibling. -/
theorem rotateLeft_rebalanced (fits : ∀ d ∈ pre ++ post, Fits b d) (goodX : Good b x)
    (goodY : Good b y) (nonempty : 0 < x.size) (few : need = 1 ∨ need = 2)
    (lowerX : b.lower level ≤ x.size + need) (upperX : x.size + need ≤ b.upper level)
    (lowerY : b.lower level + need ≤ y.size) (upperY : y.size ≤ b.upper level) :
    Rebalanced b (pre ++ x :: y :: post) heap
      (rotateLeft (separators minKey (pre ++ x :: y :: post)) (pre ++ x :: y :: post)
        pre.length need).1
      (rotateLeft (separators minKey (pre ++ x :: y :: post)) (pre ++ x :: y :: post)
        pre.length need).2 heap := by
  have lower := b.two_le_lower level
  rcases result : rotateLeftChildren x y.minKey y need with ⟨x', pivot, y'⟩
  rcases rotateLeftChildren_spec goodX goodY nonempty few (by omega) result with
    ⟨rotated, size1, size2⟩
  have fitsX : Fits b x' := ⟨rotated.good1, by omega, by omega⟩
  have fitsY : Fits b y' := ⟨rotated.good2, by omega, by omega⟩
  have same := rotated.minKey_eq (elements_ne_nil goodX nonempty) fitsX.elements_ne_nil
  rw [rotateLeft_eq same rotated.pivot_eq result]
  exact rotated.rebalanced fits fitsX fitsY

/-- A child is merged with its right sibling. -/
theorem merge_rebalanced (fits : ∀ d ∈ pre ++ post, Fits b d) (goodX : Good b x)
    (goodY : Good b y) (nonemptyX : 0 < x.size) (nonemptyY : 0 < y.size)
    (lower : b.lower level ≤ x.size + y.size) (upper : x.size + y.size ≤ b.upper level)
    (result : merge (separators minKey (pre ++ x :: y :: post)) (pre ++ x :: y :: post)
      pre.length heap = ((keys', children'), heap')) :
    Rebalanced b (pre ++ x :: y :: post) heap keys' children' heap' := by
  rcases merged : mergeChildren x y.minKey y heap with ⟨z, heap1⟩
  rcases mergeChildren_spec goodX goodY nonemptyX nonemptyY merged with
    ⟨good, elements, size, linked, cardinality⟩
  have same := minKey_congr (elements_ne_nil goodX nonemptyX) elements
  rw [merge_eq same.symm merged] at result
  cases result
  refine ⟨rfl, ?_, ?_, ?_, ?_, ?_, cardinality⟩
  · intro d member
    simp only [List.mem_append, List.mem_cons] at member
    rcases member with member | rfl | member
    · exact fits d (by simp [member])
    · exact ⟨good, by omega, by omega⟩
    · exact fits d (by simp [member])
  · simp [elements]
  · simp
  · simp only [List.length_append, List.length_cons]
    exact le_rfl
  · intro P S chained
    have moved := linked (P ++ pre.flatMap leaves) (post.flatMap leaves ++ S)
      (by simpa using chained)
    simpa using moved

/-- A child that has enough entries stays as it is. -/
theorem rebalanceLb_enough {c : Node level} (isRoot : Bool) (keys : List Int)
    (enough : b.lower level ≤ c.size) :
    rebalanceLb b isRoot keys (pre ++ c :: post) pre.length heap =
      ((keys, pre ++ c :: post), heap) := by
  rw [rebalanceLb, getD_focus]
  exact if_pos enough

/-- A child that is short of one entry is brought up to the lower bound. -/
theorem rebalanceLb_spec {c : Node level} (isRoot : Bool)
    (several : 2 ≤ (pre ++ c :: post).length) (fits : ∀ d ∈ pre ++ post, Fits b d)
    (good : Good b c) (short : b.lower level ≤ c.size + 1) (upper : c.size ≤ b.upper level)
    (result : rebalanceLb b isRoot (separators minKey (pre ++ c :: post)) (pre ++ c :: post)
      pre.length heap = ((keys', children'), heap')) :
    Rebalanced b (pre ++ c :: post) heap keys' children' heap' := by
  have two := b.two_le_lower level
  have bounds := b.lower_le_upper level
  by_cases enough : c.size ≥ b.lower level
  · rw [rebalanceLb_enough isRoot _ enough] at result
    cases result
    refine Rebalanced.refl fun d member => ?_
    simp only [List.mem_append, List.mem_cons] at member
    rcases member with member | rfl | member
    · exact fits d (by simp [member])
    · exact ⟨good, enough, upper⟩
    · exact fits d (by simp [member])
  · have need : b.lower level - c.size = 1 := by omega
    simp only [rebalanceLb, getD_focus] at result
    rw [if_neg enough, if_neg (fun h => absurd h.2 (by omega)), need] at result
    have leftFits : ∀ before x, pre = before ++ [x] →
        Fits b x ∧ ∀ d ∈ before ++ post, Fits b d := by
      rintro before x rfl
      exact ⟨fits x (by simp), fun d member => fits d (by simp at member ⊢; tauto)⟩
    have rightFits : ∀ y after, post = y :: after →
        Fits b y ∧ ∀ d ∈ pre ++ after, Fits b d := by
      rintro y after rfl
      exact ⟨fits y (by simp), fun d member => fits d (by simp at member ⊢; tauto)⟩
    split_ifs at result with left2 right2 left1 right1 right0
    · rcases exists_left left2.1 with ⟨before, x, rfl⟩
      rcases leftFits before x rfl with ⟨fitsX, others⟩
      have room := left2.2
      simp only [List.append_assoc, List.singleton_append, List.length_append,
        List.length_singleton, Nat.add_sub_cancel, getD_focus] at room result ⊢
      cases result
      apply rotateRight_rebalanced others fitsX.1 good (by omega) (Or.inr rfl) (by omega)
        fitsX.2.2 (by omega) (by omega)
    · rcases exists_right right2.1 with ⟨y, after, rfl⟩
      rcases rightFits y after rfl with ⟨fitsY, others⟩
      have room := right2.2
      rw [getD_focus_succ] at room
      cases result
      apply rotateLeft_rebalanced others good fitsY.1 (by omega) (Or.inr rfl) (by omega)
        (by omega) (by omega) fitsY.2.2
    · rcases exists_left left1.1 with ⟨before, x, rfl⟩
      rcases leftFits before x rfl with ⟨fitsX, others⟩
      have room := left1.2
      simp only [List.append_assoc, List.singleton_append, List.length_append,
        List.length_singleton, Nat.add_sub_cancel, getD_focus] at room result ⊢
      cases result
      apply rotateRight_rebalanced others fitsX.1 good (by omega) (Or.inl rfl) (by omega)
        fitsX.2.2 (by omega) (by omega)
    · rcases exists_right right1.1 with ⟨y, after, rfl⟩
      rcases rightFits y after rfl with ⟨fitsY, others⟩
      have room := right1.2
      rw [getD_focus_succ] at room
      cases result
      apply rotateLeft_rebalanced others good fitsY.1 (by omega) (Or.inl rfl) (by omega)
        (by omega) (by omega) fitsY.2.2
    · rcases exists_right right0 with ⟨y, after, rfl⟩
      rcases rightFits y after rfl with ⟨fitsY, others⟩
      have tight : y.size < b.lower level + 1 := by
        by_contra more
        exact right1 ⟨right0, by rw [getD_focus_succ]; omega⟩
      have lowerY := fitsY.2.1
      exact merge_rebalanced others good fitsY.1 (by omega) (by omega) (by omega) (by omega) result
    · have left0 : pre.length > 0 := by
        simp only [List.length_append, List.length_cons] at several right0
        omega
      rcases exists_left left0 with ⟨before, x, rfl⟩
      rcases leftFits before x rfl with ⟨fitsX, others⟩
      simp only [List.append_assoc, List.singleton_append, List.length_append,
        List.length_singleton, Nat.add_sub_cancel, getD_focus] at left1 result ⊢
      have tight : x.size < b.lower level + 1 := by
        by_contra more
        exact left1 ⟨Nat.succ_pos _, by omega⟩
      have lowerX := fitsX.2.1
      exact merge_rebalanced others fitsX.1 good (by omega) (by omega) (by omega) (by omega) result

end Children

end Rma.ABTree
