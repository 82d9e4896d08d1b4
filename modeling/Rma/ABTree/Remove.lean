import Rma.ABTree.Rebalance

/-!
# Removal from an (a,b)-tree

A removal descends to one leaf. Where the key is a separator it descends to the
right of it and brings the new minimum back in `omin`. `removeNode_spec` is the
induction over the levels: when the leaf holds the key, one pair leaves the node
and the node loses at most one child; otherwise nothing changes, and the key is
nowhere below the node.
-/

namespace Rma.ABTree

open Base Node

/-! ## Removal from a leaf -/

/-- The element of a leaf that a removal takes: the last one when it has the key,
otherwise the first one that has it. -/
def leafPair (l : List (Int × Int)) (key : Int) : Option (Int × Int) :=
  if 0 < l.length ∧ keyAt l (l.length - 1) = key then l.getLast?
  else l.find? fun e => e.1 = key

/-- The element of a node that a removal takes. -/
def removedPair : {level : Nat} → Node level → Int → (followMin : Bool) → Option (Int × Int)
  | 0, .leaf l, key, _ => leafPair l.elements key
  | _ + 1, .inner keys children, key, followMin =>
    let n := children.length
    let i := insertIndex keys n key
    if followMin = false ∧ i < n - 1 ∧ keys.getD i default = key then
      removedPair (children.getD (i + 1) default) key true
    else removedPair (children.getD i default) key followMin

/-- Erasing a position removes its pair. -/
theorem eraseIdx_removed {l : List (Int × Int)} {i : Nat} (inside : i < l.length) :
    Base.Removed (keyAt l i) (l.getD i default).2 l (l.eraseIdx i) := by
  rcases exists_focus inside with ⟨pre, x, post, rfl, rfl⟩
  exact ⟨pre, post, by rw [keyAt, getD_focus], eraseIdx_focus pre post x⟩

/-- The leaf loses one element with the key when it has one, and nothing otherwise. -/
theorem removeLeaf_spec (l : Leaf) (key : Int) (sorted : SortedPairs l.elements) :
    (∀ e, leafPair l.elements key = some e →
      Base.Removed key e.2 l.elements (removeLeaf l key).1.elements ∧
        (removeLeaf l key).1.address = l.address ∧ (removeLeaf l key).2 = e.2) ∧
      (leafPair l.elements key = none →
        removeLeaf l key = (l, -1) ∧ ∀ e ∈ l.elements, e.1 ≠ key) := by
  unfold removeLeaf leafPair
  by_cases last : 0 < l.elements.length ∧ keyAt l.elements (l.elements.length - 1) = key
  · -- the last element has the key
    have inside : l.elements.length - 1 < l.elements.length := Nat.sub_lt last.1 one_pos
    have final : l.elements.getLast? = some (l.elements.getD (l.elements.length - 1) default) := by
      rw [List.getLast?_eq_getElem?, List.getD_eq_getElem _ _ inside, List.getElem?_eq_getElem]
    rw [if_pos last, if_pos last, final]
    refine ⟨fun e found => ?_, fun absent => nomatch absent⟩
    cases found
    refine ⟨?_, rfl, rfl⟩
    have removed := eraseIdx_removed inside
    rwa [last.2] at removed
  · rw [if_neg last, if_neg last]
    simp only
    rcases scanUp_spec (fun j => decide (keyAt l.elements j < key)) 0 l.elements.length with
      ⟨_, upper, passed, _⟩
    have scan := sorted.scan_key (fun j inside => keyAt_eq inside) key
    generalize scanUp (fun j => decide (keyAt l.elements j < key)) 0 l.elements.length = i at *
    -- the elements before position i have smaller keys
    have before : ∀ j, j < i → keyAt l.elements j < key := fun j less =>
      of_decide_eq_true (passed j (Nat.zero_le _) less)
    by_cases hit : i < l.elements.length ∧ keyAt l.elements i = key
    · have greater : 0 < l.elements.length ∧ keyAt l.elements (l.elements.length - 1) > key := by
        have le := keyAt_le sorted (show i ≤ l.elements.length - 1 by omega) (by omega)
        refine ⟨by omega, lt_of_le_of_ne (hit.2 ▸ le) fun same => last ⟨by omega, same.symm⟩⟩
      have first : l.elements.find? (fun e => decide (e.1 = key)) =
          some (l.elements.getD i default) := by
        rw [List.find?_eq_some_iff_getElem]
        refine ⟨decide_eq_true hit.2, i, hit.1, (List.getD_eq_getElem _ _ hit.1).symm, ?_⟩
        intro j less
        have smaller := before j less
        rw [keyAt_eq (less.trans hit.1)] at smaller
        simp [smaller.ne]
      rw [if_pos greater, if_pos hit, first]
      refine ⟨fun e found => ?_, fun absent => nomatch absent⟩
      cases found
      refine ⟨?_, rfl, rfl⟩
      have removed := eraseIdx_removed hit.1
      rwa [hit.2] at removed
    · have absent := scan hit
      have nothing : l.elements.find? (fun e => decide (e.1 = key)) = none := by
        rw [List.find?_eq_none]
        exact fun e member found => absent e member (of_decide_eq_true found)
      rw [if_neg hit, ite_self, nothing]
      exact ⟨fun e found => (nomatch found), fun _ => ⟨rfl, absent⟩⟩

/-! ## The induction over the levels -/

/-- What a removal from a node leaves. -/
structure RemovedNode (b : Bounds) {level : Nat} (n : Node level) (key : Int) (followMin : Bool)
    (r : Removed level) (heap heap' : Heap) : Prop where
  good : Good b r.node
  size_le : r.node.size ≤ n.size
  le_size : n.size ≤ r.node.size + 1
  omin_eq : followMin = true → r.node.elements ≠ [] → r.omin = r.node.minKey
  linked : ∀ pre post, heap.Linked (pre ++ n.leaves ++ post) →
    heap'.Linked (pre ++ r.node.leaves ++ post)
  cardinality : heap'.cardinality = heap.cardinality
  found : ∀ e, removedPair n key followMin = some e →
    Base.Removed key e.2 n.elements r.node.elements ∧ r.value = e.2
  absent : removedPair n key followMin = none →
    r.node = n ∧ heap' = heap ∧ r.value = -1 ∧ ∀ e ∈ n.elements, e.1 ≠ key

section Descend

variable {b : Bounds} {level : Nat} {key omin : Int} {heap heap1 heap' : Heap} {keys keys' : List Int}
  {pre post children' : List (Node level)} {followMin childMin : Bool}

theorem removeNode_leaf (n : Node 0) (isRoot : Bool) :
    removeNode b n key followMin isRoot heap = (⟨.leaf (removeLeaf n key).1, (removeLeaf n key).2,
      if 0 < (removeLeaf n key).1.elements.length then keyAt (removeLeaf n key).1.elements 0
      else -1⟩, heap) :=
  rfl

theorem RemovedNode.leaf (n : Node 0) (followMin isRoot : Bool) (sorted : SortedPairs n.elements) :
    RemovedNode b n key followMin (removeNode b n key followMin isRoot heap).1 heap
      (removeNode b n key followMin isRoot heap).2 := by
  rcases removeLeaf_spec n key sorted with ⟨found, absent⟩
  rcases result : removeLeaf n key with ⟨l, value⟩
  rw [result] at found absent
  rw [removeNode_leaf, result]
  rcases pair : leafPair n.elements key with _ | e
  · rcases absent pair with ⟨same, none⟩
    cases same
    refine ⟨trivial, le_rfl, Nat.le_succ _, ?_, fun _ _ linked => linked, rfl,
      fun e found => absurd (pair.symm.trans found) (Option.some_ne_none e).symm,
        fun _ => ⟨rfl, rfl, rfl, none⟩⟩
    exact fun _ nonempty => if_pos (List.length_pos_of_ne_nil nonempty)
  · rcases found e pair with ⟨removed, address, value_eq⟩
    have length := removed.length_eq
    refine ⟨trivial, ?_, ?_, ?_, ?_, rfl, ?_,
      fun absent => absurd (pair.symm.trans absent) (Option.some_ne_none e)⟩
    · exact (Nat.le_succ _).trans length.ge
    · exact length.le
    · exact fun _ nonempty => if_pos (List.length_pos_of_ne_nil nonempty)
    · intro P S linked
      change heap.Linked (P ++ [n.address] ++ S) at linked
      change heap.Linked (P ++ [l.address] ++ S)
      rwa [address]
    · intro e' found'
      cases pair.symm.trans found'
      exact ⟨removed, value_eq⟩

/-- The removal from a child and the rebalance of the children afterwards. -/
theorem RemovedNode.child {c : Node level} {r : Removed level}
    (fits : ∀ d ∈ pre ++ c :: post, Fits b d) (removed : RemovedNode b c key childMin r heap heap1)
    (pair : removedPair (.inner keys (pre ++ c :: post)) key followMin =
      removedPair c key childMin)
    (others : removedPair c key childMin = none →
      ∀ e ∈ pre.flatMap elements ++ post.flatMap elements, e.1 ≠ key)
    (unchanged : removedPair c key childMin = none →
      keys' = keys ∧ children' = pre ++ c :: post ∧ heap' = heap1)
    (first : followMin = true → pre = [] ∧ childMin = true ∧ omin = r.omin)
    (rebalanced : Rebalanced b (pre ++ r.node :: post) heap1 keys' children' heap') :
    RemovedNode b (.inner keys (pre ++ c :: post)) key followMin
      ⟨.inner keys' children', r.value, omin⟩ heap heap' := by
  have fitsC := fits c (by simp)
  have lower := b.two_le_lower level
  have lowerC := fitsC.2.1
  have sizeC := removed.le_size
  have nonempty := elements_ne_nil removed.good (by omega)
  have sizeLe := rebalanced.length_le
  have leSize := rebalanced.le_length
  simp only [List.length_append, List.length_cons] at sizeLe leSize
  refine ⟨⟨rebalanced.keys, rebalanced.fits⟩, ?_, ?_, ?_, ?_, ?_, ?_, ?_⟩
  · simpa [size_inner] using sizeLe
  · simpa [size_inner] using leSize
  · intro follow _
    rcases first follow with ⟨rfl, childFollow, rfl⟩
    rcases exists_minKey nonempty with ⟨e, l, eq, min⟩
    have head : (Node.inner keys' children').elements = e :: (l ++ post.flatMap elements) := by
      rw [elements_inner, rebalanced.elements, List.nil_append, List.flatMap_cons, eq,
        List.cons_append]
    change r.omin = (Node.inner keys' children').minKey
    rw [removed.omin_eq childFollow nonempty, min, minKey_eq head]
  · intro P S linked
    apply rebalanced.linked
    have moved := removed.linked (P ++ pre.flatMap leaves) (post.flatMap leaves ++ S)
      (by simpa [leaves_inner] using linked)
    simpa using moved
  · rw [rebalanced.cardinality, removed.cardinality]
  · intro e found
    rcases removed.found e (pair ▸ found) with ⟨taken, value⟩
    have context := taken.context (pre.flatMap elements) (post.flatMap elements)
    refine ⟨?_, value⟩
    change Base.Removed key e.2 (Node.inner keys (pre ++ c :: post)).elements
      (Node.inner keys' children').elements
    rw [elements_inner, elements_inner, rebalanced.elements]
    simpa using context
  · intro none
    rw [pair] at none
    rcases unchanged none with ⟨rfl, rfl, rfl⟩
    rcases removed.absent none with ⟨_, rfl, value, absent⟩
    refine ⟨rfl, rfl, value, fun e member => ?_⟩
    simp only [elements_inner, List.flatMap_append, List.flatMap_cons, List.mem_append] at member
    rcases member with member | member | member
    · exact others none e (List.mem_append_left _ member)
    · exact absent e member
    · exact others none e (List.mem_append_right _ member)

/-- The minimum of a node stays where the key is another one. -/
theorem RemovedNode.minKey_eq {n : Node level} {r : Removed level}
    (removed : RemovedNode b n key followMin r heap heap') (nonempty : n.elements ≠ [])
    (other : n.minKey ≠ key) : r.node.minKey = n.minKey := by
  rcases pair : removedPair n key followMin with _ | e
  · rw [(removed.absent pair).1]
  · have taken := (removed.found e pair).1
    rcases exists_minKey nonempty with ⟨f, l, eq, min⟩
    rw [eq] at taken
    rcases taken.head (min ▸ other) with ⟨l', head⟩
    rw [min, ABTree.minKey_eq head]

/-- The separators follow a removal from the child where the scan stops. -/
theorem RemovedNode.separators_eq {c : Node level} {r : Removed level}
    (removed : RemovedNode b c key followMin r heap heap') (nonempty : c.elements ≠ [])
    (descent : Descent (· < key) pre c post) :
    separators minKey (pre ++ c :: post) = separators minKey (pre ++ r.node :: post) := by
  rw [separators_focus minKey pre c, separators_focus minKey pre r.node, separators_congr]
  rcases List.eq_nil_or_concat pre with rfl | ⟨before, x, rfl⟩
  · exact Or.inl rfl
  · have smaller := descent.before (by simp)
    exact Or.inr (removed.minKey_eq nonempty smaller.ne).symm

/-- When the key is the minimum of the node, the scan stops at the first child. -/
theorem Descent.first {c : Node level} (descent : Descent (· < key) pre c post)
    (fits : ∀ d ∈ pre ++ c :: post, Fits b d)
    (min : (Node.inner keys (pre ++ c :: post)).minKey = key) : pre = [] ∧ c.minKey = key := by
  cases pre with
  | nil =>
      rw [List.nil_append, minKey_inner (fits c (by simp)).elements_ne_nil] at min
      exact ⟨rfl, min⟩
  | cons x pre =>
      have fitsX : Fits b x := fits x (by simp)
      rcases exists_minKey fitsX.elements_ne_nil with ⟨e, l, eq, minX⟩
      have le := descent.below e (by simp [eq])
      rw [List.cons_append, minKey_inner fitsX.elements_ne_nil, minX] at min
      exact absurd (descent.before (by simp)) (not_lt.mpr (min ▸ le))

/-- The siblings of the child where the scan stops do not hold a key that is not
the separator after it. -/
theorem Descent.others_ne {c : Node level} (descent : Descent (· < key) pre c post)
    (other : ¬(pre.length < (pre ++ c :: post).length - 1 ∧
      (separators minKey (pre ++ c :: post)).getD pre.length default = key)) :
    ∀ e ∈ pre.flatMap elements ++ post.flatMap elements, e.1 ≠ key := by
  intro e member same
  rcases List.mem_append.mp member with member | member
  · have notFirst : pre ≠ [] := by
      rintro rfl
      cases member
    exact absurd (descent.before notFirst) (not_lt.mpr (same ▸ descent.below e member))
  · cases post with
    | nil => cases member
    | cons d rest =>
        have le := descent.above d rest rfl e member
        have ge := not_lt.mp (descent.after d rest rfl)
        apply other
        refine ⟨by simp, ?_⟩
        rw [separators_getD]
        exact le_antisymm (same ▸ le) ge

/-! The three cases of `removeNode`, where the scan stops at the child `c`. -/

theorem removeNode_separator {c d : Node level} {rest : List (Node level)} {r : Removed level}
    {isRoot : Bool}
    (index : insertIndex keys (pre ++ c :: d :: rest).length key = pre.length)
    (separator : keys.getD pre.length default = key)
    (result : removeNode b d key true false heap = (r, heap1))
    (balance : rebalanceLb b isRoot (keys.set pre.length r.omin) (pre ++ c :: r.node :: rest)
      (pre.length + 1) heap1 = ((keys', children'), heap')) :
    removeNode b (.inner keys (pre ++ c :: d :: rest)) key false isRoot heap =
      (⟨.inner keys' children', r.value, -1⟩, heap') := by
  have inside : pre.length < (pre ++ c :: d :: rest).length - 1 := by simp
  simp only [removeNode, index, inside, separator, and_self, if_true, getD_focus_succ, result,
    set_focus_succ, balance]

theorem removeNode_lower {c : Node level} {r : Removed level} {isRoot : Bool}
    (index : insertIndex keys (pre ++ c :: post).length key = pre.length)
    (other : ¬(followMin = false ∧ pre.length < (pre ++ c :: post).length - 1 ∧
      keys.getD pre.length default = key))
    (tight : c.size ≤ b.lower level)
    (result : removeNode b c key followMin false heap = (r, heap1))
    (balance : rebalanceLb b isRoot keys (pre ++ r.node :: post) pre.length heap1 =
      ((keys', children'), heap')) :
    removeNode b (.inner keys (pre ++ c :: post)) key followMin isRoot heap =
      (⟨.inner keys' children', r.value, r.omin⟩, heap') := by
  simp only [removeNode, index, other, if_false, getD_focus, tight, if_true, result, set_focus,
    balance]

theorem removeNode_spare {c : Node level} {r : Removed level} {isRoot : Bool}
    (index : insertIndex keys (pre ++ c :: post).length key = pre.length)
    (other : ¬(followMin = false ∧ pre.length < (pre ++ c :: post).length - 1 ∧
      keys.getD pre.length default = key))
    (spare : ¬c.size ≤ b.lower level)
    (result : removeNode b c key followMin false heap = (r, heap1)) :
    removeNode b (.inner keys (pre ++ c :: post)) key followMin isRoot heap =
      (⟨.inner keys (pre ++ r.node :: post), r.value, r.omin⟩, heap1) := by
  simp only [removeNode, index, other, if_false, getD_focus, spare, result, set_focus]

theorem removedPair_separator {c d : Node level} {rest : List (Node level)}
    (index : insertIndex keys (pre ++ c :: d :: rest).length key = pre.length)
    (separator : keys.getD pre.length default = key) :
    removedPair (.inner keys (pre ++ c :: d :: rest)) key false = removedPair d key true := by
  have inside : pre.length < (pre ++ c :: d :: rest).length - 1 := by simp
  simp only [removedPair, index, inside, separator, and_self, if_true, getD_focus_succ]

theorem removedPair_child {c : Node level}
    (index : insertIndex keys (pre ++ c :: post).length key = pre.length)
    (other : ¬(followMin = false ∧ pre.length < (pre ++ c :: post).length - 1 ∧
      keys.getD pre.length default = key)) :
    removedPair (.inner keys (pre ++ c :: post)) key followMin = removedPair c key followMin := by
  simp only [removedPair, index, other, if_false, getD_focus]

/-- Removal from a good node; `omin` is given where the key is the minimum of the node. -/
theorem removeNode_spec {level : Nat} {n : Node level} {heap : Heap} {followMin isRoot : Bool}
    (good : Good b n) (sorted : SortedPairs n.elements) (several : 0 < level → 2 ≤ n.size)
    (first : followMin = true → n.elements ≠ [] ∧ n.minKey = key) :
    RemovedNode b n key followMin (removeNode b n key followMin isRoot heap).1 heap
      (removeNode b n key followMin isRoot heap).2 := by
  induction level generalizing heap followMin isRoot with
  | zero => exact RemovedNode.leaf n followMin isRoot sorted
  | succ level ih =>
      cases n using Node.inner_cases with
      | inner keys children =>
          rcases good_inner.mp good with ⟨rfl, fits⟩
          have several : 2 ≤ children.length := several (Nat.succ_pos level)
          have lower := b.two_le_lower level
          rcases exists_descent (· < key) fits (List.ne_nil_of_length_pos (by omega)) sorted with
            ⟨pre, c, post, rfl, descent⟩
          have index : insertIndex (separators minKey (pre ++ c :: post))
              (pre ++ c :: post).length key = pre.length := descent.index
          have fitsC : Fits b c := fits c (by simp)
          have lowerC := fitsC.2.1
          by_cases case1 : followMin = false ∧ pre.length < (pre ++ c :: post).length - 1 ∧
              (separators minKey (pre ++ c :: post)).getD pre.length default = key
          · rcases exists_right case1.2.1 with ⟨d, rest, rfl⟩
            have minD : d.minKey = key := by
              rw [← case1.2.2, separators_getD]
            have fitsD : Fits b d := fits d (by simp)
            have lowerD := fitsD.2.1
            have sortedD : SortedPairs d.elements := by
              have split : pre ++ c :: d :: rest = (pre ++ [c]) ++ d :: rest := by simp
              rw [elements_inner, split] at sorted
              exact (sorted_context sorted fitsD.elements_ne_nil fun x member =>
                (fits x (by simp [member])).elements_ne_nil).2.2
            have removed : RemovedNode b d key true (removeNode b d key true false heap).1 heap
                (removeNode b d key true false heap).2 := ih fitsD.1 sortedD
              (fun _ => by omega) fun _ => ⟨fitsD.elements_ne_nil, minD⟩
            rcases result : removeNode b d key true false heap with ⟨r, heap1⟩
            rw [result] at removed
            simp only at removed
            have found : removedPair d key true ≠ none := by
              intro none
              rcases exists_minKey fitsD.elements_ne_nil with ⟨e, l, eq, min⟩
              exact (removed.absent none).2.2.2 e (by simp [eq]) (min ▸ minD)
            have sizeD := removed.le_size
            have sizeLe := removed.size_le
            have omin := removed.omin_eq rfl (elements_ne_nil removed.good (by omega))
            cases case1.1
            rcases balance : rebalanceLb b isRoot
              ((separators minKey (pre ++ c :: d :: rest)).set pre.length r.omin)
              (pre ++ c :: r.node :: rest) (pre.length + 1) heap1 with ⟨⟨keys', children'⟩, heap'⟩
            rw [removeNode_separator index case1.2.2 result balance]
            have pair := removedPair_separator index case1.2.2
            -- the child that changes is now seen from its own position
            have focus : ∀ x : Node level, pre ++ c :: x :: rest = (pre ++ [c]) ++ x :: rest :=
              fun x => by simp
            rw [omin, separators_set (Or.inr rfl), focus r.node,
              show pre.length + 1 = (pre ++ [c]).length by simp] at balance
            rw [focus d] at fits several pair ⊢
            apply RemovedNode.child fits removed pair
            · exact fun none => absurd none found
            · exact fun none => absurd none found
            · exact fun follow => absurd follow Bool.false_ne_true
            · refine rebalanceLb_spec isRoot ?_ ?_ removed.good ?_ ?_ balance
              · simpa using several
              · exact fun x member => fits x (by simp at member ⊢; tauto)
              · omega
              · exact sizeLe.trans fitsD.2.2
          · -- the key is below the child or nowhere
            have firstC : followMin = true → pre = [] ∧ c.minKey = key := fun follow =>
              descent.first fits (first follow).2
            have removed : RemovedNode b c key followMin (removeNode b c key followMin false heap).1
                heap (removeNode b c key followMin false heap).2 := ih fitsC.1 descent.sorted
              (fun _ => by omega) fun follow => ⟨fitsC.elements_ne_nil, (firstC follow).2⟩
            rcases result : removeNode b c key followMin false heap with ⟨r, heap1⟩
            rw [result] at removed
            simp only at removed
            have sizeC := removed.le_size
            have sizeLe := removed.size_le
            have fitsOthers : ∀ x ∈ pre ++ post, Fits b x := fun x member =>
              fits x (by simp at member ⊢; tauto)
            have others : removedPair c key followMin = none →
                ∀ e ∈ pre.flatMap elements ++ post.flatMap elements, e.1 ≠ key := by
              intro none
              apply descent.others_ne
              rintro ⟨inside, separator⟩
              cases followMin with
              | false => exact case1 ⟨rfl, inside, separator⟩
              | true =>
                  rcases exists_minKey fitsC.elements_ne_nil with ⟨f, l, eq, min⟩
                  exact (removed.absent none).2.2.2 f (by simp [eq]) (min ▸ (firstC rfl).2)
            have keysEq := removed.separators_eq fitsC.elements_ne_nil descent
            have pair := removedPair_child index case1
            by_cases tight : c.size ≤ b.lower level
            · rcases balance : rebalanceLb b isRoot (separators minKey (pre ++ c :: post))
                (pre ++ r.node :: post) pre.length heap1 with ⟨⟨keys', children'⟩, heap'⟩
              rw [removeNode_lower index case1 tight result balance]
              apply RemovedNode.child fits removed pair others
              · intro none
                rw [(removed.absent none).1, rebalanceLb_enough isRoot _ lowerC] at balance
                cases balance
                exact ⟨rfl, rfl, rfl⟩
              · exact fun follow => ⟨(firstC follow).1, follow, rfl⟩
              · rw [keysEq] at balance
                refine rebalanceLb_spec isRoot ?_ fitsOthers removed.good ?_ ?_ balance
                · simpa using several
                · omega
                · exact sizeLe.trans fitsC.2.2
            · rw [removeNode_spare index case1 tight result]
              apply RemovedNode.child fits removed pair others
              · exact fun none => ⟨rfl, by rw [(removed.absent none).1], rfl⟩
              · exact fun follow => ⟨(firstC follow).1, follow, rfl⟩
              · rw [keysEq]
                apply Rebalanced.refl
                intro x member
                simp only [List.mem_append, List.mem_cons] at member
                rcases member with member | rfl | member
                · exact fits x (by simp [member])
                · exact ⟨removed.good, by omega, sizeLe.trans fitsC.2.2⟩
                · exact fits x (by simp [member])

end Descend

end Rma.ABTree
