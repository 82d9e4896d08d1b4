import Rma.DynamicIndex.Rebalance

/-!
# Removal of one element from the dynamic index

`remove_any` descends to one leaf. Where the key is a separator it descends to the
right of it and brings the new minimum back in `omin`. `removeNode_spec` is the
induction over the levels: one pair with the key leaves the node, which loses at
most one child, or nothing changes and the key is nowhere below the node.
-/

namespace Rma.DynamicIndex

open Base SearchTree Node

variable {K V : Type} [LinearOrder K] [Inhabited K] [Inhabited V]

/-! ## Removal from a leaf -/

omit [LinearOrder K] in
/-- Erasing a position removes its pair. -/
theorem eraseIdx_removed {l : List (K × V)} {i : Nat} (inside : i < l.length) :
    Base.Removed (keyAt l i) (l.getD i default).2 l (l.eraseIdx i) := by
  rcases exists_focus inside with ⟨pre, x, post, rfl, rfl⟩
  exact ⟨pre, post, by rw [keyAt, getD_focus], eraseIdx_focus pre post x⟩

/-- The leaf loses one element with the key, or it has none. -/
theorem removeLeaf_spec (l : Leaf K V) (key : K) (sorted : SortedPairs l.elements) :
    (∃ v, (removeLeaf l key).2 = some v ∧ (removeLeaf l key).1.address = l.address ∧
        Base.Removed key v l.elements (removeLeaf l key).1.elements) ∨
      removeLeaf l key = (l, none) ∧ ∀ e ∈ l.elements, e.1 ≠ key := by
  unfold removeLeaf
  by_cases some : 0 < l.elements.length
  · have inside : l.elements.length - 1 < l.elements.length := Nat.sub_lt some one_pos
    simp only [some, if_true]
    split_ifs with last greater hit
    · -- the last element has the key
      have removed := eraseIdx_removed inside
      rw [last] at removed
      exact Or.inl ⟨_, rfl, rfl, removed⟩
    · have removed := eraseIdx_removed hit.1
      rw [hit.2] at removed
      exact Or.inl ⟨_, rfl, rfl, removed⟩
    · exact Or.inr ⟨rfl, sorted.scan_key (fun j inside => keyAt_eq inside) key hit⟩
    · refine Or.inr ⟨rfl, fun e member same => ?_⟩
      rcases List.mem_iff_getElem.mp member with ⟨j, insideJ, rfl⟩
      rw [← keyAt_eq insideJ] at same
      have le := keyAt_le sorted (show j ≤ l.elements.length - 1 by omega) inside
      rw [same] at le
      exact greater (lt_of_le_of_ne le (Ne.symm last))
  · rw [if_neg some]
    have empty := List.eq_nil_of_length_eq_zero (Nat.eq_zero_of_not_pos some)
    refine Or.inr ⟨rfl, fun e member => ?_⟩
    rw [empty] at member
    cases member

/-! ## The induction over the levels -/

/-- What a removal from a node leaves. -/
structure RemovedNode (b : Bounds) {level : Nat} (n : Node K V level) (key : K) (followMin : Bool)
    (r : Removed K V level) (heap heap' : Heap) : Prop where
  good : Good b.limits r.node
  size_le : r.node.size ≤ n.size
  le_size : n.size ≤ r.node.size + 1
  omin_eq : followMin = true → r.node.elements ≠ [] → r.omin = some r.node.minKey
  follows : Follows heap heap' [n] [r.node]
  cardinality : heap'.cardinality = heap.cardinality
  outcome : (∃ v, r.value = some v ∧ Base.Removed key v n.elements r.node.elements) ∨
    r.value = none ∧ r.node = n ∧ heap' = heap ∧ ∀ e ∈ n.elements, e.1 ≠ key

section Descend

variable {b : Bounds} {level : Nat} {key : K} {omin : Option K} {heap heap1 heap' : Heap}
  {keys keys' : List K} {pre post children' : List (Node K V level)} {followMin childMin : Bool}

theorem removeNode_leaf (n : Node K V 0) (isRoot : Bool) :
    removeNode b n key followMin isRoot heap = (⟨.leaf (removeLeaf n key).1, (removeLeaf n key).2,
      if followMin ∧ 0 < (removeLeaf n key).1.elements.length then
        some (keyAt (removeLeaf n key).1.elements 0) else none⟩, heap) :=
  rfl

theorem RemovedNode.leaf (n : Node K V 0) (followMin isRoot : Bool)
    (sorted : SortedPairs n.elements) :
    RemovedNode b n key followMin (removeNode b n key followMin isRoot heap).1 heap
      (removeNode b n key followMin isRoot heap).2 := by
  have outcome := removeLeaf_spec n key sorted
  rcases result : removeLeaf n key with ⟨l, value⟩
  rw [result] at outcome
  rw [removeNode_leaf, result]
  have omin : followMin = true → l.elements ≠ [] →
      (if followMin ∧ 0 < l.elements.length then some (keyAt l.elements 0) else none) =
        some (Node.minKey (.leaf l)) :=
    fun follow nonempty => if_pos ⟨follow, List.length_pos_of_ne_nil nonempty⟩
  rcases outcome with ⟨v, value_eq, address, removed⟩ | ⟨same, absent⟩
  · have length := removed.length_eq
    refine ⟨trivial, (Nat.le_succ _).trans length.ge, length.le, omin, ?_, rfl,
      Or.inl ⟨v, value_eq, removed⟩⟩
    exact Follows.same (congrArg (fun a => [a]) address) rfl
  · cases same
    exact ⟨trivial, le_rfl, Nat.le_succ _, omin, Follows.refl, rfl,
      Or.inr ⟨rfl, rfl, rfl, absent⟩⟩

omit [LinearOrder K] in
/-- The removal from a child and the rebalance of the children afterwards. -/
theorem RemovedNode.child {c : Node K V level} {r : Removed K V level}
    (fits : ∀ d ∈ pre ++ c :: post, Fits b.limits d)
    (removed : RemovedNode b c key childMin r heap heap1)
    (absent : r.value = none → (∀ e ∈ pre.flatMap elements ++ post.flatMap elements, e.1 ≠ key) ∧
      keys' = keys ∧ children' = pre ++ c :: post ∧ heap' = heap1)
    (first : followMin = true → pre = [] ∧ childMin = true ∧ omin = r.omin)
    (rebalanced : Rebalanced b (pre ++ r.node :: post) heap1 keys' children' heap') :
    RemovedNode b (.inner keys (pre ++ c :: post)) key followMin
      ⟨.inner keys' children', r.value, omin⟩ heap heap' := by
  have fitsC := fits c (by simp)
  have lower := b.two_le_lower level
  have lowerC := fitsC.2.1
  have sizeC := removed.le_size
  have nonempty := elements_ne_nil removed.good (by omega)
  have sizeLe := rebalanced.length_le
  have leSize := rebalanced.le_length
  simp only [List.length_append, List.length_cons] at sizeLe leSize
  refine ⟨⟨rebalanced.keys, rebalanced.fits⟩, ?_, ?_, ?_, ?_, ?_, ?_⟩
  · simpa [size_inner] using sizeLe
  · simpa [size_inner] using leSize
  · intro follow _
    rcases first follow with ⟨rfl, childFollow, rfl⟩
    rcases exists_minKey nonempty with ⟨e, l, eq, min⟩
    have head : (Node.inner keys' children').elements = e :: (l ++ post.flatMap elements) := by
      rw [elements_inner, rebalanced.elements, List.nil_append, List.flatMap_cons, eq,
        List.cons_append]
    change r.omin = some (Node.inner keys' children').minKey
    rw [removed.omin_eq childFollow nonempty, min, minKey_eq head]
  · have moved := (removed.follows.context pre post).trans
      (by simpa using rebalanced.follows)
    simpa using moved.inner keys keys'
  · rw [rebalanced.cardinality, removed.cardinality]
  · rcases removed.outcome with ⟨v, value, taken⟩ | ⟨value, _, sameHeap, none⟩
    · have context := taken.context (pre.flatMap elements) (post.flatMap elements)
      refine Or.inl ⟨v, value, ?_⟩
      change Base.Removed key v (Node.inner keys (pre ++ c :: post)).elements
        (Node.inner keys' children').elements
      rw [elements_inner, elements_inner, rebalanced.elements]
      simpa using context
    · rcases absent value with ⟨others, rfl, rfl, rfl⟩
      refine Or.inr ⟨value, rfl, sameHeap, fun e member => ?_⟩
      simp only [elements_inner, List.flatMap_append, List.flatMap_cons, List.mem_append] at member
      rcases member with member | member | member
      · exact others e (List.mem_append_left _ member)
      · exact none e member
      · exact others e (List.mem_append_right _ member)

omit [LinearOrder K] in
/-- The minimum of a node stays where the key is another one. -/
theorem RemovedNode.minKey_eq {n : Node K V level} {r : Removed K V level}
    (removed : RemovedNode b n key followMin r heap heap') (nonempty : n.elements ≠ [])
    (other : n.minKey ≠ key) : r.node.minKey = n.minKey := by
  rcases removed.outcome with ⟨v, _, taken⟩ | ⟨_, same, _⟩
  · rcases exists_minKey nonempty with ⟨f, l, eq, min⟩
    rw [eq] at taken
    rcases taken.head (min ▸ other) with ⟨l', head⟩
    rw [min, SearchTree.minKey_eq head]
  · rw [same]

omit [LinearOrder K] in
/-- A removal from a node that holds the key takes a pair out. -/
theorem RemovedNode.found {n : Node K V level} {r : Removed K V level}
    (removed : RemovedNode b n key followMin r heap heap') (nonempty : n.elements ≠ [])
    (min : n.minKey = key) : r.value ≠ none := by
  intro none
  rcases removed.outcome with ⟨v, value, _⟩ | ⟨_, _, _, absent⟩
  · rw [none] at value
    cases value
  · rcases exists_minKey nonempty with ⟨e, l, eq, minE⟩
    exact absent e (by simp [eq]) (minE ▸ min)

/-- The separators follow a removal from the child where the scan stops. -/
theorem RemovedNode.separators_eq {c : Node K V level} {r : Removed K V level}
    (removed : RemovedNode b c key followMin r heap heap') (nonempty : c.elements ≠ [])
    (descent : Descent (· < key) pre c post) :
    separators minKey (pre ++ c :: post) = separators minKey (pre ++ r.node :: post) := by
  rw [separators_focus minKey pre c, separators_focus minKey pre r.node, separators_congr]
  rcases List.eq_nil_or_concat pre with rfl | ⟨before, x, rfl⟩
  · exact Or.inl rfl
  · have smaller := descent.before (by simp)
    exact Or.inr (removed.minKey_eq nonempty smaller.ne).symm

/-- When the key is the minimum of the node, the scan stops at the first child. -/
theorem descent_first {c : Node K V level} (descent : Descent (· < key) pre c post)
    (fits : ∀ d ∈ pre ++ c :: post, Fits b.limits d)
    (min : (Node.inner keys (pre ++ c :: post)).minKey = key) : pre = [] ∧ c.minKey = key := by
  cases pre with
  | nil =>
      rw [List.nil_append, minKey_inner (fits c (by simp)).elements_ne_nil] at min
      exact ⟨rfl, min⟩
  | cons x pre =>
      have fitsX : Fits b.limits x := fits x (by simp)
      rcases exists_minKey fitsX.elements_ne_nil with ⟨e, l, eq, minX⟩
      have le := descent.below e (by simp [eq])
      rw [List.cons_append, minKey_inner fitsX.elements_ne_nil, minX] at min
      exact absurd (descent.before (by simp)) (not_lt.mpr (min ▸ le))

/-- The siblings of the child where the scan stops do not hold a key that is not
the separator after it. -/
theorem descent_others_ne {c : Node K V level} (descent : Descent (· < key) pre c post)
    (other : ¬(pre.length < (pre ++ c :: post).length - 1 ∧
      (separators minKey (pre ++ c :: post)).getD pre.length default = key)) :
    ∀ e ∈ pre.flatMap elements ++ post.flatMap elements, e.1 ≠ key := by
  intro e member same
  rcases List.mem_append.mp member with member | member
  · have notFirst : pre ≠ [] := by
      rintro rfl
      cases member
    exact absurd (descent.before notFirst) (not_lt.mpr (same ▸ descent.below e member))
  · cases post with
    | nil => cases member
    | cons d rest =>
        have le := descent.above d rest rfl e member
        have ge := not_lt.mp (descent.after d rest rfl)
        apply other
        refine ⟨by simp, ?_⟩
        rw [separators_getD]
        exact le_antisymm (same ▸ le) ge

/-! The three cases of `removeNode`, where the scan stops at the child `c`. -/

theorem removeNode_separator {c d : Node K V level} {rest : List (Node K V level)}
    {r : Removed K V level} {isRoot : Bool}
    (index : childIndex keys (pre ++ c :: d :: rest).length key = pre.length)
    (separator : keys.getD pre.length default = key)
    (result : removeNode b d key true false heap = (r, heap1))
    (balance : rebalanceLb b isRoot (keys.set pre.length (r.omin.getD default))
      (pre ++ c :: r.node :: rest) (pre.length + 1) heap1 = ((keys', children'), heap')) :
    removeNode b (.inner keys (pre ++ c :: d :: rest)) key false isRoot heap =
      (⟨.inner keys' children', r.value, none⟩, heap') := by
  have inside : pre.length < (pre ++ c :: d :: rest).length - 1 := by simp
  simp only [removeNode, index, inside, separator, and_self, if_true, getD_focus_succ, result,
    set_focus_succ, balance]

theorem removeNode_lower {c : Node K V level} {r : Removed K V level} {isRoot : Bool}
    (index : childIndex keys (pre ++ c :: post).length key = pre.length)
    (other : ¬(followMin = false ∧ pre.length < (pre ++ c :: post).length - 1 ∧
      keys.getD pre.length default = key))
    (tight : c.size ≤ b.lowerbound level)
    (result : removeNode b c key followMin false heap = (r, heap1))
    (balance : rebalanceLb b isRoot keys (pre ++ r.node :: post) pre.length heap1 =
      ((keys', children'), heap')) :
    removeNode b (.inner keys (pre ++ c :: post)) key followMin isRoot heap =
      (⟨.inner keys' children', r.value, r.omin⟩, heap') := by
  simp only [removeNode, index, other, if_false, getD_focus, tight, if_true, result, set_focus,
    balance]

theorem removeNode_spare {c : Node K V level} {r : Removed K V level} {isRoot : Bool}
    (index : childIndex keys (pre ++ c :: post).length key = pre.length)
    (other : ¬(followMin = false ∧ pre.length < (pre ++ c :: post).length - 1 ∧
      keys.getD pre.length default = key))
    (spare : ¬c.size ≤ b.lowerbound level)
    (result : removeNode b c key followMin false heap = (r, heap1)) :
    removeNode b (.inner keys (pre ++ c :: post)) key followMin isRoot heap =
      (⟨.inner keys (pre ++ r.node :: post), r.value, r.omin⟩, heap1) := by
  simp only [removeNode, index, other, if_false, getD_focus, spare, result, set_focus]

/-- Removal from a good node; `omin` is given where the key is the minimum of the node. -/
theorem removeNode_spec {level : Nat} {n : Node K V level} {heap : Heap} {followMin isRoot : Bool}
    (good : Good b.limits n) (sorted : SortedPairs n.elements) (several : 0 < level → 2 ≤ n.size)
    (first : followMin = true → n.elements ≠ [] ∧ n.minKey = key) :
    RemovedNode b n key followMin (removeNode b n key followMin isRoot heap).1 heap
      (removeNode b n key followMin isRoot heap).2 := by
  induction level generalizing heap followMin isRoot with
  | zero => exact RemovedNode.leaf n followMin isRoot sorted
  | succ level ih =>
      cases n using Node.inner_cases with
      | inner keys children =>
          rcases good_inner.mp good with ⟨rfl, fits⟩
          have several : 2 ≤ children.length := several (Nat.succ_pos level)
          have lower := b.two_le_lower level
          rcases exists_descent (· < key) fits (List.ne_nil_of_length_pos (by omega)) sorted with
            ⟨pre, c, post, rfl, descent⟩
          have index : childIndex (separators minKey (pre ++ c :: post))
              (pre ++ c :: post).length key = pre.length := descent.index
          have fitsC : Fits b.limits c := fits c (by simp)
          have lowerC := fitsC.2.1
          by_cases case1 : followMin = false ∧ pre.length < (pre ++ c :: post).length - 1 ∧
              (separators minKey (pre ++ c :: post)).getD pre.length default = key
          · rcases exists_right case1.2.1 with ⟨d, rest, rfl⟩
            have minD : d.minKey = key := by
              rw [← case1.2.2, separators_getD]
            have fitsD : Fits b.limits d := fits d (by simp)
            have lowerD := fitsD.2.1
            have sortedD : SortedPairs d.elements := by
              have split : pre ++ c :: d :: rest = (pre ++ [c]) ++ d :: rest := by simp
              rw [elements_inner, split] at sorted
              exact (sorted_context sorted fitsD.elements_ne_nil fun x member =>
                (fits x (by simp [member])).elements_ne_nil).2.2
            have removed : RemovedNode b d key true (removeNode b d key true false heap).1 heap
                (removeNode b d key true false heap).2 := ih fitsD.1 sortedD
              (fun _ => by omega) fun _ => ⟨fitsD.elements_ne_nil, minD⟩
            rcases result : removeNode b d key true false heap with ⟨r, heap1⟩
            rw [result] at removed
            simp only at removed
            have found := removed.found fitsD.elements_ne_nil minD
            have sizeD := removed.le_size
            have sizeLe := removed.size_le
            have omin := removed.omin_eq rfl (elements_ne_nil removed.good (by omega))
            cases case1.1
            rcases balance : rebalanceLb b isRoot
              ((separators minKey (pre ++ c :: d :: rest)).set pre.length (r.omin.getD default))
              (pre ++ c :: r.node :: rest) (pre.length + 1) heap1 with ⟨⟨keys', children'⟩, heap'⟩
            rw [removeNode_separator index case1.2.2 result balance]
            -- the child that changes is now seen from its own position
            have focus : ∀ x : Node K V level, pre ++ c :: x :: rest = (pre ++ [c]) ++ x :: rest :=
              fun x => by simp
            rw [omin, Option.getD_some, separators_set (Or.inr rfl), focus r.node,
              show pre.length + 1 = (pre ++ [c]).length by simp] at balance
            rw [focus d] at fits several ⊢
            apply RemovedNode.child fits removed
            · exact fun none => absurd none found
            · exact fun follow => absurd follow Bool.false_ne_true
            · refine rebalanceLb_spec isRoot ?_ ?_ removed.good ?_ ?_ balance
              · simpa using several
              · exact fun x member => fits x (by simp at member ⊢; tauto)
              · omega
              · exact sizeLe.trans fitsD.2.2
          · -- the key is below the child or nowhere
            have firstC : followMin = true → pre = [] ∧ c.minKey = key := fun follow =>
              descent_first descent fits (first follow).2
            have removed : RemovedNode b c key followMin (removeNode b c key followMin false heap).1
                heap (removeNode b c key followMin false heap).2 := ih fitsC.1 descent.sorted
              (fun _ => by omega) fun follow => ⟨fitsC.elements_ne_nil, (firstC follow).2⟩
            rcases result : removeNode b c key followMin false heap with ⟨r, heap1⟩
            rw [result] at removed
            simp only at removed
            have sizeC := removed.le_size
            have sizeLe := removed.size_le
            have fitsOthers : ∀ x ∈ pre ++ post, Fits b.limits x := fun x member =>
              fits x (by simp at member ⊢; tauto)
            have others : r.value = none →
                (∀ e ∈ pre.flatMap elements ++ post.flatMap elements, e.1 ≠ key) ∧ r.node = c := by
              intro none
              refine ⟨descent_others_ne descent ?_, ?_⟩
              · rintro ⟨inside, separator⟩
                cases followMin with
                | false => exact case1 ⟨rfl, inside, separator⟩
                | true => exact removed.found fitsC.elements_ne_nil (firstC rfl).2 none
              · rcases removed.outcome with ⟨v, value, _⟩ | ⟨_, same, _⟩
                · rw [none] at value
                  cases value
                · exact same
            have keysEq := removed.separators_eq fitsC.elements_ne_nil descent
            by_cases tight : c.size ≤ b.lowerbound level
            · rcases balance : rebalanceLb b isRoot (separators minKey (pre ++ c :: post))
                (pre ++ r.node :: post) pre.length heap1 with ⟨⟨keys', children'⟩, heap'⟩
              rw [removeNode_lower index case1 tight result balance]
              apply RemovedNode.child fits removed
              · intro none
                rw [(others none).2, rebalanceLb_enough isRoot _ lowerC] at balance
                cases balance
                exact ⟨(others none).1, rfl, rfl, rfl⟩
              · exact fun follow => ⟨(firstC follow).1, follow, rfl⟩
              · rw [keysEq] at balance
                refine rebalanceLb_spec isRoot ?_ fitsOthers removed.good ?_ ?_ balance
                · simpa using several
                · omega
                · exact sizeLe.trans fitsC.2.2
            · rw [removeNode_spare index case1 tight result]
              have spare : b.limits.lower level < c.size := not_le.mp tight
              apply RemovedNode.child fits removed
              · exact fun none => ⟨(others none).1, rfl, by rw [(others none).2], rfl⟩
              · exact fun follow => ⟨(firstC follow).1, follow, rfl⟩
              · rw [keysEq]
                apply Rebalanced.refl
                intro x member
                simp only [List.mem_append, List.mem_cons] at member
                rcases member with member | rfl | member
                · exact fits x (by simp [member])
                · exact ⟨removed.good, by omega, sizeLe.trans fitsC.2.2⟩
                · exact fits x (by simp [member])

end Descend

end Rma.DynamicIndex
