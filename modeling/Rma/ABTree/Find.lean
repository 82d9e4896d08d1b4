import Rma.ABTree.Shape

/-!
# Reading an (a,b)-tree

`findNode_spec` says that the descent of `find` meets a pair with the key when
there is one. `readChain_eq` says that walking along `next` from the first leaf
reads all the elements of the tree.
-/

namespace Rma.ABTree

open Base Node

/-! ## Find -/

theorem findNode_leaf (l : Leaf) (key : Int) : findNode (.leaf l) key =
    if scanUp (fun j => keyAt l.elements j < key) 0 l.elements.length < l.elements.length ∧
      keyAt l.elements (scanUp (fun j => keyAt l.elements j < key) 0 l.elements.length) = key then
      (l.elements.getD (scanUp (fun j => keyAt l.elements j < key) 0 l.elements.length) default).2
    else -1 :=
  rfl

/-- In a leaf, `find` stops at the first pair with the key. -/
theorem findLeaf_spec (l : Leaf) (key : Int) (sorted : SortedPairs l.elements) :
    ((∃ e ∈ l.elements, e.1 = key) → (key, findNode (.leaf l) key) ∈ l.elements) ∧
      ((∀ e ∈ l.elements, e.1 ≠ key) → findNode (.leaf l) key = -1) := by
  have scan := sorted.scan_key (fun j inside => keyAt_eq inside) key
  rw [findNode_leaf]
  generalize scanUp (fun j => decide (keyAt l.elements j < key)) 0 l.elements.length = i at *
  by_cases hit : i < l.elements.length ∧ keyAt l.elements i = key
  · have member : l.elements.getD i default ∈ l.elements := by
      rw [List.getD_eq_getElem _ _ hit.1]
      exact List.getElem_mem hit.1
    rw [if_pos hit]
    refine ⟨fun _ => ?_, fun absent => absurd hit.2 (absent _ member)⟩
    rw [← hit.2]
    exact member
  · rw [if_neg hit]
    exact ⟨fun ⟨e, member, same⟩ => absurd same (scan hit e member), fun _ => rfl⟩

/-- `find` succeeds exactly when a pair with the key is below the node. -/
theorem findNode_spec {b : Bounds} {level : Nat} {n : Node level} {key : Int} (good : Good b n)
    (sorted : SortedPairs n.elements) (nonempty : 0 < level → 0 < n.size) :
    ((∃ e ∈ n.elements, e.1 = key) → (key, findNode n key) ∈ n.elements) ∧
      ((∀ e ∈ n.elements, e.1 ≠ key) → findNode n key = -1) := by
  induction level with
  | zero => exact findLeaf_spec n key sorted
  | succ level ih =>
      cases n using Node.inner_cases with
      | inner keys children =>
          rcases good_inner.mp good with ⟨rfl, fits⟩
          have positive : children ≠ [] :=
            List.ne_nil_of_length_pos (nonempty (Nat.succ_pos level))
          rcases exists_descent (· ≤ key) fits positive sorted with ⟨pre, c, post, rfl, descent⟩
          have fitsC : Fits b c := fits c (by simp)
          have lower := b.two_le_lower level
          have lowerC := fitsC.2.1
          rcases ih fitsC.1 descent.sorted (fun _ => by omega) with ⟨found, absent⟩
          have step : findNode (.inner (separators minKey (pre ++ c :: post)) (pre ++ c :: post))
              key = findNode c key := by
            simp only [findNode, descent.index, getD_focus]
          rw [step]
          constructor
          · rintro ⟨e, member, same⟩
            have inChild : ∃ e ∈ c.elements, e.1 = key := by
              simp only [elements_inner, List.flatMap_append, List.flatMap_cons,
                List.mem_append] at member
              rcases member with member | member | member
              · -- a pair to the left of the child has the key only if the minimum has it too
                have notFirst : pre ≠ [] := by
                  rintro rfl
                  cases member
                rcases exists_minKey fitsC.elements_ne_nil with ⟨f, l, eq, min⟩
                have le := descent.below e member
                have ge := descent.before notFirst
                exact ⟨f, by simp [eq], by rw [← min]; exact le_antisymm ge (same ▸ le)⟩
              · exact ⟨e, member, same⟩
              · cases post with
                | nil => cases member
                | cons d rest =>
                    have le := descent.above d rest rfl e member
                    exact absurd (same ▸ le) (descent.after d rest rfl)
            rw [elements_inner, List.flatMap_append, List.flatMap_cons]
            have member := found inChild
            simp [member]
          · intro none
            apply absent
            intro e member
            apply none e
            rw [elements_inner, List.flatMap_append, List.flatMap_cons]
            simp [member]

/-! ## The chain of leaves -/

namespace Node

/-- The leaves below a node, from left to right. -/
def leafNodes : {level : Nat} → Node level → List Leaf
  | 0, .leaf l => [l]
  | _ + 1, .inner _ children => children.flatMap leafNodes

/-- The contents of the leaf at an address. -/
def leafAt {level : Nat} (n : Node level) (address : Nat) : List (Int × Int) :=
  ((n.leafNodes.find? fun l => l.address = address).map Leaf.elements).getD []

end Node

theorem leafNodes_inner {level : Nat} (keys : List Int) (children : List (Node level)) :
    (Node.inner keys children).leafNodes = children.flatMap leafNodes := rfl

theorem leaves_eq {level : Nat} (n : Node level) : n.leaves = n.leafNodes.map Leaf.address := by
  induction level with
  | zero => rfl
  | succ level ih =>
      cases n using Node.inner_cases with
      | inner keys children =>
          rw [leaves_inner, leafNodes_inner, List.map_flatMap]
          exact List.flatMap_congr fun c _ => ih c

theorem elements_eq {level : Nat} (n : Node level) :
    n.elements = n.leafNodes.flatMap Leaf.elements := by
  induction level with
  | zero => exact (List.flatMap_singleton _ _).symm
  | succ level ih =>
      cases n using Node.inner_cases with
      | inner keys children =>
          rw [elements_inner, leafNodes_inner, List.flatMap_assoc]
          exact List.flatMap_congr fun c _ => ih c

/-- Leaves with distinct addresses are found by their addresses. -/
theorem leafAt_eq {level : Nat} {n : Node level} (distinct : n.leaves.Nodup) {l : Leaf}
    (member : l ∈ n.leafNodes) : n.leafAt l.address = l.elements := by
  rw [leaves_eq] at distinct
  have found : n.leafNodes.find? (fun m => decide (m.address = l.address)) = some l := by
    rcases List.append_of_mem member with ⟨before, after, split⟩
    rw [split] at distinct ⊢
    rw [List.map_append, List.map_cons, List.nodup_append] at distinct
    rw [List.find?_append, List.find?_eq_none.mpr, Option.none_or]
    · exact List.find?_cons_of_pos (decide_eq_true rfl)
    intro m inside same
    exact distinct.2.2 m.address (List.mem_map_of_mem inside) l.address (by simp)
      (of_decide_eq_true same)
  rw [leafAt, found]
  rfl

/-- The contents of the leaves, in order. -/
theorem flatMap_leafAt {level : Nat} {n : Node level} (distinct : n.leaves.Nodup) :
    n.leaves.flatMap n.leafAt = n.elements := by
  rw [elements_eq, leaves_eq, List.flatMap_map]
  exact List.flatMap_congr fun l member => leafAt_eq distinct member

/-- The pointer `next` of a leaf. -/
theorem next_leaf {level : Nat} {n : Node level} {links : Links} {pre post : List Leaf}
    {l : Leaf} (chain : links.Chain n.leaves) (leaves : n.leafNodes = pre ++ l :: post) :
    links.next l.address = post.head?.map Leaf.address := by
  have linked := chain.linked
  rw [leaves_eq, leaves, List.map_append, List.map_cons, Links.segment_append] at linked
  rw [linked.2.2.1, Option.or_none, List.head?_map]

/-- The pairs read along `next` from the first leaf, over `count` leaves at most. -/
def readChain {level : Nat} (n : Node level) (links : Links) (count : Nat) : List (Int × Int) :=
  (links.walk count n.leaves.head?).flatMap n.leafAt

/-- Reading the chain of the leaves lists the elements. -/
theorem readChain_eq {level : Nat} {n : Node level} {heap : Heap} (linked : heap.Linked n.leaves)
    {count : Nat} (enough : n.leaves.length ≤ count) :
    readChain n heap.links count = n.elements := by
  rw [readChain, Links.walk_segment linked.chain.linked enough,
    flatMap_leafAt linked.chain.nodup]

end Rma.ABTree
