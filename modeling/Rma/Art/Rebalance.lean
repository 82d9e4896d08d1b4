import Rma.Art.Insert

/-!
# Rebalancing

Sharing moves the border between two neighbours (`Filled.border`), and merging moves
all the elements of the right one to the left one (`Filled.merge`). The index loses the
entry of the right leaf, and gets one for its new minimum, which is new unless the
border falls inside a run of equal keys that begins at one of the two leaves, or that
reaches the next one.
-/

namespace Rma.Art

open Base OrderedIndex

variable {τ : Type} {tree : OrderedIndex Bytes Nat τ}

section Blocks

variable {pre post v : List Block} {a p : Nat} {l l₁ l₂ l₁' l₂' : List (Int × Int)}
  {blockSize blockSize' : Nat}

/-- Another bound on the sizes. -/
theorem Ordered.resize (ordered : Ordered blockSize v) (sizes : ∀ b ∈ v, b.2.length ≤ blockSize') :
    Ordered blockSize' v :=
  ⟨ordered.nonempty, sizes, ordered.sorted, ordered.minima, ordered.keys⟩

theorem keyAt_append (nonempty : l₁ ≠ []) : keyAt (l₁ ++ l₂) 0 = keyAt l₁ 0 := by
  rw [keyAt, keyAt, List.getD_append _ _ _ _ (List.length_pos_of_ne_nil nonempty)]

/-- Two neighbours in one block. -/
theorem Ordered.merge (ordered : Ordered blockSize (pre ++ (p, l₁) :: (a, l₂) :: post))
    (larger : blockSize ≤ blockSize') (size : (l₁ ++ l₂).length ≤ blockSize') :
    Ordered blockSize' (pre ++ (p, l₁ ++ l₂) :: post) := by
  have nonempty : l₁ ≠ [] := ordered.nonempty (p, l₁) (by simp)
  have same : pairs (pre ++ (p, l₁ ++ l₂) :: post) =
      pairs (pre ++ (p, l₁) :: (a, l₂) :: post) := by simp
  refine ⟨?_, ?_, same ▸ ordered.sorted, ?_, same ▸ ordered.keys⟩
  · intro b member
    simp only [List.mem_append, List.mem_cons] at member
    rcases member with member | rfl | member
    · exact ordered.nonempty b (by simp [member])
    · exact List.append_ne_nil_of_left_ne_nil nonempty l₂
    · exact ordered.nonempty b (by simp [member])
  · intro b member
    simp only [List.mem_append, List.mem_cons] at member
    rcases member with member | rfl | member
    · exact (ordered.sizes b (by simp [member])).trans larger
    · exact size
    · exact (ordered.sizes b (by simp [member])).trans larger
  · have minima := ordered.minima
    have focus : pre ++ (p, l₁) :: (a, l₂) :: post = (pre ++ [(p, l₁)]) ++ (a, l₂) :: post := by simp
    rw [focus] at minima
    have erased := minima_erase minima
    simpa [minKey, keyAt_append nonempty] using erased

/-- The border between two neighbours is moved. -/
theorem Ordered.border (ordered : Ordered blockSize (pre ++ (p, l₁) :: (a, l₂) :: post))
    (same : l₁' ++ l₂' = l₁ ++ l₂) (left : l₁' ≠ []) (right : l₂' ≠ [])
    (size₁ : l₁'.length ≤ blockSize) (size₂ : l₂'.length ≤ blockSize)
    (first : keyAt l₂' 0 ≠ keyAt l₁' 0) (next : ∀ c ∈ post.head?, minKey c ≠ keyAt l₂' 0) :
    Ordered blockSize (pre ++ (p, l₁') :: (a, l₂') :: post) := by
  have joined : Ordered (blockSize + blockSize) (pre ++ (p, l₁' ++ l₂') :: post) := by
    rw [same]
    refine ordered.merge (Nat.le_add_left _ _) ?_
    have sizeP : l₁.length ≤ blockSize := ordered.sizes (p, l₁) (by simp)
    have sizeA : l₂.length ≤ blockSize := ordered.sizes (a, l₂) (by simp)
    rw [List.length_append]
    exact Nat.add_le_add sizeP sizeA
  refine (joined.split (c := a) left right first next).resize fun b member => ?_
  simp only [List.mem_append, List.mem_cons] at member
  rcases member with member | rfl | rfl | member
  · exact ordered.sizes b (by simp [member])
  · exact size₁
  · exact size₂
  · exact ordered.sizes b (by simp [member])

end Blocks

section Rebalance

variable {t : Art τ} {pre post : List Block} {a p n : Nat} {l l₁ l₂ l₁' l₂' m : List (Int × Int)}

/-- Both leaves are rewritten, and the entry of the right one is replaced. -/
theorem Filled.border (filled : Filled tree t (pre ++ (p, l₁) :: (a, l₂) :: post))
    (same : l₁' ++ l₂' = l₁ ++ l₂) (left : l₁' ≠ []) (right : l₂' ≠ [])
    (size₁ : l₁'.length ≤ t.leafBlockSize) (size₂ : l₂'.length ≤ t.leafBlockSize)
    (first : keyAt l₂' 0 ≠ keyAt l₁' 0) (next : ∀ c ∈ post.head?, minKey c ≠ keyAt l₂' 0)
    (rest₁ rest₂ : List (Int × Int)) :
    Filled tree ((((t.indexRemove tree (keyAt l₂ 0) a).indexInsert tree (keyAt l₂' 0) a).setLeaf p
      ⟨l₁', rest₁⟩).setLeaf a ⟨l₂', rest₂⟩) (pre ++ (p, l₁') :: (a, l₂') :: post) := by
  rcases filled with ⟨represents, index, cardinality, _, ordered, holds⟩
  have ordered' := ordered.border same left right size₁ size₂ first next
  have samePairs : pairs (pre ++ (p, l₁') :: (a, l₂') :: post) =
      pairs (pre ++ (p, l₁) :: (a, l₂) :: post) := by simp [← List.append_assoc, same]
  have focus : ∀ b c : Block, pre ++ b :: c :: post = (pre ++ [b]) ++ c :: post := by simp
  have written : Represents ((t.setLeaf p ⟨l₁', rest₁⟩).setLeaf a ⟨l₂', rest₂⟩)
      (pre ++ (p, l₁') :: (a, l₂') :: post) := by
    have once := represents.setLeaf ⟨l₁', rest₁⟩
    rw [focus] at once ⊢
    exact once.setLeaf ⟨l₂', rest₂⟩
  refine ⟨⟨written.chain, written.first, written.fresh, written.count, written.leaves⟩, ?_, ?_,
    by simp, ordered', ?_⟩
  · change tree.insert (tree.remove t.index _ a) _ a = _
    rw [index]
    rfl
  · rw [samePairs]
    exact cardinality
  · -- the first key of the left leaf stays
    have nonempty : l₁ ≠ [] := ordered.nonempty (p, l₁) (by simp)
    have minimum : keyAt l₁' 0 = keyAt l₁ 0 := by
      rw [← keyAt_append left, same, keyAt_append nonempty]
    have entries : (pre ++ [(p, l₁')] ++ post).map entry = (pre ++ [(p, l₁)] ++ post).map entry := by
      simp only [List.map_append, List.map_cons, List.map_nil, entry, minKey, minimum]
    rw [focus] at ordered ordered' holds ⊢
    have removed := holds_remove holds ordered
    rw [← entries] at removed
    exact holds_insert removed ordered'

theorem shareLeft_eq (left : (t.leaves p).elements = l₁ ++ m) (right : (t.leaves a).elements = l₂)
    (nonempty : l₂ ≠ []) (moved : m ≠ []) : t.shareLeft tree p a m.length =
      (((t.indexRemove tree (keyAt l₂ 0) a).indexInsert tree (keyAt (m ++ l₂) 0) a).setLeaf p
        ⟨l₁, m ++ (t.leaves p).rest⟩).setLeaf a ⟨m ++ l₂, (t.leaves a).rest.drop m.length⟩ := by
  have pivot : (t.leaves a).firstKey = keyAt l₂ 0 := by
    rw [firstKey_eq (by rw [right]; exact nonempty), right]
  have pivot' : (Leaf.mk (m ++ l₂) ((t.leaves a).rest.drop m.length)).firstKey =
      keyAt (m ++ l₂) 0 := firstKey_eq (List.append_ne_nil_of_left_ne_nil moved l₂)
  have size : (l₁ ++ m).length - m.length = l₁.length := by simp
  simp only [shareLeft, Leaf.size, left, right, pivot, size, List.take_left, List.drop_left, pivot']

theorem shareRight_eq (left : (t.leaves a).elements = l₁) (right : (t.leaves n).elements = m ++ l₂)
    (moved : m ≠ []) (nonempty : l₂ ≠ []) : ∃ rest, t.shareRight tree a n m.length =
      (((t.indexRemove tree (keyAt (m ++ l₂) 0) n).indexInsert tree (keyAt l₂ 0) n).setLeaf a
        ⟨l₁ ++ m, (t.leaves a).rest.drop m.length⟩).setLeaf n ⟨l₂, rest⟩ := by
  have pivot : (t.leaves n).firstKey = keyAt (m ++ l₂) 0 := by
    rw [firstKey_eq (by rw [right]; exact List.append_ne_nil_of_left_ne_nil moved l₂), right]
  have pivot' : ∀ rest, (Leaf.mk l₂ rest).firstKey = keyAt l₂ 0 := fun rest => firstKey_eq nonempty
  refine ⟨(m ++ l₂).drop ((m ++ l₂).length - m.length) ++ (t.leaves n).rest, ?_⟩
  simp only [shareRight, Leaf.size, left, right, pivot, List.take_left, List.drop_left, pivot']

/-- Merging two leaves of which one holds the elements of both. -/
theorem Filled.merge (filled : Filled tree t (pre ++ (p, l₁) :: (a, l₂) :: post))
    (size : l₁.length + l₂.length ≤ t.leafBlockSize) :
    Filled tree (t.merge tree p a) (pre ++ (p, l₁ ++ l₂) :: post) := by
  rcases filled with ⟨represents, index, cardinality, _, ordered, holds⟩
  have focus : pre ++ (p, l₁) :: (a, l₂) :: post = (pre ++ [(p, l₁)]) ++ (a, l₂) :: post := by simp
  have nonempty₁ : l₁ ≠ [] := ordered.nonempty (p, l₁) (by simp)
  have nonempty₂ : l₂ ≠ [] := ordered.nonempty (a, l₂) (by simp)
  have left := represents.elements
  have right : (t.leaves a).elements = l₂ := by
    rw [focus] at represents
    exact represents.elements
  have pivot : (t.leaves a).firstKey = keyAt l₂ 0 := by
    rw [firstKey_eq (by rw [right]; exact nonempty₂), right]
  have samePairs : pairs (pre ++ (p, l₁ ++ l₂) :: post) =
      pairs (pre ++ (p, l₁) :: (a, l₂) :: post) := by simp
  have merged : t.merge tree p a =
      { (t.setLeaf p ⟨l₁ ++ l₂, (t.leaves p).rest.drop l₂.length⟩) with
        links := t.links.removeAfter p a
        index := tree.remove t.index (store (keyAt l₂ 0)) a
        calls := .remove (store (keyAt l₂ 0)) a :: t.calls
        leafCount := t.leafCount - 1 } := by
    simp only [Art.merge, Leaf.size, left, right, pivot]
    rfl
  have written := represents.setLeaf ⟨l₁ ++ l₂, (t.leaves p).rest.drop l₂.length⟩
  rw [merged]
  refine ⟨⟨?_, ?_, ?_, ?_, ?_⟩, ?_, ?_, by simp, ?_, ?_⟩
  · have chain := represents.chain
    rw [List.map_append, List.map_cons, List.map_cons] at chain
    rw [List.map_append, List.map_cons]
    exact chain.removeAfter
  · change _ = some t.first
    rw [← represents.first]
    cases pre <;> rfl
  · intro b member
    apply written.fresh b
    simp only [List.mem_append, List.mem_cons] at member ⊢
    tauto
  · change t.leafCount - 1 = _
    rw [represents.count]
    simp only [List.length_append, List.length_cons]
    push_cast
    ring
  · intro b member
    apply written.leaves b
    simp only [List.mem_append, List.mem_cons] at member ⊢
    tauto
  · change tree.remove t.index _ a = _
    rw [index]
    rfl
  · rw [samePairs]
    exact cardinality
  · exact ordered.merge le_rfl (by rw [List.length_append]; exact size)
  · rw [focus] at holds ordered
    have removed := holds_remove holds ordered
    simpa [entry, minKey, keyAt_append nonempty₁] using removed

/-- What `rebalance` decides on for a leaf of the given size. -/
theorem rebalanceBranch_cases (represents : Represents t (pre ++ (a, l) :: post)) (size : Nat) :
    t.rebalanceBranch a size = .nothing ∨
      (∃ left p lp need, pre = left ++ [(p, lp)] ∧ t.rebalanceBranch a size = .shareLeft p need ∧
        need + size = t.leafBlockSize / 2 ∧ 0 < need ∧ t.leafBlockSize / 2 + need ≤ lp.length) ∨
      (∃ n ln right need, post = (n, ln) :: right ∧ t.rebalanceBranch a size = .shareRight n need ∧
        need + size = t.leafBlockSize / 2 ∧ 0 < need ∧ t.leafBlockSize / 2 + need ≤ ln.length) ∨
      (∃ left p lp, pre = left ++ [(p, lp)] ∧ t.rebalanceBranch a size = .merge p a ∧
        lp.length + size ≤ t.leafBlockSize) ∨
      ∃ n ln right, post = (n, ln) :: right ∧ t.rebalanceBranch a size = .merge a n ∧
        size + ln.length ≤ t.leafBlockSize := by
  have links := represents.links
  rcases List.eq_nil_or_concat pre with rfl | ⟨left, ⟨p, lp⟩, rfl⟩
  · rcases post with _ | ⟨⟨n, ln⟩, right⟩
    · left
      simp [rebalanceBranch, links]
    · have sizeN : (t.leaves n).size = ln.length :=
        congrArg List.length (represents.leaves (n, ln) (by simp))
      simp only [rebalanceBranch, links, List.map_nil, List.getLast?_nil, List.map_cons,
        List.head?_cons, sizeN]
      split_ifs with enough share
      · exact Or.inl rfl
      · exact Or.inr (Or.inr (Or.inl ⟨n, ln, right, _, rfl, rfl, by omega, by omega, share⟩))
      · exact Or.inr (Or.inr (Or.inr (Or.inr ⟨n, ln, right, rfl, rfl, by omega⟩)))
  · have sizeP : (t.leaves p).size = lp.length :=
      congrArg List.length (represents.leaves (p, lp) (by simp))
    rcases post with _ | ⟨⟨n, ln⟩, right⟩
    · simp only [rebalanceBranch, links, List.concat_eq_append, List.map_append, List.map_cons,
        List.map_nil, List.getLast?_concat, List.head?_nil, sizeP]
      split_ifs with enough share
      · exact Or.inl rfl
      · exact Or.inr (Or.inl ⟨left, p, lp, _, rfl, rfl, by omega, by omega, share⟩)
      · exact Or.inr (Or.inr (Or.inr (Or.inl ⟨left, p, lp, rfl, rfl, by omega⟩)))
    · have sizeN : (t.leaves n).size = ln.length :=
        congrArg List.length (represents.leaves (n, ln) (by simp))
      simp only [rebalanceBranch, links, List.concat_eq_append, List.map_append, List.map_cons,
        List.map_nil, List.getLast?_concat, List.head?_cons, sizeP, sizeN]
      split_ifs with enough share share'
      · exact Or.inl rfl
      · exact Or.inr (Or.inl ⟨left, p, lp, _, rfl, rfl, by omega, by omega, share.2⟩)
      · exact Or.inr (Or.inr (Or.inl ⟨n, ln, right, _, rfl, rfl, by omega, by omega, share'⟩))
      · exact Or.inr (Or.inr (Or.inr (Or.inl ⟨left, p, lp, rfl, rfl, by omega⟩)))

/-- The border that is moved is not inside a run of equal keys that begins at a leaf. -/
def BranchRegular (t : Art τ) : Branch → Prop
  | .shareLeft p need =>
    let l := (t.leaves p).elements
    keyAt l (l.length - need) ≠ keyAt l 0
  | .shareRight n need =>
    ∀ m ∈ t.links.next n, keyAt (t.leaves m).elements 0 ≠ keyAt (t.leaves n).elements need
  | _ => True

instance (t : Art τ) : (branch : Branch) → Decidable (BranchRegular t branch)
  | .shareLeft .. => inferInstanceAs (Decidable (_ ≠ _))
  | .shareRight .. => inferInstanceAs (Decidable (∀ m ∈ _, _))
  | .merge .. => inferInstanceAs (Decidable True)
  | .nothing => inferInstanceAs (Decidable True)

/-- Rebalancing a leaf keeps the elements. -/
theorem Filled.rebalance (filled : Filled tree t (pre ++ (a, l) :: post))
    (regular : BranchRegular t (t.rebalanceBranch a l.length)) :
    ∃ v', Filled tree (t.rebalance tree a) v' ∧ pairs v' = pairs (pre ++ (a, l) :: post) := by
  have elements := filled.represents.elements
  have size : (t.leaves a).size = l.length := congrArg List.length elements
  have nonempty : l ≠ [] := filled.ordered.nonempty (a, l) (by simp)
  have within : l.length ≤ t.leafBlockSize := filled.ordered.sizes (a, l) (by simp)
  rw [Art.rebalance, size]
  rcases rebalanceBranch_cases filled.represents l.length with
    branch | ⟨left, p, lp, need, rfl, branch, total, positive, enough⟩ |
    ⟨n, ln, right, need, rfl, branch, total, positive, enough⟩ | ⟨left, p, lp, rfl, branch, room⟩ |
    ⟨n, ln, right, rfl, branch, room⟩
  · rw [branch]
    exact ⟨_, filled, rfl⟩
  · -- the last elements of the previous leaf
    rw [branch] at regular ⊢
    obtain ⟨l₁, m, rfl, length⟩ : ∃ l₁ m, lp = l₁ ++ m ∧ m.length = need :=
      ⟨_, _, (List.take_append_drop (lp.length - need) lp).symm, by rw [List.length_drop]; omega⟩
    subst length
    rw [List.length_append] at enough
    have focus : (left ++ [(p, l₁ ++ m)]) ++ (a, l) :: post =
        left ++ (p, l₁ ++ m) :: (a, l) :: post := by simp
    rw [focus] at filled ⊢
    have elementsP := filled.represents.elements
    have withinP : (l₁ ++ m).length ≤ t.leafBlockSize :=
      filled.ordered.sizes (p, l₁ ++ m) (by simp)
    rw [List.length_append] at withinP
    have leftSome : l₁ ≠ [] := List.ne_nil_of_length_pos (by omega)
    have moved : m ≠ [] := List.ne_nil_of_length_pos positive
    have border : keyAt (l₁ ++ m) ((l₁ ++ m).length - m.length) = keyAt m 0 := by
      rw [List.length_append, Nat.add_sub_cancel, keyAt, keyAt, List.getD_append_right _ _ _ _ le_rfl,
        Nat.sub_self]
    simp only [BranchRegular, elementsP, border, keyAt_append leftSome] at regular
    simp only
    rw [shareLeft_eq elementsP elements nonempty moved]
    refine ⟨left ++ (p, l₁) :: (a, m ++ l) :: post, ?_, by simp⟩
    apply filled.border (by simp) leftSome (List.append_ne_nil_of_left_ne_nil moved l)
    · omega
    · rw [List.length_append]
      omega
    · rwa [keyAt_append moved]
    · -- the border is at most the old minimum
      intro c member
      rw [keyAt_append moved]
      rcases keyAt_mem (List.length_pos_of_ne_nil moved) with ⟨e, inside, first⟩
      have ordered := filled.ordered
      rw [← focus] at ordered
      have le := ordered.before e (by simp [inside])
      rw [← first]
      exact (le.trans_lt (ordered.min_lt.2 c (List.mem_of_head? member))).ne'
  · -- the first elements of the next leaf
    rw [branch] at regular ⊢
    obtain ⟨m, l₂, rfl, length⟩ : ∃ m l₂, ln = m ++ l₂ ∧ m.length = need :=
      ⟨_, _, (List.take_append_drop need ln).symm, List.length_take_of_le (by omega)⟩
    subst length
    rw [List.length_append] at enough
    have focus : pre ++ (a, l) :: (n, m ++ l₂) :: right =
        (pre ++ [(a, l)]) ++ (n, m ++ l₂) :: right := by simp
    have represents := filled.represents
    rw [focus] at represents
    have elementsN := represents.elements
    have withinN : (m ++ l₂).length ≤ t.leafBlockSize :=
      filled.ordered.sizes (n, m ++ l₂) (by simp)
    rw [List.length_append] at withinN
    have rightSome : l₂ ≠ [] := List.ne_nil_of_length_pos (by omega)
    have moved : m ≠ [] := List.ne_nil_of_length_pos positive
    have border : keyAt (m ++ l₂) m.length = keyAt l₂ 0 := by
      rw [keyAt, keyAt, List.getD_append_right _ _ _ _ le_rfl, Nat.sub_self]
    simp only [BranchRegular, elementsN, border] at regular
    simp only
    rcases shareRight_eq elements elementsN moved rightSome with ⟨rest, shared⟩
    rw [shared]
    refine ⟨pre ++ (a, l ++ m) :: (n, l₂) :: right, ?_, by simp⟩
    apply filled.border (by simp) (List.append_ne_nil_of_left_ne_nil nonempty m) rightSome
    · rw [List.length_append]
      omega
    · omega
    · -- the border is above the first key of the leaf
      rw [keyAt_append nonempty]
      rcases keyAt_mem (List.length_pos_of_ne_nil rightSome) with ⟨e, inside, first⟩
      have ordered := filled.ordered
      have above := ordered.min_lt.2 (n, m ++ l₂) (by simp)
      rw [focus] at ordered
      have le := minKey_le ordered.sorted_block (show e ∈ m ++ l₂ by simp [inside])
      rw [← first]
      exact (above.trans_le le).ne'
    · intro c member
      rcases right with _ | ⟨d, right⟩
      · cases member
      · obtain rfl : d = c := by simpa using member
        have same : (t.leaves d.1).elements = d.2 := represents.leaves d (by simp)
        have other := regular d.1 (by rw [represents.links.2]; rfl)
        rwa [same] at other
  · rw [branch]
    have focus : (left ++ [(p, lp)]) ++ (a, l) :: post = left ++ (p, lp) :: (a, l) :: post := by simp
    rw [focus] at filled ⊢
    exact ⟨_, filled.merge room, by simp⟩
  · rw [branch]
    exact ⟨_, filled.merge room, by simp⟩

end Rebalance

end Rma.Art
