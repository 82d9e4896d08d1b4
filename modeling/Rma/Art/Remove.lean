import Rma.Art.Rebalance

/-!
# Removal

`locate_spec` is the search of the key. `Filled.erase` takes the element out of its
leaf, and replaces the entry of the leaf when its minimum changes; `Filled.eraseLast`
empties the tree. `remove_valid` is a whole removal, with the rebalancing after it.
-/

namespace Rma.Art

open Base OrderedIndex

variable {τ : Type} {tree : OrderedIndex Bytes Nat τ}

/-! ## Search -/

section Search

variable {t : Art τ} {v pre post : List Block} {b : Block} {a : Nat} {l : List (Int × Int)}
  {key : Int} {blockSize : Nat}

/-- A key that is not in the block where it belongs is nowhere. -/
theorem Ordered.absent (ordered : Ordered blockSize (pre ++ b :: post))
    (belongs : Belongs key pre b post) (least : minKey b ≤ key) (absent : ∀ e ∈ b.2, e.1 ≠ key) :
    ∀ e ∈ pairs (pre ++ b :: post), e.1 ≠ key := by
  intro e member same
  rcases exists_min (ordered.nonempty b (by simp)) with ⟨f, inside, first⟩
  simp only [pairs_append, pairs_cons, List.mem_append] at member
  rcases member with member | member | member
  · -- the minimum would be the key too
    have le := ordered.before e member
    exact absent f inside (first.trans (le_antisymm least (same ▸ le)))
  · exact absent e member same
  · exact absurd (belongs.above e member) (by rw [same]; exact lt_irrefl key)

/-- The search ends at a leaf whose first key is above. -/
theorem leafLocate_above (above : key < keyAt (t.leaves a).elements 0) (count : Nat) :
    t.leafLocate key count a = none := by
  cases count with
  | zero => rfl
  | succ count => rw [leafLocate, if_pos above]

theorem leafLocate_eq (elements : (t.leaves a).elements = l) (least : keyAt l 0 ≤ key)
    (count : Nat) : t.leafLocate key (count + 1) a =
      if keyAt l (l.length - 1) < key then (t.links.next a).bind (t.leafLocate key count)
      else (t.leafFind a key).map fun i => (a, i) := by
  rw [leafLocate, elements, if_neg (not_lt.mpr least), leafFind, elements]
  by_cases last : keyAt l (l.length - 1) < key
  · rw [if_pos last, if_pos last]
    cases t.links.next a <;> rfl
  · rw [if_neg last, if_neg last]
    simp only
    split_ifs <;> rfl

/-- `leaf_find` finds a position of the key, if there is one. -/
theorem leafFind_spec (key : Int) (elements : (t.leaves a).elements = l) (sorted : SortedPairs l) :
    (∀ i, t.leafFind a key = some i → i < l.length ∧ keyAt l i = key) ∧
      (t.leafFind a key = none → ∀ e ∈ l, e.1 ≠ key) := by
  have scan := sorted.scan_key (fun j inside => keyAt_eq inside) key
  rw [leafFind, elements]
  split_ifs with hit
  · refine ⟨fun i found => ?_, nofun⟩
    cases found
    exact hit
  · exact ⟨nofun, fun _ => scan hit⟩

/-- `remove` finds the key exactly when it is there. -/
theorem locate_spec (correct : tree.Correct) (filled : Filled tree t v) (isKey : IsKey key) :
    (∃ pre a l post i, v = pre ++ (a, l) :: post ∧ t.locate tree key = some (a, i) ∧
        i < l.length ∧ keyAt l i = key) ∨
      t.locate tree key = none ∧ ∀ e ∈ pairs v, e.1 ≠ key := by
  rcases findLeq_spec correct filled isKey with
    ⟨pre, ⟨a, l⟩, post, rfl, found, least, belongs⟩ | ⟨found, above⟩
  · have elements := filled.represents.elements
    have sorted : SortedPairs l := filled.ordered.sorted_block
    have nonempty := List.length_pos_of_ne_nil (filled.ordered.nonempty (a, l) (by simp))
    have everywhere := filled.ordered.absent belongs least
    obtain ⟨count, fresh⟩ := Nat.exists_eq_succ_of_ne_zero
      (Nat.ne_zero_of_lt (filled.represents.fresh (a, l) (by simp)))
    rw [locate, found, Option.bind_some, fresh, leafLocate_eq elements least]
    by_cases last : keyAt l (l.length - 1) < key
    · -- the key is above this leaf, and below the next one
      refine Or.inr ⟨?_, everywhere fun e member => ?_⟩
      · rw [if_pos last, filled.represents.links.2]
        rcases post with _ | ⟨c, post⟩
        · rfl
        · apply leafLocate_above
          rw [filled.represents.leaves c (by simp)]
          rcases exists_min (filled.ordered.nonempty c (by simp)) with ⟨f, inside, first⟩
          have above := belongs.above f (by simp [inside])
          rwa [first] at above
      · rcases List.mem_iff_getElem.mp member with ⟨j, inside, rfl⟩
        have inside : j < l.length := inside
        have le := keyAt_le sorted (show j ≤ l.length - 1 by omega) (by omega)
        rw [keyAt_eq inside] at le
        exact (le.trans_lt last).ne
    · rw [if_neg last]
      rcases leafFind_spec key elements sorted with ⟨hit, miss⟩
      rcases position : t.leafFind a key with _ | i
      · exact Or.inr ⟨rfl, everywhere (miss position)⟩
      · exact Or.inl ⟨pre, a, l, post, i, rfl, rfl, hit i position⟩
  · refine Or.inr ⟨by rw [locate, found]; rfl, fun e member => ?_⟩
    have blocks : Ordered t.leafBlockSize ([] ++ v) := filled.ordered
    exact (blocks.above above e member).ne'

/-- `find` returns the value of a pair with the key. -/
theorem find_spec (correct : tree.Correct) (filled : Filled tree t v) (isKey : IsKey key) :
    ((∃ e ∈ pairs v, e.1 = key) → (key, t.find tree key) ∈ pairs v) ∧
      ((∀ e ∈ pairs v, e.1 ≠ key) → t.find tree key = -1) := by
  rcases findLeq_spec correct filled isKey with
    ⟨pre, ⟨a, l⟩, post, rfl, found, least, belongs⟩ | ⟨found, above⟩
  · have elements := filled.represents.elements
    rcases leafFind_spec key elements filled.ordered.sorted_block with ⟨hit, miss⟩
    simp only [find, found]
    rcases position : t.leafFind a key with _ | i
    · have absent := filled.ordered.absent belongs least (miss position)
      refine ⟨?_, fun _ => rfl⟩
      rintro ⟨e, member, same⟩
      exact absurd same (absent e member)
    · rcases hit i position with ⟨inside, same⟩
      have member : (key, (l.getD i default).2) ∈ l := by
        rw [← same, keyAt, List.getD_eq_getElem _ _ inside]
        exact List.getElem_mem inside
      have stored : (key, (l.getD i default).2) ∈ pairs (pre ++ (a, l) :: post) :=
        Ordered.mem_pairs (b := (a, l)) (by simp) member
      simp only [elements]
      exact ⟨fun _ => stored, fun absent => absurd rfl (absent _ stored)⟩
  · have blocks : Ordered t.leafBlockSize ([] ++ v) := filled.ordered
    have missing : t.find tree key = -1 := by simp only [find, found]
    refine ⟨?_, fun _ => missing⟩
    rintro ⟨e, member, same⟩
    exact absurd same (blocks.above above e member).ne'

end Search

/-! ## The element -/

section Erase

variable {t : Art τ} {pre post : List Block} {a i : Nat} {l l' : List (Int × Int)}
  {key value : Int} {blockSize : Nat}

/-- A block that loses an element, when its new minimum is not that of the next block. -/
theorem Ordered.erase (ordered : Ordered blockSize (pre ++ (a, l) :: post))
    (removed : Base.Removed key value l l') (nonempty : l' ≠ [])
    (next : ∀ c ∈ post.head?, minKey c ≠ keyAt l' 0) :
    Ordered blockSize (pre ++ (a, l') :: post) ∧
      Base.Removed key value (pairs (pre ++ (a, l) :: post)) (pairs (pre ++ (a, l') :: post)) := by
  have whole : Base.Removed key value (pairs (pre ++ (a, l) :: post))
      (pairs (pre ++ (a, l') :: post)) := by
    simpa using removed.context (pairs pre) (pairs post)
  rcases exists_min (b := (a, l')) nonempty with ⟨e, member, first⟩
  have inside : e ∈ l := removed.perm.mem_iff.mpr (List.mem_cons_of_mem _ member)
  refine ⟨⟨?_, ?_, whole.sorted ordered.sorted, ?_, ?_⟩, whole⟩
  · intro b memberB
    simp only [List.mem_append, List.mem_cons] at memberB
    rcases memberB with memberB | rfl | memberB
    · exact ordered.nonempty b (by simp [memberB])
    · exact nonempty
    · exact ordered.nonempty b (by simp [memberB])
  · intro b memberB
    simp only [List.mem_append, List.mem_cons] at memberB
    rcases memberB with memberB | rfl | memberB
    · exact ordered.sizes b (by simp [memberB])
    · have size : l.length ≤ blockSize := ordered.sizes (a, l) (by simp)
      rw [removed.length_eq] at size
      exact (Nat.le_succ _).trans size
    · exact ordered.sizes b (by simp [memberB])
  · apply minima_insert (minima_erase ordered.minima)
    · intro c memberC
      rw [← first]
      exact (ordered.min_lt.1 c (List.mem_of_getLast? memberC)).trans_le
        (minKey_le ordered.sorted_block inside)
    · intro c memberC
      refine lt_of_le_of_ne ?_ (next c memberC).symm
      have memC := List.mem_of_head? memberC
      rcases exists_min (ordered.nonempty c (by simp [memC])) with ⟨f, memF, firstF⟩
      rw [← first, ← firstF]
      exact ordered.apart e inside f (Ordered.mem_pairs memC memF)
  · exact fun e member => ordered.keys e (whole.perm.mem_iff.mpr (List.mem_cons_of_mem _ member))

/-- The element at a position is taken out. -/
theorem eraseIdx_removed (inside : i < l.length) :
    Base.Removed (keyAt l i) (l.getD i default).2 l (l.eraseIdx i) := by
  rcases exists_focus inside with ⟨l₁, e, l₂, rfl, rfl⟩
  exact ⟨l₁, l₂, by simp [keyAt], eraseIdx_focus l₁ l₂ e⟩

theorem leafErase_represents (represents : Represents t (pre ++ (a, l) :: post)) (i : Nat) :
    Represents (t.leafErase a i) (pre ++ (a, l.eraseIdx i) :: post) := by
  have written := represents.setLeaf ((t.leafErase a i).leaves a)
  have same : ((t.leafErase a i).leaves a).elements = l.eraseIdx i := by
    simp only [leafErase, setLeaf_self, represents.elements]
  have memory : (t.setLeaf a ((t.leafErase a i).leaves a)).leaves = (t.leafErase a i).leaves := by
    simp [leafErase, setLeaf]
  rw [same] at written
  exact ⟨written.chain, written.first, written.fresh, written.count, memory ▸ written.leaves⟩

theorem updateMin_nonempty (nonempty : (t.leaves a).elements ≠ []) :
    t.updateMin tree key a =
      (t.indexRemove tree key a).indexInsert tree (keyAt (t.leaves a).elements 0) a := by
  have some : ((t.indexRemove tree key a).leaves a).size > 0 := List.length_pos_of_ne_nil nonempty
  have first : ((t.indexRemove tree key a).leaves a).firstKey = keyAt (t.leaves a).elements 0 :=
    firstKey_eq nonempty
  rw [updateMin, if_pos some, first]

/-- The removal of an element that is not the only one of its leaf. -/
theorem Filled.erase (filled : Filled tree t (pre ++ (a, l) :: post)) (inside : i < l.length)
    (several : 1 < l.length)
    (next : i = 0 → ∀ c ∈ post.head?, minKey c ≠ keyAt l 1) :
    Filled tree (if i = 0 then (t.leafErase a i).updateMin tree (keyAt l i) a else t.leafErase a i)
        (pre ++ (a, l.eraseIdx i) :: post) ∧
      Base.Removed (keyAt l i) (l.getD i default).2 (pairs (pre ++ (a, l) :: post))
        (pairs (pre ++ (a, l.eraseIdx i) :: post)) := by
  rcases filled with ⟨represents, index, cardinality, _, ordered, holds⟩
  have removed := eraseIdx_removed inside
  have written := leafErase_represents represents i
  have length := removed.length_eq
  have nonempty : l.eraseIdx i ≠ [] := List.ne_nil_of_length_pos (by omega)
  -- the first key is the next one, or it stays
  have first : keyAt (l.eraseIdx i) 0 = if i = 0 then keyAt l 1 else keyAt l 0 := by
    rcases l with _ | ⟨e, l⟩
    · cases inside
    · cases i with
      | zero => rfl
      | succ i => rfl
  have apart : ∀ c ∈ post.head?, minKey c ≠ keyAt (l.eraseIdx i) 0 := by
    intro c member
    rw [first]
    split_ifs with start
    · exact next start c member
    · exact (ordered.min_lt.2 c (List.mem_of_head? member)).ne'
  rcases ordered.erase removed nonempty apart with ⟨ordered', whole⟩
  have count : (t.leafErase a i).cardinality =
      (pairs (pre ++ (a, l.eraseIdx i) :: post)).length := by
    change t.cardinality - 1 = _
    rw [cardinality, whole.length_eq]
    push_cast
    ring
  refine ⟨?_, whole⟩
  by_cases start : i = 0
  · have elements := written.elements
    rw [if_pos start, updateMin_nonempty (by rw [elements]; exact nonempty), elements]
    refine ⟨⟨written.chain, written.first, written.fresh, written.count, written.leaves⟩, ?_,
      count, by simp, ordered', ?_⟩
    · change tree.insert (tree.remove t.index _ a) _ a = _
      rw [index]
      rfl
    · subst start
      exact holds_insert (holds_remove holds ordered) ordered'
  · have same : (pre ++ (a, l.eraseIdx i) :: post).map entry = (pre ++ (a, l) :: post).map entry := by
      simp only [List.map_append, List.map_cons, entry, minKey, first, if_neg start]
    rw [if_neg start]
    refine ⟨written, index, count, by simp, ordered', ?_⟩
    rw [same]
    exact holds

/-- The removal of the last element. -/
theorem Filled.eraseLast (filled : Filled tree t [(a, l)]) (single : l.length = 1) :
    Vacant tree ((t.leafErase a 0).updateMin tree (keyAt l 0) a) a := by
  rcases filled with ⟨represents, index, cardinality, _, ordered, holds⟩
  obtain ⟨e, rfl⟩ := List.length_eq_one_iff.mp single
  have focused : Represents t ([] ++ (a, [e]) :: []) := represents
  have written := leafErase_represents focused 0
  have empty : ¬(((t.leafErase a 0).indexRemove tree (keyAt [e] 0) a).leaves a).size > 0 := by
    change ¬((t.leafErase a 0).leaves a).elements.length > 0
    rw [written.elements]
    exact lt_irrefl 0
  rw [updateMin, if_neg empty]
  refine ⟨⟨written.chain, written.first, written.fresh, written.count, written.leaves⟩, ?_, ?_, ?_⟩
  · change tree.remove t.index _ a = _
    rw [index]
    rfl
  · change t.cardinality - 1 = 0
    rw [cardinality]
    rfl
  · have blocks : Ordered t.leafBlockSize ([] ++ (a, [e]) :: []) := ordered
    exact holds_remove holds blocks

/-! ## The removal -/

/-- The tree between the removal of an element and the rebalancing. -/
theorem erase_memory (tree : OrderedIndex Bytes Nat τ) (t : Art τ) (key : Int) (a i : Nat) :
    let t' := if i = 0 then (t.leafErase a i).updateMin tree key a else t.leafErase a i
    t'.links = t.links ∧ t'.leafCount = t.leafCount ∧ t'.leafBlockSize = t.leafBlockSize ∧
      ∀ b ≠ a, t'.leaves b = t.leaves b := by
  have other : ∀ b ≠ a, (t.leafErase a i).leaves b = t.leaves b := fun b other =>
    setLeaf_of_ne other t _
  simp only [updateMin]
  split_ifs
  · exact ⟨rfl, rfl, rfl, other⟩
  · exact ⟨rfl, rfl, rfl, other⟩
  · exact ⟨rfl, rfl, rfl, other⟩

/-- `rebalance` looks at the leaf only for its size. -/
theorem rebalanceBranch_congr {t' : Art τ} (represents : Represents t (pre ++ (a, l) :: post))
    (links : t'.links = t.links) (leafCount : t'.leafCount = t.leafCount)
    (blockSize : t'.leafBlockSize = t.leafBlockSize) (leaves : ∀ b ≠ a, t'.leaves b = t.leaves b)
    (size : Nat) : t'.rebalanceBranch a size = t.rebalanceBranch a size := by
  have previous : ∀ p, t.links.previous a = some p → t'.leaves p = t.leaves p := by
    intro p eq
    rw [represents.links.1] at eq
    rcases List.mem_map.mp (List.mem_of_getLast? eq) with ⟨b, member, rfl⟩
    exact leaves _ (represents.other b (by simp [member]))
  have next : ∀ n, t.links.next a = some n → t'.leaves n = t.leaves n := by
    intro n eq
    rw [represents.links.2] at eq
    rcases List.mem_map.mp (List.mem_of_head? eq) with ⟨b, member, rfl⟩
    exact leaves _ (represents.other b (by simp [member]))
  simp only [rebalanceBranch, links, leafCount, blockSize]
  rcases eqP : t.links.previous a with _ | p
  · rcases eqN : t.links.next a with _ | n
    · rfl
    · simp only [next n eqN]
  · rcases eqN : t.links.next a with _ | n
    · simp only [previous p eqP]
    · simp only [previous p eqP, next n eqN]

theorem branchRegular_congr {t' : Art τ} (represents : Represents t (pre ++ (a, l) :: post))
    (links : t'.links = t.links) (leafCount : t'.leafCount = t.leafCount)
    (blockSize : t'.leafBlockSize = t.leafBlockSize) (leaves : ∀ b ≠ a, t'.leaves b = t.leaves b)
    (size : Nat) (regular : BranchRegular t (t.rebalanceBranch a size)) :
    BranchRegular t' (t'.rebalanceBranch a size) := by
  rw [rebalanceBranch_congr represents links leafCount blockSize leaves]
  rcases rebalanceBranch_cases represents size with
    branch | ⟨left, p, lp, need, rfl, branch, _⟩ | ⟨n, ln, right, need, rfl, branch, _⟩ |
    ⟨left, p, lp, rfl, branch, _⟩ | ⟨n, ln, right, rfl, branch, _⟩
  · rw [branch]
    trivial
  · rw [branch] at regular ⊢
    have other : p ≠ a := represents.other (p, lp) (by simp)
    simpa only [BranchRegular, leaves p other] using regular
  · rw [branch] at regular ⊢
    have other : n ≠ a := represents.other (n, ln) (by simp)
    simp only [BranchRegular, links, leaves n other]
    intro m member
    have next : t.links.next n = (right.map Prod.fst).head? := by
      have focus : pre ++ (a, l) :: (n, ln) :: right = (pre ++ [(a, l)]) ++ (n, ln) :: right := by
        simp
      rw [focus] at represents
      exact represents.links.2
    have inside := member
    rw [next] at inside
    rcases List.mem_map.mp (List.mem_of_head? inside) with ⟨b, memB, rfl⟩
    rw [leaves _ (represents.other b (by simp [memB]))]
    exact regular _ member
  · rw [branch]
    trivial
  · rw [branch]
    trivial

/-- The removal does not empty one leaf of several, and neither the new first key nor the
border that is moved is the first key of another leaf. -/
def RemoveRegular (tree : OrderedIndex Bytes Nat τ) (t : Art τ) (key : Int) : Prop :=
  ∀ p ∈ t.locate tree key,
    let l := (t.leaves p.1).elements
    (1 < l.length ∨ t.leafCount ≤ 1) ∧
      (p.2 = 0 → 1 < l.length →
        ∀ n ∈ t.links.next p.1, keyAt (t.leaves n).elements 0 ≠ keyAt l 1) ∧
      (0 ≤ (l.getD p.2 default).2 → BranchRegular t (t.rebalanceBranch p.1 (l.length - 1)))

instance (t : Art τ) (key : Int) : Decidable (RemoveRegular tree t key) :=
  inferInstanceAs (Decidable (∀ p ∈ t.locate tree key, _ ∧ _ ∧ (_ → _)))

theorem remove_found (notEmpty : t.isEmpty = false) (located : t.locate tree key = some (a, i))
    (elements : (t.leaves a).elements = l) : t.remove tree key =
      (if (l.getD i default).2 ≥ 0 then
        (if i = 0 then (t.leafErase a i).updateMin tree key a else t.leafErase a i).rebalance tree a
      else if i = 0 then (t.leafErase a i).updateMin tree key a else t.leafErase a i,
        (l.getD i default).2) := by
  rw [Art.remove, if_neg (by rw [notEmpty]; exact Bool.false_ne_true), located]
  simp only [elements]

/-- A removal that finds the key. -/
theorem Filled.remove (filled : Filled tree t (pre ++ (a, l) :: post)) (inside : i < l.length)
    (located : t.locate tree (keyAt l i) = some (a, i))
    (regular : RemoveRegular tree t (keyAt l i)) :
    ∃ v', Valid tree (t.remove tree (keyAt l i)).1 v' ∧
      Base.Removed (keyAt l i) (t.remove tree (keyAt l i)).2 (pairs (pre ++ (a, l) :: post))
        (pairs v') := by
  have represents := filled.represents
  have elements := represents.elements
  have regular := regular (a, i) located
  simp only [elements] at regular
  rcases regular with ⟨notLast, next, branch⟩
  rw [remove_found filled.notEmpty located elements]
  by_cases several : 1 < l.length
  · have apart : i = 0 → ∀ c ∈ post.head?, minKey c ≠ keyAt l 1 := by
      intro start c member
      rcases post with _ | ⟨d, post⟩
      · cases member
      · obtain rfl : d = c := by simpa using member
        have same : (t.leaves d.1).elements = d.2 := represents.leaves d (by simp)
        have other := next start several d.1 (by rw [represents.links.2]; rfl)
        rwa [same] at other
    rcases filled.erase inside several apart with ⟨erased, removed⟩
    by_cases valued : (l.getD i default).2 ≥ 0
    · rw [if_pos valued]
      rcases erase_memory tree t (keyAt l i) a i with ⟨links, leafCount, blockSize, leaves⟩
      have regular' := branchRegular_congr represents links leafCount blockSize leaves _
        (branch valued)
      rw [← List.length_eraseIdx_of_lt inside] at regular'
      rcases erased.rebalance regular' with ⟨v', filled', same⟩
      refine ⟨v', Or.inl filled', ?_⟩
      rw [same]
      exact removed
    · rw [if_neg valued]
      exact ⟨_, Or.inl erased, removed⟩
  · -- the only element of the tree
    have single : t.leafCount ≤ 1 := notLast.resolve_left several
    have count := represents.count
    rw [List.length_append, List.length_cons] at count
    push_cast at count
    obtain rfl : pre = [] := List.eq_nil_of_length_eq_zero (by omega)
    obtain rfl : post = [] := List.eq_nil_of_length_eq_zero (by omega)
    obtain ⟨e, rfl⟩ := List.length_eq_one_iff.mp (show l.length = 1 by omega)
    obtain rfl : i = 0 := by simpa using inside
    have vacant := filled.eraseLast rfl
    refine ⟨[(a, [])], Or.inr ⟨a, rfl, ?_⟩, [], [], rfl, rfl⟩
    rw [if_pos rfl]
    split_ifs
    · have few : ((t.leafErase a 0).updateMin tree (keyAt [e] 0) a).leafCount ≤ 1 := by
        rw [vacant.represents.count]
        exact le_rfl
      rw [Art.rebalance, rebalanceBranch, if_pos (Or.inl few)]
      exact vacant
    · exact vacant

end Erase

/-- Removal from a valid tree. -/
theorem remove_valid {t : Art τ} {v : List Block} {key : Int} (correct : tree.Correct)
    (valid : Valid tree t v) (isKey : IsKey key) (regular : RemoveRegular tree t key) :
    (∃ v', Valid tree (t.remove tree key).1 v' ∧
        Base.Removed key (t.remove tree key).2 (pairs v) (pairs v')) ∨
      (∀ e ∈ pairs v, e.1 ≠ key) ∧ t.remove tree key = (t, -1) := by
  rcases valid with filled | ⟨a, rfl, vacant⟩
  · rcases locate_spec correct filled isKey with
      ⟨pre, a, l, post, i, rfl, located, inside, rfl⟩ | ⟨located, absent⟩
    · exact Or.inl (filled.remove inside located regular)
    · refine Or.inr ⟨absent, ?_⟩
      rw [Art.remove, if_neg (by rw [filled.notEmpty]; exact Bool.false_ne_true), located]
  · refine Or.inr ⟨nofun, ?_⟩
    rw [Art.remove, if_pos vacant.empty]

end Rma.Art
