import Rma.Art.Blocks

/-!
# Insertion

`insertInto_filled` is the insertion in a leaf that has room: the key belongs in its
block, and when the block gets a new minimum it is the first one, whose entry is
replaced. A full leaf is split first (`insert_split`); the entry of its right half
is new unless the element in the middle has the key of the first one, or of the
first one of the next leaf.
-/

namespace Rma.Art

open Base OrderedIndex

variable {τ : Type} {tree : OrderedIndex Bytes Nat τ}

/-- The tree is these blocks, in order, and the index has one entry for each of them. -/
structure Filled (tree : OrderedIndex Bytes Nat τ) (t : Art τ) (v : List Block) : Prop where
  represents : Represents t v
  index : t.index = tree.after t.calls
  cardinality : t.cardinality = (pairs v).length
  nonempty : v ≠ []
  ordered : Ordered t.leafBlockSize v
  holds : Holds t.calls (v.map entry)

/-- The tree is a single leaf without elements, and the index has no entry. -/
structure Vacant (tree : OrderedIndex Bytes Nat τ) (t : Art τ) (a : Nat) : Prop where
  represents : Represents t [(a, [])]
  index : t.index = tree.after t.calls
  cardinality : t.cardinality = 0
  holds : Holds t.calls []

/-- The invariant of the tree. -/
def Valid (tree : OrderedIndex Bytes Nat τ) (t : Art τ) (v : List Block) : Prop :=
  Filled tree t v ∨ ∃ a, v = [(a, [])] ∧ Vacant tree t a

section Insert

variable {t : Art τ} {pre post : List Block} {a : Nat} {l l' : List (Int × Int)} {key value : Int}
  {blockSize : Nat}

/-- The key belongs in a block: it is not below the elements before it and below
those after it, and only in the first block it can be a new minimum. -/
structure Belongs (key : Int) (pre : List Block) (b : Block) (post : List Block) : Prop where
  below : ∀ x ∈ pairs pre, x.1 ≤ key
  above : ∀ y ∈ pairs post, key < y.1
  first : pre = [] ∨ minKey b ≤ key

/-- `leaf_insert` puts the pair at a sorted position. -/
theorem leafInsert_spec (represents : Represents t (pre ++ (a, l) :: post))
    (sorted : SortedPairs l) (key value : Int) :
    ∃ l', Inserted (key, value) l l' ∧ (t.leafInsert a key value).2 = keyAt l' 0 ∧
      Represents (t.leafInsert a key value).1 (pre ++ (a, l') :: post) := by
  have elements := represents.elements
  rcases scanDown_spec (fun j => decide (key < keyAt l j)) l.length with ⟨upper, passed, stopped⟩
  refine ⟨l.insertIdx (scanDown (fun j => decide (key < keyAt l j)) l.length) (key, value),
    ?_, ?_, ?_⟩
  · generalize scanDown (fun j => decide (key < keyAt l j)) l.length = i at *
    refine ⟨l.take i, l.drop i, (List.take_append_drop _ _).symm, ?_, ?_, ?_⟩
    · have context := insertIdx_focus (l.take i) (l.drop i) (key, value)
      rwa [List.take_append_drop, List.length_take, min_eq_left upper] at context
    · intro x member
      rcases List.mem_take_iff_getElem.mp member with ⟨j, inside, rfl⟩
      have last : keyAt l (i - 1) ≤ key := by
        simpa using stopped (by omega)
      have le := keyAt_le sorted (show j ≤ i - 1 by omega) (by omega)
      rw [keyAt_eq (by omega)] at le
      exact le.trans last
    · intro x member
      rcases List.mem_drop_iff_getElem.mp member with ⟨j, inside, rfl⟩
      have inside : i + j < l.length := by omega
      have above := of_decide_eq_true (passed (i + j) (by omega) inside)
      rw [keyAt_eq inside] at above
      exact above.le
  · simp only [leafInsert, Leaf.firstKey, Leaf.size, elements]
    generalize scanDown (fun j => decide (key < keyAt l j)) l.length = i at upper ⊢
    have length : 0 < (l.insertIdx i (key, value)).length := by
      rw [List.length_insertIdx_of_le_length upper]
      exact Nat.succ_pos _
    rw [keyAt, keyAt, List.getD_append _ _ _ _ length]
  · have written := represents.setLeaf ((t.leafInsert a key value).1.leaves a)
    have same : ((t.leafInsert a key value).1.leaves a).elements =
        l.insertIdx (scanDown (fun j => decide (key < keyAt l j)) l.length) (key, value) := by
      simp only [leafInsert, Leaf.size, elements, setLeaf_self]
    rw [same] at written
    have memory : (t.setLeaf a ((t.leafInsert a key value).1.leaves a)).leaves =
        (t.leafInsert a key value).1.leaves := by
      simp [leafInsert, setLeaf]
    exact ⟨written.chain, written.first, written.fresh, written.count, memory ▸ written.leaves⟩

/-- The minimum after an insertion: the old one, or the key when this is not greater. -/
theorem minKey_inserted (inserted : Inserted (key, value) l l') (nonempty : l ≠ []) :
    minKey (a, l') = minKey (a, l) ∨ minKey (a, l') = key ∧ key ≤ minKey (a, l) := by
  rcases inserted with ⟨l₁, l₂, rfl, rfl, _, above⟩
  rcases l₁ with _ | ⟨e, l₁⟩
  · right
    rcases List.exists_cons_of_ne_nil nonempty with ⟨f, l₂, rfl⟩
    exact ⟨rfl, above f (by simp)⟩
  · exact Or.inl rfl

/-- A block that receives a pair that belongs in it. -/
theorem Ordered.insert (ordered : Ordered blockSize (pre ++ (a, l) :: post))
    (belongs : Belongs key pre (a, l) post) (isKey : IsKey key) (room : l.length < blockSize)
    (inserted : Inserted (key, value) l l') :
    Ordered blockSize (pre ++ (a, l') :: post) ∧
      Inserted (key, value) (pairs (pre ++ (a, l) :: post)) (pairs (pre ++ (a, l') :: post)) := by
  have whole : Inserted (key, value) (pairs (pre ++ (a, l) :: post))
      (pairs (pre ++ (a, l') :: post)) := by
    simpa using inserted.context (pairs pre) (pairs post) belongs.below
      fun y member => (belongs.above y member).le
  have nonempty : l ≠ [] := ordered.nonempty (a, l) (by simp)
  refine ⟨⟨?_, ?_, whole.sorted ordered.sorted, ?_, ?_⟩, whole⟩
  · intro b member
    simp only [List.mem_append, List.mem_cons] at member
    rcases member with member | rfl | member
    · exact ordered.nonempty b (by simp [member])
    · exact List.ne_nil_of_length_pos (by rw [inserted.length_eq]; exact Nat.succ_pos _)
    · exact ordered.nonempty b (by simp [member])
  · intro b member
    simp only [List.mem_append, List.mem_cons] at member
    rcases member with member | rfl | member
    · exact ordered.sizes b (by simp [member])
    · change l'.length ≤ blockSize
      rw [inserted.length_eq]
      exact room
    · exact ordered.sizes b (by simp [member])
  · have minima := minima_erase ordered.minima
    rcases minKey_inserted (a := a) inserted nonempty with same | ⟨new, le⟩
    · apply minima_insert minima
      · intro c member
        rw [same]
        exact ordered.min_lt.1 c (List.mem_of_getLast? member)
      · intro c member
        rw [same]
        exact ordered.min_lt.2 c (List.mem_of_head? member)
    · apply minima_insert minima
      · intro c member
        rcases belongs.first with rfl | least
        · cases member
        · rw [new]
          exact (ordered.min_lt.1 c (List.mem_of_getLast? member)).trans_le least
      · intro c member
        rw [new]
        exact le.trans_lt (ordered.min_lt.2 c (List.mem_of_head? member))
  · intro e member
    rcases List.mem_cons.mp (whole.perm.mem_iff.mp member) with rfl | member
    · exact isKey
    · exact ordered.keys e member

theorem firstKey_eq {leaf : Leaf} (nonempty : leaf.elements ≠ []) :
    leaf.firstKey = keyAt leaf.elements 0 := by
  rw [Leaf.firstKey, keyAt, keyAt, List.getD_append _ _ _ _ (List.length_pos_of_ne_nil nonempty)]

/-- The insertion in a leaf that has room. -/
theorem insertInto_filled (filled : Filled tree t (pre ++ (a, l) :: post))
    (belongs : Belongs key pre (a, l) post) (isKey : IsKey key)
    (room : l.length < t.leafBlockSize) :
    ∃ v', Filled tree (t.insertInto tree a key value) v' ∧
      Inserted (key, value) (pairs (pre ++ (a, l) :: post)) (pairs v') := by
  rcases filled with ⟨represents, index, cardinality, _, ordered, holds⟩
  rcases leafInsert_spec represents ordered.sorted_block key value with
    ⟨l', inserted, pivotNew, written⟩
  rcases ordered.insert belongs isKey room inserted with ⟨ordered', whole⟩
  have nonempty : l ≠ [] := ordered.nonempty (a, l) (by simp)
  have pivotOld : (t.leaves a).firstKey = keyAt l 0 := by
    rw [firstKey_eq (by rw [represents.elements]; exact nonempty), represents.elements]
  have count : (t.leafInsert a key value).1.cardinality =
      (pairs (pre ++ (a, l') :: post)).length := by
    change t.cardinality + 1 = _
    rw [cardinality, whole.length_eq]
    push_cast
    rfl
  refine ⟨pre ++ (a, l') :: post, ?_, whole⟩
  have split : t.insertInto tree a key value =
      if keyAt l 0 ≠ keyAt l' 0 then
        ((t.leafInsert a key value).1.indexRemove tree (keyAt l 0) a).indexInsert tree
          (keyAt l' 0) a
      else (t.leafInsert a key value).1 := by
    simp only [insertInto, pivotOld, pivotNew]
  rw [split]
  split_ifs with new
  · -- the entry of the leaf is replaced
    refine ⟨⟨written.chain, written.first, written.fresh, written.count, written.leaves⟩, ?_,
      count, by simp, ordered', ?_⟩
    · change tree.insert (tree.remove t.index _ a) _ a = _
      rw [index]
      rfl
    · exact holds_insert (holds_remove holds ordered) ordered'
  · have same : (pre ++ (a, l') :: post).map entry = (pre ++ (a, l) :: post).map entry := by
      simp only [List.map_append, List.map_cons, entry, minKey, ← not_not.mp new]
    refine ⟨written, index, count, by simp, ordered', ?_⟩
    rw [same]
    exact holds

/-! ## Split -/

/-- `split` moves the right half of a leaf to a new one. -/
theorem split_represents (represents : Represents t (pre ++ (a, l) :: post)) :
    Represents (t.split a).1
      (pre ++ (a, l.take ((l.length + 1) / 2)) :: (t.fresh, l.drop ((l.length + 1) / 2)) :: post) := by
  have elements := represents.elements
  have other := represents.other
  rcases represents with ⟨chain, first, fresh, count, leaves⟩
  have below : ∀ b ∈ pre ++ post, b.1 ≠ t.fresh := by
    intro b member
    refine (fresh b ?_).ne
    rcases List.mem_append.mp member with member | member <;> simp [member]
  have belowA : a ≠ t.fresh := (fresh (a, l) (by simp)).ne
  have addresses : (pre ++ (a, l.take ((l.length + 1) / 2)) ::
      (t.fresh, l.drop ((l.length + 1) / 2)) :: post).map Prod.fst =
        pre.map Prod.fst ++ a :: t.fresh :: post.map Prod.fst := by simp
  have absent : t.fresh ∉ pre.map Prod.fst ++ a :: post.map Prod.fst := by
    intro member
    simp only [List.mem_append, List.mem_cons, List.mem_map] at member
    rcases member with ⟨b, member, same⟩ | same | ⟨b, member, same⟩
    · exact below b (by simp [member]) same
    · exact belowA same.symm
    · exact below b (by simp [member]) same
  rw [List.map_append, List.map_cons] at chain first
  refine ⟨?_, ?_, ?_, ?_, ?_⟩
  · rw [addresses]
    have created : t.createLeaf.links.Chain (pre.map Prod.fst ++ a :: post.map Prod.fst) := by
      refine ⟨chain.nodup, Links.Segment.congr chain.linked ?_ ?_⟩
      · exact fun x member => Function.update_of_ne
          (fun same : x = t.fresh => absent (same ▸ member)) _ _
      · exact fun x member => Function.update_of_ne
          (fun same : x = t.fresh => absent (same ▸ member)) _ _
    exact created.insertAfter absent
  · rw [addresses]
    change _ = some t.first
    rw [← first]
    cases pre <;> rfl
  · intro b member
    change b.1 < t.fresh + 1
    simp only [List.mem_append, List.mem_cons] at member
    rcases member with member | rfl | rfl | member
    · exact Nat.lt_succ_of_lt (fresh b (by simp [member]))
    · exact Nat.lt_succ_of_lt (fresh (a, l) (by simp))
    · exact Nat.lt_succ_self _
    · exact Nat.lt_succ_of_lt (fresh b (by simp [member]))
  · change t.leafCount + 1 = _
    rw [count]
    simp only [List.length_append, List.length_cons]
    push_cast
    ring
  · have memory : (t.split a).1.leaves = Function.update (Function.update (Function.update
        t.leaves t.fresh ⟨[], []⟩) a ⟨l.take ((l.length + 1) / 2),
          l.drop ((l.length + 1) / 2) ++ (t.leaves a).rest⟩) t.fresh
        ⟨l.drop ((l.length + 1) / 2), []⟩ := by
      simp [Art.split, setLeaf, createLeaf, Leaf.size, elements]
    have unchanged : ∀ b ∈ pre ++ post, ((t.split a).1.leaves b.1) = t.leaves b.1 := by
      intro b member
      rw [memory, Function.update_of_ne (below b member), Function.update_of_ne (other b member),
        Function.update_of_ne (below b member)]
    intro b member
    simp only [List.mem_append, List.mem_cons] at member
    rcases member with member | rfl | rfl | member
    · rw [unchanged b (by simp [member])]
      exact leaves b (by simp [member])
    · rw [memory, Function.update_of_ne belowA, Function.update_self]
    · rw [memory, Function.update_self]
    · rw [unchanged b (by simp [member])]
      exact leaves b (by simp [member])

/-- The two halves of a block, when the element in the middle does not have the first
key, nor that of the next block. -/
theorem Ordered.split {l₁ l₂ : List (Int × Int)} {c : Nat}
    (ordered : Ordered blockSize (pre ++ (a, l₁ ++ l₂) :: post)) (left : l₁ ≠ []) (right : l₂ ≠ [])
    (first : keyAt l₂ 0 ≠ keyAt l₁ 0) (next : ∀ b ∈ post.head?, minKey b ≠ keyAt l₂ 0) :
    Ordered blockSize (pre ++ (a, l₁) :: (c, l₂) :: post) := by
  have same : pairs (pre ++ (a, l₁) :: (c, l₂) :: post) =
      pairs (pre ++ (a, l₁ ++ l₂) :: post) := by simp
  have sortedBlock : SortedPairs (l₁ ++ l₂) := ordered.sorted_block
  have size : (l₁ ++ l₂).length ≤ blockSize := ordered.sizes (a, l₁ ++ l₂) (by simp)
  rw [List.length_append] at size
  have minLeft : minKey (a, l₁ ++ l₂) = keyAt l₁ 0 := by
    rw [minKey, keyAt, keyAt, List.getD_append _ _ _ _ (List.length_pos_of_ne_nil left)]
  rcases keyAt_mem (List.length_pos_of_ne_nil right) with ⟨e, memE, keyE⟩
  rcases keyAt_mem (List.length_pos_of_ne_nil left) with ⟨f, memF, keyF⟩
  have apart := (SortedPairs.append_iff.mp sortedBlock).2.2
  refine ⟨?_, ?_, same ▸ ordered.sorted, ?_, same ▸ ordered.keys⟩
  · intro b member
    simp only [List.mem_append, List.mem_cons] at member
    rcases member with member | rfl | rfl | member
    · exact ordered.nonempty b (by simp [member])
    · exact left
    · exact right
    · exact ordered.nonempty b (by simp [member])
  · intro b member
    simp only [List.mem_append, List.mem_cons] at member
    rcases member with member | rfl | rfl | member
    · exact ordered.sizes b (by simp [member])
    · exact le_trans (Nat.le_add_right _ _) size
    · exact le_trans (Nat.le_add_left _ _) size
    · exact ordered.sizes b (by simp [member])
  · have minima : ((pre ++ [(a, l₁)] ++ post).map minKey).Pairwise (· < ·) := by
      have minima := ordered.minima
      simp only [List.map_append, List.map_cons, minLeft] at minima
      simpa [minKey] using minima
    have inserted := minima_insert (b := (c, l₂)) minima ?_ ?_
    · simpa using inserted
    · intro b member
      rw [List.getLast?_append_cons, List.getLast?_singleton, Option.mem_some_iff] at member
      subst member
      refine lt_of_le_of_ne ?_ first.symm
      change keyAt l₁ 0 ≤ keyAt l₂ 0
      rw [← keyE, ← keyF]
      exact apart f memF e memE
    · intro b member
      refine lt_of_le_of_ne ?_ (next b member).symm
      change keyAt l₂ 0 ≤ _
      have inside := List.mem_of_head? member
      rcases exists_min (ordered.nonempty b (by simp [inside])) with ⟨g, memG, keyG⟩
      rw [← keyE, ← keyG]
      exact ordered.apart e (by simp [memE]) g (Ordered.mem_pairs inside memG)

/-! ## The leaf of a key -/

/-- `index_find_leq` finds the last leaf whose minimum is at most the key. -/
theorem findLeq_spec {v : List Block} (correct : tree.Correct) (filled : Filled tree t v)
    (isKey : IsKey key) :
    (∃ pre b post, v = pre ++ b :: post ∧ t.indexFindLeq tree key = some b.1 ∧ minKey b ≤ key ∧
        Belongs key pre b post) ∨
      t.indexFindLeq tree key = none ∧ ∀ b ∈ v, key < minKey b := by
  rcases filled with ⟨_, index, _, _, ordered, holds⟩
  rw [indexFindLeq, index]
  rcases exists_floor ordered.minima key with ⟨pre, b, post, rfl, le, above⟩ | above
  · refine Or.inl ⟨pre, b, post, rfl, ?_, le, fun x member => (ordered.before x member).trans le,
      ?_, Or.inr le⟩
    · have entries : (pre ++ b :: post).map entry =
          pre.map entry ++ (store (minKey b), b.1) :: post.map entry := by simp [entry]
      rw [entries] at holds
      apply correct.find_eq_some holds
      · intro e member
        rcases List.mem_map.mp member with ⟨c, inside, rfl⟩
        exact (store_lt (ordered.isKey (by simp [inside])) (ordered.isKey (by simp))).mpr
          (ordered.min_lt.1 c inside)
      · exact (store_le (ordered.isKey (by simp)) isKey).mpr le
      · intro e member
        rcases List.mem_map.mp member with ⟨c, inside, rfl⟩
        exact (store_lt isKey (ordered.isKey (by simp [inside]))).mpr (above c inside)
    · have blocks : Ordered t.leafBlockSize ((pre ++ [b]) ++ post) := by simpa using ordered
      exact blocks.above above
  · refine Or.inr ⟨correct.find_eq_none holds ?_, above⟩
    intro e member
    rcases List.mem_map.mp member with ⟨c, inside, rfl⟩
    exact (store_lt isKey (ordered.isKey inside)).mpr (above c inside)

/-- `insert` chooses the leaf whose block the key belongs in. -/
theorem insertLeaf_spec {v : List Block} (correct : tree.Correct) (filled : Filled tree t v)
    (isKey : IsKey key) :
    ∃ pre a l post, v = pre ++ (a, l) :: post ∧ t.insertLeaf tree key = a ∧
      Belongs key pre (a, l) post := by
  rcases findLeq_spec correct filled isKey with
    ⟨pre, b, post, rfl, found, _, belongs⟩ | ⟨found, above⟩
  · exact ⟨pre, b.1, b.2, post, rfl, by rw [insertLeaf, found]; rfl, belongs⟩
  · rcases List.exists_cons_of_ne_nil filled.nonempty with ⟨b, post, rfl⟩
    have first := filled.represents.first
    have blocks : Ordered t.leafBlockSize (([] ++ [b]) ++ post) := filled.ordered
    refine ⟨[], b.1, b.2, post, rfl, ?_, fun x member => (nomatch member),
      blocks.above fun c member => above c (by simp [member]), Or.inl rfl⟩
    rw [insertLeaf, found]
    exact (Option.some_inj.mp first).symm

/-- The leaf where a key is inserted is not full, or its middle element has neither the
first key of the leaf nor that of the next one. -/
def InsertRegular (tree : OrderedIndex Bytes Nat τ) (t : Art τ) (key : Int) : Prop :=
  let a := t.insertLeaf tree key
  let l := (t.leaves a).elements
  t.isEmpty = false → l.length = t.leafBlockSize →
    keyAt l ((l.length + 1) / 2) ≠ keyAt l 0 ∧
      ∀ b ∈ t.links.next a, keyAt (t.leaves b).elements 0 ≠ keyAt l ((l.length + 1) / 2)

instance (t : Art τ) (key : Int) : Decidable (InsertRegular tree t key) :=
  inferInstanceAs (Decidable (_ → _ → _ ∧ _))

theorem Filled.notEmpty {v : List Block} (filled : Filled tree t v) : t.isEmpty = false := by
  rcases List.exists_cons_of_ne_nil filled.nonempty with ⟨b, post, rfl⟩
  have positive := List.length_pos_of_ne_nil (filled.ordered.nonempty b (by simp))
  have cardinality := filled.cardinality
  rw [pairs_cons, List.length_append] at cardinality
  exact decide_eq_false (by omega)

theorem Vacant.empty (vacant : Vacant tree t a) : t.isEmpty = true := by
  rw [isEmpty, vacant.cardinality]
  rfl

/-- The insertion in a full leaf. -/
theorem insert_split (twoCells : 2 ≤ t.leafBlockSize)
    (filled : Filled tree t (pre ++ (a, l) :: post)) (belongs : Belongs key pre (a, l) post)
    (isKey : IsKey key)
    (full : l.length = t.leafBlockSize)
    (first : keyAt l ((l.length + 1) / 2) ≠ keyAt l 0)
    (next : ∀ b ∈ post.head?, minKey b ≠ keyAt l ((l.length + 1) / 2)) :
    ∃ v', Filled tree (((t.split a).1.indexInsert tree (t.split a).2.1 (t.split a).2.2).insertInto
        tree (if key ≥ (t.split a).2.1 then (t.split a).2.2 else a) key value) v' ∧
      Inserted (key, value) (pairs (pre ++ (a, l) :: post)) (pairs v') := by
  rcases filled with ⟨represents, index, cardinality, _, ordered, holds⟩
  have elements := represents.elements
  have divided := split_represents represents
  -- the halves, and the pivot between them
  obtain ⟨l₁, l₂, rfl, length₁, leftEq, rightEq⟩ : ∃ l₁ l₂, l = l₁ ++ l₂ ∧
      l₁.length = (l.length + 1) / 2 ∧ l.take ((l.length + 1) / 2) = l₁ ∧
      l.drop ((l.length + 1) / 2) = l₂ :=
    ⟨_, _, (List.take_append_drop _ _).symm, List.length_take_of_le (by omega), rfl, rfl⟩
  rw [leftEq, rightEq] at divided
  have length := full
  rw [List.length_append] at length length₁
  have left : l₁ ≠ [] := List.ne_nil_of_length_pos (by omega)
  have right : l₂ ≠ [] := List.ne_nil_of_length_pos (by omega)
  have middle : keyAt (l₁ ++ l₂) (((l₁ ++ l₂).length + 1) / 2) = keyAt l₂ 0 := by
    rw [List.length_append, ← length₁, keyAt, keyAt, List.getD_append_right _ _ _ _ le_rfl,
      Nat.sub_self]
  have head : keyAt (l₁ ++ l₂) 0 = keyAt l₁ 0 := by
    rw [keyAt, keyAt, List.getD_append _ _ _ _ (List.length_pos_of_ne_nil left)]
  rw [middle] at first next
  rw [head] at first
  have pivot : (t.split a).2 = (keyAt l₂ 0, t.fresh) := by
    simp only [Art.split, Leaf.size, elements, rightEq]
    rw [firstKey_eq right]
  have ordered' := ordered.split (c := t.fresh) left right first next
  have samePairs : pairs (pre ++ (a, l₁) :: (t.fresh, l₂) :: post) =
      pairs (pre ++ (a, l₁ ++ l₂) :: post) := by simp
  have holds' : Holds (.insert (store (keyAt l₂ 0)) t.fresh :: t.calls)
      ((pre ++ (a, l₁) :: (t.fresh, l₂) :: post).map entry) := by
    have blocks : Ordered t.leafBlockSize ((pre ++ [(a, l₁)]) ++ (t.fresh, l₂) :: post) := by
      simpa using ordered'
    have entries : (pre ++ (a, l₁ ++ l₂) :: post).map entry =
        ((pre ++ [(a, l₁)]) ++ post).map entry := by
      simp [entry, minKey, head]
    rw [entries] at holds
    have inserted := holds_insert holds blocks
    change Holds (.insert (store (keyAt l₂ 0)) t.fresh :: t.calls) _ at inserted
    simpa using inserted
  rw [pivot]
  have filled' : Filled tree ((t.split a).1.indexInsert tree (keyAt l₂ 0) t.fresh)
      (pre ++ (a, l₁) :: (t.fresh, l₂) :: post) := by
    refine ⟨⟨divided.chain, divided.first, divided.fresh, divided.count, divided.leaves⟩, ?_, ?_,
      by simp, ordered', holds'⟩
    · change tree.insert t.index _ _ = _
      rw [index]
      rfl
    · rw [samePairs]
      exact cardinality
  by_cases toRight : key ≥ keyAt l₂ 0
  · have focus : pre ++ (a, l₁) :: (t.fresh, l₂) :: post =
        (pre ++ [(a, l₁)]) ++ (t.fresh, l₂) :: post := by simp
    rw [if_pos toRight, ← samePairs]
    rw [focus] at filled' ordered' ⊢
    refine insertInto_filled filled' ⟨fun x member => ?_, belongs.above, Or.inr toRight⟩ isKey ?_
    · exact (ordered'.before x member).trans toRight
    · change l₂.length < t.leafBlockSize
      omega
  · rw [if_neg toRight, ← samePairs]
    refine insertInto_filled filled' ⟨belongs.below, fun y member => ?_, ?_⟩ isKey ?_
    · rcases List.mem_append.mp member with member | member
      · have blocks : Ordered t.leafBlockSize ((pre ++ [(a, l₁)]) ++ (t.fresh, l₂) :: post) := by
          simpa using ordered'
        exact (not_le.mp toRight).trans_le (minKey_le blocks.sorted_block member)
      · exact belongs.above y member
    · rw [minKey, ← head]
      exact belongs.first
    · change l₁.length < t.leafBlockSize
      omega

theorem insert_full (notEmpty : t.isEmpty = false) (chosen : t.insertLeaf tree key = a)
    (full : (t.leaves a).size = t.leafBlockSize) :
    t.insert tree key value =
      ((t.split a).1.indexInsert tree (t.split a).2.1 (t.split a).2.2).insertInto
        tree (if key ≥ (t.split a).2.1 then (t.split a).2.2 else a) key value := by
  rw [insert, if_neg (by rw [notEmpty]; exact Bool.false_ne_true), chosen, if_pos full]

theorem insert_room (notEmpty : t.isEmpty = false) (chosen : t.insertLeaf tree key = a)
    (room : (t.leaves a).size ≠ t.leafBlockSize) :
    t.insert tree key value = t.insertInto tree a key value := by
  rw [insert, if_neg (by rw [notEmpty]; exact Bool.false_ne_true), chosen, if_neg room]

/-- Insertion in a tree that has elements. -/
theorem Filled.insert {v : List Block} (correct : tree.Correct) (twoCells : 2 ≤ t.leafBlockSize)
    (filled : Filled tree t v) (isKey : IsKey key) (regular : InsertRegular tree t key) :
    ∃ v', Filled tree (t.insert tree key value) v' ∧
      Inserted (key, value) (pairs v) (pairs v') := by
  rcases insertLeaf_spec correct filled isKey with ⟨pre, a, l, post, rfl, chosen, belongs⟩
  have elements := filled.represents.elements
  have links := filled.represents.links
  have size : (t.leaves a).size = l.length := congrArg List.length elements
  by_cases full : l.length = t.leafBlockSize
  · rw [insert_full filled.notEmpty chosen (size.trans full)]
    have regular := regular filled.notEmpty
    simp only [chosen, elements] at regular
    rcases regular full with ⟨first, next⟩
    refine insert_split twoCells filled belongs isKey full first fun b member => ?_
    rcases post with _ | ⟨c, post⟩
    · cases member
    · obtain rfl : c = b := by simpa using member
      have same : (t.leaves c.1).elements = c.2 := filled.represents.leaves c (by simp)
      have other := next c.1 (by rw [links.2]; rfl)
      rwa [same] at other
  · rw [insert_room filled.notEmpty chosen (by rwa [size])]
    have sizeLe : l.length ≤ t.leafBlockSize := filled.ordered.sizes (a, l) (by simp)
    exact insertInto_filled filled belongs isKey (lt_of_le_of_ne sizeLe full)

/-- The insertion of the first element. -/
theorem Vacant.insert (vacant : Vacant tree t a) (oneCell : 1 ≤ t.leafBlockSize)
    (isKey : IsKey key) : Filled tree (t.insert tree key value) [(a, [(key, value)])] := by
  rcases vacant with ⟨represents, index, cardinality, holds⟩
  have first : t.first = a := (Option.some_inj.mp represents.first).symm
  have focused : Represents t ([] ++ (a, []) :: []) := represents
  rcases leafInsert_spec focused List.Pairwise.nil key value with ⟨l', inserted, _, written⟩
  obtain rfl : l' = [(key, value)] := List.perm_singleton.mp inserted.perm
  have ordered : Ordered t.leafBlockSize ([] ++ (a, [(key, value)]) :: []) := by
    refine ⟨by simp, ?_, List.pairwise_singleton _ _, List.pairwise_singleton _ _, ?_⟩
    · simpa using oneCell
    · simpa using isKey
  simp only [Art.insert, Vacant.empty ⟨represents, index, cardinality, holds⟩, if_true, first]
  refine ⟨⟨written.chain, written.first, written.fresh, written.count, written.leaves⟩, ?_, ?_,
    by simp, ordered, ?_⟩
  · change tree.insert t.index _ _ = _
    rw [index]
    rfl
  · change t.cardinality + 1 = _
    rw [cardinality]
    rfl
  · change Holds (.insert (store key) t.first :: t.calls) _
    rw [first]
    exact holds_insert holds ordered

/-- Insertion in a valid tree. -/
theorem insert_valid {v : List Block} (correct : tree.Correct) (twoCells : 2 ≤ t.leafBlockSize)
    (valid : Valid tree t v) (isKey : IsKey key) (value : Int)
    (regular : InsertRegular tree t key) :
    ∃ v', Valid tree (t.insert tree key value) v' ∧
      Inserted (key, value) (pairs v) (pairs v') := by
  rcases valid with filled | ⟨a, rfl, vacant⟩
  · rcases filled.insert correct twoCells isKey regular with ⟨v', filled', inserted⟩
    exact ⟨v', Or.inl filled', inserted⟩
  · refine ⟨_, Or.inl (vacant.insert (le_trans one_le_two twoCells) isKey), [], [], rfl, rfl,
      nofun, nofun⟩

end Insert

end Rma.Art
