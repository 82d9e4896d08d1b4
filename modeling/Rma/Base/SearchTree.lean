import Rma.Base.Chain
import Rma.Base.Focus
import Rma.Base.Multimap
import Rma.Base.Scan

/-!
# Search trees with their elements in the leaves

All the leaves of the tree are at the same depth: a node is indexed by its level,
the number of levels below it. An inner node keeps one key less than it has
children, and each key is the minimum of the child on its right. `Good` says so of
a node and everything below it, together with the limits on the sizes of the
children; nothing is said of the size of the node itself.

A descent scans the keys of a node for those that satisfy a condition and goes to
the child where the scan stops; `Descent` says what that tells about the elements
on both sides of the child.

The leaves are linked one to the other, and `Heap` counts the nodes. An operation
on a part of the tree is one on the whole when the heap follows it in any context
(`Follows`).
-/

namespace Rma.Base.SearchTree

structure Leaf (κ β : Type) where
  address : Nat
  elements : List (κ × β)
  deriving DecidableEq, Repr

/-- An inner node keeps one key less than it has children. -/
structure InternalNode (κ child : Type) where
  keys : List κ
  children : List child

/-- A node at a level. -/
def Node (κ β : Type) : Nat → Type
  | 0 => Leaf κ β
  | level + 1 => InternalNode κ (Node κ β level)

variable {κ β : Type}

@[match_pattern] def Node.leaf (l : Leaf κ β) : Node κ β 0 := l

@[match_pattern] def Node.inner {level : Nat} (keys : List κ) (children : List (Node κ β level)) :
    Node κ β (level + 1) := InternalNode.mk keys children

/-- A node above the leaves is an inner node. -/
@[elab_as_elim] theorem Node.inner_cases {level : Nat} {P : Node κ β (level + 1) → Prop}
    (inner : ∀ keys children, P (.inner keys children)) (n : Node κ β (level + 1)) : P n :=
  inner n.keys n.children

instance : {level : Nat} → Inhabited (Node κ β level)
  | 0 => ⟨.leaf ⟨0, []⟩⟩
  | _ + 1 => ⟨.inner [] []⟩

namespace Node

/-- The number of entries of a node. -/
def size : {level : Nat} → Node κ β level → Nat
  | 0, .leaf l => l.elements.length
  | _ + 1, .inner _ children => children.length

/-- The key of an element, by position. -/
def keyAt [Inhabited κ] [Inhabited β] (l : List (κ × β)) (i : Nat) : κ := (l.getD i default).1

/-- The elements below a node, from left to right. -/
def elements : {level : Nat} → Node κ β level → List (κ × β)
  | 0, .leaf l => l.elements
  | _ + 1, .inner _ children => children.flatMap elements

/-- The addresses of the leaves below a node, from left to right. -/
def leaves : {level : Nat} → Node κ β level → List Nat
  | 0, .leaf l => [l.address]
  | _ + 1, .inner _ children => children.flatMap leaves

/-- The number of inner nodes of a subtree. -/
def inodes : {level : Nat} → Node κ β level → Nat
  | 0, .leaf _ => 0
  | _ + 1, .inner _ children => (children.map inodes).sum + 1

/-- The minimum key below a node. -/
def minKey [Inhabited κ] [Inhabited β] {level : Nat} (n : Node κ β level) : κ :=
  keyAt n.elements 0

end Node

open Node

/-- The limits on the sizes of the nodes, by level. -/
structure Limits where
  lower : Nat → Nat
  upper : Nat → Nat
  positive : ∀ level, 0 < lower level

/-- The children are good and within their limits, and the keys are their minima. -/
def Good [Inhabited κ] [Inhabited β] (b : Limits) : {level : Nat} → Node κ β level → Prop
  | 0, .leaf _ => True
  | level + 1, .inner keys children =>
    keys = separators minKey children ∧
      ∀ c ∈ children, Good b c ∧ b.lower level ≤ c.size ∧ c.size ≤ b.upper level

instance decidableGood [DecidableEq κ] [Inhabited κ] [Inhabited β] (b : Limits) :
    {level : Nat} → (n : Node κ β level) → Decidable (Good b n)
  | 0, .leaf _ => isTrue trivial
  | level + 1, .inner keys children =>
    have : DecidablePred fun c : Node κ β level =>
        Good b c ∧ b.lower level ≤ c.size ∧ c.size ≤ b.upper level :=
      fun c => have := decidableGood b c; inferInstance
    inferInstanceAs (Decidable (keys = separators minKey children ∧ ∀ c ∈ children, _))

/-- A good node within its limits. -/
def Fits [Inhabited κ] [Inhabited β] (b : Limits) {level : Nat} (n : Node κ β level) : Prop :=
  Good b n ∧ b.lower level ≤ n.size ∧ n.size ≤ b.upper level

section Shape

variable [Inhabited κ] [Inhabited β] {b : Limits} {level : Nat} {keys : List κ}
  {children : List (Node κ β level)}

theorem good_inner :
    Good b (.inner keys children) ↔ keys = separators minKey children ∧ ∀ c ∈ children, Fits b c :=
  Iff.rfl

omit [Inhabited κ] [Inhabited β] in
theorem size_inner : (Node.inner keys children).size = children.length := rfl

omit [Inhabited κ] [Inhabited β] in
theorem elements_inner : (Node.inner keys children).elements = children.flatMap elements := rfl

omit [Inhabited κ] [Inhabited β] in
theorem leaves_inner : (Node.inner keys children).leaves = children.flatMap leaves := rfl

omit [Inhabited κ] [Inhabited β] in
theorem inodes_inner : (Node.inner keys children).inodes = (children.map inodes).sum + 1 := rfl

/-- A good node that is not empty holds an element. -/
theorem elements_ne_nil {level : Nat} {n : Node κ β level} (good : Good b n) (size : 0 < n.size) :
    n.elements ≠ [] := by
  induction level with
  | zero => exact List.ne_nil_of_length_pos size
  | succ level ih =>
      cases n using Node.inner_cases with
      | inner keys children =>
          rcases children with _ | ⟨c, children⟩
          · exact absurd size (lt_irrefl 0)
          · have fits := (good_inner.mp good).2 c (by simp)
            have first := ih fits.1 ((b.positive level).trans_le fits.2.1)
            rw [elements_inner, List.flatMap_cons]
            exact fun empty => first (List.append_eq_nil_iff.mp empty).1

theorem Fits.elements_ne_nil {n : Node κ β level} (fits : Fits b n) : n.elements ≠ [] :=
  SearchTree.elements_ne_nil fits.1 ((b.positive level).trans_le fits.2.1)

theorem keyAt_eq {l : List (κ × β)} {i : Nat} (inside : i < l.length) : keyAt l i = (l[i]).1 := by
  simp [keyAt, inside]

/-- In a sorted list a later position holds a key that is no smaller. -/
theorem keyAt_le [LinearOrder κ] {l : List (κ × β)} (sorted : SortedPairs l) {i j : Nat}
    (order : i ≤ j) (inside : j < l.length) : keyAt l i ≤ keyAt l j := by
  rw [keyAt_eq inside, keyAt_eq (lt_of_le_of_lt order inside)]
  rcases Nat.eq_or_lt_of_le order with rfl | before
  · exact le_rfl
  · exact List.pairwise_iff_getElem.mp sorted i j _ inside before

/-- The minimum of a node is the key of its first element. -/
theorem minKey_eq {n : Node κ β level} {e : κ × β} {l : List (κ × β)}
    (elements : n.elements = e :: l) : n.minKey = e.1 := by
  rw [minKey, elements]
  rfl

theorem exists_minKey {n : Node κ β level} (nonempty : n.elements ≠ []) :
    ∃ e l, n.elements = e :: l ∧ n.minKey = e.1 := by
  rcases List.exists_cons_of_ne_nil nonempty with ⟨e, l, elements⟩
  exact ⟨e, l, elements, minKey_eq elements⟩

/-- Two nodes whose elements start alike have the same minimum. -/
theorem minKey_congr {n m : Node κ β level} {l : List (κ × β)} (nonempty : n.elements ≠ [])
    (elements : m.elements = n.elements ++ l) : m.minKey = n.minKey := by
  rcases exists_minKey nonempty with ⟨e, rest, eq, min⟩
  rw [eq] at elements
  rw [min, minKey_eq elements]

/-- The minimum of an inner node is that of its first child. -/
theorem minKey_inner {c : Node κ β level} (nonempty : c.elements ≠ []) :
    (Node.inner keys (c :: children)).minKey = c.minKey := by
  rcases exists_minKey nonempty with ⟨e, l, elements, min⟩
  rw [min, minKey, elements_inner, List.flatMap_cons, elements]
  rfl

/-! ## Dividing and joining inner nodes -/

/-- The children of a good node can be shared out between two nodes; the key between
the two parts is the minimum of the second one. -/
theorem Good.divide {i : Nat} (good : Good b (.inner keys children)) (first : 0 < i)
    (second : i < children.length) :
    Good b (.inner (keys.take (i - 1)) (children.take i)) ∧
      Good b (.inner (keys.drop i) (children.drop i)) ∧
      keys.getD (i - 1) default = (Node.inner (keys.drop i) (children.drop i)).minKey := by
  rcases good_inner.mp good with ⟨rfl, fits⟩
  refine ⟨⟨?_, fun c member => fits c (List.mem_of_mem_take member)⟩,
    ⟨?_, fun c member => fits c (List.mem_of_mem_drop member)⟩, ?_⟩
  · rw [separators, separators, ← List.map_take, ← List.tail_take_eq_take_tail]
  · rw [separators, separators, ← List.map_drop, List.tail_drop_eq_drop_tail]
  · rcases exists_focus second with ⟨pre, c, post, rfl, rfl⟩
    rcases List.eq_nil_or_concat pre with rfl | ⟨pre, x, rfl⟩
    · exact absurd first (lt_irrefl 0)
    · rw [List.drop_left, minKey_inner (fits c (by simp)).elements_ne_nil]
      simp only [List.concat_eq_append, List.length_append, List.length_singleton,
        Nat.add_sub_cancel, List.append_assoc, List.singleton_append]
      exact separators_getD default

/-- Two good nodes can be joined, with the minimum of the second one between them. -/
theorem Good.join {keys₁ keys₂ : List κ} {children₁ children₂ : List (Node κ β level)}
    (good₁ : Good b (.inner keys₁ children₁)) (good₂ : Good b (.inner keys₂ children₂))
    (nonempty₁ : children₁ ≠ []) (nonempty₂ : children₂ ≠ []) :
    Good b (.inner (keys₁ ++ (Node.inner keys₂ children₂).minKey :: keys₂)
      (children₁ ++ children₂)) := by
  rcases good_inner.mp good₁ with ⟨rfl, fits₁⟩
  rcases good_inner.mp good₂ with ⟨rfl, fits₂⟩
  obtain ⟨c, rest, rfl⟩ := List.exists_cons_of_ne_nil nonempty₂
  refine ⟨?_, fun d member => (List.mem_append.mp member).elim (fits₁ d) (fits₂ d)⟩
  rw [minKey_inner (fits₂ c (by simp)).elements_ne_nil, separators_append minKey nonempty₁]
  simp [separators]

/-- A good inner node has one key less than children. -/
theorem Good.length_keys (good : Good b (.inner keys children)) :
    keys.length = children.length - 1 := by
  rw [(good_inner.mp good).1, separators, List.length_map, List.length_tail]

end Shape

/-! ## Descending to a child -/

section Descend

variable [LinearOrder κ] [Inhabited κ] [Inhabited β] {b : Limits} {level : Nat}
  {children : List (Node κ β level)}

omit [LinearOrder κ] in
/-- Where a scan of the keys for those that satisfy `P` leads: to a child whose
minimum satisfies `P`, unless it is the first one, while the minimum of the next
child does not. -/
theorem scan_children (P : κ → Prop) [DecidablePred P] (nonempty : children ≠ []) :
    ∃ pre c post, children = pre ++ c :: post ∧
      scanUp (fun j => decide (P ((separators minKey children).getD j default))) 0
        (children.length - 1) = pre.length ∧
      (pre ≠ [] → P c.minKey) ∧ ∀ d rest, post = d :: rest → ¬P d.minKey := by
  rcases scanUp_spec (fun j => decide (P ((separators minKey children).getD j default))) 0
    (children.length - 1) with ⟨_, upper, passed, stopped⟩
  generalize scanUp (fun j => decide (P ((separators minKey children).getD j default))) 0
    (children.length - 1) = i at upper passed stopped ⊢
  have positive := List.length_pos_of_ne_nil nonempty
  rcases exists_focus (show i < children.length by omega) with ⟨pre, c, post, rfl, rfl⟩
  refine ⟨pre, c, post, rfl, rfl, ?_, ?_⟩
  · intro notFirst
    rcases List.eq_nil_or_concat pre with rfl | ⟨before, x, rfl⟩
    · exact absurd rfl notFirst
    · have satisfied := passed before.length (Nat.zero_le _) (by simp)
      simp only [List.concat_eq_append, List.append_assoc, List.singleton_append] at satisfied
      rw [separators_getD] at satisfied
      exact of_decide_eq_true satisfied
  · intro d rest split
    subst split
    have fails := stopped (by simp)
    rw [separators_getD] at fails
    exact of_decide_eq_false fails

/-- In a sorted node, the elements before a child are at most its minimum and
those after it are at least the minimum of the next one. -/
theorem sorted_context {pre post : List (Node κ β level)} {c : Node κ β level}
    (sorted : SortedPairs ((pre ++ c :: post).flatMap elements)) (nonempty : c.elements ≠ [])
    (fits : ∀ d ∈ post, d.elements ≠ []) :
    (∀ x ∈ pre.flatMap elements, x.1 ≤ c.minKey) ∧
      (∀ d rest, post = d :: rest → ∀ x ∈ post.flatMap elements, d.minKey ≤ x.1) ∧
      SortedPairs c.elements := by
  rw [List.flatMap_append, List.flatMap_cons, SortedPairs.append_iff] at sorted
  rcases sorted with ⟨_, sorted, apart⟩
  rcases SortedPairs.append_iff.mp sorted with ⟨sortedC, sortedPost, _⟩
  rcases exists_minKey nonempty with ⟨e, l, elements, min⟩
  refine ⟨?_, ?_, sortedC⟩
  · intro x member
    rw [min]
    exact apart x member e (by simp [elements])
  · intro d rest split x member
    subst split
    rcases exists_minKey (fits d (by simp)) with ⟨f, k, elementsD, minD⟩
    rw [List.flatMap_cons, elementsD, List.cons_append] at sortedPost member
    rw [minD]
    exact sortedPost.head_le x member

/-- The child a scan of the keys for those that satisfy `P` leads to, among its
siblings, in a sorted node. -/
structure Descent (P : κ → Prop) [DecidablePred P] {level : Nat}
    (pre : List (Node κ β level)) (c : Node κ β level) (post : List (Node κ β level)) : Prop where
  index : scanUp (fun j => decide (P ((separators minKey (pre ++ c :: post)).getD j default))) 0
    ((pre ++ c :: post).length - 1) = pre.length
  before : pre ≠ [] → P c.minKey
  after : ∀ d rest, post = d :: rest → ¬P d.minKey
  sorted : SortedPairs c.elements
  below : ∀ x ∈ pre.flatMap elements, x.1 ≤ c.minKey
  above : ∀ d rest, post = d :: rest → ∀ x ∈ post.flatMap elements, d.minKey ≤ x.1

theorem exists_descent (P : κ → Prop) [DecidablePred P] (fits : ∀ c ∈ children, Fits b c)
    (nonempty : children ≠ []) (sorted : SortedPairs (children.flatMap elements)) :
    ∃ pre c post, children = pre ++ c :: post ∧ Descent P pre c post := by
  rcases scan_children P nonempty with ⟨pre, c, post, rfl, index, before, after⟩
  rcases sorted_context sorted (fits c (by simp)).elements_ne_nil fun d member =>
    (fits d (by simp [member])).elements_ne_nil with ⟨below, above, sortedC⟩
  exact ⟨pre, c, post, rfl, index, before, after, sortedC, below, above⟩

variable {pre post : List (Node κ β level)} {c : Node κ β level} {key : κ}

/-- Scanning for the keys below `key`: the elements before the child are at most
`key` and those after it are at least `key`. -/
theorem Descent.apart (descent : Descent (· < key) pre c post) :
    (∀ x ∈ pre.flatMap elements, x.1 ≤ key) ∧ ∀ x ∈ post.flatMap elements, key ≤ x.1 := by
  constructor
  · intro x member
    have notFirst : pre ≠ [] := by
      rintro rfl
      cases member
    exact (descent.below x member).trans (descent.before notFirst).le
  · intro x member
    rcases post with _ | ⟨d, rest⟩
    · cases member
    · exact (not_lt.mp (descent.after d rest rfl)).trans (descent.above d rest rfl x member)

end Descend

/-! ## The heap -/

/-- What the nodes share: the pointers of the leaves, the next free address, and
the counters of the nodes and of the elements. -/
structure Heap where
  links : Links
  fresh : Nat
  numInodes : Int
  numLeaves : Int
  cardinality : Int

/-- The heap holds these leaves, linked in this order, and so many inner nodes. -/
structure Heap.Owns (heap : Heap) (leaves : List Nat) (inodes : Nat) : Prop where
  chain : heap.links.Chain leaves
  fresh : ∀ a ∈ leaves, a < heap.fresh
  numLeaves : heap.numLeaves = leaves.length
  numInodes : heap.numInodes = inodes

/-- Wherever the heap holds the nodes `l` among others, the new heap holds `l'` in
their place. -/
def Follows (heap heap' : Heap) {level level' : Nat} (l : List (Node κ β level))
    (l' : List (Node κ β level')) : Prop :=
  ∀ pre post m, heap.Owns (pre ++ l.flatMap leaves ++ post) ((l.map inodes).sum + m) →
    heap'.Owns (pre ++ l'.flatMap leaves ++ post) ((l'.map inodes).sum + m)

section Follow

variable {heap heap' heap1 : Heap} {level level' level1 : Nat} {l : List (Node κ β level)}
  {l' : List (Node κ β level')} {l1 : List (Node κ β level1)}

/-- The heap stays as it is where the leaves and the number of the inner nodes do. -/
theorem Follows.same (leaves : l'.flatMap leaves = l.flatMap leaves)
    (inodes : (l'.map inodes).sum = (l.map inodes).sum) : Follows heap heap l l' := by
  intro pre post m owns
  rwa [leaves, inodes]

theorem Follows.refl : Follows heap heap l l := Follows.same rfl rfl

theorem Follows.trans (first : Follows heap heap1 l l1) (second : Follows heap1 heap' l1 l') :
    Follows heap heap' l l' :=
  fun pre post m owns => second pre post m (first pre post m owns)

/-- The number of the elements does not matter. -/
theorem Follows.cardinality (follows : Follows heap heap' l l') (n : Int) :
    Follows heap { heap' with cardinality := n } l l' := by
  intro pre post m owns
  rcases follows pre post m owns with ⟨chain, fresh, numLeaves, numInodes⟩
  exact ⟨chain, fresh, numLeaves, numInodes⟩

/-- A change of some children among their siblings. -/
theorem Follows.context {l l' : List (Node κ β level)} (follows : Follows heap heap' l l')
    (pre post : List (Node κ β level)) : Follows heap heap' (pre ++ l ++ post) (pre ++ l' ++ post) := by
  intro before after m owns
  have shift : ∀ l : List (Node κ β level), ((pre ++ l ++ post).map inodes).sum + m =
      (l.map inodes).sum + ((pre.map inodes).sum + (post.map inodes).sum + m) := by
    intro l
    simp only [List.map_append, List.sum_append]
    omega
  rw [shift] at owns ⊢
  have moved := follows (before ++ pre.flatMap leaves) (post.flatMap leaves ++ after) _
    (by simpa using owns)
  simpa using moved

/-- A change of the children is a change of their parent. -/
theorem Follows.inner (follows : Follows heap heap' l l') (keys keys' : List κ) :
    Follows heap heap' [Node.inner keys l] [Node.inner keys' l'] := by
  intro before after m owns
  have moved := follows before after (1 + m)
    (by simpa [leaves_inner, inodes_inner, Nat.add_assoc] using owns)
  simpa [leaves_inner, inodes_inner, Nat.add_assoc] using moved

/-- The root is a part of itself. -/
theorem Follows.owns {n : Node κ β level} {n' : Node κ β level'}
    (follows : Follows heap heap' [n] [n']) (owns : heap.Owns n.leaves n.inodes) :
    heap'.Owns n'.leaves n'.inodes := by
  have moved := follows [] [] 0 (by simpa using owns)
  simpa using moved

end Follow

/-! ## Reading the chain of the leaves -/

namespace Node

/-- The leaves below a node, from left to right. -/
def leafNodes : {level : Nat} → Node κ β level → List (Leaf κ β)
  | 0, .leaf l => [l]
  | _ + 1, .inner _ children => children.flatMap leafNodes

/-- The contents of the leaf at an address. -/
def leafAt {level : Nat} (n : Node κ β level) (address : Nat) : List (κ × β) :=
  ((n.leafNodes.find? fun l => l.address = address).map Leaf.elements).getD []

end Node

theorem leafNodes_inner {level : Nat} (keys : List κ) (children : List (Node κ β level)) :
    (Node.inner keys children).leafNodes = children.flatMap leafNodes := rfl

theorem leaves_eq {level : Nat} (n : Node κ β level) : n.leaves = n.leafNodes.map Leaf.address := by
  induction level with
  | zero => rfl
  | succ level ih =>
      cases n using Node.inner_cases with
      | inner keys children =>
          rw [leaves_inner, leafNodes_inner, List.map_flatMap]
          exact List.flatMap_congr fun c _ => ih c

theorem elements_eq {level : Nat} (n : Node κ β level) :
    n.elements = n.leafNodes.flatMap Leaf.elements := by
  induction level with
  | zero => exact (List.flatMap_singleton _ _).symm
  | succ level ih =>
      cases n using Node.inner_cases with
      | inner keys children =>
          rw [elements_inner, leafNodes_inner, List.flatMap_assoc]
          exact List.flatMap_congr fun c _ => ih c

/-- Leaves with distinct addresses are found by their addresses. -/
theorem leafAt_eq {level : Nat} {n : Node κ β level} (distinct : n.leaves.Nodup) {l : Leaf κ β}
    (member : l ∈ n.leafNodes) : n.leafAt l.address = l.elements := by
  rw [leaves_eq] at distinct
  have found : n.leafNodes.find? (fun m => decide (m.address = l.address)) = some l := by
    rcases List.append_of_mem member with ⟨before, after, split⟩
    rw [split] at distinct ⊢
    rw [List.map_append, List.map_cons, List.nodup_append] at distinct
    rw [List.find?_append, List.find?_eq_none.mpr, Option.none_or]
    · exact List.find?_cons_of_pos (decide_eq_true rfl)
    intro m inside same
    exact distinct.2.2 m.address (List.mem_map_of_mem inside) l.address (by simp)
      (of_decide_eq_true same)
  rw [leafAt, found]
  rfl

/-- The contents of the leaves, in order. -/
theorem flatMap_leafAt {level : Nat} {n : Node κ β level} (distinct : n.leaves.Nodup) :
    n.leaves.flatMap n.leafAt = n.elements := by
  rw [elements_eq, leaves_eq, List.flatMap_map]
  exact List.flatMap_congr fun l member => leafAt_eq distinct member

/-- The pointer `next` of a leaf. -/
theorem next_leaf {level : Nat} {n : Node κ β level} {links : Links} {pre post : List (Leaf κ β)}
    {l : Leaf κ β} (chain : links.Chain n.leaves) (leaves : n.leafNodes = pre ++ l :: post) :
    links.next l.address = post.head?.map Leaf.address := by
  have linked := chain.linked
  rw [leaves_eq, leaves, List.map_append, List.map_cons, Links.segment_append] at linked
  rw [linked.2.2.1, Option.or_none, List.head?_map]

/-- The pairs read along `next` from the first leaf, over `count` leaves at most. -/
def readChain {level : Nat} (n : Node κ β level) (links : Links) (count : Nat) : List (κ × β) :=
  (links.walk count n.leaves.head?).flatMap n.leafAt

/-- Reading the chain of the leaves lists the elements. -/
theorem readChain_eq {level : Nat} {n : Node κ β level} {links : Links}
    (chain : links.Chain n.leaves) {count : Nat} (enough : n.leaves.length ≤ count) :
    readChain n links count = n.elements := by
  rw [readChain, Links.walk_segment chain.linked enough, flatMap_leafAt chain.nodup]

/-! ## Descending to a leaf -/

/-- A leaf among the leaves of a node: its first key satisfies `P`, unless it is the first leaf,
and the first key of the next leaf does not. -/
structure AtLeaf [Inhabited κ] [Inhabited β] (P : κ → Prop) {level : Nat} (n : Node κ β level)
    (pre : List (Leaf κ β)) (l : Leaf κ β) (post : List (Leaf κ β)) : Prop where
  leaves : n.leafNodes = pre ++ l :: post
  before : pre ≠ [] → P (keyAt l.elements 0)
  after : ∀ m rest, post = m :: rest → ¬P (keyAt m.elements 0)

section Leaves

variable [Inhabited κ] [Inhabited β] {b : Limits} {level : Nat}

/-- The descent that scans the keys of every node for those that satisfy `P`. -/
def descendLeaf (P : κ → Prop) [DecidablePred P] : {level : Nat} → Node κ β level → Leaf κ β
  | 0, .leaf l => l
  | _ + 1, .inner keys children =>
    descendLeaf P (children.getD
      (scanUp (fun j => decide (P (keys.getD j default))) 0 (children.length - 1)) default)

/-- No leaf below a child is empty. -/
theorem Fits.leaves_ne_nil {n : Node κ β level} (fits : Fits b n) :
    ∀ l ∈ n.leafNodes, l.elements ≠ [] := by
  induction level with
  | zero =>
      intro l member
      cases List.mem_singleton.mp member
      exact fits.elements_ne_nil
  | succ level ih =>
      cases n using Node.inner_cases with
      | inner keys children =>
          intro l member
          rw [leafNodes_inner, List.mem_flatMap] at member
          rcases member with ⟨c, child, below⟩
          exact ih ((good_inner.mp fits.1).2 c child) l below

/-- The first leaf below a child holds its minimum. -/
theorem Fits.first_leaf {n : Node κ β level} (fits : Fits b n) :
    ∃ m rest, n.leafNodes = m :: rest ∧ keyAt m.elements 0 = n.minKey := by
  cases leaves : n.leafNodes with
  | nil =>
      have none := fits.elements_ne_nil
      rw [elements_eq, leaves] at none
      exact absurd rfl none
  | cons m rest =>
      have some := fits.leaves_ne_nil m (by simp [leaves])
      obtain ⟨e, l, elements⟩ := List.exists_cons_of_ne_nil some
      refine ⟨m, rest, rfl, ?_⟩
      rw [minKey, elements_eq, leaves, List.flatMap_cons, elements]
      rfl

/-- A leaf of a child is a leaf of the node. -/
theorem AtLeaf.lift {P : κ → Prop} {keys : List κ} {before after : List (Node κ β level)}
    {c : Node κ β level} {pre post : List (Leaf κ β)} {l : Leaf κ β} (at_ : AtLeaf P c pre l post)
    (fits : ∀ d ∈ before ++ c :: after, Fits b d) (satisfied : before ≠ [] → P c.minKey)
    (fails : ∀ d rest, after = d :: rest → ¬P d.minKey) :
    AtLeaf P (.inner keys (before ++ c :: after)) (before.flatMap leafNodes ++ pre) l
      (post ++ after.flatMap leafNodes) := by
  constructor
  · rw [leafNodes_inner, List.flatMap_append, List.flatMap_cons, at_.leaves]
    simp
  · intro some
    cases pre with
    | cons m pre => exact at_.before (by simp)
    | nil =>
        have notFirst : before ≠ [] := by
          rintro rfl
          exact some rfl
        rcases (fits c (by simp)).first_leaf with ⟨m, rest, leaves, first⟩
        rw [at_.leaves, List.nil_append, List.cons.injEq] at leaves
        rw [leaves.1, first]
        exact satisfied notFirst
  · intro m rest split
    cases post with
    | cons m' post =>
        cases split
        exact at_.after _ _ rfl
    | nil =>
        cases after with
        | nil => cases split
        | cons d after =>
            rcases (fits d (by simp)).first_leaf with ⟨m', rest', leaves, first⟩
            rw [List.nil_append, List.flatMap_cons, leaves, List.cons_append,
              List.cons.injEq] at split
            rw [← split.1, first]
            exact fails d after rfl

/-- Where the descent ends. -/
theorem descendLeaf_spec (P : κ → Prop) [DecidablePred P] {n : Node κ β level} (good : Good b n)
    (nonempty : 0 < level → 0 < n.size) : ∃ pre post, AtLeaf P n pre (descendLeaf P n) post := by
  induction level with
  | zero => exact ⟨[], [], rfl, fun none => absurd rfl none, fun _ _ none => nomatch none⟩
  | succ level ih =>
      cases n using Node.inner_cases with
      | inner keys children =>
          rcases good_inner.mp good with ⟨rfl, fits⟩
          have some : children ≠ [] := List.ne_nil_of_length_pos (nonempty (Nat.succ_pos level))
          rcases scan_children P some with ⟨before, c, after, rfl, index, satisfied, fails⟩
          have fitsC := fits c (by simp)
          rcases ih fitsC.1 (fun _ => (b.positive level).trans_le fitsC.2.1) with ⟨pre, post, at_⟩
          have step : descendLeaf P (.inner (separators minKey (before ++ c :: after))
              (before ++ c :: after)) = descendLeaf P c := by
            simp only [descendLeaf, index, getD_focus]
          rw [step]
          exact ⟨_, _, at_.lift fits satisfied fails⟩

end Leaves

section SortedLeaves

variable [LinearOrder κ] [Inhabited κ] [Inhabited β] {level : Nat} {n : Node κ β level}
  {pre post : List (Leaf κ β)} {l : Leaf κ β}

/-- The elements of a sorted node on both sides of a leaf: those before it are at most its first
key, and those after it at least the first key of the next leaf. -/
theorem leaf_context (leaves : n.leafNodes = pre ++ l :: post) (sorted : SortedPairs n.elements)
    (some : ∀ m ∈ n.leafNodes, m.elements ≠ []) :
    n.elements = pre.flatMap Leaf.elements ++ l.elements ++ post.flatMap Leaf.elements ∧
      SortedPairs l.elements ∧ (∀ x ∈ pre.flatMap Leaf.elements, x.1 ≤ keyAt l.elements 0) ∧
      ∀ m rest, post = m :: rest → (∀ x ∈ l.elements, x.1 ≤ keyAt m.elements 0) ∧
        ∀ x ∈ post.flatMap Leaf.elements, keyAt m.elements 0 ≤ x.1 := by
  have split : n.elements =
      pre.flatMap Leaf.elements ++ l.elements ++ post.flatMap Leaf.elements := by
    rw [elements_eq, leaves, List.flatMap_append, List.flatMap_cons, List.append_assoc]
  have sorted' := sorted
  rw [split] at sorted'
  rcases SortedPairs.append_iff.mp sorted' with ⟨left, right, apart⟩
  rcases SortedPairs.append_iff.mp left with ⟨_, middle, apartL⟩
  have firstOf : ∀ m ∈ n.leafNodes, ∃ e rest, m.elements = e :: rest ∧ keyAt m.elements 0 = e.1 := by
    intro m member
    obtain ⟨e, rest, elements⟩ := List.exists_cons_of_ne_nil (some m member)
    exact ⟨e, rest, elements, by rw [elements]; rfl⟩
  refine ⟨split, middle, ?_, ?_⟩
  · intro x member
    rcases firstOf l (by simp [leaves]) with ⟨e, rest, elements, first⟩
    rw [first]
    exact apartL x member e (by simp [elements])
  · intro m rest next
    subst next
    rcases firstOf m (by simp [leaves]) with ⟨e, rest', elements, first⟩
    rw [first]
    have heads : ∀ x ∈ l.elements, x.1 ≤ e.1 := fun x member =>
      apart x (by simp [member]) e (by simp [elements])
    refine ⟨heads, ?_⟩
    rw [List.flatMap_cons, elements, List.cons_append] at right ⊢
    exact right.head_le

end SortedLeaves

end Rma.Base.SearchTree
