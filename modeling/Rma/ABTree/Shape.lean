import Rma.ABTree.Basic
import Rma.Base.Focus
import Rma.Base.Multimap

/-!
# The shape of an (a,b)-tree

`elements` and `leaves` read a node from left to right. `Good` is the invariant
of a node: its keys are the minima of its children but the first, and every child
is good and within its bounds; nothing is said of the size of the node itself.
-/

namespace Rma.ABTree

open Base Node

namespace Node

/-- The elements below a node, from left to right. -/
def elements : {level : Nat} → Node level → List (Int × Int)
  | 0, .leaf l => l.elements
  | _ + 1, .inner _ children => children.flatMap elements

/-- The addresses of the leaves below a node, from left to right. -/
def leaves : {level : Nat} → Node level → List Nat
  | 0, .leaf l => [l.address]
  | _ + 1, .inner _ children => children.flatMap leaves

/-- The minimum key below a node. -/
def minKey {level : Nat} (n : Node level) : Int := keyAt n.elements 0

/-- The children are good and within bounds, and the keys are their minima. -/
def Good (b : Bounds) : {level : Nat} → Node level → Prop
  | 0, .leaf _ => True
  | level + 1, .inner keys children =>
    keys = separators minKey children ∧
      ∀ c ∈ children, Good b c ∧ b.lower level ≤ c.size ∧ c.size ≤ b.upper level

instance decidableGood (b : Bounds) : {level : Nat} → (n : Node level) → Decidable (Good b n)
  | 0, .leaf _ => isTrue trivial
  | level + 1, .inner keys children =>
    have : DecidablePred fun c : Node level =>
        Good b c ∧ b.lower level ≤ c.size ∧ c.size ≤ b.upper level :=
      fun c => have := decidableGood b c; inferInstance
    inferInstanceAs (Decidable (keys = separators minKey children ∧ ∀ c ∈ children, _))

/-- A good node within bounds. -/
def Fits (b : Bounds) {level : Nat} (n : Node level) : Prop :=
  Good b n ∧ b.lower level ≤ n.size ∧ n.size ≤ b.upper level

end Node

/-- The leaves form a chain of allocated nodes. -/
structure Heap.Linked (heap : Heap) (l : List Nat) : Prop where
  chain : heap.links.Chain l
  fresh : ∀ a ∈ l, a < heap.fresh

section Shape

variable {b : Bounds} {level : Nat} {keys : List Int} {children : List (Node level)}

theorem Bounds.two_le_lower (b : Bounds) (level : Nat) : 2 ≤ b.lower level := by
  have first := b.leaf_a
  have second := b.intnode_a
  unfold lower
  split <;> omega

@[simp] theorem Bounds.lower_zero (b : Bounds) : b.lower 0 = b.leafA := rfl

@[simp] theorem Bounds.upper_zero (b : Bounds) : b.upper 0 = b.leafB := rfl

@[simp] theorem Bounds.lower_succ (b : Bounds) (level : Nat) : b.lower (level + 1) = b.intnodeA :=
  rfl

@[simp] theorem Bounds.upper_succ (b : Bounds) (level : Nat) : b.upper (level + 1) = b.intnodeB :=
  rfl

/-- The lower bound is at most half of the upper bound, rounded up. -/
theorem Bounds.lower_le_upper (b : Bounds) (level : Nat) :
    2 * b.lower level - 1 ≤ b.upper level := by
  have first := b.leaf_b
  have second := b.intnode_b
  unfold lower upper
  split <;> assumption

theorem good_inner :
    Good b (.inner keys children) ↔ keys = separators minKey children ∧ ∀ c ∈ children, Fits b c :=
  Iff.rfl

theorem size_inner : (Node.inner keys children).size = children.length := rfl

theorem elements_inner : (Node.inner keys children).elements = children.flatMap elements := rfl

theorem leaves_inner : (Node.inner keys children).leaves = children.flatMap leaves := rfl

/-- A good node that is not empty holds an element. -/
theorem elements_ne_nil {level : Nat} {n : Node level} (good : Good b n) (size : 0 < n.size) :
    n.elements ≠ [] := by
  induction level with
  | zero => exact List.ne_nil_of_length_pos size
  | succ level ih =>
      cases n using Node.inner_cases with
      | inner keys children =>
          rcases children with _ | ⟨c, children⟩
          · exact absurd size (lt_irrefl 0)
          · have fits := (good_inner.mp good).2 c (by simp)
            have lower := b.two_le_lower level
            have first := ih fits.1 (by have := fits.2.1; omega)
            rw [elements_inner, List.flatMap_cons]
            exact fun empty => first (List.append_eq_nil_iff.mp empty).1

theorem Node.Fits.elements_ne_nil {n : Node level} (fits : Fits b n) : n.elements ≠ [] := by
  have lower := b.two_le_lower level
  exact ABTree.elements_ne_nil fits.1 (by have := fits.2.1; omega)

theorem keyAt_eq {l : List (Int × Int)} {i : Nat} (inside : i < l.length) :
    keyAt l i = (l[i]).1 := by
  simp [keyAt, inside]

/-- In a sorted list a later position holds a key that is no smaller. -/
theorem keyAt_le {l : List (Int × Int)} (sorted : SortedPairs l) {i j : Nat} (order : i ≤ j)
    (inside : j < l.length) : keyAt l i ≤ keyAt l j := by
  rw [keyAt_eq inside, keyAt_eq (lt_of_le_of_lt order inside)]
  rcases Nat.eq_or_lt_of_le order with rfl | before
  · exact le_rfl
  · exact List.pairwise_iff_getElem.mp sorted i j _ inside before

/-- The minimum of a node is the key of its first element. -/
theorem minKey_eq {n : Node level} {e : Int × Int} {l : List (Int × Int)}
    (elements : n.elements = e :: l) : n.minKey = e.1 := by
  rw [minKey, elements]
  rfl

theorem exists_minKey {n : Node level} (nonempty : n.elements ≠ []) :
    ∃ e l, n.elements = e :: l ∧ n.minKey = e.1 := by
  rcases List.exists_cons_of_ne_nil nonempty with ⟨e, l, elements⟩
  exact ⟨e, l, elements, minKey_eq elements⟩

/-- Two nodes whose elements start alike have the same minimum. -/
theorem minKey_congr {n m : Node level} {l : List (Int × Int)} (nonempty : n.elements ≠ [])
    (elements : m.elements = n.elements ++ l) : m.minKey = n.minKey := by
  rcases exists_minKey nonempty with ⟨e, rest, eq, min⟩
  rw [eq] at elements
  rw [min, minKey_eq elements]

/-- The minimum of an inner node is that of its first child. -/
theorem minKey_inner {c : Node level} (nonempty : c.elements ≠ []) :
    (Node.inner keys (c :: children)).minKey = c.minKey := by
  rcases exists_minKey nonempty with ⟨e, l, elements, min⟩
  rw [min, minKey, elements_inner, List.flatMap_cons, elements]
  rfl

/-! ## Descending to a child -/

/-- Where a scan of the keys for those that satisfy `P` leads: to a child whose
minimum satisfies `P`, unless it is the first one, while the minimum of the next
child does not. -/
theorem scan_children (P : Int → Prop) [DecidablePred P] (nonempty : children ≠ []) :
    ∃ pre c post, children = pre ++ c :: post ∧
      scanUp (fun j => decide (P ((separators minKey children).getD j default))) 0
        (children.length - 1) = pre.length ∧
      (pre ≠ [] → P c.minKey) ∧ ∀ d rest, post = d :: rest → ¬P d.minKey := by
  rcases scanUp_spec (fun j => decide (P ((separators minKey children).getD j default))) 0
    (children.length - 1) with ⟨_, upper, passed, stopped⟩
  generalize scanUp (fun j => decide (P ((separators minKey children).getD j default))) 0
    (children.length - 1) = i at upper passed stopped ⊢
  have positive := List.length_pos_of_ne_nil nonempty
  rcases exists_focus (show i < children.length by omega) with ⟨pre, c, post, rfl, rfl⟩
  refine ⟨pre, c, post, rfl, rfl, ?_, ?_⟩
  · intro notFirst
    rcases List.eq_nil_or_concat pre with rfl | ⟨before, x, rfl⟩
    · exact absurd rfl notFirst
    · have satisfied := passed before.length (Nat.zero_le _) (by simp)
      simp only [List.concat_eq_append, List.append_assoc, List.singleton_append] at satisfied
      rw [separators_getD] at satisfied
      exact of_decide_eq_true satisfied
  · intro d rest split
    subst split
    have fails := stopped (by simp)
    rw [separators_getD] at fails
    exact of_decide_eq_false fails

/-- In a sorted node, the elements before a child are at most its minimum and
those after it are at least the minimum of the next one. -/
theorem sorted_context {pre post : List (Node level)} {c : Node level}
    (sorted : SortedPairs ((pre ++ c :: post).flatMap elements)) (nonempty : c.elements ≠ [])
    (fits : ∀ d ∈ post, d.elements ≠ []) :
    (∀ x ∈ pre.flatMap elements, x.1 ≤ c.minKey) ∧
      (∀ d rest, post = d :: rest → ∀ x ∈ post.flatMap elements, d.minKey ≤ x.1) ∧
      SortedPairs c.elements := by
  rw [List.flatMap_append, List.flatMap_cons, SortedPairs.append_iff] at sorted
  rcases sorted with ⟨_, sorted, apart⟩
  rcases SortedPairs.append_iff.mp sorted with ⟨sortedC, sortedPost, _⟩
  rcases exists_minKey nonempty with ⟨e, l, elements, min⟩
  refine ⟨?_, ?_, sortedC⟩
  · intro x member
    rw [min]
    exact apart x member e (by simp [elements])
  · intro d rest split x member
    subst split
    rcases exists_minKey (fits d (by simp)) with ⟨f, k, elementsD, minD⟩
    rw [List.flatMap_cons, elementsD, List.cons_append] at sortedPost member
    rw [minD]
    exact sortedPost.head_le x member

/-- The child a scan of the keys for those that satisfy `P` leads to, among its
siblings, in a sorted node. -/
structure Descent (P : Int → Prop) [DecidablePred P] {level : Nat}
    (pre : List (Node level)) (c : Node level) (post : List (Node level)) : Prop where
  index : scanUp (fun j => decide (P ((separators minKey (pre ++ c :: post)).getD j default))) 0
    ((pre ++ c :: post).length - 1) = pre.length
  before : pre ≠ [] → P c.minKey
  after : ∀ d rest, post = d :: rest → ¬P d.minKey
  sorted : SortedPairs c.elements
  below : ∀ x ∈ pre.flatMap elements, x.1 ≤ c.minKey
  above : ∀ d rest, post = d :: rest → ∀ x ∈ post.flatMap elements, d.minKey ≤ x.1

theorem exists_descent (P : Int → Prop) [DecidablePred P] (fits : ∀ c ∈ children, Fits b c)
    (nonempty : children ≠ []) (sorted : SortedPairs (children.flatMap elements)) :
    ∃ pre c post, children = pre ++ c :: post ∧ Descent P pre c post := by
  rcases scan_children P nonempty with ⟨pre, c, post, rfl, index, before, after⟩
  rcases sorted_context sorted (fits c (by simp)).elements_ne_nil fun d member =>
    (fits d (by simp [member])).elements_ne_nil with ⟨below, above, sortedC⟩
  exact ⟨pre, c, post, rfl, index, before, after, sortedC, below, above⟩

end Shape

end Rma.ABTree
