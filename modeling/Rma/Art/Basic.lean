import Rma.Base.Chain
import Rma.Base.OrderedIndex
import Rma.Base.Scan

/-!
# Leaf blocks over a radix tree

`ART` keeps its elements in a doubly linked list of leaves, sorted by key, and an
index from the minimum of every leaf to the leaf. The index is the adaptive radix
tree of `third-party/art`; it is a parameter, of which an ordered map is expected.
Its keys are the bytes of the minimum, the most significant one first, which
compare as a 64-bit unsigned integer.

The arrays of a leaf hold its elements and, past these, what was left behind in
them: `KEYS(leaf)[0]` is also read of a leaf that has just been emptied. A cell
that was never written holds the default value. `calls` records the calls made to
the index, the last one first.
-/

namespace Rma

open Base OrderedIndex

namespace Art

/-- A leaf: its `N` elements, and the cells of its arrays past them. -/
structure Leaf where
  elements : List (Int × Int)
  rest : List (Int × Int)

instance : Inhabited Leaf := ⟨⟨[], []⟩⟩

/-- `KEYS(leaf)[i]` -/
def keyAt (l : List (Int × Int)) (i : Nat) : Int := (l.getD i default).1

namespace Leaf

/-- `leaf->N` -/
def size (leaf : Leaf) : Nat := leaf.elements.length

/-- `KEYS(leaf)[0]` -/
def firstKey (leaf : Leaf) : Int := keyAt (leaf.elements ++ leaf.rest) 0

end Leaf

/-- Eight bytes, the most significant one first. -/
abbrev Bytes := Fin (2 ^ 64)

/-- `LoadKeyImpl::store`: the bytes of a key. -/
@[irreducible] def store (pivot : Int) : Bytes :=
  ⟨(pivot % 2 ^ 64).toNat, by
    have nonneg := Int.emod_nonneg pivot (show (2 ^ 64 : Int) ≠ 0 by norm_num)
    have upper := Int.emod_lt_of_pos pivot (show (0 : Int) < 2 ^ 64 by norm_num)
    omega⟩

end Art

/-- The fields of `ART`, the leaves by address, and the calls made to the index. -/
structure Art (τ : Type) where
  index : τ
  first : Nat
  leafBlockSize : Nat
  cardinality : Int
  leafCount : Int
  leaves : Nat → Art.Leaf
  links : Links
  fresh : Nat
  calls : List (Call Art.Bytes Nat)

namespace Art

variable {τ : Type} (tree : OrderedIndex Bytes Nat τ)

/-- `m_cardinality == 0` -/
def isEmpty (t : Art τ) : Bool := t.cardinality = 0

/-- Write a leaf. -/
def setLeaf (t : Art τ) (a : Nat) (leaf : Leaf) : Art τ :=
  { t with leaves := Function.update t.leaves a leaf }

/-- `create_leaf`: the new leaf is at the next free address. -/
def createLeaf (t : Art τ) : Art τ :=
  { t with
    leaves := Function.update t.leaves t.fresh ⟨[], []⟩
    links := ⟨Function.update t.links.next t.fresh none,
      Function.update t.links.previous t.fresh none⟩
    fresh := t.fresh + 1
    leafCount := t.leafCount + 1 }

/-- The constructor: one empty leaf. -/
def init (leafBlockSize : Nat) : Art τ :=
  createLeaf
    { index := tree.empty
      first := 0
      leafBlockSize := leafBlockSize
      cardinality := 0
      leafCount := 0
      leaves := fun _ => ⟨[], []⟩
      links := ⟨fun _ => none, fun _ => none⟩
      fresh := 0
      calls := [] }

/-! ## The index -/

/-- `index_insert(key, leaf)` -/
def indexInsert (t : Art τ) (key : Int) (a : Nat) : Art τ :=
  { t with
    index := tree.insert t.index (store key) a
    calls := .insert (store key) a :: t.calls }

/-- `index_remove(key, leaf)` -/
def indexRemove (t : Art τ) (key : Int) (a : Nat) : Art τ :=
  { t with
    index := tree.remove t.index (store key) a
    calls := .remove (store key) a :: t.calls }

/-- `index_find_leq(key)`; `none` is a null pointer. -/
def indexFindLeq (t : Art τ) (key : Int) : Option Nat := tree.findLessOrEqual t.index (store key)

/-! ## Insert -/

/-- `leaf_insert`: shift the greater elements to the right; the tree and the first key. -/
def leafInsert (t : Art τ) (a : Nat) (key value : Int) : Art τ × Int :=
  let leaf := t.leaves a
  let i := scanDown (fun j => key < keyAt leaf.elements j) leaf.size
  let leaf : Leaf := ⟨leaf.elements.insertIdx i (key, value), leaf.rest.drop 1⟩
  ({ t.setLeaf a leaf with cardinality := t.cardinality + 1 }, leaf.firstKey)

/-- `split`: the tree, and the first key and the address of the new leaf. -/
def split (t : Art τ) (l1 : Nat) : Art τ × Int × Nat :=
  let l2 := t.fresh
  let leaf := t.leaves l1
  let t := t.createLeaf
  let thres := (leaf.size + 1) / 2
  let right : Leaf := ⟨leaf.elements.drop thres, []⟩
  let t := (t.setLeaf l1 ⟨leaf.elements.take thres, leaf.elements.drop thres ++ leaf.rest⟩).setLeaf
    l2 right
  ({ t with links := t.links.insertAfter l1 l2 }, right.firstKey, l2)

/-- The last part of `insert`: insert the element in the leaf, and update the radix tree. -/
def insertInto (t : Art τ) (a : Nat) (key value : Int) : Art τ :=
  let pivotOld := (t.leaves a).firstKey
  let (t, pivotNew) := t.leafInsert a key value
  if pivotOld ≠ pivotNew then
    (t.indexRemove tree pivotOld a).indexInsert tree pivotNew a
  else t

/-- The leaf where `insert` puts a key, before it is split. -/
def insertLeaf (t : Art τ) (key : Int) : Nat := (t.indexFindLeq tree key).getD t.first

/-- `insert(key, value)` -/
def insert (t : Art τ) (key value : Int) : Art τ :=
  if t.isEmpty then
    let (t, _) := t.leafInsert t.first key value
    t.indexInsert tree key t.first
  else
    let a := t.insertLeaf tree key
    -- split the leaf node if it's full
    if (t.leaves a).size = t.leafBlockSize then
      let (t, pivot, right) := t.split a
      let t := t.indexInsert tree pivot right
      t.insertInto tree (if key ≥ pivot then right else a) key value
    else t.insertInto tree a key value

/-! ## Rebalance -/

/-- `share_left`: move `need` elements to the leaf from the previous one. -/
def shareLeft (t : Art τ) (l1 l2 need : Nat) : Art τ :=
  let left := t.leaves l1
  let right := t.leaves l2
  let t := t.indexRemove tree right.firstKey l2
  let moved := left.elements.drop (left.size - need)
  let right : Leaf := ⟨moved ++ right.elements, right.rest.drop need⟩
  let t := t.indexInsert tree right.firstKey l2
  (t.setLeaf l1 ⟨left.elements.take (left.size - need), moved ++ left.rest⟩).setLeaf l2 right

/-- `share_right`: move `need` elements to the leaf from the next one. -/
def shareRight (t : Art τ) (l1 l2 need : Nat) : Art τ :=
  let left := t.leaves l1
  let right := t.leaves l2
  let t := t.indexRemove tree right.firstKey l2
  let moved := right.elements.take need
  let right : Leaf :=
    ⟨right.elements.drop need, right.elements.drop (right.size - need) ++ right.rest⟩
  let t := t.indexInsert tree right.firstKey l2
  (t.setLeaf l1 ⟨left.elements ++ moved, left.rest.drop need⟩).setLeaf l2 right

/-- `merge`: move all the elements of `l2` to `l1`, and free `l2`. -/
def merge (t : Art τ) (l1 l2 : Nat) : Art τ :=
  let left := t.leaves l1
  let right := t.leaves l2
  let t := t.setLeaf l1 ⟨left.elements ++ right.elements, left.rest.drop right.size⟩
  let t := { t with links := t.links.removeAfter l1 l2 }
  let t := t.indexRemove tree right.firstKey l2
  { t with leafCount := t.leafCount - 1 }

/-- The branches of `rebalance`. -/
inductive Branch where
  | nothing
  | shareLeft (previous need : Nat)
  | shareRight (next need : Nat)
  | merge (l1 l2 : Nat)
  deriving DecidableEq, Repr

/-- The branch that `rebalance` takes for a leaf of `size` elements. -/
def rebalanceBranch (t : Art τ) (a size : Nat) : Branch :=
  let lowerbound := t.leafBlockSize / 2
  if t.leafCount ≤ 1 ∨ size ≥ lowerbound then .nothing
  else
    let need := lowerbound - size
    let sizeAt := fun b => (t.leaves b).size
    match t.links.previous a, t.links.next a with
    | some p, some n =>
      if sizeAt p ≥ sizeAt n ∧ sizeAt p ≥ lowerbound + need then .shareLeft p need
      else if sizeAt n ≥ lowerbound + need then .shareRight n need
      else .merge p a
    | some p, none => if sizeAt p ≥ lowerbound + need then .shareLeft p need else .merge p a
    | none, some n => if sizeAt n ≥ lowerbound + need then .shareRight n need else .merge a n
    -- the source asserts that a tree of several leaves does not come here
    | none, none => .nothing

/-- `rebalance(leaf)` -/
def rebalance (t : Art τ) (a : Nat) : Art τ :=
  match t.rebalanceBranch a (t.leaves a).size with
  | .nothing => t
  | .shareLeft p need => t.shareLeft tree p a need
  | .shareRight n need => t.shareRight tree a n need
  | .merge l1 l2 => t.merge tree l1 l2

/-! ## Remove -/

/-- The search of `leaf_remove`: the leaf, from `a` on, and the position of the key.
The loop follows `next` for at most `count` leaves. -/
def leafLocate (t : Art τ) (key : Int) : Nat → Nat → Option (Nat × Nat)
  | 0, _ => none
  | count + 1, a =>
    let l := (t.leaves a).elements
    if keyAt l 0 > key then none
    else if keyAt l (l.length - 1) < key then
      match t.links.next a with
      | some b => leafLocate t key count b
      | none => none
    else
      let i := scanUp (fun j => keyAt l j < key) 0 l.length
      if i < l.length ∧ keyAt l i = key then some (a, i) else none

/-- Where `remove` finds the key. -/
def locate (t : Art τ) (key : Int) : Option (Nat × Nat) :=
  (t.indexFindLeq tree key).bind (t.leafLocate key t.fresh)

/-- The removal of `leaf_remove`: shift the following elements to the left; the last
one stays behind. -/
def leafErase (t : Art τ) (a i : Nat) : Art τ :=
  let leaf := t.leaves a
  { t.setLeaf a ⟨leaf.elements.eraseIdx i, leaf.elements.drop (leaf.size - 1) ++ leaf.rest⟩ with
    cardinality := t.cardinality - 1 }

/-- `if(update_min)` in `remove`: the first key of the leaf was removed. -/
def updateMin (t : Art τ) (key : Int) (a : Nat) : Art τ :=
  let t := t.indexRemove tree key a
  if (t.leaves a).size > 0 then t.indexInsert tree (t.leaves a).firstKey a else t

/-- `remove(key)`: the tree and the value removed, -1 when there is none. -/
def remove (t : Art τ) (key : Int) : Art τ × Int :=
  if t.isEmpty then (t, -1)
  else
    match t.locate tree key with
    | none => (t, -1)
    | some (a, i) =>
      let value := ((t.leaves a).elements.getD i default).2
      let t := t.leafErase a i
      let t := if i = 0 then t.updateMin tree key a else t
      (if value ≥ 0 then t.rebalance tree a else t, value)

/-! ## Find -/

/-- `leaf_find`: the position of the key. -/
def leafFind (t : Art τ) (a : Nat) (key : Int) : Option Nat :=
  let l := (t.leaves a).elements
  let i := scanUp (fun j => keyAt l j < key) 0 l.length
  if i < l.length ∧ keyAt l i = key then some i else none

/-- `find(key)`, -1 when the key is not there. -/
def find (t : Art τ) (key : Int) : Int :=
  match t.indexFindLeq tree key with
  | none => -1
  | some a =>
    match t.leafFind a key with
    | none => -1
    | some i => ((t.leaves a).elements.getD i default).2

/-- `size()` -/
def sizeOf (t : Art τ) : Int := t.cardinality

end Art

end Rma
