import Rma.Base.Chain
import Rma.Base.Scan

/-!
# (a,b)-tree

`ABTree` is a search tree whose inner nodes have between `intnode_a` and
`intnode_b` children and whose leaves have between `leaf_a` and `leaf_b`
elements. All the elements are in the leaves, which form a doubly linked chain.

The source tells a leaf from an inner node by its depth: the nodes at depth
`height - 1` are leaves. Here a node is indexed by its level, the number of
levels below it, so that the leaves are the nodes of level 0 and every path has
the same length. A node holds its arrays as lists; the pointers `next` and
`previous` of the leaves are in a heap of their own, by the address of the leaf.
A position past the end of an array holds the default value.
-/

namespace Rma

open Base

namespace ABTree

/-- The bounds on the sizes of the nodes, as `validate_bounds` accepts them. -/
structure Bounds where
  intnodeA : Nat
  intnodeB : Nat
  leafA : Nat
  leafB : Nat
  intnode_a : intnodeA > 1
  intnode_b : 2 * intnodeA - 1 ≤ intnodeB
  leaf_a : leafA > 1
  leaf_b : 2 * leafA - 1 ≤ leafB

structure Leaf where
  address : Nat
  elements : List (Int × Int)
  deriving DecidableEq, Repr

/-- An inner node keeps one key less than it has children. -/
structure InternalNode (child : Type) where
  keys : List Int
  children : List child

/-- A node at a level. -/
def Node : Nat → Type
  | 0 => Leaf
  | level + 1 => InternalNode (Node level)

@[match_pattern] def Node.leaf (l : Leaf) : Node 0 := l

@[match_pattern] def Node.inner {level : Nat} (keys : List Int) (children : List (Node level)) :
    Node (level + 1) := InternalNode.mk keys children

/-- A node above the leaves is an inner node. -/
@[elab_as_elim] theorem Node.inner_cases {level : Nat} {P : Node (level + 1) → Prop}
    (inner : ∀ keys children, P (.inner keys children)) (n : Node (level + 1)) : P n :=
  inner n.keys n.children

instance : {level : Nat} → Inhabited (Node level)
  | 0 => ⟨.leaf ⟨0, []⟩⟩
  | _ + 1 => ⟨.inner [] []⟩

/-- What the nodes share: the pointers of the leaves, the next free address and
the number of elements of the tree. -/
structure Heap where
  links : Links
  fresh : Nat
  cardinality : Int

namespace Node

/-- `node->N` -/
def size : {level : Nat} → Node level → Nat
  | 0, .leaf l => l.elements.length
  | _ + 1, .inner _ children => children.length

/-- `KEYS(leaf)[i]` -/
def keyAt (l : List (Int × Int)) (i : Nat) : Int := (l.getD i default).1

end Node

namespace Bounds

/-- `get_lowerbound`, by level -/
def lower (b : Bounds) (level : Nat) : Nat := if level = 0 then b.leafA else b.intnodeA

/-- `get_upperbound`, by level -/
def upper (b : Bounds) (level : Nat) : Nat := if level = 0 then b.leafB else b.intnodeB

end Bounds

open Node

/-! ## Insert -/

/-- The part of `split` that divides the child: the two halves and the pivot. -/
def splitChild : {level : Nat} → Node level → Heap → (Node level × Int × Node level) × Heap
  | 0, .leaf l1, heap =>
    let thres := (l1.elements.length + 1) / 2
    let l2 : Leaf := ⟨heap.fresh, l1.elements.drop thres⟩
    ((.leaf ⟨l1.address, l1.elements.take thres⟩, keyAt l2.elements 0, .leaf l2),
      { heap with links := heap.links.insertAfter l1.address heap.fresh, fresh := heap.fresh + 1 })
  | _ + 1, .inner keys children, heap =>
    let thres := children.length / 2
    ((.inner (keys.take thres) (children.take (thres + 1)), keys.getD thres default,
      .inner (keys.drop (thres + 1)) (children.drop (thres + 1))), heap)

/-- Split the child in half; the new node becomes its right sibling. -/
def split {level : Nat} (keys : List Int) (children : List (Node level)) (childIndex : Nat)
    (heap : Heap) : (List Int × List (Node level)) × Heap :=
  let ((n1, pivot, n2), heap) := splitChild (children.getD childIndex default) heap
  ((keys.insertIdx childIndex pivot, (children.set childIndex n1).insertIdx (childIndex + 1) n2),
    heap)

/-- Insert in a leaf: shift the greater elements to the right. -/
def insertLeaf (l : Leaf) (key value : Int) : Leaf :=
  let i := scanDown (fun j => key < keyAt l.elements j) l.elements.length
  { l with elements := l.elements.insertIdx i (key, value) }

/-- The child of an inner node where the key is inserted. -/
def insertIndex (keys : List Int) (numChildren : Nat) (key : Int) : Nat :=
  scanUp (fun j => keys.getD j default < key) 0 (numChildren - 1)

/-- `insert(node, key, value, depth)`. The loop of the source descends as long as
the child has room; it splits a full leaf before, and a full inner node after,
the insertion. -/
def insertNode (b : Bounds) : {level : Nat} → Node level → Int → Int → Heap → Node level × Heap
  | 0, .leaf l, key, value, heap =>
    (.leaf (insertLeaf l key value), { heap with cardinality := heap.cardinality + 1 })
  | level + 1, .inner keys children, key, value, heap =>
    let i := insertIndex keys children.length key
    let child := children.getD i default
    if level = 0 ∧ child.size = b.leafB then
      let ((keys, children), heap) := split keys children i heap
      let i := if key > keys.getD i default then i + 1 else i
      let (child, heap) := insertNode b (children.getD i default) key value heap
      (.inner keys (children.set i child), heap)
    else
      let (child', heap) := insertNode b child key value heap
      let children := children.set i child'
      if level ≠ 0 ∧ child.size = b.intnodeB ∧ child'.size > b.intnodeB then
        let ((keys, children), heap) := split keys children i heap
        (.inner keys children, heap)
      else (.inner keys children, heap)

/-! ## Rebalance -/

/-- The part of `merge` that joins two siblings; `pivot` is the key between them. -/
def mergeChildren : {level : Nat} → Node level → Int → Node level → Heap → Node level × Heap
  | 0, .leaf l1, _, .leaf l2, heap =>
    (.leaf { l1 with elements := l1.elements ++ l2.elements },
      { heap with links := heap.links.removeAfter l1.address l2.address })
  | _ + 1, .inner keys1 children1, pivot, .inner keys2 children2, heap =>
    (.inner (keys1 ++ pivot :: keys2) (children1 ++ children2), heap)

/-- Merge the child with its right sibling. -/
def merge {level : Nat} (keys : List Int) (children : List (Node level)) (childIndex : Nat)
    (heap : Heap) : (List Int × List (Node level)) × Heap :=
  let (n1, heap) := mergeChildren (children.getD childIndex default)
    (keys.getD childIndex default) (children.getD (childIndex + 1) default) heap
  ((keys.eraseIdx childIndex, (children.set childIndex n1).eraseIdx (childIndex + 1)), heap)

/-- The part of `rotate_right` that moves `need` entries from the left sibling to
the right one: the two nodes and the new pivot. -/
def rotateRightChildren : {level : Nat} → Node level → Int → Node level → Nat →
    Node level × Int × Node level
  | 0, .leaf l1, _, .leaf l2, need =>
    let moved := l1.elements.drop (l1.elements.length - need) ++ l2.elements
    (.leaf { l1 with elements := l1.elements.take (l1.elements.length - need) }, keyAt moved 0,
      .leaf { l2 with elements := moved })
  | _ + 1, .inner keys1 children1, pivot, .inner keys2 children2, need =>
    let n := children1.length
    -- the copying loop decrements its counter and ends after one turn: the
    -- positions from 1 to need - 2 keep what the arrays of the node held
    let movedKeys := (List.range (need - 1)).map fun i =>
      if i = 0 then keys1.getD (n - need) default else keys2.getD i default
    let movedChildren := (List.range (need - 1)).map fun i =>
      if i = 0 then children1.getD (n - need) default else children2.getD i default
    (.inner (keys1.take (n - need - 1)) (children1.take (n - need)),
      keys1.getD (n - need - 1) default,
      .inner (movedKeys ++ pivot :: keys2)
        (movedChildren ++ children1.getD (n - 1) default :: children2))

/-- Move `need` entries to the child from its left sibling. -/
def rotateRight {level : Nat} (keys : List Int) (children : List (Node level))
    (childIndex need : Nat) : List Int × List (Node level) :=
  let (n1, pivot, n2) := rotateRightChildren (children.getD (childIndex - 1) default)
    (keys.getD (childIndex - 1) default) (children.getD childIndex default) need
  (keys.set (childIndex - 1) pivot, (children.set (childIndex - 1) n1).set childIndex n2)

/-- The part of `rotate_left` that moves `need` entries from the right sibling to
the left one: the two nodes and the new pivot. -/
def rotateLeftChildren : {level : Nat} → Node level → Int → Node level → Nat →
    Node level × Int × Node level
  | 0, .leaf l1, _, .leaf l2, need =>
    let left := l2.elements.drop need
    (.leaf { l1 with elements := l1.elements ++ l2.elements.take need }, keyAt left 0,
      .leaf { l2 with elements := left })
  | _ + 1, .inner keys1 children1, pivot, .inner keys2 children2, need =>
    -- the copying loop does not advance its target: the last entry copied is the
    -- only one, and the positions after it are not written
    let movedKeys := (List.range (need - 1)).map fun i =>
      if i = 0 then keys2.getD (need - 2) default else default
    let movedChildren := (List.range (need - 1)).map fun i =>
      if i = 0 then children2.getD (need - 1) default else default
    (.inner (keys1 ++ pivot :: movedKeys)
        (children1 ++ children2.getD 0 default :: movedChildren),
      keys2.getD (need - 1) default,
      .inner (keys2.drop need) (children2.drop need))

/-- Move `need` entries to the child from its right sibling. -/
def rotateLeft {level : Nat} (keys : List Int) (children : List (Node level))
    (childIndex need : Nat) : List Int × List (Node level) :=
  let (n1, pivot, n2) := rotateLeftChildren (children.getD childIndex default)
    (keys.getD childIndex default) (children.getD (childIndex + 1) default) need
  (keys.set childIndex pivot, (children.set childIndex n1).set (childIndex + 1) n2)

/-- Bring the child up to the lower bound, by stealing from a sibling or merging. -/
def rebalanceLb (b : Bounds) {level : Nat} (isRoot : Bool) (keys : List Int)
    (children : List (Node level)) (childIndex : Nat) (heap : Heap) :
    (List Int × List (Node level)) × Heap :=
  let childSz := (children.getD childIndex default).size
  let lowerbound := b.lower level
  if childSz ≥ lowerbound then ((keys, children), heap)
  else if isRoot ∧ children.length ≤ 1 then ((keys, children), heap)
  else
    let need := lowerbound - childSz
    let left := (children.getD (childIndex - 1) default).size
    let right := (children.getD (childIndex + 1) default).size
    let hasLeft := childIndex > 0
    let hasRight := childIndex < children.length - 1
    -- try need + 1 from either side first, then need
    if hasLeft ∧ left ≥ lowerbound + need + 1 then
      (rotateRight keys children childIndex (need + 1), heap)
    else if hasRight ∧ right ≥ lowerbound + need + 1 then
      (rotateLeft keys children childIndex (need + 1), heap)
    else if hasLeft ∧ left ≥ lowerbound + need then
      (rotateRight keys children childIndex need, heap)
    else if hasRight ∧ right ≥ lowerbound + need then
      (rotateLeft keys children childIndex need, heap)
    else if hasRight then merge keys children childIndex heap
    else merge keys children (childIndex - 1) heap

/-! ## Remove -/

/-- The leaf case of `remove`: the leaf and the value removed, -1 when there is none. -/
def removeLeaf (l : Leaf) (key : Int) : Leaf × Int :=
  let n := l.elements.length
  if 0 < n ∧ keyAt l.elements (n - 1) = key then
    ({ l with elements := l.elements.eraseIdx (n - 1) }, (l.elements.getD (n - 1) default).2)
  else if 0 < n ∧ keyAt l.elements (n - 1) > key then
    let i := scanUp (fun j => keyAt l.elements j < key) 0 n
    if i < n ∧ keyAt l.elements i = key then
      ({ l with elements := l.elements.eraseIdx i }, (l.elements.getD i default).2)
    else (l, -1)
  else (l, -1)

/-- What `remove(node, key, depth, omin)` leaves: the node, its result and `*omin`. -/
structure Removed (level : Nat) where
  node : Node level
  value : Int
  omin : Int

/-- `remove(node, key, depth, omin)`; `followMin` tells whether `omin` is given. -/
def removeNode (b : Bounds) : {level : Nat} → Node level → Int → (followMin isRoot : Bool) →
    Heap → Removed level × Heap
  | 0, .leaf l, key, _, _, heap =>
    let (l, value) := removeLeaf l key
    (⟨.leaf l, value, if 0 < l.elements.length then keyAt l.elements 0 else -1⟩, heap)
  | level + 1, .inner keys children, key, followMin, isRoot, heap =>
    let n := children.length
    let i := insertIndex keys n key
    if followMin = false ∧ i < n - 1 ∧ keys.getD i default = key then
      -- case 1: the key is the minimum of the next child
      let (r, heap) := removeNode b (children.getD (i + 1) default) key true false heap
      let ((keys, children), heap) := rebalanceLb b isRoot (keys.set i r.omin)
        (children.set (i + 1) r.node) (i + 1) heap
      (⟨.inner keys children, r.value, -1⟩, heap)
    else if (children.getD i default).size ≤ b.lower level then
      -- case 2: the child may fall below the lower bound
      let (r, heap) := removeNode b (children.getD i default) key followMin false heap
      let ((keys, children), heap) := rebalanceLb b isRoot keys (children.set i r.node) i heap
      (⟨.inner keys children, r.value, r.omin⟩, heap)
    else
      -- case 3: the child has an element to spare
      let (r, heap) := removeNode b (children.getD i default) key followMin false heap
      (⟨.inner keys (children.set i r.node), r.value, r.omin⟩, heap)

/-! ## Find -/

/-- The descent of `find(key)`; -1 when the key is not there. -/
def findNode : {level : Nat} → Node level → Int → Int
  | 0, .leaf l, key =>
    let n := l.elements.length
    let i := scanUp (fun j => keyAt l.elements j < key) 0 n
    if i < n ∧ keyAt l.elements i = key then (l.elements.getD i default).2 else -1
  | _ + 1, .inner keys children, key =>
    let i := scanUp (fun j => keys.getD j default ≤ key) 0 (children.length - 1)
    findNode (children.getD i default) key

end ABTree

/-- The fields of `ABTree`; `height` is `levels + 1`. -/
structure ABTree where
  bounds : ABTree.Bounds
  levels : Nat
  root : ABTree.Node levels
  heap : ABTree.Heap

namespace ABTree

/-- The tree without elements: one empty leaf. -/
def empty (b : Bounds) : ABTree where
  bounds := b
  levels := 0
  root := .leaf ⟨0, []⟩
  heap := ⟨⟨fun _ => none, fun _ => none⟩, 1, 0⟩

/-- Add a level, with the two halves of the root as its children. -/
def splitRoot (t : ABTree) : ABTree :=
  let ((keys, children), heap) := split [] [t.root] 0 t.heap
  { t with levels := t.levels + 1, root := .inner keys children, heap := heap }

/-- `insert(root, key, value, 0)` -/
def insertRoot (t : ABTree) (key value : Int) : ABTree :=
  let (root, heap) := insertNode t.bounds t.root key value t.heap
  { t with root := root, heap := heap }

/-- `insert(key, value)` -/
def insert (t : ABTree) (key value : Int) : ABTree :=
  -- split the root when it is a leaf
  let t := if t.levels = 0 ∧ t.root.size = t.bounds.leafB then t.splitRoot else t
  let t := t.insertRoot key value
  -- split the root when it is an internal node
  if t.levels > 0 ∧ t.root.size > t.bounds.intnodeB then t.splitRoot else t

/-- Make the only child of the root the new root. -/
def shorten (t : ABTree) : ABTree :=
  match t with
  | ⟨b, level + 1, .inner _ children, heap⟩ => ⟨b, level, children.getD 0 default, heap⟩
  | t => t

/-- `remove(key)`: the tree and the value removed, -1 when there is none. -/
def remove (t : ABTree) (key : Int) : ABTree × Int :=
  let (r, heap) := removeNode t.bounds t.root key false true t.heap
  let t := { t with root := r.node, heap := heap }
  if r.value ≥ 0 then
    let t := { t with heap := { t.heap with cardinality := t.heap.cardinality - 1 } }
    (if t.root.size = 1 ∧ t.levels > 0 then t.shorten else t, r.value)
  else (t, r.value)

/-- `find(key)` -/
def find (t : ABTree) (key : Int) : Int := findNode t.root key

/-- `size()` -/
def sizeOf (t : ABTree) : Int := t.heap.cardinality

end ABTree

end Rma
