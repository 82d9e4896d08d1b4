import Rma.Base.SearchTree

/-!
# The dynamic index

`DynamicIndex` is an (a,b)-tree for keys and values of any type: its inner nodes
have between `inode_b / 2` and `inode_b` children and its leaves between
`leaf_b / 2` and `leaf_b` elements, the root excepted.

The source tells a leaf from an inner node by its depth, and here a node is indexed
by its level: the nodes at depth `m_height - 1` are those of level 0. A node holds
its arrays as lists; a position past the end of an array holds the default value,
as does a variable that is not initialised.
-/

namespace Rma

open Base Base.SearchTree

namespace DynamicIndex

/-- The two bounds on the sizes of the nodes. -/
structure Bounds where
  inodeB : Nat
  leafB : Nat
  inode_b : 4 ≤ inodeB
  leaf_b : 4 ≤ leafB

namespace Bounds

/-- `lowerbound`, by level -/
def lowerbound (b : Bounds) (level : Nat) : Nat := if level = 0 then b.leafB / 2 else b.inodeB / 2

/-- The capacity of a node, by level. -/
def upperbound (b : Bounds) (level : Nat) : Nat := if level = 0 then b.leafB else b.inodeB

end Bounds

open Node

variable {K V : Type} [LinearOrder K] [Inhabited K] [Inhabited V]

/-! ## Nodes -/

/-- `create_leaf`: the new leaf is at the next free address. -/
def createLeaf (heap : Heap) : Heap :=
  { heap with
    links := ⟨Function.update heap.links.next heap.fresh none,
      Function.update heap.links.previous heap.fresh none⟩
    fresh := heap.fresh + 1
    numLeaves := heap.numLeaves + 1 }

/-- `create_inode` -/
def createInode (heap : Heap) : Heap := { heap with numInodes := heap.numInodes + 1 }

omit [LinearOrder K] [Inhabited K] [Inhabited V] in
/-- `delete_node` -/
def deleteNode : {level : Nat} → Node K V level → Heap → Heap
  | 0, .leaf _, heap => { heap with numLeaves := heap.numLeaves - 1 }
  | _ + 1, .inner _ children, heap =>
    let heap := children.foldl (fun heap child => deleteNode child heap) heap
    { heap with numInodes := heap.numInodes - 1 }

/-! ## Insert -/

/-- The part of `split` that divides the child: the two halves and the pivot. -/
def splitChild : {level : Nat} → Node K V level → Heap →
    (Node K V level × K × Node K V level) × Heap
  | 0, .leaf l1, heap =>
    let l2 : Leaf K V := ⟨heap.fresh, l1.elements.drop ((l1.elements.length + 1) / 2)⟩
    let heap := createLeaf heap
    ((.leaf { l1 with elements := l1.elements.take ((l1.elements.length + 1) / 2) },
        keyAt l2.elements 0, .leaf l2),
      { heap with links := heap.links.insertAfter l1.address l2.address })
  | _ + 1, .inner keys children, heap =>
    let thres := children.length / 2
    ((.inner (keys.take thres) (children.take (thres + 1)), keys.getD thres default,
      .inner (keys.drop (thres + 1)) (children.drop (thres + 1))), createInode heap)

/-- Split the child in half; the new node becomes its right sibling. -/
def split {level : Nat} (keys : List K) (children : List (Node K V level)) (childIndex : Nat)
    (heap : Heap) : (List K × List (Node K V level)) × Heap :=
  let ((n1, pivot, n2), heap) := splitChild (children.getD childIndex default) heap
  ((keys.insertIdx childIndex pivot, (children.set childIndex n1).insertIdx (childIndex + 1) n2),
    heap)

/-- Insert in a leaf: shift the greater elements to the right. -/
def insertLeaf (l : Leaf K V) (key : K) (value : V) : Leaf K V :=
  let i := scanDown (fun j => key < keyAt l.elements j) l.elements.length
  { l with elements := l.elements.insertIdx i (key, value) }

omit [Inhabited V] in
/-- The child of an inner node where the scan for `key` stops. -/
def childIndex (keys : List K) (numChildren : Nat) (key : K) : Nat :=
  scanUp (fun j => keys.getD j default < key) 0 (numChildren - 1)

/-- `insert(node, key, value, depth)`. The loop of the source descends as long as
the child has room; it splits a full leaf before, and a full inner node after,
the insertion. -/
def insertNode (b : Bounds) : {level : Nat} → Node K V level → K → V → Heap → Node K V level × Heap
  | 0, .leaf l, key, value, heap =>
    (.leaf (insertLeaf l key value), { heap with cardinality := heap.cardinality + 1 })
  | level + 1, .inner keys children, key, value, heap =>
    let i := childIndex keys children.length key
    let child := children.getD i default
    if level = 0 ∧ child.size = b.leafB then
      let ((keys, children), heap) := split keys children i heap
      let i := if key > keys.getD i default then i + 1 else i
      let (child, heap) := insertNode b (children.getD i default) key value heap
      (.inner keys (children.set i child), heap)
    else
      let (child', heap) := insertNode b child key value heap
      let children := children.set i child'
      if level ≠ 0 ∧ child.size = b.inodeB ∧ child'.size > b.inodeB then
        let ((keys, children), heap) := split keys children i heap
        (.inner keys children, heap)
      else (.inner keys children, heap)

/-! ## Rebalance -/

/-- The part of `merge` that joins two siblings; `pivot` is the key between them. -/
def mergeChildren : {level : Nat} → Node K V level → K → Node K V level → Heap →
    Node K V level × Heap
  | 0, .leaf l1, _, .leaf l2, heap =>
    let heap := { heap with links := heap.links.removeAfter l1.address l2.address }
    (.leaf { l1 with elements := l1.elements ++ l2.elements },
      deleteNode (.leaf { l2 with elements := [] } : Node K V 0) heap)
  | level + 1, .inner keys1 children1, pivot, .inner keys2 children2, heap =>
    (.inner (keys1 ++ pivot :: keys2) (children1 ++ children2),
      deleteNode (.inner [] [] : Node K V (level + 1)) heap)

/-- Merge the child with its right sibling. -/
def merge {level : Nat} (keys : List K) (children : List (Node K V level)) (childIndex : Nat)
    (heap : Heap) : (List K × List (Node K V level)) × Heap :=
  let (n1, heap) := mergeChildren (children.getD childIndex default)
    (keys.getD childIndex default) (children.getD (childIndex + 1) default) heap
  ((keys.eraseIdx childIndex, (children.set childIndex n1).eraseIdx (childIndex + 1)), heap)

/-- The part of `rotate_right` that moves `need` entries from the left sibling to
the right one: the two nodes and the new pivot. -/
def rotateRightChildren : {level : Nat} → Node K V level → K → Node K V level → Nat →
    Node K V level × K × Node K V level
  | 0, .leaf l1, _, .leaf l2, need =>
    let moved := l1.elements.drop (l1.elements.length - need) ++ l2.elements
    (.leaf { l1 with elements := l1.elements.take (l1.elements.length - need) }, keyAt moved 0,
      .leaf { l2 with elements := moved })
  | _ + 1, .inner keys1 children1, pivot, .inner keys2 children2, need =>
    let n := children1.length
    -- the copying loop decrements its counter and ends after one turn: the
    -- positions from 1 to need - 2 keep what the arrays of the node held
    let movedKeys := (List.range (need - 1)).map fun i =>
      if i = 0 then keys1.getD (n - need) default else keys2.getD i default
    let movedChildren := (List.range (need - 1)).map fun i =>
      if i = 0 then children1.getD (n - need) default else children2.getD i default
    (.inner (keys1.take (n - need - 1)) (children1.take (n - need)),
      keys1.getD (n - need - 1) default,
      .inner (movedKeys ++ pivot :: keys2)
        (movedChildren ++ children1.getD (n - 1) default :: children2))

/-- Move `need` entries to the child from its left sibling. -/
def rotateRight {level : Nat} (keys : List K) (children : List (Node K V level))
    (childIndex need : Nat) : List K × List (Node K V level) :=
  let (n1, pivot, n2) := rotateRightChildren (children.getD (childIndex - 1) default)
    (keys.getD (childIndex - 1) default) (children.getD childIndex default) need
  (keys.set (childIndex - 1) pivot, (children.set (childIndex - 1) n1).set childIndex n2)

/-- The part of `rotate_left` that moves `need` entries from the right sibling to
the left one: the two nodes and the new pivot. -/
def rotateLeftChildren : {level : Nat} → Node K V level → K → Node K V level → Nat →
    Node K V level × K × Node K V level
  | 0, .leaf l1, _, .leaf l2, need =>
    let left := l2.elements.drop need
    (.leaf { l1 with elements := l1.elements ++ l2.elements.take need }, keyAt left 0,
      .leaf { l2 with elements := left })
  | _ + 1, .inner keys1 children1, pivot, .inner keys2 children2, need =>
    -- the copying loop does not advance its target: the last entry copied is the
    -- only one, and the positions after it are not written
    let movedKeys := (List.range (need - 1)).map fun i =>
      if i = 0 then keys2.getD (need - 2) default else default
    let movedChildren := (List.range (need - 1)).map fun i =>
      if i = 0 then children2.getD (need - 1) default else default
    (.inner (keys1 ++ pivot :: movedKeys)
        (children1 ++ children2.getD 0 default :: movedChildren),
      keys2.getD (need - 1) default,
      .inner (keys2.drop need) (children2.drop need))

/-- Move `need` entries to the child from its right sibling. -/
def rotateLeft {level : Nat} (keys : List K) (children : List (Node K V level))
    (childIndex need : Nat) : List K × List (Node K V level) :=
  let (n1, pivot, n2) := rotateLeftChildren (children.getD childIndex default)
    (keys.getD childIndex default) (children.getD (childIndex + 1) default) need
  (keys.set childIndex pivot, (children.set childIndex n1).set (childIndex + 1) n2)

/-- `rebalance_lb`: bring the child up to the lower bound, by stealing from a
sibling or merging. -/
def rebalanceLb (b : Bounds) {level : Nat} (isRoot : Bool) (keys : List K)
    (children : List (Node K V level)) (childIndex : Nat) (heap : Heap) :
    (List K × List (Node K V level)) × Heap :=
  let childSz := (children.getD childIndex default).size
  let lb := b.lowerbound level
  if childSz ≥ lb then ((keys, children), heap)
  else if isRoot ∧ children.length ≤ 1 then ((keys, children), heap)
  else
    let need := lb - childSz
    let left := (children.getD (childIndex - 1) default).size
    let right := (children.getD (childIndex + 1) default).size
    let hasLeft := childIndex > 0
    let hasRight := childIndex < children.length - 1
    -- try need + 1 from either side first, then need
    if hasLeft ∧ left ≥ lb + need + 1 then
      (rotateRight keys children childIndex (need + 1), heap)
    else if hasRight ∧ right ≥ lb + need + 1 then
      (rotateLeft keys children childIndex (need + 1), heap)
    else if hasLeft ∧ left ≥ lb + need then (rotateRight keys children childIndex need, heap)
    else if hasRight ∧ right ≥ lb + need then (rotateLeft keys children childIndex need, heap)
    else if hasRight then merge keys children childIndex heap
    else merge keys children (childIndex - 1) heap

/-! ## Remove any -/

/-- The leaf case of `remove_any`: the leaf and the value removed. -/
def removeLeaf (l : Leaf K V) (key : K) : Leaf K V × Option V :=
  let n := l.elements.length
  if 0 < n then
    if keyAt l.elements (n - 1) = key then
      ({ l with elements := l.elements.eraseIdx (n - 1) },
        some (l.elements.getD (n - 1) default).2)
    else if keyAt l.elements (n - 1) > key then
      let i := scanUp (fun j => keyAt l.elements j < key) 0 n
      if i < n ∧ keyAt l.elements i = key then
        ({ l with elements := l.elements.eraseIdx i }, some (l.elements.getD i default).2)
      else (l, none)
    else (l, none)
  else (l, none)

/-- What `remove_any(node, key, out_value, depth, omin)` leaves: the node,
`*out_value` where an element is removed, and what is written to `*omin`. -/
structure Removed (K V : Type) (level : Nat) where
  node : Node K V level
  value : Option V
  omin : Option K

/-- `remove_any(node, key, out_value, depth, omin)`; `followMin` tells whether
`omin` is given. -/
def removeNode (b : Bounds) : {level : Nat} → Node K V level → K → (followMin isRoot : Bool) →
    Heap → Removed K V level × Heap
  | 0, .leaf l, key, followMin, _, heap =>
    let (l, value) := removeLeaf l key
    let omin := if followMin ∧ 0 < l.elements.length then some (keyAt l.elements 0) else none
    (⟨.leaf l, value, omin⟩, heap)
  | level + 1, .inner keys children, key, followMin, isRoot, heap =>
    let n := children.length
    let i := childIndex keys n key
    if followMin = false ∧ i < n - 1 ∧ keys.getD i default = key then
      -- the key is the minimum of the next child, whose new minimum comes back
      let (r, heap) := removeNode b (children.getD (i + 1) default) key true false heap
      let ((keys, children), heap) := rebalanceLb b isRoot (keys.set i (r.omin.getD default))
        (children.set (i + 1) r.node) (i + 1) heap
      (⟨.inner keys children, r.value, none⟩, heap)
    else if (children.getD i default).size ≤ b.lowerbound level then
      -- the child may fall below the lower bound
      let (r, heap) := removeNode b (children.getD i default) key followMin false heap
      let ((keys, children), heap) := rebalanceLb b isRoot keys (children.set i r.node) i heap
      (⟨.inner keys children, r.value, r.omin⟩, heap)
    else
      -- the child has an entry to spare
      let (r, heap) := removeNode b (children.getD i default) key followMin false heap
      (⟨.inner keys (children.set i r.node), r.value, r.omin⟩, heap)

/-! ## Find any -/

/-- The descent of `find_any`: the value of an element with the key. -/
def findNode : {level : Nat} → Node K V level → K → Option V
  | 0, .leaf l, key =>
    let n := l.elements.length
    let i := scanUp (fun j => keyAt l.elements j < key) 0 n
    if i < n ∧ keyAt l.elements i = key then some (l.elements.getD i default).2 else none
  | _ + 1, .inner keys children, key =>
    let i := scanUp (fun j => keys.getD j default ≤ key) 0 (children.length - 1)
    findNode (children.getD i default) key

end DynamicIndex

/-- The fields of `DynamicIndex`; `m_height` is `levels + 1`. -/
structure DynamicIndex (K V : Type) where
  bounds : DynamicIndex.Bounds
  levels : Nat
  root : Node K V levels
  heap : Heap

namespace DynamicIndex

variable {K V : Type} [LinearOrder K] [Inhabited K] [Inhabited V]

omit [LinearOrder K] [Inhabited K] [Inhabited V] in
/-- The constructor: one empty leaf. -/
def empty (b : Bounds) : DynamicIndex K V where
  bounds := b
  levels := 0
  root := .leaf ⟨0, []⟩
  heap := createLeaf ⟨⟨fun _ => none, fun _ => none⟩, 0, 0, 0, 0⟩

/-- `split_root`: add a level, with the two halves of the root as its children. -/
def splitRoot (t : DynamicIndex K V) : DynamicIndex K V :=
  let ((keys, children), heap) := split [] [t.root] 0 (createInode t.heap)
  { t with levels := t.levels + 1, root := .inner keys children, heap := heap }

/-- `insert(m_root, key, value, 0)` -/
def insertRoot (t : DynamicIndex K V) (key : K) (value : V) : DynamicIndex K V :=
  let (root, heap) := insertNode t.bounds t.root key value t.heap
  { t with root := root, heap := heap }

/-- `insert(key, value)` -/
def insert (t : DynamicIndex K V) (key : K) (value : V) : DynamicIndex K V :=
  -- split the root when it is a leaf
  let t := if t.levels = 0 ∧ t.root.size = t.bounds.leafB then t.splitRoot else t
  let t := t.insertRoot key value
  -- split the root when it is an internal node
  if t.levels > 0 ∧ t.root.size > t.bounds.inodeB then t.splitRoot else t

/-- Make the only child of the root the new root. -/
def shorten (t : DynamicIndex K V) : DynamicIndex K V :=
  match t with
  | ⟨b, level + 1, .inner _ children, heap⟩ =>
    ⟨b, level, children.getD 0 default, deleteNode (.inner [] [] : Node K V (level + 1)) heap⟩
  | t => t

/-- `remove_any(key, out_value)`: the index and the value of the element removed. -/
def removeAny (t : DynamicIndex K V) (key : K) : DynamicIndex K V × Option V :=
  let (r, heap) := removeNode t.bounds t.root key false true t.heap
  let t := { t with root := r.node, heap := heap }
  if r.value.isSome then
    let t := { t with heap := { t.heap with cardinality := t.heap.cardinality - 1 } }
    (if t.root.size = 1 ∧ t.levels > 0 then t.shorten else t, r.value)
  else (t, r.value)

/-- `find_any(key, out_value)` -/
def findAny (t : DynamicIndex K V) (key : K) : Option V := findNode t.root key

omit [LinearOrder K] [Inhabited K] [Inhabited V] in
/-- `clear()` -/
def clear (t : DynamicIndex K V) : DynamicIndex K V :=
  let heap := deleteNode t.root t.heap
  { t with
    levels := 0
    root := .leaf ⟨heap.fresh, []⟩
    heap := { createLeaf heap with cardinality := 0 } }

omit [LinearOrder K] [Inhabited K] [Inhabited V] in
/-- `size()` -/
def sizeOf (t : DynamicIndex K V) : Int := t.heap.cardinality

end DynamicIndex

end Rma
