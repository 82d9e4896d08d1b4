import Rma.ABTree.Scan
import Rma.Base.MapM
import Rma.Base.Shuffle

/-!
# Permuting the nodes of an (a,b)-tree

`permute` moves the nodes of a tree among the addresses that they occupy, at random, so that
the leaves are not next to each other in memory. Here the nodes are the cells of a memory, with
the pointers that they hold: `read` is the tree below an address, and `Holds` says that a
memory holds a tree, each of its nodes at an address of its own.

A pointer is translated by the position of its node in the order of a visit. The variant for
nodes of one size translates them before the nodes are copied; the other one permutes the
inner nodes first, and translates the pointers to them afterwards, but not those to leaves.
-/

namespace Rma.ABTree

open Base Node

/-- The contents of a node, with its pointers. -/
inductive Cell where
  | inner (keys : List Int) (children : List Nat)
  | leaf (elements : List (Int × Int)) (previous next : Option Nat)
deriving Inhabited

structure Memory where
  cells : Nat → Cell
  root : Nat

/-- `RandomPermutationParallel`: the keys of a permutation of a size, from a seed. -/
structure RandomPermutation where
  rawKey : (size seed : Nat) → Nat → Nat
  permutes : ∀ size seed, Permutes size (rawKey size seed)

/-! ## The tree in memory -/

/-- The tree below an address. -/
def read (cells : Nat → Cell) : (level : Nat) → Nat → Option (Node level)
  | 0, a =>
    match cells a with
    | .leaf elements _ _ => some (.leaf ⟨a, elements⟩)
    | .inner _ _ => none
  | level + 1, a =>
    match cells a with
    | .inner keys children => do
      let children ← children.mapM (read cells level)
      some (.inner keys children)
    | .leaf _ _ _ => none

/-- The children of a node. -/
def Cell.children : Cell → List Nat
  | .inner _ children => children
  | .leaf _ _ _ => []

/-- The nodes below an address, in the order of a visit, with their levels. -/
def nodesAt (cells : Nat → Cell) : (level : Nat) → Nat → List (Nat × Nat)
  | 0, a => [(a, 0)]
  | level + 1, a => (a, level + 1) :: (cells a).children.flatMap (nodesAt cells level)

/-- The addresses of the inner nodes. -/
def inodesAt (cells : Nat → Cell) (level a : Nat) : List Nat :=
  ((nodesAt cells level a).filter fun x => x.2 ≠ 0).map Prod.fst

/-- The memory holds the tree: every node has an address of its own. -/
structure Holds (m : Memory) (t : ABTree) : Prop where
  tree : read m.cells t.levels m.root = some t.root
  links : ∀ a ∈ t.root.leaves, ∃ elements,
    m.cells a = .leaf elements (t.heap.links.previous a) (t.heap.links.next a)
  distinct : ((nodesAt m.cells t.levels m.root).map Prod.fst).Nodup

/-! ## Inner nodes and leaves apart -/

/-- The fields of `pand_state`; an address that is not in the map has the index 0. -/
structure PandState where
  inodes : List Nat
  leaves : List Nat
  leafParents : List Nat
  node2index : Nat → Nat

/-- `pand_dfs_visit_abtree(state, node, depth)` -/
def pandDfsVisit (cells : Nat → Cell) : (level : Nat) → Nat → PandState → Option PandState
  | 0, a, s => some { s with
      node2index := Function.update s.node2index a s.leaves.length
      leaves := s.leaves ++ [a] }
  | level + 1, a, s =>
    match cells a with
    | .inner _ children =>
      children.foldlM (fun s child => pandDfsVisit cells level child s)
        { s with
          node2index := Function.update s.node2index a s.inodes.length
          inodes := s.inodes ++ [a] }
    | .leaf _ _ _ => none

/-- The new address of a node, by its index. -/
def moved (key : Nat → Nat) (nodes : List Nat) (node2index : Nat → Nat) (a : Nat) : Option Nat :=
  nodes[key (node2index a)]?

/-- Update the pointers to the children. -/
def moveChildren (target : Nat → Option Nat) : Cell → Option Cell
  | .inner keys children => do
    let children ← children.mapM target
    some (.inner keys children)
  | .leaf _ _ _ => none

/-- Update the pointers to the previous and to the next leaf. -/
def moveSiblings (target : Nat → Option Nat) : Cell → Option Cell
  | .leaf elements previous next => do
    let previous ← previous.mapM target
    let next ← next.mapM target
    some (.leaf elements previous next)
  | .inner _ _ => none

/-- Whether the children of a node are leaves, from the first one. -/
def childrenAreLeaves (s : PandState) : Cell → Option Bool
  | .inner _ (child0 :: _) => do
    let a ← s.leaves[s.node2index child0]?
    some (child0 = a)
  | _ => none

/-- The loop of `pand_permute_inodes` over the inner nodes that have been moved. -/
def updateInodes (key : Nat → Nat) : (inodes : List Nat) → (Nat → Cell) → PandState →
    Option ((Nat → Cell) × PandState)
  | [], cells, s => some (cells, s)
  | inode :: inodes, cells, s => do
    if ← childrenAreLeaves s (cells inode) then -- just track their parent
      updateInodes key inodes cells { s with leafParents := s.leafParents ++ [inode] }
    else
      let c ← moveChildren (moved key s.inodes s.node2index) (cells inode)
      updateInodes key inodes (Function.update cells inode c) s

/-- `pand_permute_inodes(state)` -/
def pandPermuteInodes (p : RandomPermutation) (seed : Nat) (m : Memory) (s : PandState) :
    Option (Memory × PandState) :=
  if s.inodes.length ≤ 1 then
    some (m, { s with leafParents := s.leafParents ++ s.inodes })
  else do
    let key := p.rawKey s.inodes.length (seed + 1729)
    let cells ← shuffle some key s.inodes m.cells default
    let root ← moved key s.inodes s.node2index m.root
    let (cells, s) ← updateInodes key s.inodes cells s
    some (⟨cells, root⟩, s)

/-- `pand_permute_leaves(state)` -/
def pandPermuteLeaves (p : RandomPermutation) (seed : Nat) (m : Memory) (s : PandState) :
    Option Memory :=
  if s.leaves.length ≤ 1 then some m
  else do
    let key := p.rawKey s.leaves.length (seed + 1731)
    let target := moved key s.leaves s.node2index
    let cells ← shuffle (moveSiblings target) key s.leaves m.cells default
    let cells ← updateAll (moveChildren target) s.leafParents cells
    some ⟨cells, m.root⟩

/-- `pand_main`, of a tree with some levels above the leaves. -/
def pandMain (p : RandomPermutation) (seed levels : Nat) (m : Memory) : Option Memory := do
  let s ← pandDfsVisit m.cells levels m.root ⟨[], [], [], fun _ => 0⟩
  let (m, s) ← pandPermuteInodes p seed m s
  pandPermuteLeaves p seed m s

/-! ## All the nodes together -/

/-- The fields of `pann_state`; a node is described by its address and whether it is a leaf. -/
structure PannState where
  nodes : List (Nat × Bool)
  node2index : Nat → Nat

/-- `pann_dfs_visit(state, node, depth)` -/
def pannDfsVisit (cells : Nat → Cell) : (level : Nat) → Nat → PannState → Option PannState
  | 0, a, s => some ⟨s.nodes ++ [(a, true)], Function.update s.node2index a s.nodes.length⟩
  | level + 1, a, s =>
    match cells a with
    | .inner _ children =>
      children.foldlM (fun s child => pannDfsVisit cells level child s)
        ⟨s.nodes ++ [(a, false)], Function.update s.node2index a s.nodes.length⟩
    | .leaf _ _ _ => none

/-- Update the pointers of a node. -/
def movePointers (target : Nat → Option Nat) : Cell → Option Cell
  | .inner keys children => moveChildren target (.inner keys children)
  | .leaf elements previous next => moveSiblings target (.leaf elements previous next)

/-- `pann_main` -/
def pannMain (p : RandomPermutation) (seed levels : Nat) (m : Memory) : Option Memory :=
  if levels = 0 then some m
  else do
    let s ← pannDfsVisit m.cells levels m.root ⟨[], fun _ => 0⟩
    let nodes := s.nodes.map Prod.fst
    let key := p.rawKey nodes.length (seed + 1787)
    let target := moved key nodes s.node2index
    let cells ← shuffle (movePointers target) key nodes m.cells default
    let root ← target m.root
    some ⟨cells, root⟩

/-- `permute(seed)`; `common` tells whether all the nodes have the same size. -/
def permute (p : RandomPermutation) (common : Bool) (seed levels : Nat) (m : Memory) :
    Option Memory :=
  if common then pannMain p seed levels m else pandMain p seed levels m

/-! ## Renaming the addresses -/

/-- The node with its pointers renamed. -/
def Cell.rename (f : Nat → Nat) : Cell → Cell
  | .inner keys children => .inner keys (children.map f)
  | .leaf elements previous next => .leaf elements (previous.map f) (next.map f)

/-- A cell depends on where its own pointers go. -/
theorem Cell.rename_inner_congr {f g : Nat → Nat} {keys : List Int} {children : List Nat}
    (same : ∀ c ∈ children, f c = g c) :
    (Cell.inner keys children).rename f = (Cell.inner keys children).rename g := by
  simp only [Cell.rename, List.map_congr_left same]

theorem Cell.rename_leaf_congr {f g : Nat → Nat} {elements : List (Int × Int)}
    {previous next : Option Nat} (first : ∀ c, previous = some c → f c = g c)
    (second : ∀ c, next = some c → f c = g c) :
    (Cell.leaf elements previous next).rename f = (Cell.leaf elements previous next).rename g := by
  simp only [Cell.rename, Option.map_congr first, Option.map_congr second]

theorem Cell.rename_id (c : Cell) : c.rename id = c := by
  cases c <;> simp [Cell.rename]

/-- The tree with its leaves at other addresses. -/
def Node.rename (f : Nat → Nat) : {level : Nat} → Node level → Node level
  | 0, .leaf l => .leaf { l with address := f l.address }
  | _ + 1, .inner keys children => .inner keys (children.map (Node.rename f))

section Rename

variable {f : Nat → Nat} {b : Bounds} {level : Nat}

theorem rename_inner (keys : List Int) (children : List (Node level)) :
    (Node.inner keys children).rename f = .inner keys (children.map (Node.rename f)) := rfl

theorem rename_elements (f : Nat → Nat) (n : Node level) :
    (n.rename f).elements = n.elements := by
  induction level with
  | zero =>
      cases n
      rfl
  | succ level ih =>
      cases n using Node.inner_cases with
      | inner keys children =>
          rw [rename_inner, elements_inner, elements_inner, List.flatMap_map]
          exact List.flatMap_congr fun c _ => ih c

theorem rename_leaves (f : Nat → Nat) (n : Node level) : (n.rename f).leaves = n.leaves.map f := by
  induction level with
  | zero =>
      cases n
      rfl
  | succ level ih =>
      cases n using Node.inner_cases with
      | inner keys children =>
          rw [rename_inner, leaves_inner, leaves_inner, List.flatMap_map, List.map_flatMap]
          exact List.flatMap_congr fun c _ => ih c

theorem rename_size (f : Nat → Nat) (n : Node level) : (n.rename f).size = n.size := by
  cases level with
  | zero =>
      cases n
      rfl
  | succ level =>
      cases n using Node.inner_cases with
      | inner keys children => rw [rename_inner, size_inner, size_inner, List.length_map]

theorem rename_minKey (f : Nat → Nat) (n : Node level) : (n.rename f).minKey = n.minKey := by
  rw [minKey, minKey, rename_elements]

theorem rename_good {n : Node level} (good : Good b n) : Good b (n.rename f) := by
  induction level with
  | zero =>
      cases n
      trivial
  | succ level ih =>
      cases n using Node.inner_cases with
      | inner keys children =>
          obtain ⟨keysEq, fits⟩ := good_inner.mp good
          refine good_inner.mpr ⟨?_, fun c member => ?_⟩
          · rw [keysEq, separators, separators, ← List.map_tail, List.map_map]
            exact List.map_congr_left fun c _ => (rename_minKey f c).symm
          · obtain ⟨d, inside, rfl⟩ := List.mem_map.mp member
            have := fits d inside
            exact ⟨ih this.1, (rename_size f d).symm ▸ this.2⟩

/-- The chain of the renamed nodes. -/
theorem chain_rename {links links' : Links} {l : List Nat} (chain : links.Chain l)
    (injective : Function.Injective f)
    (next : ∀ a ∈ l, links'.next (f a) = (links.next a).map f)
    (previous : ∀ a ∈ l, links'.previous (f a) = (links.previous a).map f) :
    links'.Chain (l.map f) := by
  refine ⟨chain.nodup.map injective, ?_⟩
  have segment : ∀ (before : Option Nat) (l : List Nat), links.Segment before l none →
      (∀ a ∈ l, links'.next (f a) = (links.next a).map f) →
      (∀ a ∈ l, links'.previous (f a) = (links.previous a).map f) →
      links'.Segment (before.map f) (l.map f) none := by
    intro before l
    induction l generalizing before with
    | nil => exact fun _ _ _ => trivial
    | cons a l ih =>
        rintro ⟨back, forth, rest⟩ next previous
        refine ⟨?_, ?_, ih (some a) rest (fun x hx => next x (List.mem_cons_of_mem _ hx))
          fun x hx => previous x (List.mem_cons_of_mem _ hx)⟩
        · rw [previous a List.mem_cons_self, back]
        · rw [next a List.mem_cons_self, forth]
          simp [List.head?_map]
  exact segment none l chain.linked next previous

/-- A pointer of the chain leads to a node of the chain. -/
theorem mem_of_next {links : Links} {l : List Nat} (chain : links.Chain l) {a c : Nat}
    (member : a ∈ l) : (links.next a = some c → c ∈ l) ∧ (links.previous a = some c → c ∈ l) := by
  obtain ⟨pre, post, rfl⟩ := List.append_of_mem member
  obtain ⟨-, back, forth, -⟩ := Links.segment_append.mp chain.linked
  constructor
  · intro next
    rw [forth, Option.or_none] at next
    exact List.mem_append_right _ (List.mem_cons_of_mem _ (List.mem_of_head? next))
  · intro previous
    rw [back, Option.or_none] at previous
    exact List.mem_append_left _ (List.mem_of_getLast? previous)

end Rename

/-! ## The nodes of a tree -/

section Nodes

variable {cells cells' : Nat → Cell} {level h a x : Nat} {f : Nat → Nat} {n : Node level}

/-- The children of an inner node, and the nodes below them. -/
theorem read_inner {n : Node (level + 1)} (found : read cells (level + 1) a = some n) :
    ∃ keys children nodes, cells a = .inner keys children ∧
      children.mapM (read cells level) = some nodes ∧ n = .inner keys nodes := by
  unfold read at found
  split at found
  · next keys children here =>
      obtain ⟨nodes, below, same⟩ := Option.bind_eq_some_iff.mp found
      exact ⟨keys, children, nodes, here, below, (Option.some.inj same).symm⟩
  · cases found

theorem read_leaf {n : Node 0} (found : read cells 0 a = some n) :
    ∃ elements previous next, cells a = .leaf elements previous next ∧ n = .leaf ⟨a, elements⟩ := by
  unfold read at found
  split at found
  · next elements previous next here =>
      exact ⟨elements, previous, next, here, (Option.some.inj found).symm⟩
  · cases found

theorem mem_nodesAt_self (cells : Nat → Cell) (level a : Nat) :
    (a, level) ∈ nodesAt cells level a := by
  cases level <;> exact List.mem_cons_self

/-- What is below a child is below the node. -/
theorem mem_nodesAt_succ {p : Nat × Nat} (member : p ∈ nodesAt cells (level + 1) a) :
    p = (a, level + 1) ∨ ∃ c ∈ (cells a).children, p ∈ nodesAt cells level c := by
  rcases List.mem_cons.mp member with rfl | below
  · exact Or.inl rfl
  · exact Or.inr (List.mem_flatMap.mp below)

/-- The children of a node of the tree are nodes of the tree, one level below. -/
theorem children_mem (member : (x, h + 1) ∈ nodesAt cells level a) {c : Nat}
    (child : c ∈ (cells x).children) : (c, h) ∈ nodesAt cells level a := by
  induction level generalizing a with
  | zero => cases List.mem_singleton.mp member
  | succ level ih =>
      rcases mem_nodesAt_succ member with same | ⟨d, inside, below⟩
      · cases same
        exact List.mem_cons_of_mem _
          (List.mem_flatMap.mpr ⟨c, child, mem_nodesAt_self cells _ c⟩)
      · exact List.mem_cons_of_mem _ (List.mem_flatMap.mpr ⟨d, inside, ih below⟩)

/-- The nodes of level 0 are leaves, and the others inner nodes. -/
theorem cell_of_mem (found : read cells level a = some n) (member : (x, h) ∈ nodesAt cells level a) :
    (h = 0 → ∃ elements previous next, cells x = .leaf elements previous next) ∧
      (h ≠ 0 → ∃ keys children, cells x = .inner keys children) := by
  induction level generalizing a with
  | zero =>
      obtain ⟨elements, previous, next, here, -⟩ := read_leaf found
      cases List.mem_singleton.mp member
      exact ⟨fun _ => ⟨elements, previous, next, here⟩, fun h => absurd rfl h⟩
  | succ level ih =>
      obtain ⟨keys, children, nodes, here, below, -⟩ := read_inner found
      rcases mem_nodesAt_succ member with same | ⟨d, inside, member⟩
      · cases same
        exact ⟨fun h => absurd h (Nat.succ_ne_zero _), fun _ => ⟨keys, children, here⟩⟩
      · rw [here] at inside
        obtain ⟨m, -, read⟩ := exists_of_mapM below inside
        exact ih read member

/-- The leaves of the tree, as a visit meets them. -/
theorem leaves_eq_nodesAt (found : read cells level a = some n) :
    n.leaves = ((nodesAt cells level a).filter fun x => x.2 = 0).map Prod.fst := by
  induction level generalizing a with
  | zero =>
      obtain ⟨elements, previous, next, -, rfl⟩ := read_leaf found
      rfl
  | succ level ih =>
      obtain ⟨keys, children, nodes, here, below, rfl⟩ := read_inner found
      rw [leaves_inner, nodesAt, here, List.filter_cons_of_neg (by simp), List.filter_flatMap,
        List.map_flatMap]
      exact (flatMap_of_mapM below fun c m read => (ih read).symm).symm

/-- A tree whose nodes are renamed and stay in their order. -/
theorem read_rename (found : read cells level a = some n)
    (renamed : ∀ p ∈ nodesAt cells level a, cells' (f p.1) = (cells p.1).rename f) :
    read cells' level (f a) = some (n.rename f) ∧
      nodesAt cells' level (f a) = (nodesAt cells level a).map fun p => (f p.1, p.2) := by
  induction level generalizing a with
  | zero =>
      obtain ⟨elements, previous, next, here, rfl⟩ := read_leaf found
      have cell := renamed (a, 0) List.mem_cons_self
      rw [here] at cell
      simp only [Cell.rename] at cell
      refine ⟨?_, rfl⟩
      rw [read, cell]
      rfl
  | succ level ih =>
      obtain ⟨keys, children, nodes, here, below, rfl⟩ := read_inner found
      have cell := renamed (a, level + 1) List.mem_cons_self
      rw [here] at cell
      simp only [Cell.rename] at cell
      have each : ∀ c ∈ children, ∀ m, read cells level c = some m →
          read cells' level (f c) = some (m.rename f) ∧
            nodesAt cells' level (f c) = (nodesAt cells level c).map fun p => (f p.1, p.2) := by
        intro c inside m read
        refine ih read fun p member => renamed p ?_
        rw [nodesAt, here]
        exact List.mem_cons_of_mem _ (List.mem_flatMap.mpr ⟨c, inside, member⟩)
      clear renamed found
      constructor
      · rw [read, cell]
        simp only [Node.rename]
        have all : (children.map f).mapM (read cells' level) =
            some (nodes.map (Node.rename f)) := by
          clear here cell
          induction children generalizing nodes with
          | nil =>
              cases below
              rfl
          | cons c children ihC =>
              obtain ⟨m, rest, first, others, rfl⟩ := mapM_cons_some below
              rw [List.map_cons, List.mapM_cons, (each c List.mem_cons_self m first).1,
                ihC rest others fun d inside => each d (List.mem_cons_of_mem _ inside)]
              rfl
        rw [all]
        rfl
      · rw [nodesAt, nodesAt, cell, here, List.map_cons]
        simp only [Cell.children, List.flatMap_map, List.map_flatMap]
        congr 1
        refine List.flatMap_congr fun c inside => ?_
        obtain ⟨m, -, read⟩ := exists_of_mapM below inside
        exact (each c inside m read).2

end Nodes

/-! ## The visits -/

section Visits

variable {cells : Nat → Cell} {level a : Nat} {n : Node level}

/-- A visit of the children is a visit of the nodes below them, one after the other. -/
theorem foldlM_children {σ : Type} {visit : Nat → σ → Option σ} {push : σ → Nat × Nat → σ}
    {children : List Nat} (each : ∀ c ∈ children, ∀ s,
      visit c s = some ((nodesAt cells level c).foldl push s)) (s : σ) :
    children.foldlM (fun s child => visit child s) s =
      some ((children.flatMap (nodesAt cells level)).foldl push s) := by
  induction children generalizing s with
  | nil => rfl
  | cons c children ih =>
      rw [List.foldlM_cons, each c List.mem_cons_self, Option.bind_eq_bind, Option.bind_some,
        ih fun d inside => each d (List.mem_cons_of_mem _ inside), List.flatMap_cons,
        List.foldl_append]

/-- A node is added to the state of the visit. -/
def PandState.push (s : PandState) (x : Nat × Nat) : PandState :=
  if x.2 = 0 then
    { s with
      node2index := Function.update s.node2index x.1 s.leaves.length
      leaves := s.leaves ++ [x.1] }
  else
    { s with
      node2index := Function.update s.node2index x.1 s.inodes.length
      inodes := s.inodes ++ [x.1] }

theorem pandDfsVisit_eq (found : read cells level a = some n) (s : PandState) :
    pandDfsVisit cells level a s = some ((nodesAt cells level a).foldl PandState.push s) := by
  induction level generalizing a s with
  | zero => rfl
  | succ level ih =>
      obtain ⟨keys, children, nodes, here, below, -⟩ := read_inner found
      rw [pandDfsVisit, here, nodesAt, here, List.foldl_cons]
      refine foldlM_children (fun c inside s => ?_) _
      obtain ⟨m, -, read⟩ := exists_of_mapM below inside
      exact ih read s

def PannState.push (s : PannState) (x : Nat × Nat) : PannState :=
  ⟨s.nodes ++ [(x.1, x.2 == 0)], Function.update s.node2index x.1 s.nodes.length⟩

theorem pannDfsVisit_eq (found : read cells level a = some n) (s : PannState) :
    pannDfsVisit cells level a s = some ((nodesAt cells level a).foldl PannState.push s) := by
  induction level generalizing a s with
  | zero => rfl
  | succ level ih =>
      obtain ⟨keys, children, nodes, here, below, -⟩ := read_inner found
      rw [pannDfsVisit, here, nodesAt, here, List.foldl_cons]
      refine foldlM_children (fun c inside s => ?_) _
      obtain ⟨m, -, read⟩ := exists_of_mapM below inside
      exact ih read s

/-- The map has the position of every node of the list. -/
def Indexed (nodes : List Nat) (node2index : Nat → Nat) : Prop :=
  ∀ (i a : Nat), nodes[i]? = some a → node2index a = i

variable {nodes : List Nat} {node2index key : Nat → Nat}

theorem Indexed.push (indexed : Indexed nodes node2index) (fresh : a ∉ nodes) :
    Indexed (nodes ++ [a]) (Function.update node2index a nodes.length) := by
  intro i c found
  rcases Nat.lt_or_ge i nodes.length with before | last
  · rw [List.getElem?_append_left before] at found
    rw [Function.update_of_ne, indexed i c found]
    rintro rfl
    exact fresh (List.mem_of_getElem? found)
  · rw [List.getElem?_append_right last, List.getElem?_singleton] at found
    split at found
    · next first =>
        cases found
        rw [Function.update_self]
        omega
    · cases found

theorem Indexed.other (indexed : Indexed nodes node2index) (fresh : a ∉ nodes) (i : Nat) :
    Indexed nodes (Function.update node2index a i) := by
  intro j c found
  rw [Function.update_of_ne, indexed j c found]
  rintro rfl
  exact fresh (List.mem_of_getElem? found)

/-- The state after a visit. -/
theorem foldl_pann {l : List (Nat × Nat)} {s : PannState}
    (nodup : (s.nodes.map Prod.fst ++ l.map Prod.fst).Nodup)
    (indexed : Indexed (s.nodes.map Prod.fst) s.node2index) :
    (l.foldl PannState.push s).nodes.map Prod.fst = s.nodes.map Prod.fst ++ l.map Prod.fst ∧
      Indexed (s.nodes.map Prod.fst ++ l.map Prod.fst)
        (l.foldl PannState.push s).node2index := by
  induction l generalizing s with
  | nil => simpa using indexed
  | cons x l ih =>
      have fresh : x.1 ∉ s.nodes.map Prod.fst := fun member =>
        List.disjoint_of_nodup_append nodup member List.mem_cons_self
      have pushed : (s.push x).nodes.map Prod.fst = s.nodes.map Prod.fst ++ [x.1] := by
        simp [PannState.push]
      have next := indexed.push fresh
      rw [List.length_map] at next
      have := @ih (s.push x) (by rw [pushed]; simpa using nodup) (by rw [pushed]; exact next)
      rw [pushed, List.append_assoc] at this
      exact this

theorem foldl_pand {l : List (Nat × Nat)} {s : PandState}
    (nodup : ((s.inodes ++ s.leaves) ++ l.map Prod.fst).Nodup)
    (inodes : Indexed s.inodes s.node2index) (leaves : Indexed s.leaves s.node2index) :
    let s' := l.foldl PandState.push s
    s'.inodes = s.inodes ++ (l.filter fun x => x.2 ≠ 0).map Prod.fst ∧
      s'.leaves = s.leaves ++ (l.filter fun x => x.2 = 0).map Prod.fst ∧
      s'.leafParents = s.leafParents ∧
      Indexed s'.inodes s'.node2index ∧ Indexed s'.leaves s'.node2index := by
  induction l generalizing s with
  | nil => simpa using ⟨inodes, leaves⟩
  | cons x l ih =>
      have fresh : x.1 ∉ s.inodes ++ s.leaves := fun member =>
        List.disjoint_of_nodup_append nodup member List.mem_cons_self
      simp only [List.mem_append, not_or] at fresh
      by_cases leaf : x.2 = 0
      · have pushed : s.push x = { s with
            node2index := Function.update s.node2index x.1 s.leaves.length
            leaves := s.leaves ++ [x.1] } := if_pos leaf
        have next := @ih (s.push x)
          (by rw [pushed]; simpa using nodup)
          (by rw [pushed]; exact inodes.other fresh.1 _)
          (by rw [pushed]; exact leaves.push fresh.2)
        simp only [List.foldl_cons]
        refine ⟨next.1.trans ?_, next.2.1.trans ?_, next.2.2.1.trans ?_, next.2.2.2⟩
        · simp [pushed, leaf]
        · simp [pushed, leaf]
        · simp [pushed]
      · have pushed : s.push x = { s with
            node2index := Function.update s.node2index x.1 s.inodes.length
            inodes := s.inodes ++ [x.1] } := if_neg leaf
        have next := @ih (s.push x)
          (by
            rw [pushed]
            refine (List.Perm.nodup_iff ?_).mp nodup
            simp only [List.map_cons, List.append_assoc]
            refine List.Perm.append_left _ ?_
            exact List.perm_middle)
          (by rw [pushed]; exact inodes.push fresh.1)
          (by rw [pushed]; exact leaves.other fresh.2 _)
        simp only [List.foldl_cons]
        refine ⟨next.1.trans ?_, next.2.1.trans ?_, next.2.2.1.trans ?_, next.2.2.2⟩
        · simp [pushed, leaf]
        · simp [pushed, leaf]
        · simp [pushed]

/-- A pointer to a node of the list is translated to where the node goes. -/
theorem moved_eq (nodup : nodes.Nodup) (permutes : Permutes nodes.length key)
    (indexed : Indexed nodes node2index) (member : a ∈ nodes) :
    moved key nodes node2index a = some (relabel nodes key a) := by
  obtain ⟨i, source⟩ := List.mem_iff_getElem?.mp member
  obtain ⟨c, target⟩ := exists_target permutes source
  rw [moved, indexed i a source, target, relabel_eq nodup source target]

/-- The cell of a node goes where its pointers are translated to. -/
theorem shuffle_relabel {translate : Cell → Option Cell} (nodup : nodes.Nodup)
    (permutes : Permutes nodes.length key) {rename : Cell → Cell}
    (translated : ∀ a ∈ nodes, translate (cells a) = some (rename (cells a))) :
    ∃ cells', shuffle translate key nodes cells default = some cells' ∧
      (∀ x ∉ nodes, cells' x = cells x) ∧
      ∀ a ∈ nodes, cells' (relabel nodes key a) = rename (cells a) := by
  have moves : ∀ a ∈ nodes, (translate (cells a)).isSome := fun a member => by
    rw [translated a member]
    rfl
  obtain ⟨cells', run, other, each⟩ := shuffle_spec nodup permutes cells default moves
  refine ⟨cells', run, other, fun a member => ?_⟩
  obtain ⟨i, source⟩ := List.mem_iff_getElem?.mp member
  obtain ⟨c, target⟩ := exists_target permutes source
  have same := each i a c source target
  rw [translated a member] at same
  rw [relabel_eq nodup source target]
  exact (Option.some.inj same).symm

theorem moveChildren_eq {target : Nat → Option Nat} {f : Nat → Nat} {keys : List Int}
    {children : List Nat} (each : ∀ c ∈ children, target c = some (f c)) :
    moveChildren target (.inner keys children) = some ((Cell.inner keys children).rename f) := by
  have all : children.mapM target = some (children.map f) := mapM_eq_map each
  simp only [moveChildren, all, Option.bind_eq_bind, Option.bind_some, Cell.rename]

theorem moveSiblings_eq {target : Nat → Option Nat} {f : Nat → Nat}
    {elements : List (Int × Int)} {previous next : Option Nat}
    (first : ∀ c, previous = some c → target c = some (f c))
    (second : ∀ c, next = some c → target c = some (f c)) :
    moveSiblings target (.leaf elements previous next) =
      some ((Cell.leaf elements previous next).rename f) := by
  have translated : ∀ pointer : Option Nat, (∀ c, pointer = some c → target c = some (f c)) →
      pointer.mapM target = some (pointer.map f) := by
    intro pointer each
    cases pointer with
    | none => rfl
    | some c =>
        have := each c rfl
        simp [this]
  simp only [moveSiblings, translated previous first, translated next second,
    Option.bind_eq_bind, Option.bind_some, Cell.rename]

end Visits

/-! ## The tree after a permutation -/

/-- The addresses of all the nodes. -/
def addresses (m : Memory) (levels : Nat) : List Nat :=
  (nodesAt m.cells levels m.root).map Prod.fst

/-- The tree with its leaves at other addresses, in a heap. -/
def renamed (t : ABTree) (f : Nat → Nat) (heap : Heap) : ABTree :=
  ⟨t.bounds, t.levels, t.root.rename f, heap⟩

/-- The pointers of the leaves. -/
def linksOf (cells : Nat → Cell) : Links where
  next a := match cells a with
    | .leaf _ _ next => next
    | .inner _ _ => none
  previous a := match cells a with
    | .leaf _ previous _ => previous
    | .inner _ _ => none

section Permute

variable {m : Memory} {t : ABTree} {f : Nat → Nat} {cells' : Nat → Cell}

theorem Holds.mem_addresses (holds : Holds m t) {a : Nat} (leaf : a ∈ t.root.leaves) :
    (a, 0) ∈ nodesAt m.cells t.levels m.root := by
  rw [leaves_eq_nodesAt holds.tree] at leaf
  obtain ⟨p, member, rfl⟩ := List.mem_map.mp leaf
  obtain ⟨inside, zero⟩ := List.mem_filter.mp member
  obtain ⟨x, h⟩ := p
  simp only [decide_eq_true_eq] at zero
  exact zero ▸ inside

/-- Where every cell has been moved and its pointers with it, the memory holds the renamed
tree, and that is valid. -/
theorem Holds.renamed (valid : Valid t) (holds : Holds m t) (injective : Function.Injective f)
    (moved : ∀ p ∈ nodesAt m.cells t.levels m.root, cells' (f p.1) = (m.cells p.1).rename f) :
    ∃ heap, Holds ⟨cells', f m.root⟩ (t.renamed f heap) ∧ Valid (t.renamed f heap) := by
  obtain ⟨tree, nodes⟩ := read_rename holds.tree moved
  have cell : ∀ a ∈ t.root.leaves, ∃ elements, cells' (f a) = .leaf elements
      ((t.heap.links.previous a).map f) ((t.heap.links.next a).map f) := by
    intro a leaf
    obtain ⟨elements, here⟩ := holds.links a leaf
    refine ⟨elements, ?_⟩
    rw [moved _ (holds.mem_addresses leaf), here]
    rfl
  refine ⟨⟨linksOf cells', (t.root.leaves.map f).sum + 1, t.heap.cardinality⟩,
    ⟨tree, ?_, ?_⟩, ?_⟩
  · intro c member
    rw [ABTree.renamed, rename_leaves] at member
    obtain ⟨a, leaf, rfl⟩ := List.mem_map.mp member
    obtain ⟨elements, here⟩ := cell a leaf
    refine ⟨elements, ?_⟩
    simp only [linksOf, here, ABTree.renamed]
  · have map : (nodesAt cells' t.levels (f m.root)).map Prod.fst =
        ((nodesAt m.cells t.levels m.root).map Prod.fst).map f := by
      rw [nodes, List.map_map, List.map_map]
      rfl
    simp only [ABTree.renamed]
    rw [map]
    exact holds.distinct.map injective
  · refine ⟨rename_good valid.good, ?_, ?_, ⟨?_, ?_⟩, ?_⟩
    · have size := valid.size
      rw [RootSize] at size ⊢
      simp only [ABTree.renamed, rename_size]
      exact size
    · simp only [ABTree.renamed, rename_elements]
      exact valid.sorted
    · simp only [ABTree.renamed, rename_leaves]
      refine chain_rename valid.linked.chain injective (fun a leaf => ?_) fun a leaf => ?_
      · obtain ⟨elements, here⟩ := cell a leaf
        simp only [linksOf, here]
      · obtain ⟨elements, here⟩ := cell a leaf
        simp only [linksOf, here]
    · intro a leaf
      simp only [ABTree.renamed, rename_leaves] at leaf ⊢
      exact Nat.lt_succ_of_le (List.le_sum_of_mem leaf)
    · simp only [ABTree.renamed, rename_elements]
      exact valid.cardinality

/-- A pointer of a leaf leads to a leaf. -/
theorem Holds.siblings (valid : Valid t) (holds : Holds m t) {a : Nat} (leaf : a ∈ t.root.leaves) :
    ∃ elements previous next, m.cells a = .leaf elements previous next ∧
      (∀ c, previous = some c → c ∈ t.root.leaves) ∧ ∀ c, next = some c → c ∈ t.root.leaves := by
  obtain ⟨elements, here⟩ := holds.links a leaf
  exact ⟨elements, _, _, here, fun c => (mem_of_next valid.linked.chain leaf).2,
    fun c => (mem_of_next valid.linked.chain leaf).1⟩

/-- A permutation of all the nodes together. -/
theorem pannMain_renamed (p : RandomPermutation) (seed : Nat) (valid : Valid t)
    (holds : Holds m t) :
    ∃ f m', Function.Injective f ∧ pannMain p seed t.levels m = some m' ∧ m'.root = f m.root ∧
      (∀ q ∈ nodesAt m.cells t.levels m.root, m'.cells (f q.1) = (m.cells q.1).rename f) ∧
      ((addresses m t.levels).map f).Perm (addresses m t.levels) ∧
      ∀ x ∉ addresses m t.levels, m'.cells x = m.cells x := by
  unfold pannMain
  by_cases leaf : t.levels = 0
  · rw [if_pos leaf]
    refine ⟨id, m, Function.injective_id, rfl, rfl, fun q _ => ?_, ?_, fun x _ => rfl⟩
    · exact ((m.cells q.1).rename_id).symm
    · rw [List.map_id]
  · rw [if_neg leaf, pannDfsVisit_eq holds.tree, Option.bind_eq_bind, Option.bind_some]
    obtain ⟨nodes, indexed⟩ := @foldl_pann (nodesAt m.cells t.levels m.root) ⟨[], fun _ => 0⟩
      (by simpa using holds.distinct) (fun i a found => by cases found)
    simp only [List.map_nil, List.nil_append] at nodes indexed
    dsimp only
    rw [show _ = addresses m t.levels from nodes]
    generalize ((nodesAt m.cells t.levels m.root).foldl PannState.push
      ⟨[], fun _ => 0⟩).node2index = node2index at indexed ⊢
    have permutes := p.permutes (addresses m t.levels).length (seed + 1787)
    have nodup : (addresses m t.levels).Nodup := holds.distinct
    generalize p.rawKey (addresses m t.levels).length (seed + 1787) = key at permutes ⊢
    have target : ∀ q ∈ nodesAt m.cells t.levels m.root,
        ABTree.moved key (addresses m t.levels) node2index q.1 =
          some (relabel (addresses m t.levels) key q.1) :=
      fun q member => moved_eq nodup permutes indexed (List.mem_map_of_mem member)
    have translated : ∀ a ∈ addresses m t.levels,
        movePointers (ABTree.moved key (addresses m t.levels) node2index) (m.cells a) =
          some ((m.cells a).rename (relabel (addresses m t.levels) key)) := by
      intro a member
      obtain ⟨⟨a, h⟩, inside, rfl⟩ := List.mem_map.mp member
      cases h with
      | zero =>
          have isLeaf : a ∈ t.root.leaves := by
            rw [leaves_eq_nodesAt holds.tree]
            exact List.mem_map.mpr ⟨(a, 0), List.mem_filter.mpr ⟨inside, by simp⟩, rfl⟩
          obtain ⟨elements, previous, next, here, first, second⟩ := holds.siblings valid isLeaf
          simp only [here]
          exact moveSiblings_eq (fun c same => target (c, 0) (holds.mem_addresses (first c same)))
            fun c same => target (c, 0) (holds.mem_addresses (second c same))
      | succ h =>
          obtain ⟨keys, children, here⟩ := (cell_of_mem holds.tree inside).2 (Nat.succ_ne_zero h)
          simp only [here]
          exact moveChildren_eq fun c child =>
            target (c, h) (children_mem inside (by rw [here]; exact child))
    obtain ⟨cells', run, other, each⟩ := shuffle_relabel nodup permutes translated
    have root := target _ (mem_nodesAt_self m.cells t.levels m.root)
    refine ⟨relabel (addresses m t.levels) key, _, relabel_injective nodup permutes,
      by rw [run, root]; rfl, rfl, fun q member => each q.1 (List.mem_map_of_mem member),
      map_relabel_perm nodup permutes, other⟩

end Permute

/-! ## Inner nodes and leaves -/

section Apart

variable {cells : Nat → Cell} {level a x h : Nat} {n : Node level} {b : Bounds}

/-- The children of a good node are good, and have two entries at least. -/
theorem several_of_fits {c : Node level} (fits : Fits b c) : Good b c ∧ 2 ≤ c.size :=
  ⟨fits.1, (b.two_le_lower level).trans fits.2.1⟩

/-- An inner node of a good tree has two children at least. -/
theorem inner_of_mem (found : read cells level a = some n) (good : Good b n)
    (several : level ≠ 0 → 2 ≤ n.size) (member : (x, h + 1) ∈ nodesAt cells level a) :
    ∃ keys children, cells x = .inner keys children ∧ 2 ≤ children.length := by
  induction level generalizing a with
  | zero => cases List.mem_singleton.mp member
  | succ level ih =>
      obtain ⟨keys, children, nodes, here, below, rfl⟩ := read_inner found
      rcases mem_nodesAt_succ member with same | ⟨d, inside, member⟩
      · cases same
        have two := several (Nat.succ_ne_zero _)
        rw [size_inner, mapM_length below] at two
        exact ⟨keys, children, here, two⟩
      · rw [here] at inside
        obtain ⟨m, among, read⟩ := exists_of_mapM below inside
        have fits := several_of_fits ((good_inner.mp good).2 m among)
        exact ih read fits.1 (fun _ => fits.2) member

/-- A good tree has fewer inner nodes than leaves. -/
theorem inodes_lt_leaves (found : read cells level a = some n) (good : Good b n)
    (several : level ≠ 0 → 2 ≤ n.size) :
    ((nodesAt cells level a).filter fun x => x.2 ≠ 0).length <
      ((nodesAt cells level a).filter fun x => x.2 = 0).length := by
  induction level generalizing a with
  | zero => simp [nodesAt]
  | succ level ih =>
      obtain ⟨keys, children, nodes, here, below, rfl⟩ := read_inner found
      have two := several (Nat.succ_ne_zero _)
      rw [size_inner, mapM_length below] at two
      have each : ∀ c ∈ children, ((nodesAt cells level c).filter fun x => x.2 ≠ 0).length <
          ((nodesAt cells level c).filter fun x => x.2 = 0).length := by
        intro c inside
        obtain ⟨m, among, read⟩ := exists_of_mapM below inside
        have fits := several_of_fits ((good_inner.mp good).2 m among)
        exact ih read fits.1 fun _ => fits.2
      have sum : ((children.flatMap (nodesAt cells level)).filter fun x => x.2 ≠ 0).length +
          children.length ≤
            ((children.flatMap (nodesAt cells level)).filter fun x => x.2 = 0).length := by
        clear two below here found several good
        induction children with
        | nil => exact Nat.zero_le _
        | cons c children ihC =>
            have first := each c List.mem_cons_self
            have rest := ihC fun d inside => each d (List.mem_cons_of_mem _ inside)
            simp only [List.flatMap_cons, List.filter_append, List.length_append,
              List.length_cons]
            omega
      rw [nodesAt, here]
      simp only [Cell.children]
      rw [List.filter_cons_of_pos (by simp), List.filter_cons_of_neg (by simp), List.length_cons]
      omega

/-- A node is at one level. -/
theorem level_unique (distinct : ((nodesAt cells level a).map Prod.fst).Nodup) {h' : Nat}
    (first : (x, h) ∈ nodesAt cells level a) (second : (x, h') ∈ nodesAt cells level a) :
    h = h' :=
  congrArg Prod.snd (List.inj_on_of_nodup_map distinct first second rfl)

theorem mem_inodesAt : x ∈ inodesAt cells level a ↔ ∃ h, (x, h + 1) ∈ nodesAt cells level a := by
  unfold inodesAt
  constructor
  · intro member
    obtain ⟨⟨x, h⟩, inside, rfl⟩ := List.mem_map.mp member
    obtain ⟨inside, above⟩ := List.mem_filter.mp inside
    simp only [ne_eq, decide_not, Bool.not_eq_true', decide_eq_false_iff_not] at above
    obtain ⟨h, rfl⟩ := Nat.exists_eq_succ_of_ne_zero above
    exact ⟨h, inside⟩
  · rintro ⟨h, inside⟩
    exact List.mem_map.mpr ⟨(x, h + 1), List.mem_filter.mpr ⟨inside, by simp⟩, rfl⟩

theorem nodup_inodesAt (distinct : ((nodesAt cells level a).map Prod.fst).Nodup) :
    (inodesAt cells level a).Nodup :=
  distinct.sublist (List.filter_sublist.map Prod.fst)

end Apart

/-! ## The inner nodes -/

section Inodes

variable {key : Nat → Nat} {l : List Nat} {s : PandState}

/-- The loop over the inner nodes tracks those whose children are leaves, and updates the
pointers of the others. -/
theorem updateInodes_spec (nodup : l.Nodup) {kind : Nat → Bool} {new : Nat → Cell}
    (cells : Nat → Cell)
    (kinds : ∀ b ∈ l, childrenAreLeaves s (cells b) = some (kind b))
    (others : ∀ b ∈ l, kind b = false →
      moveChildren (moved key s.inodes s.node2index) (cells b) = some (new b)) :
    ∃ cells', updateInodes key l cells s =
        some (cells', { s with leafParents := s.leafParents ++ l.filter kind }) ∧
      (∀ x ∉ l, cells' x = cells x) ∧
      ∀ b ∈ l, cells' b = if kind b then cells b else new b := by
  induction l generalizing cells s with
  | nil => exact ⟨cells, by simp [updateInodes], fun _ _ => rfl, fun _ none => by cases none⟩
  | cons b l ih =>
      rw [List.nodup_cons] at nodup
      have here := kinds b List.mem_cons_self
      cases kindB : kind b with
      | true =>
          obtain ⟨cells', run, other, each⟩ := @ih
            { s with leafParents := s.leafParents ++ [b] } nodup.2 cells
            (fun c member => kinds c (List.mem_cons_of_mem _ member))
            fun c member => others c (List.mem_cons_of_mem _ member)
          refine ⟨cells', ?_, fun x outside => ?_, fun c member => ?_⟩
          · rw [updateInodes, here, Option.bind_eq_bind, Option.bind_some, kindB, if_pos rfl, run]
            simp [kindB]
          · exact other x fun inside => outside (List.mem_cons_of_mem _ inside)
          · rcases List.mem_cons.mp member with rfl | later
            · rw [other _ nodup.1, kindB, if_pos rfl]
            · exact each c later
      | false =>
          have kept : ∀ c ∈ l, Function.update cells b (new b) c = cells c := fun c member =>
            Function.update_of_ne (fun same : c = b => nodup.1 (same ▸ member)) _ _
          obtain ⟨cells', run, other, each⟩ := @ih s nodup.2 (Function.update cells b (new b))
            (fun c member => by
              rw [kept c member]
              exact kinds c (List.mem_cons_of_mem _ member))
            fun c member => by
              rw [kept c member]
              exact others c (List.mem_cons_of_mem _ member)
          refine ⟨cells', ?_, fun x outside => ?_, fun c member => ?_⟩
          · rw [updateInodes, here, Option.bind_eq_bind, Option.bind_some, kindB,
              if_neg Bool.false_ne_true, others b List.mem_cons_self kindB, Option.bind_eq_bind,
              Option.bind_some, run]
            simp [kindB]
          · simp only [List.mem_cons, not_or] at outside
            rw [other x outside.2, Function.update_of_ne outside.1]
          · rcases List.mem_cons.mp member with rfl | later
            · rw [other _ nodup.1, Function.update_self, kindB, if_neg Bool.false_ne_true]
            · rw [each c later, kept c later]

end Inodes

section Main

variable {m : Memory} {t : ABTree}

/-- The nodes of the tree with two entries at least, but for a single leaf. -/
theorem Valid.several (valid : Valid t) : t.levels ≠ 0 → 2 ≤ t.root.size := by
  intro above
  have size := valid.size
  rw [RootSize, if_neg above] at size
  exact size.1

/-- The state after the visit: the inner nodes and the leaves, and their positions. -/
structure Visited (m : Memory) (t : ABTree) (s : PandState) : Prop where
  inodes : s.inodes = inodesAt m.cells t.levels m.root
  leaves : s.leaves = t.root.leaves
  leafParents : s.leafParents = []
  indexInodes : Indexed s.inodes s.node2index
  indexLeaves : Indexed s.leaves s.node2index

theorem pandDfsVisit_visited (holds : Holds m t) :
    ∃ s, pandDfsVisit m.cells t.levels m.root ⟨[], [], [], fun _ => 0⟩ = some s ∧
      Visited m t s := by
  obtain ⟨inodes, leaves, parents, indexInodes, indexLeaves⟩ :=
    @foldl_pand (nodesAt m.cells t.levels m.root) ⟨[], [], [], fun _ => 0⟩
      (by simpa using holds.distinct) (fun i a found => by cases found)
      fun i a found => by cases found
  refine ⟨_, pandDfsVisit_eq holds.tree _, ⟨inodes, ?_, parents, indexInodes, indexLeaves⟩⟩
  rw [leaves_eq_nodesAt holds.tree]
  exact leaves

theorem Holds.leaf_iff (holds : Holds m t) {a : Nat} :
    a ∈ t.root.leaves ↔ (a, 0) ∈ nodesAt m.cells t.levels m.root := by
  refine ⟨holds.mem_addresses, fun member => ?_⟩
  rw [leaves_eq_nodesAt holds.tree]
  exact List.mem_map.mpr ⟨(a, 0), List.mem_filter.mpr ⟨member, by simp⟩, rfl⟩

/-- The nodes are the inner ones and the leaves. -/
theorem Holds.addresses_perm (holds : Holds m t) :
    (inodesAt m.cells t.levels m.root ++ t.root.leaves).Perm (addresses m t.levels) := by
  rw [leaves_eq_nodesAt holds.tree, inodesAt, addresses, ← List.map_append]
  refine List.Perm.map _ ?_
  have split := List.filter_append_perm (fun x : Nat × Nat => decide (x.2 ≠ 0))
    (nodesAt m.cells t.levels m.root)
  simpa only [decide_not, Bool.not_not] using split

/-- An inner node is not a leaf. -/
theorem Holds.apart (holds : Holds m t) {a : Nat} (leaf : a ∈ t.root.leaves) :
    a ∉ inodesAt m.cells t.levels m.root := by
  intro inner
  obtain ⟨h, member⟩ := mem_inodesAt.mp inner
  cases level_unique holds.distinct (holds.leaf_iff.mp leaf) member

/-- The first child tells the level of the children. -/
theorem Visited.childrenAreLeaves {s : PandState} (visited : Visited m t s) (valid : Valid t)
    (holds : Holds m t) {x h : Nat} (member : (x, h + 1) ∈ nodesAt m.cells t.levels m.root) :
    childrenAreLeaves s (m.cells x) = some (decide (h = 0)) := by
  obtain ⟨keys, children, here, two⟩ :=
    inner_of_mem holds.tree valid.good valid.several member
  rcases children with _ | ⟨child0, children⟩
  · simp at two
  have child : (child0, h) ∈ nodesAt m.cells t.levels m.root :=
    children_mem member (by rw [here]; exact List.mem_cons_self)
  rw [here]
  simp only [ABTree.childrenAreLeaves, Option.bind_eq_bind]
  rcases Nat.eq_zero_or_pos h with rfl | above
  · have leaf : child0 ∈ s.leaves := by rw [visited.leaves]; exact holds.leaf_iff.mpr child
    obtain ⟨i, found⟩ := List.mem_iff_getElem?.mp leaf
    rw [visited.indexLeaves i child0 found, found]
    simp
  · obtain ⟨h, rfl⟩ := Nat.exists_eq_succ_of_ne_zero above.ne'
    have inner : child0 ∈ s.inodes := by
      rw [visited.inodes]
      exact mem_inodesAt.mpr ⟨h, child⟩
    obtain ⟨i, found⟩ := List.mem_iff_getElem?.mp inner
    have fewer := inodes_lt_leaves holds.tree valid.good valid.several
    have inside := (List.getElem?_eq_some_iff.mp found).1
    have lengthI : s.inodes.length =
        ((nodesAt m.cells t.levels m.root).filter fun x => x.2 ≠ 0).length := by
      rw [visited.inodes, inodesAt, List.length_map]
    have lengthL : s.leaves.length =
        ((nodesAt m.cells t.levels m.root).filter fun x => x.2 = 0).length := by
      rw [visited.leaves, leaves_eq_nodesAt holds.tree, List.length_map]
    obtain ⟨a, other⟩ : ∃ a, s.leaves[i]? = some a :=
      ⟨_, List.getElem?_eq_getElem (by omega)⟩
    rw [visited.indexInodes i child0 found, other, Option.bind_some]
    have differ : child0 ≠ a := by
      rintro rfl
      have leaf : child0 ∈ t.root.leaves := visited.leaves ▸ List.mem_of_getElem? other
      exact holds.apart leaf (visited.inodes ▸ inner)
    simp [differ]

/-- The memory after the inner nodes have been moved: the pointers to leaves are still those to
their old addresses, and the parents of the leaves have been tracked. -/
structure InodesMoved (m : Memory) (t : ABTree) (f : Nat → Nat) (m1 : Memory)
    (parents : List Nat) : Prop where
  injective : Function.Injective f
  fixes : ∀ x ∉ inodesAt m.cells t.levels m.root, f x = x
  perm : ((inodesAt m.cells t.levels m.root).map f).Perm (inodesAt m.cells t.levels m.root)
  root : m1.root = f m.root
  above : ∀ x h, (x, h + 2) ∈ nodesAt m.cells t.levels m.root →
    m1.cells (f x) = (m.cells x).rename f
  parent : ∀ x, (x, 1) ∈ nodesAt m.cells t.levels m.root →
    m1.cells (f x) = m.cells x ∧ f x ∈ parents
  nodup : parents.Nodup
  only : ∀ c ∈ parents, ∃ x, (x, 1) ∈ nodesAt m.cells t.levels m.root ∧ c = f x
  other : ∀ x ∉ inodesAt m.cells t.levels m.root, m1.cells x = m.cells x

/-- Several inner nodes. -/
theorem pandPermuteInodes_many {s : PandState} (visited : Visited m t s) (valid : Valid t)
    (holds : Holds m t) {key : Nat → Nat} (permutes : Permutes s.inodes.length key)
    (many : 1 < s.inodes.length) :
    ∃ f m1 parents, (do
        let cells ← shuffle some key s.inodes m.cells default
        let root ← moved key s.inodes s.node2index m.root
        let (cells, s) ← updateInodes key s.inodes cells s
        some ((⟨cells, root⟩ : Memory), s)) = some (m1, { s with leafParents := parents }) ∧
      InodesMoved m t f m1 parents := by
  have isInode : ∀ x, x ∈ s.inodes ↔ ∃ h, (x, h + 1) ∈ nodesAt m.cells t.levels m.root := by
    rw [visited.inodes]
    exact fun x => mem_inodesAt
  have nodup : s.inodes.Nodup := visited.inodes ▸ nodup_inodesAt holds.distinct
  have target : ∀ x ∈ s.inodes, moved key s.inodes s.node2index x =
      some (relabel s.inodes key x) :=
    fun x member => moved_eq nodup permutes visited.indexInodes member
  have injective := relabel_injective nodup permutes
  have perm := map_relabel_perm nodup permutes
  have fixes : ∀ x ∉ s.inodes, relabel s.inodes key x = x := fun x => relabel_of_notMem
  obtain ⟨cells1, run1, other1, each1⟩ := @shuffle_relabel m.cells s.inodes key some nodup permutes
    id fun a _ => rfl
  generalize relabel s.inodes key = f at *
  -- the kind and the new contents of the node that has been moved to an address
  have kinds : ∀ x h, (x, h + 1) ∈ nodesAt m.cells t.levels m.root →
      childrenAreLeaves s (cells1 (f x)) = some (decide (h = 0)) := by
    intro x h member
    rw [each1 x ((isInode x).mpr ⟨h, member⟩)]
    exact visited.childrenAreLeaves valid holds member
  have news : ∀ x h, (x, h + 2) ∈ nodesAt m.cells t.levels m.root →
      moveChildren (moved key s.inodes s.node2index) (cells1 (f x)) =
        some ((m.cells x).rename f) := by
    intro x h member
    obtain ⟨keys, children, here⟩ := (cell_of_mem holds.tree member).2 (Nat.succ_ne_zero _)
    rw [each1 x ((isInode x).mpr ⟨h + 1, member⟩), id, here]
    exact moveChildren_eq fun c child => target c
      ((isInode c).mpr ⟨h, children_mem member (by rw [here]; exact child)⟩)
  have source : ∀ c ∈ s.inodes, ∃ x h, (x, h + 1) ∈ nodesAt m.cells t.levels m.root ∧ f x = c := by
    intro c member
    obtain ⟨x, inside, same⟩ := List.mem_map.mp (perm.symm.subset member)
    obtain ⟨h, found⟩ := (isInode x).mp inside
    exact ⟨x, h, found, same⟩
  obtain ⟨cells2, run2, other2, each2⟩ := @updateInodes_spec key s.inodes s nodup
    (fun c => (childrenAreLeaves s (cells1 c)).getD false)
    (fun c => (moveChildren (moved key s.inodes s.node2index) (cells1 c)).getD default) cells1
    (fun c member => by
      obtain ⟨x, h, found, rfl⟩ := source c member
      rw [kinds x h found]
      rfl)
    (fun c member kind => by
      obtain ⟨x, h, found, rfl⟩ := source c member
      rw [kinds x h found, Option.getD_some, decide_eq_false_iff_not] at kind
      obtain ⟨h, rfl⟩ := Nat.exists_eq_succ_of_ne_zero kind
      rw [news x h found]
      rfl)
  have rootInner : m.root ∈ s.inodes := by
    refine (isInode m.root).mpr ?_
    have here := mem_nodesAt_self m.cells t.levels m.root
    rcases Nat.eq_zero_or_pos t.levels with leaf | above
    · obtain ⟨x, inside⟩ := List.exists_mem_of_length_pos (show 0 < s.inodes.length by omega)
      obtain ⟨h, found⟩ := (isInode x).mp inside
      rw [leaf] at found
      cases List.mem_singleton.mp found
    · exact ⟨t.levels - 1, by rwa [Nat.sub_add_cancel above]⟩
  refine ⟨f, ⟨cells2, f m.root⟩, s.inodes.filter fun c =>
    (childrenAreLeaves s (cells1 c)).getD false, ?_, injective, ?_, ?_, rfl, ?_, ?_, ?_, ?_, ?_⟩
  · rw [run1, target _ rootInner]
    simp only [Option.bind_eq_bind, Option.bind_some, run2, visited.leafParents, List.nil_append]
  · rw [← visited.inodes]
    exact fixes
  · rw [← visited.inodes]
    exact perm
  · intro x h member
    have moved : f x ∈ s.inodes := perm.subset
      (List.mem_map_of_mem ((isInode x).mpr ⟨h + 1, member⟩))
    have same := each2 _ moved
    rwa [kinds x (h + 1) member, Option.getD_some, if_neg (by simp), news x h member,
      Option.getD_some] at same
  · intro x member
    have moved : f x ∈ s.inodes := perm.subset (List.mem_map_of_mem ((isInode x).mpr ⟨0, member⟩))
    have same := each2 _ moved
    rw [kinds x 0 member, Option.getD_some, if_pos (by simp),
      each1 x ((isInode x).mpr ⟨0, member⟩)] at same
    refine ⟨same, List.mem_filter.mpr ⟨moved, ?_⟩⟩
    rw [kinds x 0 member]
    rfl
  · exact nodup.filter _
  · intro c member
    obtain ⟨inside, kind⟩ := List.mem_filter.mp member
    obtain ⟨x, h, found, rfl⟩ := source c inside
    rw [kinds x h found, Option.getD_some, decide_eq_true_eq] at kind
    subst kind
    exact ⟨x, found, rfl⟩
  · rw [← visited.inodes]
    intro x outside
    exact (other2 x outside).trans (other1 x outside)

theorem pandPermuteInodes_moved (p : RandomPermutation) (seed : Nat) {s : PandState}
    (visited : Visited m t s) (valid : Valid t) (holds : Holds m t) :
    ∃ f m1 parents, pandPermuteInodes p seed m s = some (m1, { s with leafParents := parents }) ∧
      InodesMoved m t f m1 parents := by
  have nodup := nodup_inodesAt holds.distinct
  unfold pandPermuteInodes
  rw [visited.leafParents, List.nil_append]
  by_cases few : s.inodes.length ≤ 1
  · rw [if_pos few]
    refine ⟨id, m, s.inodes, rfl, Function.injective_id, fun _ _ => rfl, ?_, rfl,
      fun x h member => ((m.cells x).rename_id).symm, fun x member => ⟨rfl, ?_⟩, ?_,
      fun c member => ⟨c, ?_, rfl⟩, fun _ _ => rfl⟩
    · rw [List.map_id]
    · rw [visited.inodes]
      exact mem_inodesAt.mpr ⟨0, member⟩
    · rw [visited.inodes]
      exact nodup
    · -- an inner node above others is not the only one
      rw [visited.inodes] at member few
      obtain ⟨h, inside⟩ := mem_inodesAt.mp member
      rcases Nat.eq_zero_or_pos h with rfl | above
      · exact inside
      · obtain ⟨h, rfl⟩ := Nat.exists_eq_succ_of_ne_zero above.ne'
        obtain ⟨keys, children, here, two⟩ :=
          inner_of_mem holds.tree valid.good valid.several inside
        rcases children with _ | ⟨d, children⟩
        · simp at two
        have child : (d, h + 1) ∈ nodesAt m.cells t.levels m.root :=
          children_mem inside (by rw [here]; exact List.mem_cons_self)
        have inner := mem_inodesAt.mpr ⟨h, child⟩
        have same : c = d := by
          obtain ⟨e, single⟩ := List.length_eq_one_iff.mp
            (show (inodesAt m.cells t.levels m.root).length = 1 by
              have := List.length_pos_of_mem member
              omega)
          rw [single, List.mem_singleton] at member inner
          rw [member, inner]
        subst same
        have := level_unique holds.distinct inside child
        omega
  · rw [if_neg few]
    exact pandPermuteInodes_many visited valid holds (p.permutes _ _) (Nat.lt_of_not_le few)

/-- The leaves and the pointers to them after the second part. -/
structure LeavesMoved (m : Memory) (t : ABTree) (f : Nat → Nat) (m1 : Memory) (g : Nat → Nat)
    (m' : Memory) : Prop where
  injective : Function.Injective g
  fixes : ∀ x ∉ t.root.leaves, g x = x
  perm : (t.root.leaves.map g).Perm t.root.leaves
  root : m'.root = m1.root
  each : ∀ q ∈ nodesAt m.cells t.levels m.root,
    m'.cells (f (g q.1)) = (m.cells q.1).rename fun a => f (g a)
  other : ∀ x ∉ addresses m t.levels, m'.cells x = m1.cells x

/-- Where there is a single leaf nothing is moved. -/
theorem InodesMoved.single {f : Nat → Nat} {m1 : Memory} {parents : List Nat}
    (inodes : InodesMoved m t f m1 parents) (valid : Valid t) (holds : Holds m t)
    (few : t.root.leaves.length ≤ 1) : LeavesMoved m t f m1 id m1 := by
  refine ⟨Function.injective_id, fun _ _ => rfl, by rw [List.map_id], rfl, ?_, fun _ _ => rfl⟩
  rintro ⟨x, h⟩ member
  have fewer := inodes_lt_leaves holds.tree valid.good valid.several
  rw [leaves_eq_nodesAt holds.tree, List.length_map] at few
  cases h with
  | succ h =>
      have inner : (x, h + 1) ∈ (nodesAt m.cells t.levels m.root).filter fun x => x.2 ≠ 0 :=
        List.mem_filter.mpr ⟨member, by simp⟩
      have := List.length_pos_of_mem inner
      omega
  | zero =>
      have leaf := holds.leaf_iff.mpr member
      obtain ⟨elements, previous, next, here, first, second⟩ := holds.siblings valid leaf
      have stays : ∀ a ∈ t.root.leaves, f a = a := fun a leaf => inodes.fixes a (holds.apart leaf)
      simp only [id]
      rw [stays x leaf, inodes.other x (holds.apart leaf), here,
        Cell.rename_leaf_congr (fun c same => stays c (first c same))
          fun c same => stays c (second c same)]
      exact (Cell.rename_id _).symm

/-- The leaves are moved, and the pointers to them translated. -/
theorem pandPermuteLeaves_moved (p : RandomPermutation) (seed : Nat) {s : PandState}
    (visited : Visited m t s) (valid : Valid t) (holds : Holds m t) {f : Nat → Nat} {m1 : Memory}
    {parents : List Nat} (inodes : InodesMoved m t f m1 parents) :
    ∃ g m', pandPermuteLeaves p seed m1 { s with leafParents := parents } = some m' ∧
      LeavesMoved m t f m1 g m' := by
  unfold pandPermuteLeaves
  have indexed := visited.indexLeaves
  simp only [visited.leaves] at indexed ⊢
  by_cases few : t.root.leaves.length ≤ 1
  · rw [if_pos few]
    exact ⟨id, m1, rfl, inodes.single valid holds few⟩
  rw [if_neg few]
  have permutes := p.permutes t.root.leaves.length (seed + 1731)
  generalize p.rawKey t.root.leaves.length (seed + 1731) = key at permutes ⊢
  have nodup := valid.linked.chain.nodup
  have target : ∀ x ∈ t.root.leaves,
      moved key t.root.leaves s.node2index x = some (relabel t.root.leaves key x) :=
    fun x leaf => moved_eq nodup permutes indexed leaf
  have injective := relabel_injective nodup permutes
  have perm := map_relabel_perm nodup permutes
  have fixes : ∀ x ∉ t.root.leaves, relabel t.root.leaves key x = x :=
    fun x => relabel_of_notMem
  have siblings : ∀ a ∈ t.root.leaves, ∃ elements previous next,
      m1.cells a = .leaf elements previous next ∧ m.cells a = .leaf elements previous next ∧
        (∀ c, previous = some c → c ∈ t.root.leaves) ∧ ∀ c, next = some c → c ∈ t.root.leaves := by
    intro a leaf
    obtain ⟨elements, previous, next, here, pointers⟩ := holds.siblings valid leaf
    exact ⟨elements, previous, next, (inodes.other a (holds.apart leaf)).trans here, here,
      pointers⟩
  obtain ⟨cells2, run2, other2, each2⟩ := @shuffle_relabel m1.cells t.root.leaves key
    (moveSiblings (moved key t.root.leaves s.node2index)) nodup permutes
    (Cell.rename (relabel t.root.leaves key)) (fun a leaf => by
      obtain ⟨elements, previous, next, here, -, first, second⟩ := siblings a leaf
      rw [here]
      exact moveSiblings_eq (fun c same => target c (first c same))
        fun c same => target c (second c same))
  generalize relabel t.root.leaves key = g at *
  have onLeaves : ∀ a ∈ t.root.leaves, g a ∈ t.root.leaves := fun a leaf =>
    perm.subset (List.mem_map_of_mem leaf)
  have stays : ∀ a ∈ t.root.leaves, f a = a := fun a leaf => inodes.fixes a (holds.apart leaf)
  have inner : ∀ x h, (x, h + 1) ∈ nodesAt m.cells t.levels m.root →
      g x = x ∧ f x ∉ t.root.leaves := by
    intro x h member
    have inside := mem_inodesAt.mpr ⟨h, member⟩
    exact ⟨fixes x fun leaf => holds.apart leaf inside,
      fun leaf => holds.apart leaf (inodes.perm.subset (List.mem_map_of_mem inside))⟩
  have parent : ∀ x, (x, 1) ∈ nodesAt m.cells t.levels m.root →
      moveChildren (moved key t.root.leaves s.node2index) (cells2 (f x)) =
        some ((m.cells x).rename g) := by
    intro x member
    obtain ⟨keys, children, here⟩ := (cell_of_mem holds.tree member).2 Nat.one_ne_zero
    rw [other2 _ (inner x 0 member).2, (inodes.parent x member).1, here]
    exact moveChildren_eq fun c child =>
      target c (holds.leaf_iff.mpr (children_mem member (by rw [here]; exact child)))
  obtain ⟨cells3, run3, other3, each3⟩ := @updateAll_spec Cell
    (moveChildren (moved key t.root.leaves s.node2index)) parents inodes.nodup cells2
    (fun c among => by
      obtain ⟨x, member, rfl⟩ := inodes.only c among
      rw [parent x member]
      rfl)
  have notParent : ∀ a ∈ t.root.leaves, a ∉ parents := by
    intro a leaf among
    obtain ⟨x, member, rfl⟩ := inodes.only a among
    exact (inner x 0 member).2 leaf
  refine ⟨g, ⟨cells3, m1.root⟩, by simp only [run2, run3, Option.bind_eq_bind, Option.bind_some],
    injective, fixes, perm, rfl, ?_, fun x outside => ?_⟩
  · rintro ⟨x, h⟩ member
    simp only
    rcases h with _ | _ | h
    · have leaf := holds.leaf_iff.mpr member
      obtain ⟨elements, previous, next, here1, here, first, second⟩ := siblings x leaf
      rw [stays _ (onLeaves x leaf), other3 _ (notParent _ (onLeaves x leaf)), each2 x leaf, here1,
        here]
      exact Cell.rename_leaf_congr (fun c same => (stays _ (onLeaves c (first c same))).symm)
        fun c same => (stays _ (onLeaves c (second c same))).symm
    · obtain ⟨keys, children, here⟩ := (cell_of_mem holds.tree member).2 Nat.one_ne_zero
      have same := each3 _ (inodes.parent x member).2
      rw [parent x member] at same
      rw [(inner x 0 member).1, ← Option.some.inj same, here]
      exact Cell.rename_inner_congr fun c child => (stays _ (onLeaves c
        (holds.leaf_iff.mpr (children_mem member (by rw [here]; exact child))))).symm
    · obtain ⟨keys, children, here⟩ := (cell_of_mem holds.tree member).2 (Nat.succ_ne_zero _)
      have notAmong : f x ∉ parents := by
        intro among
        obtain ⟨y, memberY, same⟩ := inodes.only _ among
        have := level_unique holds.distinct (inodes.injective same ▸ memberY) member
        omega
      rw [(inner x (h + 1) member).1, other3 _ notAmong, other2 _ (inner x (h + 1) member).2,
        inodes.above x h member, here]
      exact Cell.rename_inner_congr fun c child => by
        rw [(inner c h (children_mem member (by rw [here]; exact child))).1]
  · have notLeaf : x ∉ t.root.leaves := fun leaf =>
      outside (List.mem_map_of_mem (holds.mem_addresses leaf))
    have notAmong : x ∉ parents := by
      intro among
      obtain ⟨y, member, rfl⟩ := inodes.only _ among
      obtain ⟨h, found⟩ := mem_inodesAt.mp
        (inodes.perm.subset (List.mem_map_of_mem (mem_inodesAt.mpr ⟨0, member⟩)))
      exact outside (List.mem_map_of_mem found)
    exact (other3 x notAmong).trans (other2 x notLeaf)

/-- A permutation of the inner nodes and one of the leaves. -/
theorem pandMain_renamed (p : RandomPermutation) (seed : Nat) (valid : Valid t)
    (holds : Holds m t) :
    ∃ f m', Function.Injective f ∧ pandMain p seed t.levels m = some m' ∧ m'.root = f m.root ∧
      (∀ q ∈ nodesAt m.cells t.levels m.root, m'.cells (f q.1) = (m.cells q.1).rename f) ∧
      ((inodesAt m.cells t.levels m.root).map f).Perm (inodesAt m.cells t.levels m.root) ∧
      (t.root.leaves.map f).Perm t.root.leaves ∧
      ∀ x ∉ addresses m t.levels, m'.cells x = m.cells x := by
  obtain ⟨s, visit, visited⟩ := pandDfsVisit_visited holds
  obtain ⟨f, m1, parents, run1, inodes⟩ := pandPermuteInodes_moved p seed visited valid holds
  obtain ⟨g, m', run2, leaves⟩ := pandPermuteLeaves_moved p seed visited valid holds inodes
  have onInodes : (inodesAt m.cells t.levels m.root).map (fun a => f (g a)) =
      (inodesAt m.cells t.levels m.root).map f :=
    List.map_congr_left fun a inner => by
      rw [leaves.fixes a fun leaf => holds.apart leaf inner]
  have onLeaves : t.root.leaves.map (fun a => f (g a)) = t.root.leaves.map g :=
    List.map_congr_left fun a leaf =>
      inodes.fixes _ (holds.apart (leaves.perm.subset (List.mem_map_of_mem leaf)))
  have root : g m.root = m.root := by
    by_cases leaf : m.root ∈ t.root.leaves
    · -- the root is the only node
      have bottom := level_unique holds.distinct (mem_nodesAt_self m.cells t.levels m.root)
        (holds.leaf_iff.mp leaf)
      have only := leaves.perm.subset (List.mem_map_of_mem leaf)
      have member := holds.leaf_iff.mp only
      rw [bottom] at member
      exact congrArg Prod.fst (List.mem_singleton.mp member)
    · exact leaves.fixes _ leaf
  refine ⟨fun a => f (g a), m', inodes.injective.comp leaves.injective, ?_, ?_, leaves.each, ?_,
    ?_, fun x outside => ?_⟩
  · rw [pandMain, visit, Option.bind_eq_bind, Option.bind_some, run1, Option.bind_eq_bind,
      Option.bind_some]
    exact run2
  · rw [leaves.root, inodes.root]
    exact congrArg f root.symm
  · rw [onInodes]
    exact inodes.perm
  · rw [onLeaves]
    exact leaves.perm
  · rw [leaves.other x outside, inodes.other]
    intro inner
    obtain ⟨h, member⟩ := mem_inodesAt.mp inner
    exact outside (List.mem_map_of_mem member)

/-- **Permuting the nodes.** In both variants the memory holds, after `permute`, the same tree
with its leaves at other addresses: it is valid, and its nodes are the same in the same order.
The nodes occupy the addresses that they did, in the second variant the inner nodes those of
inner nodes and the leaves those of leaves. -/
theorem permute_renamed (p : RandomPermutation) (common : Bool) (seed : Nat) (valid : Valid t)
    (holds : Holds m t) :
    ∃ f heap m', Function.Injective f ∧ permute p common seed t.levels m = some m' ∧
      Holds m' (t.renamed f heap) ∧ Valid (t.renamed f heap) ∧ MultimapState (t.renamed f heap) ∧
      (addresses m' t.levels).Perm (addresses m t.levels) ∧
      (common = false →
        (inodesAt m'.cells t.levels m'.root).Perm (inodesAt m.cells t.levels m.root) ∧
          (t.renamed f heap).root.leaves.Perm t.root.leaves) ∧
      ∀ x ∉ addresses m t.levels, m'.cells x = m.cells x := by
  cases common with
  | true =>
      obtain ⟨f, ⟨cells', root'⟩, injective, run, root, each, perm, other⟩ :=
        pannMain_renamed p seed valid holds
      obtain rfl : root' = f m.root := root
      obtain ⟨heap, holds', valid'⟩ := holds.renamed valid injective each
      refine ⟨f, heap, _, injective, run, holds', valid', valid'.state, ?_, (fun no => by cases no),
        other⟩
      rw [addresses, (read_rename holds.tree each).2, List.map_map]
      rw [addresses, List.map_map] at perm
      exact perm
  | false =>
      obtain ⟨f, ⟨cells', root'⟩, injective, run, root, each, inodes, leaves, other⟩ :=
        pandMain_renamed p seed valid holds
      obtain rfl : root' = f m.root := root
      obtain ⟨heap, holds', valid'⟩ := holds.renamed valid injective each
      have nodes := (read_rename holds.tree each).2
      have inodes' : (inodesAt cells' t.levels (f m.root)).Perm
          (inodesAt m.cells t.levels m.root) := by
        refine List.Perm.trans (.of_eq ?_) inodes
        rw [inodesAt, nodes, inodesAt, List.filter_map, List.map_map, List.map_map]
        rfl
      have leaves' : (t.renamed f heap).root.leaves.Perm t.root.leaves := by
        simp only [ABTree.renamed, rename_leaves]
        exact leaves
      refine ⟨f, heap, _, injective, run, holds', valid', valid'.state, ?_,
        (fun _ => ⟨inodes', leaves'⟩), other⟩
      exact (holds'.addresses_perm.symm.trans (inodes'.append leaves')).trans holds.addresses_perm

end Main

/-! ## Three leaves in memory -/

/-- The permutation that reverses the order. -/
def reversing : RandomPermutation where
  rawKey size _ i := size - 1 - i
  permutes size _ := ⟨fun i _ => by omega, fun i _ j _ same => by omega⟩

/-- The three leaves and their parent. -/
def threeNodes : Memory where
  cells
    | 0 => .leaf [(1, 10), (3, 30)] none (some 2)
    | 1 => .leaf [(3, 33), (7, 70)] (some 2) none
    | 2 => .leaf [(3, 31), (3, 32)] (some 0) (some 1)
    | _ => .inner [3, 3] [0, 2, 1]
  root := 3

theorem permute_renamed_threeNodes :
    (∃ m' f heap, permute reversing true 5 1 threeNodes = some m' ∧
        Holds m' (threeLeaves.renamed f heap)) ∧
      ∃ m' f heap, permute reversing false 5 1 threeNodes = some m' ∧
        Holds m' (threeLeaves.renamed f heap) := by
  have valid : Valid threeLeaves := by
    refine ⟨by decide, (by unfold RootSize; decide), by unfold SortedPairs; decide,
      ⟨⟨by decide, ?_⟩, by decide⟩, rfl⟩
    exact ⟨rfl, rfl, rfl, rfl, rfl, rfl, trivial⟩
  have holds : Holds threeNodes threeLeaves := by
    refine ⟨rfl, fun a leaf => ?_, by decide⟩
    have one : a = 0 ∨ a = 2 ∨ a = 1 := by
      change a ∈ [0, 2, 1] at leaf
      simpa using leaf
    rcases one with rfl | rfl | rfl <;> exact ⟨_, rfl⟩
  obtain ⟨f, heap, m', -, run, holds', -⟩ := permute_renamed reversing true 5 valid holds
  obtain ⟨g, heap', m'', -, run', holds'', -⟩ := permute_renamed reversing false 5 valid holds
  exact ⟨⟨m', f, heap, run, holds'⟩, m'', g, heap', run', holds''⟩

end Rma.ABTree
