import Rma.ABTree.Insert
import Rma.ABTree.Remove
import Rma.ABTree.Find
import Rma.Base.Runs

/-!
# An (a,b)-tree is a sorted multimap

`Valid` is the invariant of the tree. `insert_valid` and `remove_valid` say what
one operation does to a valid tree, and `multimap` is the result over whole runs
from the empty tree.

Two things are excluded by `Regular`: an insertion that splits a node into halves
one of which is too small, and the removal of a negative value, which the tree
takes for a key that is not there.
-/

namespace Rma

namespace ABTree

open Base Node

/-- The root is exempt from the lower bound. -/
def RootSize (b : Bounds) {level : Nat} (n : Node level) : Prop :=
  if level = 0 then n.size ≤ b.leafB else 2 ≤ n.size ∧ n.size ≤ b.intnodeB

/-- The invariant of the tree. -/
structure Valid (t : ABTree) : Prop where
  good : Good t.bounds t.root
  size : RootSize t.bounds t.root
  sorted : SortedPairs t.root.elements
  linked : t.heap.Linked t.root.leaves
  cardinality : t.heap.cardinality = t.root.elements.length

theorem empty_valid (b : Bounds) : Valid (empty b) := by
  refine ⟨trivial, ?_, List.Pairwise.nil, ⟨⟨List.nodup_singleton 0, rfl, rfl, trivial⟩, ?_⟩, rfl⟩
  · exact Nat.zero_le _
  · intro a member
    rw [List.mem_singleton.mp member]
    exact Nat.one_pos

section Insert

variable {b : Bounds} {level level' : Nat} {key value : Int} {heap heap' : Heap}

/-- The tree after an insertion, from what the insertion did to the nodes. -/
theorem InsertedNode.valid {n : Node level} {m m' : Node level'}
    (valid : Valid ⟨b, level, n, heap⟩) (elements : m.elements = n.elements)
    (leaves : m.leaves = n.leaves) (inserted : InsertedNode b m key value m' heap heap')
    (size : RootSize b m') :
    Valid ⟨b, level', m', heap'⟩ ∧ Inserted (key, value) n.elements m'.elements := by
  have pairs := inserted.inserted
  rw [elements] at pairs
  refine ⟨⟨inserted.good, size, pairs.sorted valid.sorted, ?_, ?_⟩, pairs⟩
  · have linked := inserted.linked [] []
    simp only [List.nil_append, List.append_nil, leaves] at linked
    exact linked valid.linked
  · have cardinality := valid.cardinality
    change heap'.cardinality = (m'.elements.length : Int)
    rw [inserted.cardinality, cardinality, pairs.length_eq]
    rfl

/-- A full leaf at the root can be divided before or during the insertion. -/
theorem insertNode_splitRoot {n n1 n2 : Node 0} {pivot : Int} (full : n.size = b.leafB)
    (result : splitChild n heap = ((n1, pivot, n2), heap')) (room1 : n1.size ≠ b.leafB)
    (room2 : n2.size ≠ b.leafB) :
    insertNode b (.inner [pivot] [n1, n2]) key value heap' =
      insertNode b (.inner [] [n]) key value heap := by
  have divided : split [] [n] 0 heap = (([pivot], [n1, n2]), heap') := by
    simp [split, result]
  have index : insertIndex [] ([n] : List (Node 0)).length key = 0 := rfl
  have index2 : insertIndex [pivot] ([n1, n2] : List (Node 0)).length key =
      if key > pivot then 1 else 0 := by
    simp [insertIndex, scanUp]
  simp only [insertNode, index, index2, List.getD_cons_zero, full, and_self, if_true, divided]
  by_cases right : key > pivot
  · simp [right, room2]
  · simp [right, room1]

theorem insert_eq {t t1 t2 : ABTree}
    (first : (if t.levels = 0 ∧ t.root.size = t.bounds.leafB then t.splitRoot else t) = t1)
    (second : t1.insertRoot key value = t2) : t.insert key value =
      if t2.levels > 0 ∧ t2.root.size > t2.bounds.intnodeB then t2.splitRoot else t2 := by
  subst first second
  rfl

/-- A full leaf at the root is divided. -/
theorem insert_fullRoot {n : Node 0} (valid : Valid ⟨b, 0, n, heap⟩) (full : n.size = b.leafB)
    (admissible : InsertAdmissible b n key) :
    ABTree.insert ⟨b, 0, n, heap⟩ key value =
        ⟨b, 1, (insertNode b (.inner [] [n]) key value heap).1,
          (insertNode b (.inner [] [n]) key value heap).2⟩ ∧
      InsertedNode b (.inner [] [n]) key value (insertNode b (.inner [] [n]) key value heap).1 heap
        (insertNode b (.inner [] [n]) key value heap).2 ∧
      (insertNode b (.inner [] [n]) key value heap).1.size = 2 := by
  have leafA := b.leaf_a
  have leafB := b.leaf_b
  have intA := b.intnode_a
  have intB := b.intnode_b
  have fits : ∀ d ∈ [n], Fits b d := by
    intro d member
    rw [List.mem_singleton.mp member]
    exact ⟨trivial, by rw [full, Bounds.lower_zero]; omega, full.le⟩
  have inserted : InsertedNode b (.inner [] [n]) key value
      (insertNode b (.inner [] [n]) key value heap).1 heap
      (insertNode b (.inner [] [n]) key value heap).2 ∧
      (insertNode b (.inner [] [n]) key value heap).1.size = 2 :=
    insert_fullLeaf (rfl : [n] = [] ++ n :: []) fits rfl (fun h => absurd rfl h) valid.sorted
      (fun x h => nomatch h) (fun x h => nomatch h) full (admissible full).1
  refine ⟨?_, inserted⟩
  rcases result : splitChild n heap with ⟨⟨n1, pivot, n2⟩, heap1⟩
  have size : n.size = b.leafB := full
  have halves : Halves b n n1 pivot n2 heap heap1 := splitChild_spec valid.good (by
    rw [size]
    omega) result
  have size1 := halves.size1
  have size2 := halves.size2
  simp only [leftHalf, if_true, full] at size1 size2
  have divided : splitRoot ⟨b, 0, n, heap⟩ = ⟨b, 1, .inner [pivot] [n1, n2], heap1⟩ := by
    simp [splitRoot, split, result]
  have same : insertNode b (.inner [pivot] [n1, n2]) key value heap1 =
      insertNode b (.inner [] [n]) key value heap :=
    insertNode_splitRoot full result (by omega) (by omega)
  have small : ¬((insertNode b (.inner [] [n]) key value heap).1.size > b.intnodeB) := by
    rw [inserted.2]
    omega
  have condition : (0 = 0 ∧ n.size = b.leafB) := ⟨rfl, full⟩
  have second : insertRoot ⟨b, 1, .inner [pivot] [n1, n2], heap1⟩ key value =
      ⟨b, 1, (insertNode b (.inner [] [n]) key value heap).1,
        (insertNode b (.inner [] [n]) key value heap).2⟩ := by
    rw [insertRoot, same]
  rw [insert_eq ((if_pos condition).trans divided) second]
  exact if_neg fun overflow => small overflow.2

/-- A full inner root is divided after it has grown. -/
theorem insert_overflowRoot {n n' : Node (level + 1)} (valid : Valid ⟨b, level + 1, n, heap⟩)
    (admissible : InsertAdmissible b n key) (inserted : InsertedNode b n key value n' heap heap')
    (overflow : n'.size > b.intnodeB) :
    Valid (splitRoot ⟨b, level + 1, n', heap'⟩) ∧
      Inserted (key, value) n.elements (splitRoot ⟨b, level + 1, n', heap'⟩).root.elements := by
  have intA := b.intnode_a
  have intB := b.intnode_b
  have size : 2 ≤ n.size ∧ n.size ≤ b.intnodeB := valid.size
  have grown := inserted.size_le
  rcases result : splitChild n' heap' with ⟨⟨n1, pivot, n2⟩, heap2⟩
  have halves := splitChild_spec inserted.good (by omega) result
  have divided : splitRoot ⟨b, level + 1, n', heap'⟩ =
      ⟨b, level + 2, .inner (separators minKey [n1, n2]) [n1, n2], heap2⟩ := by
    simp [splitRoot, split, result, halves.pivot_eq, separators]
  have fits : ∀ d ∈ [] ++ [n], Fits b d := by
    intro d member
    rw [List.mem_singleton.mp member]
    exact ⟨valid.good, by rw [Bounds.lower_succ]; omega, size.2⟩
  have final : InsertedNode b (.inner [] [n]) key value
      (.inner (separators minKey [n1, n2]) [n1, n2]) heap heap2 :=
    @InsertedNode.split b level key value heap heap2 [] [] n n' n1 n2 pivot heap' rfl fits inserted
      (fun h => absurd rfl h) (fun x h => absurd h List.not_mem_nil)
      (fun x h => absurd h List.not_mem_nil) (by omega) overflow
      admissible halves
  rw [divided]
  apply InsertedNode.valid valid _ _ final
  · exact ⟨le_rfl, by change 2 ≤ b.intnodeB; omega⟩
  · simp [elements_inner]
  · simp [leaves_inner]

/-- Insertion in a valid tree. -/
theorem insert_valid {t : ABTree} (valid : Valid t)
    (admissible : InsertAdmissible t.bounds t.root key) :
    Valid (t.insert key value) ∧
      Inserted (key, value) t.root.elements (t.insert key value).root.elements := by
  rcases t with ⟨b, level, root, heap⟩
  have leafB := b.leaf_b
  have intA := b.intnode_a
  have intB := b.intnode_b
  by_cases full : level = 0 ∧ root.size = b.leafB
  · rcases full with ⟨rfl, full⟩
    have ⟨eq, inserted, size⟩ := @insert_fullRoot b key value heap root valid full admissible
    rw [eq]
    apply InsertedNode.valid valid _ _ inserted
    · refine (if_neg Nat.one_ne_zero).mpr ⟨size.ge, ?_⟩
      omega
    · simp [elements_inner]
    · simp [leaves_inner]
  · have size := valid.size
    have nonempty : 0 < level → 0 < root.size := by
      intro above
      have bounds : 2 ≤ root.size ∧ root.size ≤ b.intnodeB := by
        have size := valid.size
        rwa [RootSize, if_neg (Nat.ne_of_gt above)] at size
      omega
    have inserted : InsertedNode b root key value (insertNode b root key value heap).1 heap
        (insertNode b root key value heap).2 :=
      insertNode_spec valid.good valid.sorted nonempty admissible
    rcases result : insertNode b root key value heap with ⟨root', heap'⟩
    rw [result] at inserted
    have second : insertRoot ⟨b, level, root, heap⟩ key value = ⟨b, level, root', heap'⟩ := by
      rw [insertRoot, result]
    rw [insert_eq (if_neg full) second]
    by_cases overflow : level > 0 ∧ root'.size > b.intnodeB
    · rw [if_pos overflow]
      cases level with
      | zero => exact absurd overflow.1 (lt_irrefl 0)
      | succ level => exact insert_overflowRoot valid admissible inserted overflow.2
    · rw [if_neg overflow]
      apply InsertedNode.valid valid rfl rfl inserted
      have size := valid.size
      cases level with
      | zero =>
          have room : root.size ≤ b.leafB := size
          have grown : root'.size = root.size + 1 := inserted.leaf_size rfl
          have notFull : root.size ≠ b.leafB := fun h => full ⟨rfl, h⟩
          change root'.size ≤ b.leafB
          omega
      | succ level =>
          have several : 2 ≤ root.size := size.1
          have grown : root.size ≤ root'.size := inserted.le_size
          refine ⟨several.trans grown, ?_⟩
          by_contra more
          exact overflow ⟨Nat.succ_pos level, not_le.mp more⟩

end Insert

section Remove

variable {b : Bounds} {level level' : Nat} {key : Int} {heap heap' : Heap}

theorem remove_eq {n : Node level} {r : Removed level}
    (result : removeNode b n key false true heap = (r, heap')) :
    ABTree.remove ⟨b, level, n, heap⟩ key =
      if r.value ≥ 0 then
        (if r.node.size = 1 ∧ level > 0 then
          shorten ⟨b, level, r.node, { heap' with cardinality := heap'.cardinality - 1 }⟩
        else ⟨b, level, r.node, { heap' with cardinality := heap'.cardinality - 1 }⟩, r.value)
      else (⟨b, level, r.node, heap'⟩, r.value) := by
  rw [ABTree.remove]
  simp only [result]

/-- The only child of a root is a root. -/
theorem shorten_valid {n : Node (level + 1)} (good : Good b n) (single : n.size = 1)
    (sorted : SortedPairs n.elements) (linked : heap.Linked n.leaves)
    (cardinality : heap.cardinality = n.elements.length) :
    Valid (shorten ⟨b, level + 1, n, heap⟩) ∧
      (shorten ⟨b, level + 1, n, heap⟩).root.elements = n.elements := by
  cases n using Node.inner_cases with
  | inner keys children =>
      obtain ⟨c, rfl⟩ := List.length_eq_one_iff.mp single
      have fits : Fits b c := (good_inner.mp good).2 c (by simp)
      have same : (Node.inner keys [c]).elements = c.elements := by
        rw [elements_inner, List.flatMap_singleton]
      have sameLeaves : (Node.inner keys [c]).leaves = c.leaves := by
        rw [leaves_inner, List.flatMap_singleton]
      rw [same] at sorted cardinality
      rw [sameLeaves] at linked
      refine ⟨⟨fits.1, ?_, sorted, linked, cardinality⟩, same.symm⟩
      have lower := b.two_le_lower level
      have size := fits.2
      cases level with
      | zero => exact size.2
      | succ level => exact ⟨lower.trans size.1, size.2⟩

/-- Removal from a valid tree, when the pair that is taken out has no negative value. -/
theorem remove_valid {t : ABTree} (valid : Valid t)
    (regular : ∀ e ∈ removedPair t.root key false, 0 ≤ e.2) :
    Valid (t.remove key).1 ∧
      (Base.Removed key (t.remove key).2 t.root.elements (t.remove key).1.root.elements ∨
        (∀ e ∈ t.root.elements, e.1 ≠ key) ∧ t.remove key = (t, -1)) := by
  rcases t with ⟨b, level, n, heap⟩
  have several : 0 < level → 2 ≤ n.size := by
    intro above
    have size := valid.size
    rw [RootSize, if_neg (Nat.ne_of_gt above)] at size
    exact size.1
  have removed : RemovedNode b n key false (removeNode b n key false true heap).1 heap
      (removeNode b n key false true heap).2 :=
    removeNode_spec valid.good valid.sorted several fun h => absurd h Bool.false_ne_true
  rcases result : removeNode b n key false true heap with ⟨r, heap'⟩
  rw [result] at removed
  rw [remove_eq result]
  rcases pair : removedPair n key false with _ | e
  · rcases removed.absent pair with ⟨same, sameHeap, value, none⟩
    simp only at same sameHeap value
    rw [value, same, sameHeap, if_neg (by decide)]
    exact ⟨valid, Or.inr ⟨none, rfl⟩⟩
  · rcases removed.found e pair with ⟨taken, value⟩
    simp only at taken value
    have positive : r.value ≥ 0 := value ▸ regular e pair
    have sorted := taken.sorted valid.sorted
    have linked : heap'.Linked r.node.leaves := by
      simpa using removed.linked [] [] (by simpa using valid.linked)
    have cardinality : heap'.cardinality - 1 = r.node.elements.length := by
      have before : heap.cardinality = n.elements.length := valid.cardinality
      rw [removed.cardinality, before, taken.length_eq]
      push_cast
      ring
    rw [if_pos positive]
    by_cases single : r.node.size = 1 ∧ level > 0
    · rw [if_pos single]
      cases level with
      | zero => exact absurd single.2 (lt_irrefl 0)
      | succ level =>
          have chained : Heap.Linked { heap' with cardinality := heap'.cardinality - 1 }
              r.node.leaves := ⟨linked.chain, linked.fresh⟩
          rcases shorten_valid removed.good single.1 sorted chained cardinality with
            ⟨short, elements⟩
          refine ⟨short, Or.inl ?_⟩
          rw [elements, value]
          exact taken
    · rw [if_neg single]
      refine ⟨⟨removed.good, ?_, sorted, ⟨linked.chain, linked.fresh⟩, cardinality⟩, Or.inl ?_⟩
      · have sizeLe := removed.size_le
        have leSize := removed.le_size
        have size := valid.size
        cases level with
        | zero => exact sizeLe.trans size
        | succ level =>
            have bounds : 2 ≤ n.size ∧ n.size ≤ b.intnodeB := size
            have other : r.node.size ≠ 1 := fun h => single ⟨h, Nat.succ_pos level⟩
            have lower : 2 ≤ r.node.size := by
              simp only at leSize
              omega
            exact ⟨lower, sizeLe.trans bounds.2⟩
      · rw [value]
        exact taken

end Remove

/-! ## Runs -/

/-- The operations that change the tree. -/
inductive Op where
  | insert (key value : Int)
  | remove (key : Int)
  deriving DecidableEq, Repr

/-- The tree after an operation. -/
def perform (t : ABTree) : Op → ABTree
  | .insert key value => t.insert key value
  | .remove key => (t.remove key).1

/-- The operation does not split a node into halves one of which is too small, and
does not remove a negative value. -/
def Regular (t : ABTree) : Op → Prop
  | .insert key _ => InsertAdmissible t.bounds t.root key
  | .remove key => ∀ e ∈ removedPair t.root key false, 0 ≤ e.2

instance (t : ABTree) : (op : Op) → Decidable (Regular t op)
  | .insert key _ => inferInstanceAs (Decidable (InsertAdmissible t.bounds t.root key))
  | .remove key => inferInstanceAs (Decidable (∀ e ∈ removedPair t.root key false, 0 ≤ e.2))

/-- A regular operation. -/
def step (t : ABTree) (op : Op) : Option ABTree :=
  if Regular t op then some (t.perform op) else none

/-- The pairs stored in the tree. -/
def contents (t : ABTree) : Multiset (Int × Int) := t.root.elements

/-- What an operation does to a sorted multimap: `insert` adds a pair, `remove` takes
out one pair with the key and returns its value, and returns -1 when there is none. -/
def MultimapStep (t : ABTree) : Op → Prop
  | .insert key value => (t.insert key value).contents = (key, value) ::ₘ t.contents
  | .remove key =>
    (∃ v, (key, v) ∈ t.contents ∧ (t.remove key).2 = v ∧
        (t.remove key).1.contents = t.contents.erase (key, v)) ∨
      (∀ v, (key, v) ∉ t.contents) ∧ (t.remove key).2 = -1 ∧
        (t.remove key).1.contents = t.contents

/-- A regular operation on a valid tree. -/
theorem perform_valid {t : ABTree} {op : Op} (valid : Valid t) (regular : Regular t op) :
    Valid (t.perform op) ∧ MultimapStep t op := by
  cases op with
  | insert key value =>
      have ⟨after, inserted⟩ := @insert_valid key value t valid regular
      exact ⟨after, Multiset.coe_eq_coe.mpr inserted.perm⟩
  | remove key =>
      rcases remove_valid valid regular with ⟨after, removed | ⟨none, same⟩⟩
      · refine ⟨after, Or.inl ⟨(t.remove key).2, removed.mem, rfl, ?_⟩⟩
        have pairs : t.contents = (key, (t.remove key).2) ::ₘ (t.remove key).1.contents :=
          Multiset.coe_eq_coe.mpr removed.perm
        rw [pairs, Multiset.erase_cons_head]
      · refine ⟨after, Or.inr ⟨fun v member => none (key, v) member rfl, ?_, ?_⟩⟩
        · rw [same]
        · rw [same]

theorem splitRoot_bounds (t : ABTree) (full : Prop) [Decidable full] :
    (if full then t.splitRoot else t).bounds = t.bounds := by
  split <;> rfl

theorem perform_bounds (t : ABTree) (op : Op) : (t.perform op).bounds = t.bounds := by
  cases op with
  | insert key value =>
      rw [perform, insert_eq rfl rfl, splitRoot_bounds]
      exact splitRoot_bounds t _
  | remove key =>
      rcases t with ⟨b, level, n, heap⟩
      rcases result : removeNode b n key false true heap with ⟨r, heap'⟩
      rw [perform, remove_eq result]
      split_ifs with _ single
      · cases level with
        | zero => exact absurd single.2 (lt_irrefl 0)
        | succ level =>
            cases node : r.node using Node.inner_cases
            rfl
      · rfl
      · rfl

/-- What is promised of a tree. -/
structure MultimapState (t : ABTree) : Prop where
  /-- Every node but the root is within its bounds, and every key of an inner node is the
  minimum of the child on its right. -/
  nodes : Good t.bounds t.root
  sorted : SortedPairs t.root.elements
  /-- Reading the leaves along `next` lists the pairs in order, and ends there. -/
  chain : ∀ count ≥ t.root.leaves.length, readChain t.root t.heap.links count = t.root.elements
  previous : ∀ a ∈ t.root.leaves, ∀ b ∈ t.root.leaves,
    t.heap.links.next a = some b ↔ t.heap.links.previous b = some a
  /-- `find` returns the value of a pair with the key when there is one, and otherwise -1. -/
  found : ∀ key, (∃ v, (key, v) ∈ t.contents) → (key, t.find key) ∈ t.contents
  absent : ∀ key, (∀ v, (key, v) ∉ t.contents) → t.find key = -1
  /-- The result tells the two apart unless -1 is stored under the key. -/
  success : ∀ key, (key, -1) ∉ t.contents → (t.find key ≠ -1 ↔ ∃ v, (key, v) ∈ t.contents)
  size : t.sizeOf = Multiset.card t.contents
  /-- The next regular operation changes the contents as a multimap does. -/
  operation : ∀ op, Regular t op → MultimapStep t op

theorem Valid.state {t : ABTree} (valid : Valid t) : MultimapState t := by
  have nonempty : 0 < t.levels → 0 < t.root.size := by
    intro above
    have size := valid.size
    rw [RootSize, if_neg (Nat.ne_of_gt above)] at size
    omega
  have find := fun key => @findNode_spec t.bounds t.levels t.root key valid.good valid.sorted nonempty
  have found : ∀ key, (∃ v, (key, v) ∈ t.contents) → (key, t.find key) ∈ t.contents := by
    rintro key ⟨v, member⟩
    exact (find key).1 ⟨(key, v), member, rfl⟩
  have absent : ∀ key, (∀ v, (key, v) ∉ t.contents) → t.find key = -1 := by
    intro key none
    apply (find key).2
    rintro ⟨k, v⟩ member rfl
    exact none v member
  refine ⟨valid.good, valid.sorted, fun count enough => readChain_eq valid.linked enough,
    fun a memA b memB => valid.linked.chain.previous_iff memA memB, found, absent, ?_,
    valid.cardinality, fun op regular => (perform_valid valid regular).2⟩
  intro key other
  constructor
  · intro success
    by_contra none
    exact success (absent key fun v member => none ⟨v, member⟩)
  · intro stored same
    exact other (same ▸ found key stored)

/-- In every run of regular operations from the empty tree, the tree is a sorted multimap. -/
theorem run_multimap {b : Bounds} {ops : List Op} {t : ABTree}
    (run : runFrom step (empty b) ops = some t) : t.bounds = b ∧ MultimapState t := by
  have both : t.bounds = b ∧ Valid t := by
    apply runFrom_invariant (P := fun t => t.bounds = b ∧ Valid t) _ ⟨rfl, empty_valid b⟩ run
    intro s op s' invariant stepped
    rw [step] at stepped
    split_ifs at stepped with regular
    cases stepped
    exact ⟨(perform_bounds s op).trans invariant.1, (perform_valid invariant.2 regular).1⟩
  exact ⟨both.1, both.2.state⟩

/-- A run with duplicates to three levels of nodes, and removals that rebalance them. -/
theorem run_multimap_twenty : ∃ t, runFrom step (empty ⟨2, 4, 2, 4, by decide, by decide,
      by decide, by decide⟩) ((List.range 20).map (fun i => Op.insert (i % 5) i) ++
        [.remove 3, .remove 3, .remove 9, .remove 0, .remove 1, .remove 4]) = some t ∧
    MultimapState t := by
  have defined : (runFrom step (empty ⟨2, 4, 2, 4, by decide, by decide, by decide, by decide⟩)
      ((List.range 20).map (fun i => Op.insert (i % 5) i) ++
        [.remove 3, .remove 3, .remove 9, .remove 0, .remove 1, .remove 4])).isSome = true := by
    decide +kernel
  rcases Option.isSome_iff_exists.mp defined with ⟨t, run⟩
  exact ⟨t, run, (run_multimap run).2⟩

/-- With leaves of 2 to 3 elements, the right half of a split keeps one; and removing a
negative value does not count. -/
theorem multimapState_fails :
    ¬MultimapState ([.insert 1 1, .insert 2 2, .insert 3 3, .insert 0 0].foldl perform
        (empty ⟨2, 3, 2, 3, by decide, by decide, by decide, by decide⟩)) ∧
      ¬MultimapState ([.insert 1 (-5), .remove 1].foldl perform
        (empty ⟨2, 3, 2, 3, by decide, by decide, by decide, by decide⟩)) :=
  ⟨fun state => absurd state.nodes (by decide +kernel),
    fun state => absurd state.size (by decide +kernel)⟩

end ABTree

end Rma
