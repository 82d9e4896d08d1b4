import Rma.ABTree.Multimap
import Rma.LeafScan

/-!
# Range scans of an (a,b)-tree

The iterator of `find(min, max)` and the aggregate `sum(min, max)`. Both descend to
the leftmost leaf that can hold `min`, move on to its sibling when the leaf ends
before `min`, and then follow the chain of the leaves. `ABTree.scans_exact` is the
result about both.

Every read of a pair goes through `readElement`, so a scan that touched a position
past the end of a leaf would be undefined.
-/

namespace Rma

open Base

namespace ABTree

open SumResult
open LeafScan (pairsFrom pairsFrom_length takeWhile_pairsFrom)

/-- The descent of the range scans, to the leaf where they start. -/
def descend : {level : Nat} → Node level → Int → Leaf
  | 0, .leaf l, _ => l
  | _ + 1, .inner keys children, min =>
    let i := scanUp (fun j => keys.getD j default < min) 0 (children.length - 1)
    descend (children.getD i default) min

/-- `leaf->N` -/
def leafSize (t : ABTree) (leaf : Nat) : Nat := (t.root.leafAt leaf).length

/-- `KEYS(leaf)[i]` and `VALUES(leaf)[i]` -/
def readElement (t : ABTree) (leaf i : Nat) : Option (Int × Int) := (t.root.leafAt leaf)[i]?

/-- `KEYS(leaf)[i]` -/
def readKey (t : ABTree) (leaf i : Nat) : Option Int := (t.readElement leaf i).map Prod.fst

/-! ## Iterator -/

/-- The fields of the iterator, apart from the tree it reads; `block` is the address
of a leaf. -/
structure Iterator where
  block : Option Nat
  pos : Nat
  max : Int
  deriving DecidableEq, Repr

/-- `create_iterator` -/
def createIterator (t : ABTree) (max : Int) (leaf : Option Nat) (pos : Nat) : Option Iterator :=
  match leaf with
  | none => some ⟨none, 0, max⟩
  | some leaf => do
    let key ← t.readKey leaf pos
    return if key > max then ⟨none, 0, max⟩ else ⟨some leaf, pos, max⟩

/-- `leaf_scan` -/
def leafScan (t : ABTree) (leaf : Nat) (min max : Int) : Option Iterator :=
  if t.leafSize leaf = 0 then some ⟨none, 0, max⟩
  else do
    let last ← t.readKey leaf (t.leafSize leaf - 1)
    if last < min then
      -- the interval starts at the sibling leaf
      match t.heap.links.next leaf with
      | none => t.createIterator max none 0
      | some sibling => do
        let first ← t.readKey sibling 0
        if first ≥ min then t.createIterator max (some sibling) 0
        else t.createIterator max none 0
    else do
      let first ← t.readKey leaf 0
      if first > max then
        -- the interval should have started before this leaf
        t.createIterator max none 0
      else
        let i ← scanUpM (fun i => (t.readKey leaf i).map (· < min)) 0 (t.leafSize leaf)
        t.createIterator max (some leaf) i

/-- `find(min, max)` -/
def findRange (t : ABTree) (min max : Int) : Option Iterator :=
  if min > max then t.createIterator max none 0
  else t.leafScan (descend t.root min).address min max

namespace Iterator

def hasNext (it : Iterator) : Bool := it.block.isSome

/-- The element under the iterator, and the iterator moved to the next one. -/
def next (t : ABTree) (it : Iterator) : Option ((Int × Int) × Iterator) :=
  match it.block with
  | none => some ((-1, -1), it)
  | some block => do
    let v ← t.readElement block it.pos
    let it := if it.pos ≥ t.leafSize block - 1 then
        { it with block := t.heap.links.next block, pos := 0 }
      else { it with pos := it.pos + 1 }
    match it.block with
    | none => return (v, it)
    | some block => do
      let key ← t.readKey block it.pos
      return (v, if key > it.max then { it with block := none } else it)

/-- Call `next`, as long as there is one, at most `count` times. -/
def drain (t : ABTree) : Nat → Iterator → Option (List (Int × Int))
  | 0, _ => some []
  | count + 1, it =>
    if it.hasNext then do
      let (element, it) ← it.next t
      let elements ← drain t count it
      return element :: elements
    else some []

end Iterator

/-! ## Sum -/

/-- Add up the pairs of a leaf from a position on, up to `max`; `count` positions are left. -/
def sumLeaf (t : ABTree) (leaf : Nat) (max : Int) : Nat → Nat → SumResult →
    Option (Nat × SumResult)
  | 0, i, result => some (i, result)
  | count + 1, i, result => do
    let (key, value) ← t.readElement leaf i
    if key ≤ max then
      sumLeaf t leaf max count (i + 1) { result with
        sumKeys := addInt64 result.sumKeys key
        sumValues := addInt64 result.sumValues value
        numElements := result.numElements + 1 }
    else some (i, result)

/-- The loop over the leaves; undefined when `fuel` runs out. -/
def sumLeaves (t : ABTree) (max : Int) : Nat → Nat → Nat → SumResult → Option SumResult
  | 0, _, _, _ => none
  | fuel + 1, leaf, i, result => do
    let (i, result) ← t.sumLeaf leaf max (t.leafSize leaf - i) i result
    let last ← if i = 0 then none else t.readKey leaf (i - 1)
    let result := { result with lastKey := last }
    if i ≥ t.leafSize leaf then
      match t.heap.links.next leaf with
      | none => return result
      | some sibling => do
        let first ← t.readKey sibling 0
        if first > max then return result else sumLeaves t max fuel sibling 0 result
    else return result

/-- The leaf where `sum` starts, none when the interval holds nothing. -/
def sumStart (t : ABTree) (leaf : Nat) (min : Int) : Option (Option Nat) := do
  let last ← t.readKey leaf (t.leafSize leaf - 1)
  if last < min then
    -- the interval starts at the sibling leaf
    match t.heap.links.next leaf with
    | none => return none
    | some sibling => do
      let first ← t.readKey sibling 0
      return if first < min then none else some sibling
  else return some leaf

/-- `sum(min, max)` -/
def sum (t : ABTree) (min max : Int) : Option SumResult :=
  if min > max ∨ t.sizeOf = 0 then some SumResult.empty
  else do
    match ← t.sumStart (descend t.root min).address min with
    | none => return SumResult.empty
    | some start => do
      let first ← t.readKey start 0
      if first > max then
        -- the interval should have started before this leaf
        return SumResult.empty
      else
        -- `while(keys[i] < min) i++;`, with no bound on the position
        let i ← scanUpM (fun i => (t.readKey start i).map (· < min)) 0 (t.leafSize start + 1)
        let key ← t.readKey start i
        t.sumLeaves max t.root.leafNodes.length start i { SumResult.empty with firstKey := key }

/-! ## Where the scans start -/

open Node

namespace Node

/-- Every inner node has a child, and its keys are the minima of its children but the first. -/
def Exact : {level : Nat} → Node level → Prop
  | 0, .leaf _ => True
  | _ + 1, .inner keys children =>
    keys = separators minKey children ∧ children ≠ [] ∧ ∀ c ∈ children, Exact c

end Node

/-- What the scans rely on; nothing is said of the size of the nodes. -/
structure Scannable (t : ABTree) : Prop where
  exact : Exact t.root
  nonempty : t.root.elements = [] ∨ ∀ l ∈ t.root.leafNodes, l.elements ≠ []
  sorted : SortedPairs t.root.elements
  chain : t.heap.links.Chain t.root.leaves
  cardinality : t.heap.cardinality = t.root.elements.length

theorem exact_inner {level : Nat} {keys : List Int} {children : List (Node level)} :
    Exact (.inner keys children) ↔
      keys = separators minKey children ∧ children ≠ [] ∧ ∀ c ∈ children, Exact c :=
  Iff.rfl

section Descend

variable {level : Nat} {n : Node level} {min : Int}

/-- The first leaf of a node without empty leaves holds its minimum. -/
theorem Node.Exact.first_leaf (exact : Exact n) (filled : ∀ l ∈ n.leafNodes, l.elements ≠ []) :
    ∃ m rest, n.leafNodes = m :: rest ∧ keyAt m.elements 0 = n.minKey := by
  have leaves : n.leafNodes ≠ [] := by
    clear filled
    induction level with
    | zero => exact List.cons_ne_nil _ _
    | succ level ih =>
        cases n using Node.inner_cases with
        | inner keys children =>
            rcases exact_inner.mp exact with ⟨_, positive, exacts⟩
            rcases List.exists_cons_of_ne_nil positive with ⟨c, rest, rfl⟩
            rw [leafNodes_inner, List.flatMap_cons]
            exact fun none => ih (exacts c (by simp)) (List.append_eq_nil_iff.mp none).1
  rcases List.exists_cons_of_ne_nil leaves with ⟨m, rest, split⟩
  obtain ⟨e, l, elements⟩ := List.exists_cons_of_ne_nil (filled m (by simp [split]))
  refine ⟨m, rest, split, ?_⟩
  rw [minKey, elements_eq, split, List.flatMap_cons, elements]
  rfl

/-- The descent ends in a leaf of the node. -/
theorem descend_mem (exact : Exact n) (min : Int) : descend n min ∈ n.leafNodes := by
  induction level with
  | zero => exact List.mem_singleton_self _
  | succ level ih =>
      cases n using Node.inner_cases with
      | inner keys children =>
          rcases exact_inner.mp exact with ⟨rfl, positive, exacts⟩
          rcases scan_children (· < min) positive with ⟨pre, c, post, rfl, index, _, _⟩
          have step : descend (.inner (separators minKey (pre ++ c :: post)) (pre ++ c :: post))
              min = descend c min := by
            simp only [descend, index, getD_focus]
          rw [step, leafNodes_inner]
          exact List.mem_flatMap.mpr ⟨c, by simp, ih (exacts c (by simp))⟩

/-- The first key of the leaf is less than `min`, unless the leaf is the first one, and
the first key of the next leaf is not. -/
theorem descend_spec (exact : Exact n) (filled : ∀ l ∈ n.leafNodes, l.elements ≠ []) (min : Int) :
    ∃ pre post, n.leafNodes = pre ++ descend n min :: post ∧
      (pre ≠ [] → keyAt (descend n min).elements 0 < min) ∧
      ∀ m rest, post = m :: rest → min ≤ keyAt m.elements 0 := by
  induction level with
  | zero => exact ⟨[], [], rfl, fun none => absurd rfl none, fun _ _ none => nomatch none⟩
  | succ level ih =>
      cases n using Node.inner_cases with
      | inner keys children =>
          rcases exact_inner.mp exact with ⟨rfl, positive, exacts⟩
          rcases scan_children (· < min) positive with
            ⟨before, c, after, rfl, index, satisfied, fails⟩
          have below : ∀ d ∈ before ++ c :: after, ∀ l ∈ d.leafNodes, l.elements ≠ [] :=
            fun d child l member => filled l (List.mem_flatMap.mpr ⟨d, child, member⟩)
          have exactC := exacts c (by simp)
          have filledC := below c (by simp)
          rcases ih exactC filledC with ⟨pre, post, leaves, first, next⟩
          have step : descend (.inner (separators minKey (before ++ c :: after))
              (before ++ c :: after)) min = descend c min := by
            simp only [descend, index, getD_focus]
          rw [step]
          refine ⟨before.flatMap leafNodes ++ pre, post ++ after.flatMap leafNodes, ?_, ?_, ?_⟩
          · rw [leafNodes_inner, List.flatMap_append, List.flatMap_cons, leaves]
            simp
          · intro notFirst
            cases pre with
            | cons m pre => exact first (List.cons_ne_nil m pre)
            | nil =>
                -- the leaf is the first one of the child
                have notFirst : before ≠ [] := by
                  rintro rfl
                  exact notFirst rfl
                rcases exactC.first_leaf filledC with ⟨m, rest, split, minimum⟩
                rw [leaves, List.nil_append, List.cons.injEq] at split
                rw [split.1, minimum]
                exact satisfied notFirst
          · intro m rest split
            cases post with
            | cons m' post =>
                cases split
                exact next _ _ rfl
            | nil =>
                -- the next leaf is the first one of the next child
                cases after with
                | nil => cases split
                | cons d after =>
                    rcases (exacts d (by simp)).first_leaf (below d (by simp)) with
                      ⟨m', rest', leaves', minimum⟩
                    rw [List.nil_append, List.flatMap_cons, leaves', List.cons_append,
                      List.cons.injEq] at split
                    rw [← split.1, minimum]
                    exact not_lt.mp (fails d after rfl)

end Descend

/-! ## The leaves as a chain -/

/-- The leaves that the scans go through. -/
def scan (t : ABTree) : LeafScan := ⟨t.root.leafAt, t.heap.links.next⟩

/-- A leaf of the chain. -/
def block (l : Leaf) : Nat × List (Int × Int) := (l.address, l.elements)

/-- The iterator of the chain. -/
def Iterator.toScan (it : Iterator) : LeafScan.Iterator := ⟨it.block, it.pos, it.max⟩

section Chain

variable {t : ABTree} {it : Iterator}

theorem flatMap_block (post : List Leaf) :
    (post.map block).flatMap Prod.snd = post.flatMap Leaf.elements := by
  rw [List.flatMap_map]
  rfl

theorem createIterator_scan (t : ABTree) (max : Int) (leaf : Option Nat) (pos : Nat) :
    (t.createIterator max leaf pos).map Iterator.toScan =
      t.scan.createIterator max leaf pos := by
  cases leaf with
  | none => rfl
  | some leaf =>
      have read : t.scan.readKey leaf pos = t.readKey leaf pos := rfl
      simp only [createIterator, LeafScan.createIterator, read]
      cases t.readKey leaf pos with
      | none => rfl
      | some key =>
          simp only [Option.bind_eq_bind, Option.bind_some, Option.pure_def, Option.map_some]
          split_ifs <;> rfl

/-- The iterator of the tree is that of the chain. -/
theorem Iterator.next_scan (t : ABTree) (it : Iterator) :
    (it.next t).map (fun r => (r.1, r.2.toScan)) = it.toScan.next t.scan := by
  obtain ⟨block, pos, max⟩ := it
  cases block with
  | none => rfl
  | some leaf =>
      have element : t.scan.readElement leaf pos = t.readElement leaf pos := rfl
      have size : t.scan.size leaf = t.leafSize leaf := rfl
      have next : t.scan.next leaf = t.heap.links.next leaf := rfl
      have key : ∀ leaf pos, t.scan.readKey leaf pos = t.readKey leaf pos := fun _ _ => rfl
      simp only [Iterator.next, LeafScan.Iterator.next, toScan, element, size, next, key]
      cases t.readElement leaf pos with
      | none => rfl
      | some v =>
          simp only [Option.bind_eq_bind, Option.bind_some]
          by_cases last : pos ≥ t.leafSize leaf - 1
          · rw [if_pos last, if_pos last]
            cases t.heap.links.next leaf with
            | none => rfl
            | some sibling =>
                simp only
                cases t.readKey sibling 0 with
                | none => rfl
                | some first =>
                    simp only [Option.bind_some, Option.pure_def, Option.map_some]
                    split_ifs <;> rfl
          · rw [if_neg last, if_neg last]
            simp only
            cases t.readKey leaf (pos + 1) with
            | none => rfl
            | some k =>
                simp only [Option.bind_some, Option.pure_def, Option.map_some]
                split_ifs <;> rfl

theorem Iterator.drain_scan (t : ABTree) (count : Nat) (it : Iterator) :
    it.drain t count = it.toScan.drain t.scan count := by
  induction count generalizing it with
  | zero => rfl
  | succ count ih =>
      rw [Iterator.drain, LeafScan.Iterator.drain, ← next_scan]
      by_cases more : it.hasNext = true
      · rw [if_pos more, if_pos (show it.toScan.hasNext = true from more)]
        cases it.next t with
        | none => rfl
        | some r =>
            simp only [Option.bind_eq_bind, Option.bind_some, Option.map_some, ih]
            rfl
      · rw [if_neg more, if_neg (show ¬it.toScan.hasNext = true from more)]

/-- The inner loop adds up the pairs of the leaf that are not greater than `max`. -/
theorem sumLeaf_eq (t : ABTree) (leaf : Nat) (max : Int) {count i : Nat} {result : SumResult}
    (left : t.leafSize leaf - i = count) :
    t.sumLeaf leaf max count i result =
      some (i + (((t.root.leafAt leaf).drop i).takeWhile fun e => e.1 ≤ max).length,
        accumulate result (((t.root.leafAt leaf).drop i).takeWhile fun e => e.1 ≤ max)) := by
  rw [leafSize] at left
  induction count generalizing i result with
  | zero =>
      rw [List.drop_eq_nil_of_le (by omega)]
      rfl
  | succ count ih =>
      have inside : i < (t.root.leafAt leaf).length := by omega
      rw [List.drop_eq_getElem_cons inside]
      simp only [sumLeaf, readElement, List.getElem?_eq_getElem inside, Option.bind_eq_bind,
        Option.bind_some]
      by_cases least : (t.root.leafAt leaf)[i].1 ≤ max
      · rw [if_pos least, ih (by omega), List.takeWhile_cons_of_pos (by simpa using least)]
        simp [accumulate, Nat.add_assoc, Nat.add_comm 1]
      · rw [if_neg least, List.takeWhile_cons_of_neg (by simpa using least)]
        rfl

/-- The loop over the leaves is that over the chain. -/
theorem sumLeaves_scan (t : ABTree) (max : Int) (fuel leaf i : Nat) (result : SumResult) :
    t.sumLeaves max fuel leaf i result = t.scan.sumLeaves max fuel leaf i result := by
  induction fuel generalizing leaf i result with
  | zero => rfl
  | succ fuel ih =>
      have size : t.scan.size leaf = t.leafSize leaf := rfl
      have key : ∀ leaf pos, t.scan.readKey leaf pos = t.readKey leaf pos := fun _ _ => rfl
      simp only [sumLeaves, LeafScan.sumLeaves, sumLeaf_eq t leaf max rfl, size, key, ih,
        Option.bind_eq_bind, Option.bind_some, Option.pure_def]
      rfl

end Chain

/-! ## Walking along the chain -/

section Walk

variable {t : ABTree} {l : Leaf} {post : List Leaf} {i : Nat} {max : Int}

theorem Scannable.leafAt (scannable : Scannable t) (here : l :: post <:+ t.root.leafNodes) :
    t.root.leafAt l.address = l.elements :=
  leafAt_eq scannable.chain.nodup (here.subset (List.mem_cons_self))

theorem Scannable.leafSize (scannable : Scannable t) (here : l :: post <:+ t.root.leafNodes) :
    t.leafSize l.address = l.elements.length := by
  rw [ABTree.leafSize, scannable.leafAt here]

theorem Scannable.readElement (scannable : Scannable t) (here : l :: post <:+ t.root.leafNodes) :
    t.readElement l.address i = l.elements[i]? := by
  rw [ABTree.readElement, scannable.leafAt here]

theorem Scannable.readKey (scannable : Scannable t) (here : l :: post <:+ t.root.leafNodes)
    (inside : i < l.elements.length) : t.readKey l.address i = some (keyAt l.elements i) := by
  rw [ABTree.readKey, scannable.readElement here, List.getElem?_eq_getElem inside,
    keyAt_eq inside, Option.map_some]

theorem Scannable.next (scannable : Scannable t) (here : l :: post <:+ t.root.leafNodes) :
    t.heap.links.next l.address = post.head?.map Leaf.address := by
  rcases here with ⟨pre, leaves⟩
  exact next_leaf scannable.chain leaves.symm

/-- The next leaf is in the chain too. -/
theorem next_suffix {m : Leaf} {rest : List Leaf} (here : l :: m :: rest <:+ t.root.leafNodes) :
    m :: rest <:+ t.root.leafNodes :=
  (List.suffix_cons l (m :: rest)).trans here

/-- The leaves from one of them on are a run of the chain. -/
theorem Scannable.run (scannable : Scannable t) (filled : ∀ l ∈ t.root.leafNodes, l.elements ≠ [])
    {leaves : List Leaf} (here : leaves <:+ t.root.leafNodes) :
    t.scan.Run (leaves.map block) := by
  induction leaves with
  | nil => trivial
  | cons l post ih =>
      refine ⟨scannable.leafAt here, filled l (here.subset List.mem_cons_self), ?_,
        ih ((List.suffix_cons l post).trans here)⟩
      refine (scannable.next here).trans ?_
      cases post <;> rfl

end Walk

/-! ## The start of the interval -/

/-- The stored pairs with a key in the interval, in order. -/
def inRange (t : ABTree) (min max : Int) : List (Int × Int) :=
  t.root.elements.filter fun e => min ≤ e.1 ∧ e.1 ≤ max

/-- The position of the first key that is not less than `min`. -/
structure Begin (t : ABTree) (min : Int) (l : Leaf) (post : List Leaf) (i : Nat) : Prop where
  here : l :: post <:+ t.root.leafNodes
  inside : i < l.elements.length
  before : ∀ j < i, keyAt l.elements j < min
  after : min ≤ keyAt l.elements i
  inRange : ∀ max, t.inRange min max =
    (pairsFrom (block l) (post.map block) i).takeWhile fun e => e.1 ≤ max

section Start

variable {t : ABTree} {min max : Int} {l : Leaf} {post : List Leaf} {i : Nat}

/-- A position divides the pairs into those less than `min` and the others. -/
theorem Scannable.inRange_eq (scannable : Scannable t) {pre : List Leaf}
    (leaves : t.root.leafNodes = pre ++ l :: post)
    (before : ∀ x ∈ pre.flatMap Leaf.elements ++ l.elements.take i, x.1 < min)
    (after : ∀ x ∈ pairsFrom (block l) (post.map block) i, min ≤ x.1) (max : Int) :
    t.inRange min max =
      (pairsFrom (block l) (post.map block) i).takeWhile fun e => e.1 ≤ max := by
  have split : t.root.elements = (pre.flatMap Leaf.elements ++ l.elements.take i) ++
      pairsFrom (block l) (post.map block) i := by
    rw [elements_eq, leaves, pairsFrom, flatMap_block, block, List.append_assoc,
      ← List.append_assoc (l.elements.take i), List.take_append_drop, List.flatMap_append,
      List.flatMap_cons]
  have sorted := scannable.sorted
  rw [split] at sorted
  rw [inRange, split]
  exact (SortedPairs.append_iff.mp sorted).2.1.filter_interval before after max

/-- Where the scans start: in the leaf of the descent, unless it ends before `min`; then at
the front of the next leaf, if there is one. -/
theorem Scannable.start (scannable : Scannable t)
    (filled : ∀ l ∈ t.root.leafNodes, l.elements ≠ []) (min : Int) :
    ∃ l post, descend t.root min = l ∧ l :: post <:+ t.root.leafNodes ∧ 0 < l.elements.length ∧
      ((keyAt l.elements (l.elements.length - 1) < min ∧
          ((post = [] ∧ ∀ max, t.inRange min max = []) ∨
            ∃ m rest, post = m :: rest ∧ Begin t min m rest 0)) ∨
        min ≤ keyAt l.elements (l.elements.length - 1) ∧ ∃ i, Begin t min l post i) := by
  rcases descend_spec scannable.exact filled min with ⟨pre, post, leaves, first, next⟩
  generalize descend t.root min = l at leaves first next ⊢
  have here : l :: post <:+ t.root.leafNodes := ⟨pre, leaves.symm⟩
  have some : 0 < l.elements.length :=
    List.length_pos_of_ne_nil (filled l (here.subset List.mem_cons_self))
  have sorted := scannable.sorted
  rw [elements_eq, leaves, List.flatMap_append, List.flatMap_cons,
    SortedPairs.append_iff, SortedPairs.append_iff] at sorted
  rcases sorted with ⟨_, ⟨sortedL, sortedPost, _⟩, apart⟩
  have below : ∀ x ∈ pre.flatMap Leaf.elements, x.1 < min := by
    intro x member
    have notFirst : pre ≠ [] := by
      rintro rfl
      cases member
    have least := apart x member l.elements[0] (by simp)
    have less := first notFirst
    rw [keyAt_eq some] at less
    exact lt_of_le_of_lt least less
  have above : ∀ x ∈ post.flatMap Leaf.elements, min ≤ x.1 := by
    intro x member
    cases post with
    | nil => cases member
    | cons m rest =>
        have someM := filled m ((next_suffix here).subset List.mem_cons_self)
        obtain ⟨e, tail, elements⟩ := List.exists_cons_of_ne_nil someM
        have least := next m rest rfl
        rw [List.flatMap_cons, elements, List.cons_append] at sortedPost member
        rw [elements] at least
        exact least.trans (sortedPost.head_le x member)
  have takeBelow : ∀ i, (∀ j < i, j < l.elements.length → keyAt l.elements j < min) →
      ∀ x ∈ pre.flatMap Leaf.elements ++ l.elements.take i, x.1 < min := by
    intro i passed x member
    rcases List.mem_append.mp member with member | member
    · exact below x member
    · rcases List.mem_take_iff_getElem.mp member with ⟨j, inside, rfl⟩
      have less := passed j (by omega) (by omega)
      rwa [keyAt_eq (by omega)] at less
  refine ⟨l, post, rfl, here, some, ?_⟩
  by_cases ends : keyAt l.elements (l.elements.length - 1) < min
  · refine .inl ⟨ends, ?_⟩
    have passed := takeBelow l.elements.length fun j _ inside =>
      lt_of_le_of_lt (keyAt_le sortedL (by omega) (by omega)) ends
    have others : pairsFrom (block l) (post.map block) l.elements.length =
        post.flatMap Leaf.elements := (pairsFrom_length le_rfl).trans (flatMap_block post)
    have range := fun max => scannable.inRange_eq leaves passed (by rwa [others]) max
    simp only [others] at range
    cases post with
    | nil => exact .inl ⟨rfl, range⟩
    | cons m rest =>
        have here' := next_suffix here
        have someM := filled m (here'.subset List.mem_cons_self)
        refine .inr ⟨m, rest, rfl, here', List.length_pos_of_ne_nil someM,
          fun j none => absurd none (Nat.not_lt_zero j), next m rest rfl, fun max => ?_⟩
        rw [range, pairsFrom, flatMap_block]
        rfl
  · have reaches := not_lt.mp ends
    refine .inr ⟨reaches, ?_⟩
    rcases scanUp_spec (fun j => decide (keyAt l.elements j < min)) 0 l.elements.length with
      ⟨_, upper, passed, stopped⟩
    generalize scanUp (fun j => decide (keyAt l.elements j < min)) 0 l.elements.length = i
      at upper passed stopped
    have inside : i < l.elements.length := by
      by_contra beyond
      have less := passed (l.elements.length - 1) (Nat.zero_le _) (by omega)
      exact ends (of_decide_eq_true less)
    have least : min ≤ keyAt l.elements i :=
      not_lt.mp (of_decide_eq_false (stopped (by omega)))
    have less : ∀ j < i, keyAt l.elements j < min :=
      fun j before => of_decide_eq_true (passed j (Nat.zero_le _) before)
    refine ⟨i, here, inside, less, least, ?_⟩
    apply scannable.inRange_eq leaves (takeBelow i fun j before _ => less j before)
    intro x member
    rw [pairsFrom, flatMap_block] at member
    simp only [block] at member
    rcases List.mem_append.mp member with member | member
    · rcases List.mem_drop_iff_getElem.mp member with ⟨j, bound, rfl⟩
      have order := keyAt_le sortedL (Nat.le_add_right i j) (by omega)
      rw [keyAt_eq (show i + j < l.elements.length by omega)] at order
      exact least.trans order
    · exact above x member

/-- The unbounded scan of a leaf finds the position. -/
theorem Begin.scan (at_ : Begin t min l post i) (scannable : Scannable t) {room : Nat}
    (enough : l.elements.length ≤ room) :
    scanUpM (fun i => (t.readKey l.address i).map (· < min)) 0 room = some i := by
  have inside := at_.inside
  have scan := scanUpM_stop (fun i => (t.readKey l.address i).map (· < min)) 0 room i
    (by omega) (fun j before => ?_) ?_
  · rwa [Nat.zero_add] at scan
  · rw [Nat.zero_add, scannable.readKey at_.here (by omega), Option.map_some,
      decide_eq_true (at_.before j before)]
  · rw [Nat.zero_add, scannable.readKey at_.here inside, Option.map_some,
      decide_eq_false (not_lt.mpr at_.after)]

/-- The interval is empty when its first key is greater than `max`. -/
theorem Begin.inRange_eq_nil (at_ : Begin t min l post i) (greater : max < keyAt l.elements i) :
    t.inRange min max = [] := by
  rw [keyAt_eq at_.inside] at greater
  rw [at_.inRange, takeWhile_pairsFrom (b := block l) at_.inside greater]

/-- The keys of a leaf do not decrease. -/
theorem Scannable.keyAt_le (scannable : Scannable t) (here : l :: post <:+ t.root.leafNodes)
    {j : Nat} (order : i ≤ j) (inside : j < l.elements.length) :
    keyAt l.elements i ≤ keyAt l.elements j := by
  rcases here with ⟨pre, leaves⟩
  have sorted := scannable.sorted
  rw [elements_eq, ← leaves, List.flatMap_append, List.flatMap_cons, SortedPairs.append_iff,
    SortedPairs.append_iff] at sorted
  exact ABTree.keyAt_le sorted.2.1.1 order inside

end Start

/-! ## Correctness of the scans -/

section Queries

variable {t : ABTree} {min max : Int} {l : Leaf} {post : List Leaf} {i : Nat}

/-- Nothing is in an interval whose ends are out of order. -/
theorem inRange_of_lt (t : ABTree) (order : max < min) : t.inRange min max = [] := by
  apply List.filter_eq_nil_iff.mpr
  intro e _ inside
  have bounds := of_decide_eq_true inside
  omega

/-- The tree of `min` is empty, or no leaf is. -/
theorem Scannable.cases (scannable : Scannable t) (min max : Int) :
    (t.sizeOf = 0 ∧ t.inRange min max = [] ∧ t.leafSize (descend t.root min).address = 0) ∨
      t.sizeOf ≠ 0 ∧ ∀ l ∈ t.root.leafNodes, l.elements ≠ [] := by
  have cardinality : t.sizeOf = t.root.elements.length := scannable.cardinality
  by_cases empty : t.root.elements = []
  · refine .inl ⟨by rw [cardinality, empty]; rfl, by rw [inRange, empty]; rfl, ?_⟩
    have member := descend_mem scannable.exact min
    rw [elements_eq, List.flatMap_eq_nil_iff] at empty
    rw [ABTree.leafSize, leafAt_eq scannable.chain.nodup member, empty _ member]
    rfl
  · refine .inr ⟨?_, scannable.nonempty.resolve_left empty⟩
    have positive := List.length_pos_of_ne_nil empty
    omega

/-- An iterator created where the interval begins yields the pairs of it. -/
theorem Begin.createIterator (at_ : Begin t min l post i) (scannable : Scannable t)
    (filled : ∀ l ∈ t.root.leafNodes, l.elements ≠ []) (max : Int) :
    ∃ it, t.createIterator max (some l.address) i = some it ∧
      ∀ count, it.drain t count = some ((t.inRange min max).take count) := by
  obtain ⟨it', created, yields⟩ := (scannable.run filled at_.here).createIterator
    (b := block l) at_.inside max
  rw [show (block l).1 = l.address from rfl, ← createIterator_scan, Option.map_eq_some_iff]
    at created
  obtain ⟨it, created, rfl⟩ := created
  refine ⟨it, created, fun count => ?_⟩
  rw [Iterator.drain_scan, yields.drain, at_.inRange]

/-- `find(min, max)` gives an iterator over the pairs in the interval. -/
theorem findRange_eq (scannable : Scannable t) (min max : Int) :
    ∃ it, t.findRange min max = some it ∧
      ∀ count, it.drain t count = some ((t.inRange min max).take count) := by
  have nothing : t.inRange min max = [] → ∀ count,
      Iterator.drain t count ⟨none, 0, max⟩ = some ((t.inRange min max).take count) := by
    intro none count
    rw [none]
    cases count <;> rfl
  rw [findRange]
  by_cases order : min > max
  · rw [if_pos order]
    exact ⟨_, rfl, nothing (inRange_of_lt t order)⟩
  · rw [if_neg order]
    rcases scannable.cases min max with ⟨_, none, size⟩ | ⟨_, filled⟩
    · rw [leafScan, if_pos size]
      exact ⟨_, rfl, nothing none⟩
    · rcases scannable.start filled min with ⟨l, post, leaf, here, some, started⟩
      rw [leaf, leafScan, scannable.leafSize here, if_neg (Nat.ne_of_gt some)]
      simp only [scannable.readKey here some, scannable.next here,
        scannable.readKey here (Nat.sub_lt some Nat.one_pos), Option.bind_eq_bind,
        Option.bind_some]
      rcases started with ⟨ends, ⟨rfl, none⟩ | ⟨m, rest, rfl, at_⟩⟩ | ⟨reaches, i, at_⟩
      · rw [if_pos ends]
        exact ⟨_, rfl, nothing (none max)⟩
      · simp only [if_pos ends, List.head?_cons, Option.map_some,
          scannable.readKey at_.here at_.inside, Option.bind_some]
        rw [if_pos at_.after]
        exact at_.createIterator scannable filled max
      · rw [if_neg (not_lt.mpr reaches)]
        by_cases greater : keyAt l.elements 0 > max
        · rw [if_pos greater]
          have order := scannable.keyAt_le here (Nat.zero_le i) at_.inside
          exact ⟨_, rfl, nothing (at_.inRange_eq_nil (lt_of_lt_of_le greater order))⟩
        · rw [if_neg greater, at_.scan scannable le_rfl]
          exact at_.createIterator scannable filled max

/-- The sum from the position where the interval begins. -/
theorem Begin.sums (at_ : Begin t min l post i) (scannable : Scannable t)
    (filled : ∀ l ∈ t.root.leafNodes, l.elements ≠ []) (least : keyAt l.elements 0 ≤ max) :
    ∃ r, t.sumLeaves max t.root.leafNodes.length l.address i
        { SumResult.empty with firstKey := keyAt l.elements i } = some r ∧
      Sums (t.inRange min max) r := by
  have enough : (post.map block).length < t.root.leafNodes.length := by
    rw [List.length_map]
    exact Nat.lt_of_lt_of_le (by rw [List.length_cons]; omega) at_.here.length_le
  rw [at_.inRange max, sumLeaves_scan, keyAt_eq at_.inside]
  refine (scannable.run filled at_.here).sums (b := block l) at_.inside (fun first => ?_) enough
  subst first
  rwa [keyAt_eq at_.inside] at least

/-- `sum(min, max)` aggregates the pairs in the interval. -/
theorem sum_eq (scannable : Scannable t) (min max : Int) :
    ∃ r, t.sum min max = some r ∧ Sums (t.inRange min max) r := by
  rw [sum]
  by_cases order : min > max
  · rw [if_pos (.inl order), inRange_of_lt t order]
    exact ⟨_, rfl, sums_empty⟩
  · rcases scannable.cases min max with ⟨none, nothing, _⟩ | ⟨some, filled⟩
    · rw [if_pos (.inr none), nothing]
      exact ⟨_, rfl, sums_empty⟩
    · rw [if_neg (by simp [order, some])]
      rcases scannable.start filled min with ⟨l, post, leaf, here, positive, started⟩
      rw [leaf, sumStart, scannable.leafSize here]
      simp only [scannable.next here, scannable.readKey here (Nat.sub_lt positive Nat.one_pos),
        Option.bind_eq_bind, Option.bind_some]
      rcases started with ⟨ends, ⟨rfl, none⟩ | ⟨m, rest, rfl, at_⟩⟩ | ⟨reaches, i, at_⟩
      · rw [if_pos ends, none max]
        exact ⟨_, rfl, sums_empty⟩
      · simp only [if_pos ends, List.head?_cons, Option.map_some,
          scannable.readKey at_.here at_.inside, Option.bind_some, Option.pure_def,
          if_neg (not_lt.mpr at_.after)]
        by_cases greater : keyAt m.elements 0 > max
        · rw [if_pos greater, at_.inRange_eq_nil greater]
          exact ⟨_, rfl, sums_empty⟩
        · rw [if_neg greater, scannable.leafSize at_.here, at_.scan scannable (by omega)]
          simp only [Option.bind_some, scannable.readKey at_.here at_.inside]
          exact at_.sums scannable filled (not_lt.mp greater)
      · simp only [if_neg (not_lt.mpr reaches), Option.bind_some, Option.pure_def,
          scannable.readKey here positive]
        by_cases greater : keyAt l.elements 0 > max
        · have order := scannable.keyAt_le here (Nat.zero_le i) at_.inside
          rw [if_pos greater, at_.inRange_eq_nil (lt_of_lt_of_le greater order)]
          exact ⟨_, rfl, sums_empty⟩
        · rw [if_neg greater, scannable.leafSize here, at_.scan scannable (by omega)]
          simp only [Option.bind_some, scannable.readKey at_.here at_.inside]
          exact at_.sums scannable filled (not_lt.mp greater)

end Queries

/-! ## The trees that the operations build -/

section Valid

variable {b : Bounds} {level : Nat} {n : Node level}

/-- A good node has exact keys. -/
theorem Node.Good.exact (good : Good b n) (size : 0 < level → 0 < n.size) : Exact n := by
  induction level with
  | zero => trivial
  | succ level ih =>
      cases n using Node.inner_cases with
      | inner keys children =>
          rcases good_inner.mp good with ⟨minima, fits⟩
          refine ⟨minima, List.ne_nil_of_length_pos (size (Nat.succ_pos level)), ?_⟩
          intro c member
          have lower := b.two_le_lower level
          have fitsC := fits c member
          exact ih fitsC.1 fun _ => by have := fitsC.2.1; omega

/-- No leaf below a node within bounds is empty. -/
theorem Node.Fits.leaves_ne_nil (fits : Fits b n) : ∀ l ∈ n.leafNodes, l.elements ≠ [] := by
  induction level with
  | zero =>
      intro l member
      cases List.mem_singleton.mp member
      exact fits.elements_ne_nil
  | succ level ih =>
      cases n using Node.inner_cases with
      | inner keys children =>
          intro l member
          rw [leafNodes_inner, List.mem_flatMap] at member
          rcases member with ⟨c, child, below⟩
          exact ih ((good_inner.mp fits.1).2 c child) l below

theorem Valid.scannable {t : ABTree} (valid : Valid t) : Scannable t := by
  have ⟨good, size, sorted, linked, cardinality⟩ := valid
  refine ⟨good.exact ?_, ?_, sorted, linked.chain, cardinality⟩
  · intro above
    rw [RootSize, if_neg (Nat.ne_of_gt above)] at size
    omega
  · rcases t with ⟨b, _ | level, root, heap⟩
    · by_cases empty : Node.elements root = []
      · exact .inl empty
      · refine .inr fun l member => ?_
        cases List.mem_singleton.mp member
        exact empty
    · refine .inr fun l member => ?_
      cases root using Node.inner_cases with
      | inner keys children =>
          rcases List.mem_flatMap.mp member with ⟨c, child, below⟩
          exact ((good_inner.mp good).2 c child).leaves_ne_nil l below

end Valid

/-- **Range scans are exact.** The iterator of `find(min, max)` yields the pairs of the
tree with a key in `[min, max]`, each once and in the order of the leaves, and then
stops; `sum(min, max)` aggregates the same pairs. Both read occupied positions only. -/
theorem scans_exact {t : ABTree} (scannable : Scannable t) (min max : Int) :
    readChain t.root t.heap.links t.root.leaves.length = t.root.elements ∧
      let expected := t.root.elements.filter fun e => min ≤ e.1 ∧ e.1 ≤ max
      (∃ it, t.findRange min max = some it ∧
        ∀ count, it.drain t count = some (expected.take count)) ∧
      ∃ r, t.sum min max = some r ∧
        r.numElements = expected.length ∧
        r.sumKeys = (expected.map Prod.fst).sum.bmod (2 ^ 64) ∧
        r.sumValues = (expected.map Prod.snd).sum.bmod (2 ^ 64) ∧
        (∀ e, expected.head? = some e → r.firstKey = e.1) ∧
        ∀ e, expected.getLast? = some e → r.lastKey = e.1 := by
  rcases sum_eq scannable min max with ⟨r, summed, sums⟩
  refine ⟨?_, findRange_eq scannable min max, r, summed, sums.numElements, sums.sumKeys,
    sums.sumValues, sums.firstKey, sums.lastKey⟩
  rw [readChain, Links.walk_segment scannable.chain.linked le_rfl,
    flatMap_leafAt scannable.chain.nodup]

/-- Three leaves, with the key 3 in all of them. -/
def threeLeaves : ABTree where
  bounds := ⟨2, 4, 2, 4, by decide, by decide, by decide, by decide⟩
  levels := 1
  root := .inner [3, 3] [.leaf ⟨0, [(1, 10), (3, 30)]⟩, .leaf ⟨2, [(3, 31), (3, 32)]⟩,
    .leaf ⟨1, [(3, 33), (7, 70)]⟩]
  heap := ⟨⟨fun a => [some 2, none, some 1].getD a none, fun a => [none, some 2, some 0].getD a none⟩,
    3, 6⟩

theorem scans_exact_threeLeaves :
    Scannable threeLeaves ∧
      (∃ it, threeLeaves.findRange 2 5 = some it ∧
        it.drain threeLeaves 9 = some [(3, 30), (3, 31), (3, 32), (3, 33)]) ∧
      ∃ r, threeLeaves.sum 2 5 = some r ∧ r.sumValues = 126 := by
  have scannable : Scannable threeLeaves := by
    refine ⟨⟨rfl, List.cons_ne_nil _ _, ?_⟩, .inr (by decide), by unfold SortedPairs; decide,
      ⟨by decide, ?_⟩, rfl⟩
    · intro c _
      trivial
    · exact ⟨rfl, rfl, rfl, rfl, rfl, rfl, trivial⟩
  rcases scans_exact scannable 2 5 with ⟨_, ⟨it, found, yields⟩, r, summed, _, _, values, _⟩
  exact ⟨scannable, ⟨it, found, yields 9⟩, r, summed, values⟩

end ABTree

end Rma
