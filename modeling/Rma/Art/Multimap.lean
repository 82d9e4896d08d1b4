import Rma.Art.Remove
import Rma.Base.Runs

/-!
# The leaves over a radix tree are a sorted multimap

`MultimapState` is what is promised of a tree, read off its memory and off the calls
made to the index. `art_run_multimap` proves it in every run of regular operations from
the empty tree.

`Regular` excludes the operations that give the index two entries with the same key,
or leave a leaf empty: a leaf is split, or its border moved, inside a run of equal keys
that begins at a leaf; or a leaf of several loses its only element.
-/

namespace Rma

namespace Art

open Base OrderedIndex

variable {τ : Type} (tree : OrderedIndex Bytes Nat τ)

/-- The operations that change the tree. -/
inductive Op where
  | insert (key value : Int)
  | remove (key : Int)
  deriving DecidableEq, Repr

/-- The tree after an operation. -/
def perform (t : Art τ) : Op → Art τ
  | .insert key value => t.insert tree key value
  | .remove key => (t.remove tree key).1

/-- The key is not negative, and the operation keeps the minima of the leaves apart. -/
def Regular (t : Art τ) : Op → Prop
  | .insert key _ => IsKey key ∧ InsertRegular tree t key
  | .remove key => IsKey key ∧ RemoveRegular tree t key

instance (t : Art τ) : (op : Op) → Decidable (Regular tree t op)
  | .insert key _ => inferInstanceAs (Decidable (IsKey key ∧ InsertRegular tree t key))
  | .remove key => inferInstanceAs (Decidable (IsKey key ∧ RemoveRegular tree t key))

/-- A regular operation. -/
def step (t : Art τ) (op : Op) : Option (Art τ) :=
  if Regular tree t op then some (t.perform tree op) else none

/-- The leaves, read along `next`. -/
def chain (t : Art τ) : List Nat := t.links.walk t.fresh (some t.first)

/-- The pairs, read along `next`. -/
def stored (t : Art τ) : List (Int × Int) := t.chain.flatMap fun a => (t.leaves a).elements

/-- The pairs stored in the tree. -/
def contents (t : Art τ) : Multiset (Int × Int) := t.stored

/-- What an operation does to a sorted multimap: `insert` adds a pair, `remove` takes
out one pair with the key and returns its value, and returns -1 when there is none. -/
def MultimapStep (t : Art τ) : Op → Prop
  | .insert key value => (t.insert tree key value).contents = (key, value) ::ₘ t.contents
  | .remove key =>
    (∃ v, (key, v) ∈ t.contents ∧ (t.remove tree key).2 = v ∧
        (t.remove tree key).1.contents = t.contents.erase (key, v)) ∨
      (∀ v, (key, v) ∉ t.contents) ∧ (t.remove tree key).2 = -1 ∧
        (t.remove tree key).1.contents = t.contents

/-- What is promised of a tree. -/
structure MultimapState (t : Art τ) : Prop where
  /-- Every insertion in the index was of a new key, and every removal of an entry. -/
  calls : Proper t.calls
  index : t.index = tree.after t.calls
  /-- The index has one entry for each leaf that is not empty, under its first key. -/
  entries : ∀ k a, entries t.calls k = some a ↔
    a ∈ t.chain ∧ (t.leaves a).elements ≠ [] ∧ store (keyAt (t.leaves a).elements 0) = k
  /-- The pairs along the leaves are in order, and the chain ends after them. -/
  sorted : SortedPairs t.stored
  ends : ∀ count ≥ t.chain.length, t.links.walk count (some t.first) = t.chain
  previous : ∀ a ∈ t.chain, ∀ b ∈ t.chain,
    t.links.next a = some b ↔ t.links.previous b = some a
  sizes : ∀ a ∈ t.chain, (t.leaves a).size ≤ t.leafBlockSize
  notEmpty : t.stored ≠ [] → ∀ a ∈ t.chain, (t.leaves a).elements ≠ []
  /-- `find` returns the value of a pair with the key when there is one, and otherwise -1. -/
  found : ∀ key, IsKey key → (∃ v, (key, v) ∈ t.contents) → (key, t.find tree key) ∈ t.contents
  absent : ∀ key, IsKey key → (∀ v, (key, v) ∉ t.contents) → t.find tree key = -1
  /-- The result tells the two apart unless -1 is stored under the key. -/
  success : ∀ key, IsKey key → (key, -1) ∉ t.contents →
    (t.find tree key ≠ -1 ↔ ∃ v, (key, v) ∈ t.contents)
  size : t.sizeOf = Multiset.card t.contents
  /-- The next regular operation changes the contents as a multimap does. -/
  operation : ∀ op, Regular tree t op → MultimapStep tree t op

variable {tree} {t : Art τ} {v : List Block}

/-! ## Reading the chain -/

/-- There are no more leaves than addresses given out. -/
theorem Represents.length_le (represents : Represents t v) : v.length ≤ t.fresh := by
  have subset : v.map Prod.fst ⊆ List.range t.fresh := by
    intro a member
    rcases List.mem_map.mp member with ⟨b, inside, rfl⟩
    exact List.mem_range.mpr (represents.fresh b inside)
  have length := (represents.chain.nodup.subperm subset).length_le
  rwa [List.length_map, List.length_range] at length

theorem Represents.walk (represents : Represents t v) {count : Nat} (enough : v.length ≤ count) :
    t.links.walk count (some t.first) = v.map Prod.fst := by
  rw [← represents.first]
  exact Links.walk_segment represents.chain.linked (by rwa [List.length_map])

theorem Represents.chain_eq (represents : Represents t v) : t.chain = v.map Prod.fst :=
  represents.walk represents.length_le

theorem Represents.stored_eq (represents : Represents t v) : t.stored = pairs v := by
  rw [stored, represents.chain_eq, List.flatMap_map, pairs]
  exact List.flatMap_congr fun b member => represents.leaves b member

/-! ## The invariant -/

theorem Valid.represents (valid : Valid tree t v) : Represents t v := by
  rcases valid with filled | ⟨a, rfl, vacant⟩
  · exact filled.represents
  · exact vacant.represents

/-- A regular operation on a valid tree. -/
theorem perform_valid {op : Op} (correct : tree.Correct) (twoCells : 2 ≤ t.leafBlockSize)
    (valid : Valid tree t v) (regular : Regular tree t op) :
    (∃ v', Valid tree (t.perform tree op) v') ∧ MultimapStep tree t op := by
  have before := valid.represents.stored_eq
  cases op with
  | insert key value =>
      rcases regular with ⟨isKey, regular⟩
      rcases insert_valid correct twoCells valid isKey value regular with
        ⟨v', valid', inserted⟩
      refine ⟨⟨v', valid'⟩, ?_⟩
      have after := valid'.represents.stored_eq
      rw [MultimapStep, contents, contents, before, after]
      exact Multiset.coe_eq_coe.mpr inserted.perm
  | remove key =>
      rcases regular with ⟨isKey, regular⟩
      rcases remove_valid correct valid isKey regular with ⟨v', valid', removed⟩ | ⟨absent, same⟩
      · refine ⟨⟨v', valid'⟩, Or.inl ⟨(t.remove tree key).2, ?_, rfl, ?_⟩⟩
        · rw [contents, before]
          exact removed.mem
        · have after := valid'.represents.stored_eq
          have pairs := Multiset.coe_eq_coe.mpr removed.perm
          rw [← Multiset.cons_coe] at pairs
          rw [contents, contents, before, after, pairs, Multiset.erase_cons_head]
      · have kept : (t.remove tree key).1 = t := by rw [same]
        refine ⟨⟨v, ?_⟩, Or.inr ⟨fun value member => ?_, ?_, ?_⟩⟩
        · rw [perform, kept]
          exact valid
        · rw [contents, before] at member
          exact absent _ member rfl
        · rw [same]
        · rw [kept]

theorem init_valid (blockSize : Nat) : Valid tree (init tree blockSize) [(0, [])] := by
  refine Or.inr ⟨0, rfl, ⟨⟨List.nodup_singleton 0, rfl, rfl, trivial⟩, rfl, ?_, rfl, ?_⟩, rfl, rfl,
    Holds.nil⟩
  · intro b member
    rw [List.mem_singleton.mp member]
    exact Nat.one_pos
  · intro b member
    rw [List.mem_singleton.mp member]
    rfl

/-- The find of a valid tree. -/
theorem Valid.find (correct : tree.Correct) (valid : Valid tree t v) {key : Int}
    (isKey : IsKey key) : ((∃ e ∈ pairs v, e.1 = key) → (key, t.find tree key) ∈ pairs v) ∧
      ((∀ e ∈ pairs v, e.1 ≠ key) → t.find tree key = -1) := by
  rcases valid with filled | ⟨a, rfl, vacant⟩
  · exact find_spec correct filled isKey
  · have missing : t.indexFindLeq tree key = none := by
      rw [indexFindLeq, vacant.index]
      exact correct.find_eq_none vacant.holds fun _ member => absurd member List.not_mem_nil
    have result : t.find tree key = -1 := by simp only [Art.find, missing]
    refine ⟨?_, fun _ => result⟩
    rintro ⟨e, member, -⟩
    exact absurd member List.not_mem_nil

/-- The entries of the index. -/
theorem Valid.entries (valid : Valid tree t v) (k : Bytes) (a : Nat) :
    OrderedIndex.entries t.calls k = some a ↔
      a ∈ t.chain ∧ (t.leaves a).elements ≠ [] ∧ store (keyAt (t.leaves a).elements 0) = k := by
  rw [valid.represents.chain_eq]
  rcases valid with filled | ⟨c, rfl, vacant⟩
  · rw [filled.holds.entries, List.mem_map, List.mem_map]
    constructor
    · rintro ⟨b, member, same⟩
      cases same
      rw [filled.represents.leaves b member]
      exact ⟨⟨b, member, rfl⟩, filled.ordered.nonempty b member, rfl⟩
    · rintro ⟨⟨b, member, rfl⟩, _, rfl⟩
      rw [filled.represents.leaves b member]
      exact ⟨b, member, rfl⟩
  · rw [vacant.holds.entries]
    constructor
    · exact nofun
    · rintro ⟨member, some, _⟩
      obtain rfl : a = c := by simpa using member
      exact absurd (vacant.represents.leaves (a, []) (by simp)) some

theorem Valid.state (correct : tree.Correct) (twoCells : 2 ≤ t.leafBlockSize)
    (valid : Valid tree t v) : MultimapState tree t := by
  have represents := valid.represents
  have stored : t.contents = (pairs v : Multiset (Int × Int)) := by
    rw [contents, represents.stored_eq]
  have find := fun (key : Int) (isKey : IsKey key) => valid.find correct isKey
  have found : ∀ key, IsKey key → (∃ v, (key, v) ∈ t.contents) →
      (key, t.find tree key) ∈ t.contents := by
    rintro key isKey ⟨value, member⟩
    rw [stored] at member ⊢
    exact (find key isKey).1 ⟨(key, value), member, rfl⟩
  have absent : ∀ key, IsKey key → (∀ v, (key, v) ∉ t.contents) → t.find tree key = -1 := by
    intro key isKey none
    apply (find key isKey).2
    rintro ⟨k, value⟩ member rfl
    exact none value (by rw [stored]; exact member)
  refine ⟨?_, ?_, valid.entries, ?_, ?_, ?_, ?_, ?_, found, absent, ?_, ?_,
    fun op regular => (perform_valid correct twoCells valid regular).2⟩
  · rcases valid with filled | ⟨a, rfl, vacant⟩
    · exact filled.holds.proper
    · exact vacant.holds.proper
  · rcases valid with filled | ⟨a, rfl, vacant⟩
    · exact filled.index
    · exact vacant.index
  · rw [represents.stored_eq]
    rcases valid with filled | ⟨a, rfl, vacant⟩
    · exact filled.ordered.sorted
    · exact List.Pairwise.nil
  · intro count enough
    rw [represents.chain_eq, List.length_map] at enough
    rw [represents.walk enough, represents.chain_eq]
  · rw [represents.chain_eq]
    exact fun a memA b memB => represents.chain.previous_iff memA memB
  · rw [represents.chain_eq]
    intro a member
    rcases List.mem_map.mp member with ⟨b, inside, rfl⟩
    rw [Leaf.size, represents.leaves b inside]
    rcases valid with filled | ⟨c, rfl, vacant⟩
    · exact filled.ordered.sizes b inside
    · rw [List.mem_singleton.mp inside]
      exact Nat.zero_le _
  · rw [represents.stored_eq, represents.chain_eq]
    intro some a member
    rcases List.mem_map.mp member with ⟨b, inside, rfl⟩
    rw [represents.leaves b inside]
    rcases valid with filled | ⟨c, rfl, vacant⟩
    · exact filled.ordered.nonempty b inside
    · exact absurd rfl some
  · intro key isKey other
    constructor
    · intro success
      by_contra none
      exact success (absent key isKey fun v member => none ⟨v, member⟩)
    · intro stored same
      exact other (same ▸ found key isKey stored)
  · rw [sizeOf, stored, Multiset.coe_card]
    rcases valid with filled | ⟨c, rfl, vacant⟩
    · exact filled.cardinality
    · exact vacant.cardinality

/-! ## Runs -/

theorem insertInto_blockSize (t : Art τ) (a : Nat) (key value : Int) :
    (t.insertInto tree a key value).leafBlockSize = t.leafBlockSize := by
  simp only [insertInto]
  split_ifs <;> rfl

theorem rebalance_blockSize (t : Art τ) (a : Nat) :
    (t.rebalance tree a).leafBlockSize = t.leafBlockSize := by
  rw [rebalance]
  cases t.rebalanceBranch a (t.leaves a).size <;> rfl

theorem perform_blockSize (t : Art τ) (op : Op) :
    (t.perform tree op).leafBlockSize = t.leafBlockSize := by
  cases op with
  | insert key value =>
      simp only [perform, Art.insert]
      split_ifs
      · rfl
      · exact insertInto_blockSize _ _ key value
      · exact insertInto_blockSize _ _ key value
      · exact insertInto_blockSize t _ key value
  | remove key =>
      simp only [perform, Art.remove]
      split_ifs
      · rfl
      · rcases t.locate tree key with _ | ⟨a, i⟩
        · rfl
        · have erased := (erase_memory tree t key a i).2.2.1
          simp only
          by_cases valued : ((t.leaves a).elements.getD i default).2 ≥ 0
          · rw [if_pos valued]
            exact (rebalance_blockSize _ a).trans erased
          · rw [if_neg valued]
            exact erased

/-- The invariant holds in every run of regular operations from the empty tree. -/
theorem run_valid {leafBlockSize : Nat} {ops : List Op} (correct : tree.Correct)
    (twoCells : 2 ≤ leafBlockSize)
    (run : runFrom (step tree) (init tree leafBlockSize) ops = some t) :
    t.leafBlockSize = leafBlockSize ∧ ∃ v, Valid tree t v := by
  apply runFrom_invariant (P := fun t => t.leafBlockSize = leafBlockSize ∧ ∃ v, Valid tree t v) _
    ⟨rfl, _, init_valid leafBlockSize⟩ run
  rintro s op s' ⟨blockSize, v, valid⟩ stepped
  rw [step] at stepped
  split_ifs at stepped with regular
  cases stepped
  exact ⟨(perform_blockSize s op).trans blockSize,
    (perform_valid correct (blockSize ▸ twoCells) valid regular).1⟩

/-- In every run of regular operations from the empty tree, the tree is a sorted multimap. -/
theorem art_run_multimap {leafBlockSize : Nat} {ops : List Op} (correct : tree.Correct)
    (twoCells : 2 ≤ leafBlockSize)
    (run : runFrom (step tree) (init tree leafBlockSize) ops = some t) :
    t.leafBlockSize = leafBlockSize ∧ MultimapState tree t := by
  rcases run_valid correct twoCells run with ⟨blockSize, v, valid⟩
  exact ⟨blockSize, valid.state correct (blockSize ▸ twoCells)⟩

/-- The operations on a tree whose index is a list of entries. -/
abbrev listIndex : OrderedIndex Bytes Nat (List (Bytes × Nat)) := assoc Bytes Nat

/-- A run with duplicates over several leaves, and removals that share and merge them. -/
theorem art_run_multimap_twelve : ∃ t, runFrom (step listIndex) (init listIndex 4)
      ((List.range 12).map (fun i => Op.insert (i / 2) i) ++
        [.insert 3 (-1), .remove 3, .remove 3, .remove 0, .remove 0, .remove 9, .remove 1]) =
      some t ∧ MultimapState listIndex t := by
  have defined : (runFrom (step listIndex) (init listIndex 4)
      ((List.range 12).map (fun i => Op.insert (i / 2) i) ++
        [.insert 3 (-1), .remove 3, .remove 3, .remove 0, .remove 0, .remove 9, .remove 1])).isSome =
      true := by
    decide +kernel
  rcases Option.isSome_iff_exists.mp defined with ⟨t, run⟩
  exact ⟨t, run, (art_run_multimap assoc_correct (by decide) run).2⟩

/-- With leaves of two elements: after three equal keys two leaves have the same first key;
and a leaf that loses its only element is filled again, and not put back in the index. -/
theorem art_multimapState_fails :
    ¬MultimapState listIndex ([.insert 5 1, .insert 5 2, .insert 5 3].foldl (perform listIndex)
        (init listIndex 2)) ∧
      ¬MultimapState listIndex ([.insert 1 1, .insert 2 2, .insert 3 3, .remove 1].foldl
        (perform listIndex) (init listIndex 2)) := by
  constructor
  · intro state
    exact absurd state.calls (by decide +kernel)
  · intro state
    exact absurd (state.found 2 (by decide) ⟨2, by decide +kernel⟩) (by decide +kernel)

end Art

end Rma
