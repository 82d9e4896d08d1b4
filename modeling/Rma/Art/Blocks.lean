import Rma.Art.Basic
import Rma.Base.Focus
import Rma.Base.Multimap

/-!
# The blocks of the tree

A `Block` is a leaf with its elements, and the tree is a list of blocks:
`Represents` reads them off the memory, `Ordered` says that their elements are
sorted and their minima strictly increase, and `Valid` adds that the index has one
entry for each of them.

`Ordered` is what keeps the calls to the index proper: two blocks with the same
minimum would be two entries with the same key.
-/

namespace Rma.Art

open Base OrderedIndex

/-- The keys the tree is used with: the non-negative ones of 64 bits. -/
def IsKey (key : Int) : Prop := 0 ≤ key ∧ key < 2 ^ 63

instance (key : Int) : Decidable (IsKey key) := inferInstanceAs (Decidable (_ ∧ _))

theorem store_val {key : Int} (isKey : IsKey key) : ((store key).val : Int) = key := by
  rcases isKey with ⟨lower, upper⟩
  rw [store]
  change ((key % 2 ^ 64).toNat : Int) = key
  rw [Int.emod_eq_of_lt lower (by omega), Int.toNat_of_nonneg lower]

/-- The bytes of the keys compare as the keys. -/
theorem store_lt {key key' : Int} (isKey : IsKey key) (isKey' : IsKey key') :
    store key < store key' ↔ key < key' := by
  rw [Fin.lt_def, ← Int.ofNat_lt, store_val isKey, store_val isKey']

theorem store_le {key key' : Int} (isKey : IsKey key) (isKey' : IsKey key') :
    store key ≤ store key' ↔ key ≤ key' := by
  rw [Fin.le_def, ← Int.ofNat_le, store_val isKey, store_val isKey']

theorem store_ne {key key' : Int} (isKey : IsKey key) (isKey' : IsKey key') (other : key ≠ key') :
    store key ≠ store key' := by
  intro same
  rw [← store_val isKey, ← store_val isKey', same] at other
  exact other rfl

/-! ## Lists of blocks -/

/-- The address of a leaf and its elements. -/
abbrev Block := Nat × List (Int × Int)

/-- The elements of the blocks. -/
def pairs (v : List Block) : List (Int × Int) := v.flatMap Prod.snd

/-- The first key of a block. -/
def minKey (b : Block) : Int := keyAt b.2 0

/-- The entry of a block in the index. -/
def entry (b : Block) : Bytes × Nat := (store (minKey b), b.1)

/-- The elements are sorted, and the minima of the blocks strictly increase. -/
structure Ordered (blockSize : Nat) (v : List Block) : Prop where
  nonempty : ∀ b ∈ v, b.2 ≠ []
  sizes : ∀ b ∈ v, b.2.length ≤ blockSize
  sorted : SortedPairs (pairs v)
  minima : (v.map minKey).Pairwise (· < ·)
  keys : ∀ e ∈ pairs v, IsKey e.1

section Lists

variable {v pre post : List Block} {b c : Block} {key : Int} {blockSize : Nat}

@[simp] theorem pairs_nil : pairs [] = [] := rfl

@[simp] theorem pairs_cons : pairs (b :: v) = b.2 ++ pairs v := rfl

@[simp] theorem pairs_append : pairs (pre ++ post) = pairs pre ++ pairs post := List.flatMap_append

theorem keyAt_eq {l : List (Int × Int)} {i : Nat} (inside : i < l.length) : keyAt l i = (l[i]).1 := by
  simp [keyAt, inside]

theorem keyAt_mem {l : List (Int × Int)} {i : Nat} (inside : i < l.length) :
    ∃ e ∈ l, e.1 = keyAt l i :=
  ⟨l[i], List.getElem_mem inside, (keyAt_eq inside).symm⟩

/-- In a sorted list a later position holds a key that is no smaller. -/
theorem keyAt_le {l : List (Int × Int)} (sorted : SortedPairs l) {i j : Nat} (order : i ≤ j)
    (inside : j < l.length) : keyAt l i ≤ keyAt l j := by
  rw [keyAt_eq inside, keyAt_eq (lt_of_le_of_lt order inside)]
  rcases Nat.eq_or_lt_of_le order with rfl | before
  · exact le_rfl
  · exact List.pairwise_iff_getElem.mp sorted i j _ inside before

theorem Ordered.mem_pairs (member : b ∈ v) {e : Int × Int} (inside : e ∈ b.2) : e ∈ pairs v :=
  List.mem_flatMap.mpr ⟨b, member, inside⟩

/-- The minimum of a block is the key of one of its elements. -/
theorem exists_min (nonempty : b.2 ≠ []) : ∃ e ∈ b.2, e.1 = minKey b :=
  keyAt_mem (List.length_pos_of_ne_nil nonempty)

theorem Ordered.isKey (ordered : Ordered blockSize v) (member : b ∈ v) : IsKey (minKey b) := by
  rcases exists_min (ordered.nonempty b member) with ⟨e, inside, same⟩
  exact same ▸ ordered.keys e (Ordered.mem_pairs member inside)

/-- The elements of a block are sorted. -/
theorem Ordered.sorted_block (ordered : Ordered blockSize (pre ++ b :: post)) :
    SortedPairs b.2 := by
  have sorted := ordered.sorted
  simp only [pairs_append, pairs_cons, SortedPairs.append_iff] at sorted
  exact sorted.2.1.1

/-- The minimum of a block is the least of its keys. -/
theorem minKey_le (sorted : SortedPairs b.2) {e : Int × Int} (member : e ∈ b.2) :
    minKey b ≤ e.1 := by
  rcases List.mem_iff_getElem.mp member with ⟨i, inside, rfl⟩
  rw [← keyAt_eq inside]
  exact keyAt_le sorted (Nat.zero_le i) inside

/-- The elements before a block are at most its minimum. -/
theorem Ordered.before (ordered : Ordered blockSize (pre ++ b :: post)) :
    ∀ x ∈ pairs pre, x.1 ≤ minKey b := by
  intro x member
  have sorted := ordered.sorted
  simp only [pairs_append, pairs_cons, SortedPairs.append_iff] at sorted
  rcases exists_min (ordered.nonempty b (by simp)) with ⟨e, inside, same⟩
  exact same ▸ sorted.2.2 x member e (by simp [inside])

/-- The elements after a block are not below its elements. -/
theorem Ordered.apart (ordered : Ordered blockSize (pre ++ b :: post)) :
    ∀ x ∈ b.2, ∀ y ∈ pairs post, x.1 ≤ y.1 := by
  have sorted := ordered.sorted
  simp only [pairs_append, pairs_cons, SortedPairs.append_iff] at sorted
  exact sorted.2.1.2.2

/-- The elements of the blocks after one are above what is below their minima. -/
theorem Ordered.above (ordered : Ordered blockSize (pre ++ post))
    (above : ∀ c ∈ post, key < minKey c) : ∀ y ∈ pairs post, key < y.1 := by
  intro y member
  rcases List.mem_flatMap.mp member with ⟨c, inside, memberC⟩
  rcases List.append_of_mem inside with ⟨left, right, rfl⟩
  have blocks : Ordered blockSize ((pre ++ left) ++ c :: right) := by simpa using ordered
  exact (above c inside).trans_le (minKey_le blocks.sorted_block memberC)

/-- The minima before and after a block. -/
theorem Ordered.min_lt (ordered : Ordered blockSize (pre ++ b :: post)) :
    (∀ c ∈ pre, minKey c < minKey b) ∧ ∀ c ∈ post, minKey b < minKey c := by
  have minima := ordered.minima
  rw [List.map_append, List.map_cons, List.pairwise_append] at minima
  refine ⟨fun c member => ?_, fun c member => ?_⟩
  · exact minima.2.2 _ (List.mem_map_of_mem member) _ (by simp)
  · exact (List.pairwise_cons.mp minima.2.1).1 _ (List.mem_map_of_mem member)

/-- A list of blocks is ordered when it is without one of them, and this one has its
minimum between those of its neighbours. -/
theorem minima_insert (minima : ((pre ++ post).map minKey).Pairwise (· < ·))
    (left : ∀ c ∈ pre.getLast?, minKey c < minKey b) (right : ∀ c ∈ post.head?, minKey b < minKey c) :
    ((pre ++ b :: post).map minKey).Pairwise (· < ·) := by
  rw [List.map_append, List.pairwise_append] at minima
  rcases minima with ⟨minPre, minPost, apart⟩
  have rightAll : ∀ k ∈ post.map minKey, minKey b < k := by
    rcases post with _ | ⟨c, post⟩
    · exact fun k member => nomatch member
    · intro k member
      have first := right c rfl
      rcases List.mem_cons.mp member with rfl | member
      · exact first
      · exact first.trans ((List.pairwise_cons.mp minPost).1 k member)
  have leftAll : ∀ k ∈ pre.map minKey, k < minKey b := by
    rcases List.eq_nil_or_concat pre with rfl | ⟨before, c, rfl⟩
    · exact fun k member => nomatch member
    · intro k member
      have last := left c (by simp)
      rw [List.concat_eq_append, List.map_append, List.mem_append] at member
      rcases member with member | member
      · rw [List.concat_eq_append, List.map_append, List.pairwise_append] at minPre
        exact (minPre.2.2 k member _ (by simp)).trans last
      · rw [List.mem_singleton.mp member]
        exact last
  rw [List.map_append, List.map_cons, List.pairwise_append, List.pairwise_cons]
  refine ⟨minPre, ⟨rightAll, minPost⟩, fun x memX y memY => ?_⟩
  rcases List.mem_cons.mp memY with rfl | memY
  · exact leftAll x memX
  · exact apart x memX y memY

/-- The minima without a block. -/
theorem minima_erase (minima : ((pre ++ b :: post).map minKey).Pairwise (· < ·)) :
    ((pre ++ post).map minKey).Pairwise (· < ·) := by
  apply List.Pairwise.sublist _ minima
  exact ((List.Sublist.refl pre).append (List.sublist_cons_self b post)).map _

/-- The last block whose minimum is at most the key, if there is one. -/
theorem exists_floor (minima : (v.map minKey).Pairwise (· < ·)) (key : Int) :
    (∃ pre b post, v = pre ++ b :: post ∧ minKey b ≤ key ∧ ∀ c ∈ post, key < minKey c) ∨
      ∀ b ∈ v, key < minKey b := by
  induction v with
  | nil => exact Or.inr fun b member => nomatch member
  | cons b v ih =>
      rcases List.pairwise_cons.mp minima with ⟨first, rest⟩
      rcases lt_or_ge key (minKey b) with less | le
      · right
        intro c member
        rcases List.mem_cons.mp member with rfl | member
        · exact less
        · exact less.trans (first _ (List.mem_map_of_mem member))
      · left
        rcases ih rest with ⟨pre, c, post, rfl, below, above⟩ | above
        · exact ⟨b :: pre, c, post, rfl, below, above⟩
        · exact ⟨[], b, v, rfl, le, above⟩

end Lists

/-! ## The index of the blocks -/

section Index

variable {v pre post : List Block} {b b' : Block} {blockSize : Nat}
  {calls : List (Call Bytes Nat)}

/-- The entry of a block is taken out. -/
theorem holds_remove (holds : Holds calls ((pre ++ b :: post).map entry))
    (ordered : Ordered blockSize (pre ++ b :: post)) :
    Holds (.remove (store (minKey b)) b.1 :: calls) ((pre ++ post).map entry) := by
  have perm : ((pre ++ b :: post).map entry).Perm (entry b :: (pre ++ post).map entry) :=
    (List.perm_middle).map entry
  apply (holds.perm perm).remove
  intro e member
  rcases List.mem_map.mp member with ⟨c, inside, rfl⟩
  have isKeyB := ordered.isKey (b := b) (by simp)
  rcases List.mem_append.mp inside with before | after
  · exact store_ne (ordered.isKey (by simp [before])) isKeyB (ordered.min_lt.1 c before).ne
  · exact store_ne (ordered.isKey (by simp [after])) isKeyB (ordered.min_lt.2 c after).ne'

/-- The entry of a block of a new minimum is added. -/
theorem holds_insert (holds : Holds calls ((pre ++ post).map entry))
    (ordered : Ordered blockSize (pre ++ b :: post)) :
    Holds (.insert (store (minKey b)) b.1 :: calls) ((pre ++ b :: post).map entry) := by
  have perm : (entry b :: (pre ++ post).map entry).Perm ((pre ++ b :: post).map entry) :=
    (List.perm_middle.symm).map entry
  refine (Holds.insert holds b.1 ?_).perm perm
  intro e member
  rcases List.mem_map.mp member with ⟨c, inside, rfl⟩
  have isKeyB := ordered.isKey (b := b) (by simp)
  rcases List.mem_append.mp inside with before | after
  · exact store_ne (ordered.isKey (by simp [before])) isKeyB (ordered.min_lt.1 c before).ne
  · exact store_ne (ordered.isKey (by simp [after])) isKeyB (ordered.min_lt.2 c after).ne'

end Index

/-! ## The memory -/

variable {τ : Type}

/-- The blocks of the tree, from the first leaf on. -/
structure Represents (t : Art τ) (v : List Block) : Prop where
  chain : t.links.Chain (v.map Prod.fst)
  first : (v.map Prod.fst).head? = some t.first
  fresh : ∀ b ∈ v, b.1 < t.fresh
  count : t.leafCount = v.length
  leaves : ∀ b ∈ v, (t.leaves b.1).elements = b.2

section Memory

variable {t : Art τ} {v pre post : List Block} {a : Nat} {l : List (Int × Int)}

@[simp] theorem setLeaf_self (t : Art τ) (a : Nat) (leaf : Leaf) :
    (t.setLeaf a leaf).leaves a = leaf := Function.update_self ..

theorem setLeaf_of_ne {b : Nat} (other : b ≠ a) (t : Art τ) (leaf : Leaf) :
    (t.setLeaf a leaf).leaves b = t.leaves b := Function.update_of_ne other ..

/-- A block is its leaf. -/
theorem Represents.elements (represents : Represents t (pre ++ (a, l) :: post)) :
    (t.leaves a).elements = l :=
  represents.leaves (a, l) (by simp)

/-- The addresses of the other blocks. -/
theorem Represents.other (represents : Represents t (pre ++ (a, l) :: post)) :
    ∀ b ∈ pre ++ post, b.1 ≠ a := by
  intro b member same
  have nodup := represents.chain.nodup
  rw [List.map_append, List.map_cons, List.nodup_append, List.nodup_cons] at nodup
  rcases List.mem_append.mp member with before | after
  · exact nodup.2.2 _ (List.mem_map_of_mem before) _ (by simp) same
  · exact nodup.2.1.1 (List.mem_map.mpr ⟨b, after, same⟩)

/-- Writing a leaf changes its block. -/
theorem Represents.setLeaf (represents : Represents t (pre ++ (a, l) :: post)) (leaf : Leaf) :
    Represents (t.setLeaf a leaf) (pre ++ (a, leaf.elements) :: post) := by
  have other := represents.other
  rcases represents with ⟨chain, first, fresh, count, leaves⟩
  have addresses : (pre ++ (a, leaf.elements) :: post).map Prod.fst =
      (pre ++ (a, l) :: post).map Prod.fst := by simp
  refine ⟨?_, ?_, ?_, ?_, ?_⟩
  · rw [addresses]
    exact chain
  · rw [addresses]
    exact first
  · intro b member
    simp only [List.mem_append, List.mem_cons] at member
    rcases member with member | rfl | member
    · exact fresh b (by simp [member])
    · exact fresh (a, l) (by simp)
    · exact fresh b (by simp [member])
  · rw [← List.length_map (f := Prod.fst), addresses, List.length_map]
    exact count
  · intro b member
    simp only [List.mem_append, List.mem_cons] at member
    have unchanged : b ∈ pre ++ post → b ∈ pre ++ (a, l) :: post →
        ((t.setLeaf a leaf).leaves b.1).elements = b.2 := by
      intro inside here
      rw [setLeaf_of_ne (other b inside)]
      exact leaves b here
    rcases member with member | rfl | member
    · exact unchanged (by simp [member]) (by simp [member])
    · rw [setLeaf_self]
    · exact unchanged (by simp [member]) (by simp [member])

/-- The links of a block lead to its neighbours. -/
theorem Represents.links (represents : Represents t (pre ++ (a, l) :: post)) :
    t.links.previous a = (pre.map Prod.fst).getLast? ∧
      t.links.next a = (post.map Prod.fst).head? := by
  have linked := represents.chain.linked
  rw [List.map_append, List.map_cons, Links.segment_append] at linked
  rcases linked with ⟨_, back, forth, _⟩
  exact ⟨by simpa using back, by simpa using forth⟩

end Memory

end Rma.Art
