import Rma.Base.Exec
import Rma.Base.Runs
import Rma.Base.Scan

/-!
# Static index

`StaticIndex` maps a key to the segment that may hold it. It is a search tree
without pointers: the separators of all the nodes lie in one block, and the
place of a child is computed from the node size and the height. Only the nodes
on the rightmost path are irregular; `m_rightmost` keeps, for each height, the
number of separators of that node and the height of its last subtree.

The logarithms and powers of the source are exact here: `ceil(log2(n) / log2(b))`
is `Nat.clog b n`. The searches return the position of a segment; their
correctness is `Rma.StaticIndex.find_exact`.
-/

namespace Rma

open Base

inductive StaticIndexException where
  | nodeSizeTooBig
  | noKeys
  | tooManyKeys
  | badAlloc
  deriving DecidableEq, Repr

/-- The root of a rightmost subtree: its separators and the height of its last child. -/
structure RightmostSubtreeInfo where
  rootSz : Nat
  rightHeight : Nat
  deriving DecidableEq, Repr

/-- The fields of `StaticIndex`. `keys` is `none` for a null pointer. -/
structure StaticIndex where
  nodeSize : Nat
  height : Nat
  capacity : Nat
  keys : Option (Nat → Int)
  keyMinimum : Int
  rightmost : Nat → RightmostSubtreeInfo
  /-- The last child of a node is lower than the node. -/
  right_le : ∀ h, (rightmost h).rightHeight ≤ h

abbrev StaticIndexM := EStateM StaticIndexException StaticIndex

namespace StaticIndex

/-! ## Initialisation -/

/-- The length of `m_rightmost`. -/
def rightmostSz : Nat := 8

/-- The height of a tree over `n` entries. -/
def heightOf (nodeSize n : Nat) : Nat := Nat.clog nodeSize n

/-- The loop of `rebuild` over the rightmost subtrees, from the root down. Each
turn lowers the height, so `fuel` is the height of the tree. -/
def setRightmost (nodeSize : Nat) : Nat → Nat → Nat → (Nat → RightmostSubtreeInfo) →
    Nat → RightmostSubtreeInfo
  | 0, _, _, rightmost => rightmost
  | fuel + 1, n, height, rightmost =>
    if height = 0 then rightmost
    else
      let subtreeSz := nodeSize ^ (height - 1)
      let remainder := (n - 1) % subtreeSz
      -- with B - 1 keys we index B entries
      let rightSz := if 0 < remainder then remainder + 1 else remainder
      let rightHeight := if 0 < remainder then heightOf nodeSize rightSz else 0
      setRightmost nodeSize fuel rightSz rightHeight
        (Function.update rightmost (height - 1) ⟨(n - 1) / subtreeSz, rightHeight⟩)

/-- A remainder modulo a power of the node size indexes a tree of a smaller height. -/
theorem heightOf_succ_mod_le (b n h : Nat) : heightOf b (n % b ^ h + 1) ≤ h := by
  unfold heightOf
  cases Nat.lt_or_ge 1 b with
  | inl base =>
      apply Nat.clog_le_of_le_pow
      exact Nat.mod_lt _ (pow_pos (by omega) h)
  | inr small =>
      rw [Nat.clog_of_left_le_one small]
      exact Nat.zero_le h

theorem setRightmost_right_le (b fuel n h : Nat) {rightmost : Nat → RightmostSubtreeInfo}
    (right_le : ∀ k, (rightmost k).rightHeight ≤ k) (k : Nat) :
    (setRightmost b fuel n h rightmost k).rightHeight ≤ k := by
  induction fuel generalizing n h rightmost with
  | zero => exact right_le k
  | succ fuel ih =>
      unfold setRightmost
      by_cases ground : h = 0
      · rw [if_pos ground]
        exact right_le k
      · rw [if_neg ground]
        apply ih
        intro j
        by_cases same : j = h - 1
        · subst same
          simp only [Function.update_self]
          split
          · exact heightOf_succ_mod_le b (n - 1) (h - 1)
          · exact Nat.zero_le _
        · rw [Function.update_of_ne same]
          exact right_le j

/-- Size the tree for `n` entries. `block` is what `posix_memalign` answers: the
content of a new block of memory, or `none` when there is no memory left. -/
def rebuild (n : Nat) (block : Option (Nat → Int)) : StaticIndexM Unit := do
  raiseIf (n = 0) .noKeys
  let index ← get
  let height := heightOf index.nodeSize n
  raiseIf (rightmostSz < height) .tooManyKeys
  runIf (height ≠ index.height) do
    modify fun index => { index with keys := none }
    raiseIf (block = none) .badAlloc
    modify fun index => { index with keys := block, height := height }
  modify fun index => { index with
    capacity := n
    rightmost := setRightmost index.nodeSize height n height index.rightmost
    right_le := setRightmost_right_le _ _ _ _ index.right_le }

/-- The object before the constructor rebuilds it; the minimum is `INT64_MAX`. -/
def blank (nodeSize : Nat) : StaticIndex where
  nodeSize := nodeSize
  height := 0
  capacity := 0
  keys := none
  keyMinimum := 2 ^ 63 - 1
  rightmost := fun _ => ⟨0, 0⟩
  right_le := fun h => Nat.zero_le h

/-- The constructor. -/
def create (nodeSize n : Nat) (block : Option (Nat → Int)) : StaticIndexM Unit := do
  raiseIf (2 ^ 16 - 1 < nodeSize) .nodeSizeTooBig
  set (blank nodeSize)
  rebuild n block

/-! ## Traversal -/

/-- The variables of a descent, common to `get_slot` and to the searches: the
node is at `base`, at the given height, and `subtreeSz` entries apart are the
separators of the node. -/
structure Cursor where
  base : Nat
  height : Nat
  rightmost : Bool
  subtreeSz : Nat

/-- The cursor at the root of the tree. -/
def root (index : StaticIndex) : Cursor where
  base := 0
  height := index.height
  rightmost := true
  subtreeSz := index.nodeSize ^ (index.height - 1)

/-- Move the cursor to the child `subtreeId`. -/
def child (index : StaticIndex) (c : Cursor) (subtreeId : Nat) : Cursor :=
  let base := c.base + ((index.nodeSize - 1) + subtreeId * (c.subtreeSz - 1))
  let info := index.rightmost (c.height - 1)
  -- is this the rightmost subtree?
  if c.rightmost && decide (info.rootSz ≤ subtreeId) then
    { base := base
      height := info.rightHeight
      rightmost := true
      subtreeSz := index.nodeSize ^ (info.rightHeight - 1) }
  else
    { base := base
      height := c.height - 1
      rightmost := false
      subtreeSz := c.subtreeSz / index.nodeSize }

/-- The loop of `get_slot`. A child is lower than its parent, so `fuel` is the
height of the cursor. -/
def slotFrom (index : StaticIndex) : Nat → Cursor → Nat → Nat
  | 0, c, offset => c.base + offset
  | fuel + 1, c, offset =>
    if c.height = 0 then c.base + offset
    else
      let subtreeId := offset / c.subtreeSz
      let modulo := offset % c.subtreeSz
      -- found, this is an internal node
      if modulo = 0 then c.base + subtreeId - 1
      else slotFrom index fuel (index.child c subtreeId) (offset - subtreeId * c.subtreeSz)

/-- The slot that stores the separator of a segment other than 0. -/
def getSlot (index : StaticIndex) (segmentId : Nat) : Nat :=
  slotFrom index index.height index.root segmentId

/-- Read a slot of the block. The null pointer holds nothing and is never read:
the tree has height 0 then. -/
def load (index : StaticIndex) (slot : Nat) : Int := (index.keys.getD fun _ => 0) slot

def setSeparatorKey (index : StaticIndex) (segmentId : Nat) (key : Int) : StaticIndex :=
  if segmentId = 0 then { index with keyMinimum := key }
  else { index with
    keys := index.keys.map fun block => Function.update block (index.getSlot segmentId) key }

def getSeparatorKey (index : StaticIndex) (segmentId : Nat) : Int :=
  if segmentId = 0 then index.keyMinimum else index.load (index.getSlot segmentId)

/-! ## Search -/

/-- The number of separators of the node under the cursor. -/
def rootSz (index : StaticIndex) (c : Cursor) : Nat :=
  if c.rightmost then (index.rightmost (c.height - 1)).rootSz else index.nodeSize - 1

/-- The loop common to the three searches; `scan` chooses the child of a node
from the address of its separators and their number. -/
def searchFrom (index : StaticIndex) (scan : Nat → Nat → Nat) : Nat → Cursor → Nat → Nat
  | 0, _, offset => offset
  | fuel + 1, c, offset =>
    if c.height = 0 then offset
    else
      let subtreeId := scan c.base (index.rootSz c)
      searchFrom index scan fuel (index.child c subtreeId) (offset + subtreeId * c.subtreeSz)

def search (index : StaticIndex) (scan : Nat → Nat → Nat) : Nat :=
  searchFrom index scan index.height index.root 0

/-- A segment that contains the given key. -/
def find (index : StaticIndex) (key : Int) : Nat :=
  if key ≤ index.keyMinimum then 0
  else index.search fun base rootSz => scanUp (fun i => index.load (base + i) ≤ key) 0 rootSz

/-- The first segment that may contain the given key. -/
def findFirst (index : StaticIndex) (key : Int) : Nat :=
  if key < index.keyMinimum then 0
  else index.search fun base rootSz => scanUp (fun i => index.load (base + i) < key) 0 rootSz

/-- The last segment that may contain the given key. -/
def findLast (index : StaticIndex) (key : Int) : Nat :=
  if key < index.keyMinimum then 0
  else index.search fun base rootSz => scanDown (fun i => key < index.load (base + i)) rootSz

/-! ## Shape of the tree -/

/-- The rightmost path of a tree over `n` entries is recorded from its root down. -/
inductive Spine (b : Nat) (rightmost : Nat → RightmostSubtreeInfo) : Nat → Nat → Prop
  | leaf : Spine b rightmost 0 1
  | node {h n : Nat} (lower : b ^ h < n) (upper : n ≤ b ^ (h + 1))
      (info : rightmost h = ⟨(n - 1) / b ^ h, heightOf b ((n - 1) % b ^ h + 1)⟩)
      (right : Spine b rightmost (heightOf b ((n - 1) % b ^ h + 1)) ((n - 1) % b ^ h + 1)) :
      Spine b rightmost (h + 1) n

/-- The loop leaves the heights from its own upwards as they are. -/
theorem setRightmost_above (b fuel n h : Nat) (rightmost : Nat → RightmostSubtreeInfo) {k : Nat}
    (above : h ≤ k) : setRightmost b fuel n h rightmost k = rightmost k := by
  induction fuel generalizing n h rightmost with
  | zero => rfl
  | succ fuel ih =>
      unfold setRightmost
      by_cases ground : h = 0
      · rw [if_pos ground]
      · rw [if_neg ground]
        have lower : (if 0 < (n - 1) % b ^ (h - 1) then
            heightOf b (if 0 < (n - 1) % b ^ (h - 1) then (n - 1) % b ^ (h - 1) + 1
              else (n - 1) % b ^ (h - 1)) else 0) ≤ k := by
          split
          · exact (heightOf_succ_mod_le b (n - 1) (h - 1)).trans (by omega)
          · exact Nat.zero_le k
        rw [ih _ _ _ lower, Function.update_of_ne (by omega)]

/-- A tree of height 0 has one entry. -/
theorem eq_one_of_heightOf {b n : Nat} (base : 1 < b) (positive : 0 < n)
    (ground : heightOf b n = 0) : n = 1 := by
  have fits := Nat.le_pow_clog base n
  rw [show Nat.clog b n = 0 from ground, pow_zero] at fits
  omega

/-- The loop of `rebuild` records the whole rightmost path. -/
theorem setRightmost_spine {b : Nat} (base : 1 < b) (fuel : Nat) {n : Nat} (positive : 0 < n)
    (enough : heightOf b n ≤ fuel) (rightmost : Nat → RightmostSubtreeInfo) :
    Spine b (setRightmost b fuel n (heightOf b n) rightmost) (heightOf b n) n := by
  induction fuel generalizing n rightmost with
  | zero =>
      have ground := Nat.le_zero.mp enough
      obtain rfl := eq_one_of_heightOf base positive ground
      rw [ground]
      exact Spine.leaf
  | succ fuel ih =>
      cases height : heightOf b n with
      | zero =>
          obtain rfl := eq_one_of_heightOf base positive height
          exact Spine.leaf
      | succ h =>
          have upper : n ≤ b ^ (h + 1) := by
            have fits := Nat.le_pow_clog base n
            rwa [show Nat.clog b n = h + 1 from height] at fits
          have lower : b ^ h < n := by
            rw [← Nat.lt_clog_iff_pow_lt base]
            change h < heightOf b n
            omega
          have rightLower := heightOf_succ_mod_le b (n - 1) h
          simp only [setRightmost, Nat.add_one_ne_zero, if_false, Nat.add_sub_cancel]
          by_cases remainder : 0 < (n - 1) % b ^ h
          · simp only [remainder, if_true]
            refine Spine.node lower upper ?_ (ih (Nat.succ_pos _) (rightLower.trans (by omega)) _)
            rw [setRightmost_above b fuel _ _ _ rightLower, Function.update_self]
          · have exact : (n - 1) % b ^ h = 0 := Nat.eq_zero_of_not_pos remainder
            have ground : heightOf b 1 = 0 := Nat.clog_one_right b
            simp only [exact, lt_irrefl, if_false]
            refine Spine.node lower upper ?_ ?_
            · rw [setRightmost_above b fuel _ _ _ (Nat.zero_le h), Function.update_self, exact,
                Nat.zero_add, ground]
            · rw [exact, Nat.zero_add, ground]
              exact Spine.leaf

/-- The cursor is at the root of a subtree over `n` entries. -/
structure At (index : StaticIndex) (c : Cursor) (n : Nat) : Prop where
  subtreeSz : 0 < c.height → c.subtreeSz = index.nodeSize ^ (c.height - 1)
  shape : if c.rightmost then Spine index.nodeSize index.rightmost c.height n
    else n = index.nodeSize ^ c.height

/-- The number of entries of a child: full, unless it is the last one. -/
def entries (n subtreeSz subtreeId : Nat) : Nat := min subtreeSz (n - subtreeId * subtreeSz)

section Descent

variable {index : StaticIndex} {c : Cursor} {n : Nat}

/-- The number of entries under a node is bounded on both sides by its height. -/
theorem At.bounds (base : 1 < index.nodeSize) (at_ : index.At c n) :
    0 < n ∧ n ≤ index.nodeSize ^ c.height ∧
      (0 < c.height → index.nodeSize ^ (c.height - 1) < n) := by
  have shape := at_.shape
  cases spine : c.rightmost with
  | false =>
      rw [spine] at shape
      simp only [Bool.false_eq_true, if_false] at shape
      refine ⟨shape ▸ Nat.pow_pos (by omega), shape.le, fun above => ?_⟩
      rw [shape]
      exact Nat.pow_lt_pow_right base (by omega)
  | true =>
      rw [spine, if_pos rfl] at shape
      generalize c.height = height at shape
      cases shape with
      | leaf => simp
      | node lower upper => exact ⟨by omega, upper, fun _ => by simpa using lower⟩

/-- A node has one separator for each whole subtree before its last entry. -/
theorem At.rootSz_eq (base : 1 < index.nodeSize) (at_ : index.At c n) (above : 0 < c.height) :
    index.rootSz c = (n - 1) / c.subtreeSz := by
  have shape := at_.shape
  obtain ⟨h, height⟩ : ∃ h, c.height = h + 1 := ⟨c.height - 1, by omega⟩
  have size : c.subtreeSz = index.nodeSize ^ h := by simpa [height] using at_.subtreeSz above
  have positive : 0 < index.nodeSize ^ h := Nat.pow_pos (by omega)
  unfold rootSz
  rw [size]
  cases spine : c.rightmost with
  | false =>
      rw [spine] at shape
      simp only [Bool.false_eq_true, if_false, height, pow_succ'] at shape ⊢
      symm
      rw [shape]
      apply Nat.div_eq_of_lt_le
      · rw [Nat.sub_one_mul]
        omega
      · rw [Nat.sub_one_add_one (by omega)]
        exact Nat.sub_one_lt (by positivity)
  | true =>
      rw [spine, if_pos rfl, height] at shape
      cases shape with
      | node _ _ info => simp only [if_true, height, Nat.add_sub_cancel, info]

/-- Moving to a child of the node leads to the root of a lower subtree. -/
theorem At.child (base : 1 < index.nodeSize) (at_ : index.At c n) (above : 0 < c.height)
    {subtreeId : Nat} (inside : subtreeId ≤ (n - 1) / c.subtreeSz) :
    index.At (index.child c subtreeId) (entries n c.subtreeSz subtreeId) ∧
      (index.child c subtreeId).height < c.height := by
  have shape := at_.shape
  obtain ⟨h, height⟩ : ∃ h, c.height = h + 1 := ⟨c.height - 1, by omega⟩
  have size : c.subtreeSz = index.nodeSize ^ h := by simpa [height] using at_.subtreeSz above
  have positive : 0 < index.nodeSize ^ h := Nat.pow_pos (by omega)
  have divide : 0 < h → index.nodeSize ^ h / index.nodeSize = index.nodeSize ^ (h - 1) := by
    intro deep
    obtain ⟨k, rfl⟩ : ∃ k, h = k + 1 := ⟨h - 1, by omega⟩
    rw [pow_succ, Nat.mul_div_cancel _ (by omega), Nat.add_sub_cancel]
  have split := Nat.div_add_mod (n - 1) (index.nodeSize ^ h)
  have remainder := Nat.mod_lt (n - 1) positive
  rw [size] at inside
  cases spine : c.rightmost with
  | false =>
      rw [spine] at shape
      simp only [Bool.false_eq_true, if_false, height, pow_succ'] at shape
      simp only [StaticIndex.child, spine, height, size, Bool.false_and, Bool.false_eq_true,
        if_false, Nat.add_sub_cancel]
      refine ⟨⟨fun deep => divide deep, ?_⟩, Nat.lt_succ_self h⟩
      have last : subtreeId + 1 ≤ index.nodeSize := by
        have lt := Nat.lt_of_le_of_lt inside
          ((Nat.div_lt_iff_lt_mul positive).mpr (lt_of_lt_of_le (Nat.sub_one_lt
            (by rw [shape]; positivity)) shape.le))
        omega
      have room : (subtreeId + 1) * index.nodeSize ^ h ≤ index.nodeSize * index.nodeSize ^ h :=
        Nat.mul_le_mul_right _ last
      simp only [Bool.false_eq_true, if_false, entries]
      rw [Nat.succ_mul] at room
      omega
  | true =>
      rw [spine, if_pos rfl, height] at shape
      cases shape with
      | node lower upper info right =>
          by_cases lastChild : (n - 1) / index.nodeSize ^ h ≤ subtreeId
          · obtain rfl : subtreeId = (n - 1) / index.nodeSize ^ h := by omega
            simp only [StaticIndex.child, spine, height, size, info, Nat.add_sub_cancel, le_refl,
              decide_true, Bool.and_true, if_true]
            refine ⟨⟨fun _ => rfl, ?_⟩, Nat.lt_succ_of_le (heightOf_succ_mod_le _ _ _)⟩
            have count : entries n (index.nodeSize ^ h) ((n - 1) / index.nodeSize ^ h) =
                (n - 1) % index.nodeSize ^ h + 1 := by
              rw [entries, Nat.mul_comm ((n - 1) / _)]
              generalize (n - 1) % index.nodeSize ^ h = left at *
              omega
            rw [count]
            exact right
          · simp only [StaticIndex.child, spine, height, size, info, Nat.add_sub_cancel, lastChild,
              decide_false, Bool.and_false, Bool.false_eq_true, if_false]
            refine ⟨⟨fun deep => divide deep, ?_⟩, Nat.lt_succ_self h⟩
            have room : (subtreeId + 1) * index.nodeSize ^ h ≤
                (n - 1) / index.nodeSize ^ h * index.nodeSize ^ h :=
              Nat.mul_le_mul_right _ (by omega)
            rw [Nat.mul_comm ((n - 1) / _), Nat.succ_mul] at room
            simp only [Bool.false_eq_true, if_false, entries]
            generalize (n - 1) % index.nodeSize ^ h = left at *
            omega

/-- `get_slot` at a position of the node itself. -/
theorem slotFrom_node {fuel : Nat} (above : 0 < c.height) (size : 0 < c.subtreeSz) (id : Nat) :
    index.slotFrom (fuel + 1) c (id * c.subtreeSz) = c.base + id - 1 := by
  rw [slotFrom, if_neg (by omega)]
  simp [Nat.mul_div_cancel id size]

/-- `get_slot` at a position of a child. -/
theorem slotFrom_child {fuel : Nat} (above : 0 < c.height) {id offset : Nat} (pos : 0 < offset)
    (inside : offset < c.subtreeSz) :
    index.slotFrom (fuel + 1) c (id * c.subtreeSz + offset) =
      index.slotFrom fuel (index.child c id) offset := by
  have size : 0 < c.subtreeSz := by omega
  have quotient : (id * c.subtreeSz + offset) / c.subtreeSz = id := by
    rw [Nat.mul_comm, Nat.mul_add_div size, Nat.div_eq_of_lt inside, Nat.add_zero]
  have modulo : (id * c.subtreeSz + offset) % c.subtreeSz = offset := by
    rw [Nat.mul_comm, Nat.mul_add_mod, Nat.mod_eq_of_lt inside]
  rw [slotFrom, if_neg (by omega)]
  simp only [quotient, modulo]
  rw [if_neg (by omega), Nat.add_sub_cancel_left]

/-- A position below a node is a separator of the node or lies in a child. -/
theorem position_cases {size j : Nat} (positive : 0 < size) (pos : 0 < j) (inside : j < n) :
    (∃ id, 0 < id ∧ id ≤ (n - 1) / size ∧ j = id * size) ∨
      ∃ id offset, id ≤ (n - 1) / size ∧ 0 < offset ∧ offset < entries n size id ∧
        offset < size ∧ j = id * size + offset := by
  have split := Nat.div_add_mod j size
  rw [Nat.mul_comm] at split
  have bounded : j / size ≤ (n - 1) / size := Nat.div_le_div_right (by omega)
  cases modulo : j % size with
  | zero =>
      rw [modulo, Nat.add_zero] at split
      refine Or.inl ⟨j / size, Nat.pos_of_ne_zero fun zero => ?_, bounded, split.symm⟩
      rw [zero, Nat.zero_mul] at split
      omega
  | succ k =>
      have small := Nat.mod_lt j positive
      rw [modulo] at split small
      refine Or.inr ⟨j / size, k + 1, bounded, Nat.succ_pos k, ?_, small, split.symm⟩
      rw [entries]
      omega

/-- A child takes the slots after the node and after the children before it. -/
theorem child_room (base : 1 < index.nodeSize) (at_ : index.At c n) (above : 0 < c.height)
    {id : Nat} (inside : id ≤ (n - 1) / c.subtreeSz) :
    (index.child c id).base = c.base + ((index.nodeSize - 1) + id * (c.subtreeSz - 1)) ∧
      index.nodeSize ^ (index.child c id).height - 1 ≤ c.subtreeSz - 1 ∧
      (index.nodeSize - 1) + id * (c.subtreeSz - 1) + (c.subtreeSz - 1) ≤
        index.nodeSize ^ c.height - 1 ∧ id < index.nodeSize := by
  obtain ⟨h, height⟩ : ∃ h, c.height = h + 1 := ⟨c.height - 1, by omega⟩
  have size : c.subtreeSz = index.nodeSize ^ h := by simpa [height] using at_.subtreeSz above
  have positive : 0 < index.nodeSize ^ h := Nat.pow_pos (by omega)
  have lower := (at_.child base above inside).2
  have whole := (at_.bounds base).2.1
  rw [height, pow_succ'] at whole
  have last : id < index.nodeSize := by
    rw [size] at inside
    have nonempty := (at_.bounds base).1
    exact Nat.lt_of_le_of_lt inside ((Nat.div_lt_iff_lt_mul positive).mpr (by omega))
  refine ⟨?_, ?_, ?_, last⟩
  · simp only [StaticIndex.child]
    split <;> rfl
  · rw [size]
    exact Nat.sub_le_sub_right (Nat.pow_le_pow_right (by omega) (by omega)) 1
  · have room : (id + 1) * (index.nodeSize ^ h - 1) ≤
        index.nodeSize * (index.nodeSize ^ h - 1) := Nat.mul_le_mul_right _ last
    rw [size, height, pow_succ']
    rw [Nat.succ_mul, Nat.mul_sub_one index.nodeSize] at room
    have fits : index.nodeSize ≤ index.nodeSize * index.nodeSize ^ h :=
      Nat.le_mul_of_pos_right _ positive
    omega

/-- The slots of a subtree lie within its share of the block. -/
theorem slotFrom_bounds (base : 1 < index.nodeSize) (fuel : Nat) (at_ : index.At c n)
    (enough : c.height ≤ fuel) {j : Nat} (pos : 0 < j) (inside : j < n) :
    c.base ≤ index.slotFrom fuel c j ∧
      index.slotFrom fuel c j < c.base + (index.nodeSize ^ c.height - 1) := by
  have bounds := at_.bounds base
  induction fuel generalizing c n j with
  | zero =>
      rw [Nat.le_zero.mp enough, pow_zero] at bounds
      omega
  | succ fuel ih =>
      have above : 0 < c.height := by
        apply Nat.pos_of_ne_zero
        intro ground
        rw [ground, pow_zero] at bounds
        omega
      have positive : 0 < c.subtreeSz := by
        rw [at_.subtreeSz above]
        exact Nat.pow_pos (by omega)
      rcases position_cases positive pos inside with
        ⟨id, idPos, idLe, rfl⟩ | ⟨id, offset, idLe, offPos, offLt, offSmall, rfl⟩
      · have room := child_room base at_ above idLe
        rw [slotFrom_node above positive]
        omega
      · have room := child_room base at_ above idLe
        rcases at_.child base above idLe with ⟨atChild, lower⟩
        rw [slotFrom_child above offPos offSmall]
        have found := ih atChild (by omega) offPos offLt (atChild.bounds base)
        omega

/-- Different segments have different slots. -/
theorem slotFrom_injective (base : 1 < index.nodeSize) {fuel : Nat} (at_ : index.At c n)
    (enough : c.height ≤ fuel) {i j : Nat} (posI : 0 < i) (insideI : i < n) (posJ : 0 < j)
    (insideJ : j < n) (same : index.slotFrom fuel c i = index.slotFrom fuel c j) : i = j := by
  have bounds := at_.bounds base
  induction fuel generalizing c n i j with
  | zero =>
      rw [Nat.le_zero.mp enough, pow_zero] at bounds
      omega
  | succ fuel ih =>
      have above : 0 < c.height := by
        apply Nat.pos_of_ne_zero
        intro ground
        rw [ground, pow_zero] at bounds
        omega
      have positive : 0 < c.subtreeSz := by
        rw [at_.subtreeSz above]
        exact Nat.pow_pos (by omega)
      -- a slot of the node is below every slot of a child
      have apart : ∀ {id id' offset : Nat}, 0 < id → id ≤ (n - 1) / c.subtreeSz →
          id' ≤ (n - 1) / c.subtreeSz → 0 < offset → offset < entries n c.subtreeSz id' →
          offset < c.subtreeSz → index.slotFrom (fuel + 1) c (id * c.subtreeSz) ≠
            index.slotFrom (fuel + 1) c (id' * c.subtreeSz + offset) := by
        intro id id' offset idPos idLe idLe' offPos offLt offSmall equal
        rw [slotFrom_node above positive, slotFrom_child above offPos offSmall] at equal
        have room := child_room base at_ above idLe
        have room' := child_room base at_ above idLe'
        rcases at_.child base above idLe' with ⟨atChild, lower⟩
        have found := slotFrom_bounds base fuel atChild (by omega) offPos offLt
        omega
      rcases position_cases positive posI insideI with
        ⟨id, idPos, idLe, rfl⟩ | ⟨id, offset, idLe, offPos, offLt, offSmall, rfl⟩
      · rcases position_cases positive posJ insideJ with
          ⟨id', idPos', idLe', rfl⟩ | ⟨id', offset', idLe', offPos', offLt', offSmall', rfl⟩
        · rw [slotFrom_node above positive, slotFrom_node above positive] at same
          rw [show id = id' by omega]
        · exact absurd same (apart idPos idLe idLe' offPos' offLt' offSmall')
      · rcases position_cases positive posJ insideJ with
          ⟨id', idPos', idLe', rfl⟩ | ⟨id', offset', idLe', offPos', offLt', offSmall', rfl⟩
        · exact absurd same.symm (apart idPos' idLe' idLe offPos offLt offSmall)
        · rw [slotFrom_child above offPos offSmall, slotFrom_child above offPos' offSmall'] at same
          have room := child_room base at_ above idLe
          have room' := child_room base at_ above idLe'
          rcases at_.child base above idLe with ⟨atChild, lower⟩
          rcases at_.child base above idLe' with ⟨atChild', lower'⟩
          have found := slotFrom_bounds base fuel atChild (by omega) offPos offLt
          have found' := slotFrom_bounds base fuel atChild' (by omega) offPos' offLt'
          rcases Nat.lt_trichotomy id id' with before | rfl | after
          · have step : (id + 1) * (c.subtreeSz - 1) ≤ id' * (c.subtreeSz - 1) :=
              Nat.mul_le_mul_right _ before
            rw [Nat.succ_mul] at step
            omega
          · rw [ih atChild (by omega) offPos offLt offPos' offLt' same (atChild.bounds base)]
          · have step : (id' + 1) * (c.subtreeSz - 1) ≤ id * (c.subtreeSz - 1) :=
              Nat.mul_le_mul_right _ after
            rw [Nat.succ_mul] at step
            omega

/-- The descent of a search: with the separators `s` of the subtree in order, and
a scan that stops between the separators that satisfy `p` and those that do not,
the position reached is the last one that satisfies `p`, or the first of all. -/
theorem searchFrom_spec (base : 1 < index.nodeSize) {scan : Nat → Nat → Nat} {p : Int → Prop}
    (downward : ∀ x y, x ≤ y → p y → p x)
    (scans : ∀ a r, scan a r ≤ r ∧ (0 < scan a r → p (index.load (a + scan a r - 1))) ∧
      (scan a r < r → ¬p (index.load (a + scan a r))))
    {fuel : Nat} (at_ : index.At c n) (enough : c.height ≤ fuel) {s : Nat → Int}
    (stored : ∀ j, 0 < j → j < n → index.load (index.slotFrom fuel c j) = s j)
    (sorted : ∀ i j, 0 < i → i ≤ j → j < n → s i ≤ s j) (start : Nat) :
    ∃ i, index.searchFrom scan fuel c start = start + i ∧ i < n ∧ (0 < i → p (s i)) ∧
      ∀ j, i < j → j < n → ¬p (s j) := by
  have bounds := at_.bounds base
  have grounded : c.height = 0 → n = 1 := by
    intro ground
    rw [ground, pow_zero] at bounds
    omega
  induction fuel generalizing c n s start with
  | zero =>
      obtain rfl := grounded (Nat.le_zero.mp enough)
      exact ⟨0, rfl, Nat.one_pos, fun pos => absurd pos (lt_irrefl 0), fun j _ _ => by omega⟩
  | succ fuel ih =>
      unfold searchFrom
      by_cases ground : c.height = 0
      · rw [if_pos ground]
        obtain rfl := grounded ground
        exact ⟨0, rfl, Nat.one_pos, fun pos => absurd pos (lt_irrefl 0), fun j _ _ => by omega⟩
      have above : 0 < c.height := by omega
      have positive : 0 < c.subtreeSz := by
        rw [at_.subtreeSz above]
        exact Nat.pow_pos (by omega)
      rw [if_neg ground, at_.rootSz_eq base above]
      rcases scans c.base ((n - 1) / c.subtreeSz) with ⟨idLe, passed, stopped⟩
      generalize scan c.base ((n - 1) / c.subtreeSz) = id at idLe passed stopped ⊢
      have fits : id * c.subtreeSz ≤ n - 1 :=
        (Nat.mul_le_mul_right _ idLe).trans (Nat.div_mul_le_self _ _)
      -- the separators of the child are those of the node after position `id`
      rcases at_.child base above idLe with ⟨atChild, lower⟩
      have storedChild : ∀ j, 0 < j → j < entries n c.subtreeSz id →
          index.load (index.slotFrom fuel (index.child c id) j) = s (id * c.subtreeSz + j) := by
        intro j pos inside
        rw [entries, lt_min_iff] at inside
        rw [← slotFrom_child above pos inside.1]
        exact stored _ (by omega) (by omega)
      have sortedChild : ∀ i j, 0 < i → i ≤ j → j < entries n c.subtreeSz id →
          s (id * c.subtreeSz + i) ≤ s (id * c.subtreeSz + j) := by
        intro i j pos order inside
        rw [entries, lt_min_iff] at inside
        exact sorted _ _ (by omega) (by omega) (by omega)
      have groundedChild : (index.child c id).height = 0 → entries n c.subtreeSz id = 1 := by
        intro zero
        have boundsChild := atChild.bounds base
        rw [zero, pow_zero] at boundsChild
        omega
      rcases ih atChild (by omega) storedChild sortedChild (start + id * c.subtreeSz)
        (atChild.bounds base) groundedChild with ⟨i, result, inside, satisfied, maximal⟩
      refine ⟨id * c.subtreeSz + i, by rw [result, Nat.add_assoc], ?_, ?_, ?_⟩
      · rw [entries, lt_min_iff] at inside
        omega
      · intro pos
        cases i with
        | succ k => exact satisfied (Nat.succ_pos k)
        | zero =>
            have idPos : 0 < id := by
              apply Nat.pos_of_ne_zero
              intro zero
              simp [zero] at pos
            have slot := stored (id * c.subtreeSz) (by omega) (by omega)
            rw [slotFrom_node above positive] at slot
            rw [Nat.add_zero, ← slot]
            exact passed idPos
      · intro j after insideJ
        by_cases near : j < id * c.subtreeSz + entries n c.subtreeSz id
        · have offset : id * c.subtreeSz + (j - id * c.subtreeSz) = j := by omega
          rw [← offset]
          exact maximal (j - id * c.subtreeSz) (by omega) (by omega)
        · -- the next separator of the node already fails
          have far : (id + 1) * c.subtreeSz ≤ j := by
            rw [entries] at near
            rw [Nat.succ_mul]
            omega
          have more : id < (n - 1) / c.subtreeSz :=
            (Nat.le_div_iff_mul_le positive).mpr (far.trans (by omega))
          have slot := stored ((id + 1) * c.subtreeSz) (by positivity) (by omega)
          rw [slotFrom_node above positive] at slot
          have fails := stopped more
          rw [show c.base + id = c.base + (id + 1) - 1 by omega, slot] at fails
          exact fun holds => fails
            (downward _ _ (sorted _ _ (by positivity) far insideJ) holds)

end Descent

/-! ## The index as a sequence of separators -/

/-- The index is built for `n` segments. -/
structure Sized (index : StaticIndex) (n : Nat) : Prop where
  base : 1 < index.nodeSize
  root : index.At index.root n
  allocated : 1 < n → index.keys.isSome

/-- The index is built for `n` segments, whose separators are `s`. -/
structure Separators (index : StaticIndex) (n : Nat) (s : Nat → Int) : Prop where
  sized : index.Sized n
  stored : ∀ i, i < n → index.getSeparatorKey i = s i

section Stores

variable {index : StaticIndex} {n : Nat}

/-- A successful `rebuild(n)` builds the index for `n` segments. -/
theorem rebuild_ok {index' : StaticIndex} {block : Option (Nat → Int)} {u : Unit}
    (base : 1 < index.nodeSize) (kept : 0 < index.height → index.keys.isSome)
    (ok : rebuild n block index = .ok u index') :
    index'.Sized n ∧ index'.nodeSize = index.nodeSize ∧ index'.keyMinimum = index.keyMinimum := by
  unfold rebuild at ok
  rcases bind_eq_ok.mp ok with ⟨_, _, raised, ok⟩
  rcases raiseIf_eq_ok.mp raised with ⟨positive, rfl⟩
  rcases bind_eq_ok.mp ok with ⟨_, _, got, ok⟩
  rcases get_eq_ok.mp got with ⟨rfl, rfl⟩
  rcases bind_eq_ok.mp ok with ⟨_, _, raised, ok⟩
  rcases raiseIf_eq_ok.mp raised with ⟨_, rfl⟩
  rcases bind_eq_ok.mp ok with ⟨_, sizedTree, resized, ok⟩
  have finish := modify_eq_ok.mp ok
  have spine := setRightmost_spine base (heightOf index.nodeSize n) (Nat.pos_of_ne_zero positive)
    le_rfl index.rightmost
  rcases runIf_eq_ok.mp resized with ⟨_, realloc⟩ | ⟨unchanged, rfl⟩
  · rcases bind_eq_ok.mp realloc with ⟨_, _, freed, realloc⟩
    obtain rfl := modify_eq_ok.mp freed
    rcases bind_eq_ok.mp realloc with ⟨_, _, raised, realloc⟩
    rcases raiseIf_eq_ok.mp raised with ⟨block_ne, rfl⟩
    obtain rfl := modify_eq_ok.mp realloc
    subst finish
    exact ⟨⟨base, ⟨fun _ => rfl, spine⟩, fun _ => Option.isSome_iff_ne_none.mpr block_ne⟩, rfl, rfl⟩
  · have height : heightOf index.nodeSize n = index.height := not_not.mp unchanged
    subst finish
    refine ⟨⟨base, ⟨fun _ => rfl, ?_⟩, fun several => kept ?_⟩, rfl, rfl⟩
    · change Spine _ _ index.height n
      rw [← height]
      exact spine
    · rw [← height]
      apply Nat.pos_of_ne_zero
      intro ground
      have single := eq_one_of_heightOf base (Nat.pos_of_ne_zero positive) ground
      omega

/-- When `rebuild` raises, and what it has changed by then. -/
theorem rebuild_cases {block : Option (Nat → Int)} (positive : 0 < n) :
    (rightmostSz < heightOf index.nodeSize n →
      rebuild n block index = .error .tooManyKeys index) ∧
    (heightOf index.nodeSize n ≤ rightmostSz →
      (heightOf index.nodeSize n ≠ index.height → block = none →
        rebuild n block index = .error .badAlloc { index with keys := none }) ∧
      (heightOf index.nodeSize n = index.height ∨ block ≠ none →
        ∃ index', rebuild n block index = .ok () index')) := by
  unfold rebuild
  refine ⟨fun high => ?_, fun fits => ⟨fun differs nothing => ?_, fun room => ?_⟩⟩
  · rw [bind_of_ok (raiseIf_of_neg (by omega)), bind_get, bind_of_error (raiseIf_of_pos high)]
  · rw [bind_of_ok (raiseIf_of_neg (by omega)), bind_get, bind_of_ok (raiseIf_of_neg (by omega)),
      bind_of_error]
    rw [runIf, if_pos differs]
    exact bind_of_ok rfl |>.trans (bind_of_error (raiseIf_of_pos nothing))
  · rw [bind_of_ok (raiseIf_of_neg (by omega)), bind_get, bind_of_ok (raiseIf_of_neg (by omega))]
    by_cases differs : heightOf index.nodeSize n = index.height
    · rw [runIf, if_neg (not_not.mpr differs)]
      exact ⟨_, rfl⟩
    · rw [runIf, if_pos differs, raiseIf, if_neg (room.resolve_left differs)]
      exact ⟨_, rfl⟩

@[simp] theorem getSlot_setSeparatorKey (i j : Nat) (key : Int) :
    (index.setSeparatorKey i key).getSlot j = index.getSlot j := by
  have slots : ∀ fuel c offset,
      (index.setSeparatorKey i key).slotFrom fuel c offset = index.slotFrom fuel c offset := by
    intro fuel
    induction fuel with
    | zero => exact fun _ _ => rfl
    | succ fuel ih =>
        intro c offset
        unfold slotFrom
        split
        · rfl
        · simp only [ih]
          congr 1
          unfold setSeparatorKey
          split <;> rfl
  unfold getSlot
  rw [slots]
  unfold setSeparatorKey
  split <;> rfl

theorem Sized.setSeparatorKey (sized : index.Sized n) (i : Nat) (key : Int) :
    (index.setSeparatorKey i key).Sized n := by
  unfold StaticIndex.setSeparatorKey
  split
  · exact ⟨sized.base, ⟨sized.root.subtreeSz, sized.root.shape⟩, sized.allocated⟩
  · exact ⟨sized.base, ⟨sized.root.subtreeSz, sized.root.shape⟩, fun several => by
      simpa using sized.allocated several⟩

/-- Storing a separator changes that separator and no other one. -/
theorem getSeparatorKey_setSeparatorKey (sized : index.Sized n) {i j : Nat} (hi : i < n)
    (hj : j < n) (key : Int) :
    (index.setSeparatorKey i key).getSeparatorKey j =
      if j = i then key else index.getSeparatorKey j := by
  unfold getSeparatorKey load
  rw [getSlot_setSeparatorKey]
  by_cases zeroI : i = 0
  · subst zeroI
    by_cases zeroJ : j = 0
    · simp [zeroJ, setSeparatorKey]
    · simp [zeroJ, setSeparatorKey]
  · by_cases zeroJ : j = 0
    · subst zeroJ
      simp [setSeparatorKey, zeroI, Ne.symm zeroI]
    · rcases Option.isSome_iff_exists.mp (sized.allocated (by omega)) with ⟨block, keys⟩
      simp only [setSeparatorKey, zeroI, zeroJ, if_false, keys, Option.map_some, Option.getD_some]
      by_cases same : j = i
      · simp [same]
      · rw [if_neg same, Function.update_of_ne]
        intro slots
        exact same (slotFrom_injective sized.base sized.root le_rfl (Nat.pos_of_ne_zero zeroJ) hj
          (Nat.pos_of_ne_zero zeroI) hi slots)

/-- Storing a separator updates the sequence of separators. -/
theorem Separators.set {s : Nat → Int} (separators : index.Separators n s) {i : Nat} (hi : i < n)
    (key : Int) : (index.setSeparatorKey i key).Separators n (Function.update s i key) := by
  refine ⟨separators.sized.setSeparatorKey i key, fun j hj => ?_⟩
  rw [getSeparatorKey_setSeparatorKey separators.sized hi hj, Function.update_apply]
  split
  · rfl
  · exact separators.stored j hj

/-- The search answers the last separator that satisfies `p`, or the first of all. -/
theorem Separators.search_eq {s : Nat → Int} (separators : index.Separators n s)
    (sorted : ∀ i j, i ≤ j → j < n → s i ≤ s j) {scan : Nat → Nat → Nat} {p : Int → Prop}
    [DecidablePred p] (downward : ∀ x y, x ≤ y → p y → p x)
    (scans : ∀ a r, scan a r ≤ r ∧ (0 < scan a r → p (index.load (a + scan a r - 1))) ∧
      (scan a r < r → ¬p (index.load (a + scan a r)))) :
    index.search scan = Nat.findGreatest (fun i => p (s i)) (n - 1) := by
  have stored : ∀ j, 0 < j → j < n → index.load (index.slotFrom index.height index.root j) = s j := by
    intro j pos inside
    have read := separators.stored j inside
    rwa [getSeparatorKey, if_neg (by omega)] at read
  rcases searchFrom_spec separators.sized.base downward scans separators.sized.root le_rfl stored
    (fun i j _ => sorted i j) 0 with ⟨i, result, inside, satisfied, maximal⟩
  change index.search scan = 0 + i at result
  rw [result, Nat.zero_add]
  symm
  rw [Nat.findGreatest_eq_iff]
  exact ⟨by omega, fun nonzero => satisfied (Nat.pos_of_ne_zero nonzero),
    fun j after inside' => maximal j after (by omega)⟩

/-- An upward scan of a node stops between the keys that satisfy `p` and the others. -/
theorem scans_scanUp (p : Int → Prop) [DecidablePred p] (a r : Nat) :
    scanUp (fun i => decide (p (index.load (a + i)))) 0 r ≤ r ∧
      (0 < scanUp (fun i => decide (p (index.load (a + i)))) 0 r →
        p (index.load (a + scanUp (fun i => decide (p (index.load (a + i)))) 0 r - 1))) ∧
      (scanUp (fun i => decide (p (index.load (a + i)))) 0 r < r →
        ¬p (index.load (a + scanUp (fun i => decide (p (index.load (a + i)))) 0 r))) := by
  rcases scanUp_spec (fun i => decide (p (index.load (a + i)))) 0 r with
    ⟨_, upper, passed, stopped⟩
  refine ⟨by omega, fun pos => ?_, fun more => ?_⟩
  · have last := passed _ (Nat.zero_le _) (Nat.sub_one_lt_of_lt pos)
    rw [Nat.add_sub_assoc pos]
    exact of_decide_eq_true last
  · exact of_decide_eq_false (stopped (by omega))

/-- A downward scan, that skips the keys that fail `p`, stops at the same place. -/
theorem scans_scanDown (p : Int → Prop) [DecidablePred p] (a r : Nat) :
    scanDown (fun i => decide ¬p (index.load (a + i))) r ≤ r ∧
      (0 < scanDown (fun i => decide ¬p (index.load (a + i))) r →
        p (index.load (a + scanDown (fun i => decide ¬p (index.load (a + i))) r - 1))) ∧
      (scanDown (fun i => decide ¬p (index.load (a + i))) r < r →
        ¬p (index.load (a + scanDown (fun i => decide ¬p (index.load (a + i))) r))) := by
  rcases scanDown_spec (fun i => decide ¬p (index.load (a + i))) r with ⟨upper, passed, stopped⟩
  refine ⟨upper, fun pos => ?_, fun more => ?_⟩
  · have last := stopped pos
    rw [Nat.add_sub_assoc pos]
    exact not_not.mp (of_decide_eq_false last)
  · exact of_decide_eq_true (passed _ le_rfl more)

/-- No separator satisfies a downward closed predicate that the first one fails. -/
theorem findGreatest_eq_zero {s : Nat → Int} (sorted : ∀ i j, i ≤ j → j < n → s i ≤ s j)
    {p : Int → Prop} [DecidablePred p] (downward : ∀ x y, x ≤ y → p y → p x) (positive : 0 < n)
    (fails : ¬p (s 0)) : Nat.findGreatest (fun i => p (s i)) (n - 1) = 0 := by
  rw [Nat.findGreatest_eq_zero_iff]
  exact fun j _ inside holds => fails (downward _ _ (sorted 0 j (Nat.zero_le j) (by omega)) holds)

/-- The three searches over separators in non-decreasing order. -/
theorem Separators.find_spec {s : Nat → Int} (separators : index.Separators n s)
    (sorted : ∀ i j, i ≤ j → j < n → s i ≤ s j) (key : Int) :
    (index.find key = if key ≤ s 0 then 0 else Nat.findGreatest (fun i => s i ≤ key) (n - 1)) ∧
      index.findFirst key = Nat.findGreatest (fun i => s i < key) (n - 1) ∧
      index.findLast key = Nat.findGreatest (fun i => s i ≤ key) (n - 1) := by
  have positive := (separators.sized.root.bounds separators.sized.base).1
  have minimum : index.keyMinimum = s 0 := separators.stored 0 positive
  have atMost : ∀ x y : Int, x ≤ y → y ≤ key → x ≤ key := fun _ _ => le_trans
  have below : ∀ x y : Int, x ≤ y → y < key → x < key := fun _ _ => lt_of_le_of_lt
  refine ⟨?_, ?_, ?_⟩
  · unfold find
    rw [minimum]
    by_cases easy : key ≤ s 0
    · rw [if_pos easy, if_pos easy]
    · rw [if_neg easy, if_neg easy]
      exact separators.search_eq sorted atMost (scans_scanUp (· ≤ key))
  · unfold findFirst
    rw [minimum]
    by_cases easy : key < s 0
    · rw [if_pos easy, findGreatest_eq_zero sorted below positive (by omega)]
    · rw [if_neg easy]
      exact separators.search_eq sorted below (scans_scanUp (· < key))
  · unfold findLast
    rw [minimum]
    by_cases easy : key < s 0
    · rw [if_pos easy, findGreatest_eq_zero sorted atMost positive (by omega)]
    · rw [if_neg easy]
      have search := separators.search_eq sorted atMost (scans_scanDown (· ≤ key))
      simpa only [not_le] using search

/-- Store separators in the given order. -/
def storeAll (index : StaticIndex) (stores : List (Nat × Int)) : StaticIndex :=
  stores.foldl (fun index e => index.setSeparatorKey e.1 e.2) index

/-- After a list of stores each segment has the separator stored last. -/
theorem storeAll_separators (sized : index.Sized n) {stores : List (Nat × Int)}
    (within : ∀ e ∈ stores, e.1 < n) :
    (index.storeAll stores).Separators n fun i =>
      (stores.reverse.lookup i).getD (index.getSeparatorKey i) := by
  induction stores using List.reverseRecOn with
  | nil => exact ⟨sized, fun i _ => rfl⟩
  | append_singleton stores e ih =>
      have stored := (ih fun x hx => within x (by simp [hx])).set (within e (by simp)) e.2
      unfold storeAll
      rw [List.foldl_concat]
      refine ⟨stored.sized, fun i hi => (stored.stored i hi).trans ?_⟩
      rw [Function.update_apply, List.reverse_concat, List.lookup_cons]
      by_cases same : i = e.1
      · simp [same]
      · rw [if_neg same, beq_eq_false_iff_ne.mpr same]

/-- The tree has a block of slots as soon as it has a level. -/
theorem Sized.allocated_of_height (sized : index.Sized n) (above : 0 < index.height) :
    index.keys.isSome := by
  apply sized.allocated
  have lower := (sized.root.bounds sized.base).2.2 above
  have one := Nat.one_le_pow (index.root.height - 1) index.nodeSize (by have := sized.base; omega)
  omega

/-- The constructor builds the index for the given number of segments. -/
theorem create_ok {nodeSize : Nat} {block : Option (Nat → Int)} {memory : StaticIndex} {u : Unit}
    (base : 2 ≤ nodeSize) (ok : create nodeSize n block memory = .ok u index) :
    index.Sized n := by
  unfold create at ok
  rcases bind_eq_ok.mp ok with ⟨_, _, raised, ok⟩
  rcases raiseIf_eq_ok.mp raised with ⟨_, rfl⟩
  rcases bind_eq_ok.mp ok with ⟨_, _, blanked, rebuilt⟩
  obtain rfl := set_eq_ok.mp blanked
  exact (@rebuild_ok (blank nodeSize) _ _ _ _ base (fun above => absurd above (lt_irrefl 0))
    rebuilt).1

/-- What a client does between the construction of the index and its searches. -/
inductive Op where
  | rebuild (n : Nat) (block : Option (Nat → Int))
  | setSeparatorKey (segmentId : Nat) (key : Int)

/-- One operation; undefined when it raises. -/
def step (index : StaticIndex) : Op → Option StaticIndex
  | .rebuild n block =>
    match StaticIndex.rebuild n block index with
    | .ok _ index' => some index'
    | .error _ _ => none
  | .setSeparatorKey segmentId key => some (index.setSeparatorKey segmentId key)

/-- The number of segments after an operation on an index for `n` segments. -/
def sizeAfter (n : Nat) : Op → Nat
  | .rebuild m _ => m
  | .setSeparatorKey _ _ => n

theorem Sized.step {op : Op} {index' : StaticIndex} (sized : index.Sized n)
    (stepped : index.step op = some index') : index'.Sized (sizeAfter n op) := by
  cases op with
  | rebuild m block =>
      simp only [StaticIndex.step] at stepped
      split at stepped
      next u rebuilt ok =>
        cases stepped
        exact (rebuild_ok sized.base sized.allocated_of_height ok).1
      next => cases stepped
  | setSeparatorKey segmentId key =>
      cases stepped
      exact sized.setSeparatorKey segmentId key

/-- Over a run the index stays built for the number of segments of the last rebuild. -/
theorem Sized.run {ops : List Op} {index' : StaticIndex} (sized : index.Sized n)
    (run : runFrom StaticIndex.step index ops = some index') :
    index'.Sized (ops.foldl sizeAfter n) := by
  induction ops generalizing index n with
  | nil =>
      cases run
      exact sized
  | cons op ops ih =>
      rcases runFrom_cons_eq_some.mp run with ⟨_, first, rest⟩
      exact ih (sized.step first) rest

end Stores

/-- **The searches are exact.** From the construction, after any rebuilds and
stores, the last rebuild being for `n` segments, and then stores that give the
segments the separators `s`, in non-decreasing order: `find` answers 0 for a key
that is at most the first separator and the last segment whose separator is at
most the key otherwise; `findFirst` and `findLast` answer the last segment whose
separator is below, respectively at most, the key, or 0 when there is none. -/
theorem find_exact {nodeSize n₀ : Nat} {block : Option (Nat → Int)}
    {memory created index : StaticIndex} {u : Unit} {ops : List Op} {stores : List (Nat × Int)}
    {s : Nat → Int} (base : 2 ≤ nodeSize)
    (construction : create nodeSize n₀ block memory = .ok u created)
    (run : runFrom step created ops = some index)
    (within : ∀ e ∈ stores, e.1 < ops.foldl sizeAfter n₀)
    (stored : ∀ i, i < ops.foldl sizeAfter n₀ → stores.reverse.lookup i = some (s i))
    (sorted : ∀ i j, i ≤ j → j < ops.foldl sizeAfter n₀ → s i ≤ s j) (key : Int) :
    let n := ops.foldl sizeAfter n₀
    let filled := index.storeAll stores
    (filled.find key = if key ≤ s 0 then 0 else Nat.findGreatest (fun i => s i ≤ key) (n - 1)) ∧
      filled.findFirst key = Nat.findGreatest (fun i => s i < key) (n - 1) ∧
      filled.findLast key = Nat.findGreatest (fun i => s i ≤ key) (n - 1) := by
  have separators := storeAll_separators ((create_ok base construction).run run) within
  apply Separators.find_spec ⟨separators.sized, fun i hi => ?_⟩ sorted
  rw [separators.stored i hi, stored i hi, Option.getD_some]

/-- Seven segments in nodes of three, stored from the last to the first: the key
3 occurs in three segments. -/
theorem find_exact_seven :
    ∃ u created index, create 3 2 (some fun _ => 0) (blank 3) = .ok u created ∧
      runFrom step created [.rebuild 7 (some fun _ => 0)] = some index ∧
      (index.storeAll [(6, 9), (5, 5), (4, 3), (3, 3), (2, 3), (1, 2), (0, 1)]).find 3 = 4 ∧
      (index.storeAll [(6, 9), (5, 5), (4, 3), (3, 3), (2, 3), (1, 2), (0, 1)]).findFirst 3 = 1 ∧
      (index.storeAll [(6, 9), (5, 5), (4, 3), (3, 3), (2, 3), (1, 2), (0, 1)]).findLast 3 = 4 := by
  have ⟨u, created, index, construction, run⟩ : ∃ u created index,
      create 3 2 (some fun _ => 0) (blank 3) = .ok u created ∧
      runFrom step created [.rebuild 7 (some fun _ => 0)] = some index :=
    ⟨_, _, _, rfl, rfl⟩
  have sorted : ∀ j < 7, ∀ i ≤ j,
      ([1, 2, 3, 3, 3, 5, 9] : List Int).getD i 0 ≤ [1, 2, 3, 3, 3, 5, 9].getD j 0 := by decide
  have searches := find_exact (by decide) construction run
    (show ∀ e ∈ [(6, 9), (5, 5), (4, 3), (3, 3), (2, 3), (1, 2), (0, 1)], e.1 < 7 by decide)
    (show ∀ i < 7, _ = some (([1, 2, 3, 3, 3, 5, 9] : List Int).getD i 0) by decide)
    (fun i j order inside => sorted j inside i order) 3
  exact ⟨u, created, index, construction, run, searches.1, searches.2.1, searches.2.2⟩

/-- **Slots never collide.** From the construction, after any rebuilds and stores, the last rebuild
being for `n` segments: the slots of the segments other than 0 are different positions of the block
of `nodeSize ^ height - 1` keys, and after any further stores each segment has the separator that
was stored last for it, or the one it had before. -/
theorem slots_distinct {nodeSize n₀ : Nat} {block : Option (Nat → Int)}
    {memory created index : StaticIndex} {u : Unit} {ops : List Op} (base : 2 ≤ nodeSize)
    (construction : create nodeSize n₀ block memory = .ok u created)
    (run : runFrom step created ops = some index) :
    let n := ops.foldl sizeAfter n₀
    (∀ i, 0 < i → i < n → index.getSlot i < index.nodeSize ^ index.height - 1) ∧
      (∀ i j, 0 < i → i < n → 0 < j → j < n → index.getSlot i = index.getSlot j → i = j) ∧
      ∀ stores : List (Nat × Int), (∀ e ∈ stores, e.1 < n) → ∀ i, i < n →
        (index.storeAll stores).getSeparatorKey i =
          (stores.reverse.lookup i).getD (index.getSeparatorKey i) := by
  have sized := (create_ok base construction).run run
  refine ⟨?_, ?_, ?_⟩
  · intro i pos inside
    have bounds := slotFrom_bounds sized.base index.height sized.root le_rfl pos inside
    have start : index.root.base = 0 := rfl
    rw [start, Nat.zero_add] at bounds
    exact bounds.2
  · intro i j posI insideI posJ insideJ same
    exact slotFrom_injective sized.base sized.root le_rfl posI insideI posJ insideJ same
  · intro stores within i inside
    exact (storeAll_separators sized within).stored i inside

/-- Seven segments in nodes of three, after an index for thirty. -/
theorem slots_distinct_seven :
    ∃ u created index, create 3 30 (some fun _ => 0) (blank 3) = .ok u created ∧
      runFrom step created [.rebuild 7 (some fun _ => 0)] = some index ∧
      (∀ i, 0 < i → i < 7 → index.getSlot i < 8) ∧
      (index.storeAll [(6, 9), (1, 2), (6, 8)]).getSeparatorKey 6 = 8 := by
  have ⟨u, created, index, construction, run, size⟩ : ∃ u created index,
      create 3 30 (some fun _ => 0) (blank 3) = .ok u created ∧
      runFrom step created [.rebuild 7 (some fun _ => 0)] = some index ∧
      index.nodeSize ^ index.height - 1 = 8 := ⟨_, _, _, rfl, rfl, by decide⟩
  have slots := slots_distinct (by decide) construction run
  rw [size] at slots
  exact ⟨u, created, index, construction, run, slots.1,
    slots.2.2 [(6, 9), (1, 2), (6, 8)] (by decide) 6 (by decide)⟩

end StaticIndex

end Rma
