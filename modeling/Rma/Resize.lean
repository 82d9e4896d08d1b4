import Rma.Logarithms
import Rma.Repack

/-!
# Full resize

`resize` copies the elements from the old segments to the new ones. The input and the output
advance at their own pace: a turn of the loop copies what is left of the input segment, or as
much of it as the output segment still takes, and merges the new element when it does not come
after the last element of this chunk.

`turn_spec` says what a turn takes off the elements to be written, which are those left in the
input with the new one among them (`mergeUp`). From it a segment gets its quota, and the segments
are filled one after the other.
-/

namespace Rma

open Base Rma.Partition

namespace Resize

/-! ## The loop -/

/-- Where the next input element is, and how many are left in its segment. -/
structure Input where
  segmentId : Nat
  segmentOdd : Bool
  size : Nat
  keys : Nat

/-- The variables of the loop. The element to insert is there while `do_insert` holds. -/
structure State where
  pma : PackedMemoryArray
  insert : Option (Int × Int)
  input : Input

/-- The position in the vector of the partitions. -/
structure PartitionState where
  index : Nat
  segment : Nat
  cardPerSegment : Nat
  oddSegments : Nat

/-- The first input segment that is not empty. -/
def firstInput (ix : Storage) : Input :=
  if ix.segmentSizes 0 = 0 then ⟨1, true, ix.segmentSizes 1, ix.segmentCapacity⟩
  else ⟨0, false, ix.segmentSizes 0, ix.segmentCapacity - ix.segmentSizes 0⟩

/-- Move to the next input segment, and past it if it is empty. -/
def nextInput (ix : Storage) (i : Input) : Input :=
  let id := i.segmentId + 1
  let odd := !i.segmentOdd
  if id < ix.numberSegments then
    let skips := ix.segmentSizes id = 0
    let id := if skips then id + 1 else id
    let odd := if skips then !odd else odd
    let size := if id < ix.numberSegments then ix.segmentSizes id else 0
    let offset := if odd then 0 else ix.segmentCapacity - size
    ⟨id, odd, size, id * ix.segmentCapacity + offset⟩
  else ⟨id, odd, i.size, i.keys⟩

namespace State

/-- The element to be merged with the next `cpy1` ones. -/
def merges (ix : Storage) (cpy1 : Nat) (s : State) : Option (Option (Int × Int)) :=
  match s.insert with
  | none => some none
  | some e =>
    if s.input.size = 0 then some (some e)
    else (ix.readKey (s.input.keys + cpy1 - 1)).map fun last => if e.1 ≤ last then some e else none

/-- Copy `n` elements and the new one; `start` is the first cell of the segment `j`. -/
def merge (ix : Storage) (j start output n : Nat) (e : Int × Int) (s : State) : Option State :=
  (ix.readRun s.input.keys n).map fun l =>
    let inserted := spreadInsertUnsafe e l
    let storage := s.pma.storage.write output inserted.1
    { s with
      pma := { s.pma with
        storage := storage.withCardinality (uint32 (storage.cardinality + 1 : Nat))
        index := if inserted.2 = 0 ∧ output = start then s.pma.index.setSeparatorKey j e.1
          else s.pma.index }
      insert := none }

/-- Copy `n` elements. -/
def copy (ix : Storage) (output n : Nat) (s : State) : Option State :=
  (ix.readRun s.input.keys n).map fun l =>
    { s with pma := { s.pma with storage := s.pma.storage.write output l } }

/-- The input after `n` of its elements were copied. -/
def advance (ix : Storage) (n : Nat) (s : State) : State :=
  let input := { s.input with size := s.input.size - n, keys := s.input.keys + n }
  { s with input := if input.size = 0 then nextInput ix input else input }

/-- One turn of the inner loop, and the number of elements that it writes. -/
def turn (ix : Storage) (j start output elementsToCopy : Nat) (s : State) :
    Option (State × Nat) := do
  let cpy1 := min elementsToCopy s.input.size
  match ← s.merges ix cpy1 with
  | some e =>
    let inputCopied := cpy1 - 1
    let s ← s.merge ix j start output inputCopied e
    some (s.advance ix inputCopied, inputCopied + 1)
  | none =>
    let s ← s.copy ix output cpy1
    some (s.advance ix cpy1, cpy1)

/-- The inner loop, and the position after the last element written. Each turn writes an element
at least, so `fuel` is the number of elements. -/
def copySegment (ix : Storage) (j start : Nat) :
    (fuel output elementsToCopy : Nat) → State → Option (State × Nat)
  | 0, _, _, _ => none
  | fuel + 1, output, elementsToCopy, s => do
    let (s, outputCopied) ← s.turn ix j start output elementsToCopy
    if elementsToCopy - outputCopied = 0 then some (s, output + outputCopied)
    else copySegment ix j start fuel (output + outputCopied) (elementsToCopy - outputCopied) s

/-- Insert the new element in a segment that has been filled. -/
def insertInto (j : Nat) (e : Int × Int) (s : State) : State :=
  let (storage, minimum, predecessor, successor) := s.pma.storage.insert j e.1 e.2
  { s with
    pma :=
      { storage := storage
        index := if minimum then s.pma.index.setSeparatorKey j e.1 else s.pma.index
        detector := s.pma.detector ++ [.insert j predecessor successor] }
    insert := none }

/-- `m_index.set_separator_key(j, input_keys[0])`, where the input is not empty. -/
def setSeparator (ix : Storage) (j : Nat) (s : State) : Option State :=
  if s.input.size > 0 then
    (ix.readKey s.input.keys).map fun key =>
      { s with pma := { s.pma with index := s.pma.index.setSeparatorKey j key } }
  else some s

/-- One turn of the outer loop. -/
def fillSegment (ix : Storage) (j : Nat) (odd : Bool) (elementsToCopy : Nat) (s : State) :
    Option State := do
  let offset := if odd then 0 else s.pma.storage.segmentCapacity - elementsToCopy
  let start := j * s.pma.storage.segmentCapacity + offset
  let s := { s with pma := { s.pma with storage := s.pma.storage.setSegmentSize j elementsToCopy } }
  let s ← s.setSeparator ix j
  let (s, output) ← s.copySegment ix j start elementsToCopy start elementsToCopy
  match s.insert with
  | some e => if e.1 < s.pma.storage.keys (output - 1) then some (s.insertInto j e) else some s
  | none => some s

end State

namespace PartitionState

def first (partitions : List Partition) : Option PartitionState :=
  partitions[0]?.map fun p => ⟨0, 0, p.cardinality / p.segments, p.cardinality % p.segments⟩

def elementsToCopy (ps : PartitionState) : Nat :=
  ps.cardPerSegment + if ps.segment < ps.oddSegments then 1 else 0

/-- Move to the next segment. -/
def next (partitions : List Partition) (ps : PartitionState) : Option PartitionState :=
  partitions[ps.index]?.map fun p =>
    if ps.segment + 1 ≥ p.segments then
      match partitions[ps.index + 1]? with
      | some p => ⟨ps.index + 1, 0, p.cardinality / p.segments, p.cardinality % p.segments⟩
      | none => { ps with index := ps.index + 1, segment := 0 }
    else { ps with segment := ps.segment + 1 }

end PartitionState

/-- The outer loop, from the segment `j` on, for `n` segments. -/
def fill (ix : Storage) (partitions : List Partition) :
    (n j : Nat) → (odd : Bool) → PartitionState → State → Option State
  | 0, _, _, _, s => some s
  | n + 1, j, odd, ps, s => do
    let s ← s.fillSegment ix j odd ps.elementsToCopy
    let ps ← ps.next partitions
    fill ix partitions n (j + 1) (!odd) ps s

end Resize

/-- `resize(action)`. The workspace has arbitrary cells and sizes, but for the mark in the second
size; `logs` are the heights that the index computes, and `block` is the memory that it gets. -/
def PackedMemoryArray.resize (p : PackedMemoryArray) (logs : Logarithms) (a : RebalanceAction)
    (cells : Nat → Int × Int) (sizes : Nat → Nat) (block : Option (Nat → Int)) :
    Option PackedMemoryArray :=
  let ix := p.storage
  let storage := { ix.withCells cells with segmentSizes := Function.update sizes 1 0 }
  match StaticIndex.rebuildIn logs a.windowLength block p.index with
  | none => none
  | some (.error _ _) => none
  | some (.ok _ index) => do
    let first ← Resize.PartitionState.first a.partitions
    let s ← Resize.fill ix a.partitions a.windowLength 0 false first
      ⟨⟨storage, index, p.detector⟩, a.toInsert, Resize.firstInput ix⟩
    let s := match s.insert with
      | some e => s.insertInto (a.windowLength - 1) e
      | none => s
    some { s.pma with storage := { s.pma.storage with numberSegments := a.windowLength } }

namespace Resize

/-! ## The input -/

/-- The elements of the segments from `i` on. -/
def rest (ix : Storage) (i : Nat) : List (Int × Int) :=
  (List.range' i (ix.numberSegments - i)).flatMap ix.segment

/-- The input stands where the elements `l` are left. -/
inductive Unread (ix : Storage) : Input → List (Int × Int) → Prop
  | inside (i n : Nat) : i < ix.numberSegments → 0 < n → n ≤ ix.segmentSizes i →
    Unread ix ⟨i, decide (i % 2 = 1), n, ix.stop i - n⟩
      (readCells ix.cell (ix.stop i - n) n ++ rest ix (i + 1))
  | finished (i : Nat) (odd : Bool) (keys : Nat) : ix.numberSegments ≤ i →
    Unread ix ⟨i, odd, 0, keys⟩ []

/-- No segment overflows, and at most one is empty. -/
structure Fit (ix : Storage) : Prop where
  sizes_le : ∀ i < ix.numberSegments, ix.segmentSizes i ≤ ix.segmentCapacity
  one_empty : ∀ i < ix.numberSegments, ∀ j < ix.numberSegments,
    ix.segmentSizes i = 0 → ix.segmentSizes j = 0 → i = j

section Reading

variable {ix : Storage} {s : State} {input : Input} {i n : Nat} {l : List (Int × Int)}

theorem rest_of_le (outside : ix.numberSegments ≤ i) : rest ix i = [] := by
  rw [rest, Nat.sub_eq_zero_of_le outside]
  rfl

theorem rest_succ (inside : i < ix.numberSegments) :
    rest ix i = ix.segment i ++ rest ix (i + 1) := by
  have count : ix.numberSegments - i = ix.numberSegments - (i + 1) + 1 := by omega
  rw [rest, count, List.range'_succ, List.flatMap_cons]
  rfl

theorem rest_of_empty (inside : i < ix.numberSegments) (empty : ix.segmentSizes i = 0) :
    rest ix i = rest ix (i + 1) := by
  have none : ix.segment i = [] := List.eq_nil_of_length_eq_zero (by simpa using empty)
  rw [rest_succ inside, none, List.nil_append]

theorem rest_zero : rest ix 0 = ix.elements := by
  rw [rest, Storage.elements, Storage.positions, List.map_flatMap, List.range_eq_range',
    Nat.sub_zero]
  rfl

/-- The input at the beginning of a segment. -/
theorem Unread.whole (fit : Fit ix) (inside : i < ix.numberSegments)
    (nonempty : ix.segmentSizes i ≠ 0) {odd : Bool} (parity : odd = decide (i % 2 = 1)) :
    Unread ix ⟨i, odd, ix.segmentSizes i,
      i * ix.segmentCapacity + if odd then 0 else ix.segmentCapacity - ix.segmentSizes i⟩
      (rest ix i) := by
  have bounds := Storage.layout (fit.sizes_le i inside)
  have size := fit.sizes_le i inside
  have start : i * ix.segmentCapacity + (if odd then 0 else
      ix.segmentCapacity - ix.segmentSizes i) = ix.stop i - ix.segmentSizes i := by
    have whole : (i + 1) * ix.segmentCapacity = i * ix.segmentCapacity + ix.segmentCapacity :=
      Nat.succ_mul i _
    subst parity
    unfold Storage.stop
    by_cases even : i % 2 = 0
    · rw [if_pos even, if_neg (by simp [even])]
      omega
    · rw [if_neg even, if_pos (by simp; omega)]
      omega
  rw [start, parity, rest_succ inside, Storage.segment_eq_readCells,
    show ix.start i = ix.stop i - ix.segmentSizes i by omega]
  exact Unread.inside i _ inside (Nat.pos_of_ne_zero nonempty) le_rfl

theorem not_parity (i : Nat) : (!decide (i % 2 = 1)) = decide ((i + 1) % 2 = 1) := by
  rw [← decide_not, decide_eq_decide]
  omega

/-- After a segment the input stands at the next one that is not empty. -/
theorem nextInput_unread (fit : Fit ix) (keys : Nat) :
    Unread ix (nextInput ix ⟨i, decide (i % 2 = 1), 0, keys⟩) (rest ix (i + 1)) := by
  unfold nextInput
  simp only
  by_cases inside : i + 1 < ix.numberSegments
  · rw [if_pos inside]
    by_cases empty : ix.segmentSizes (i + 1) = 0
    · -- at most one segment is empty, so the one after it is not
      simp only [if_pos empty, not_parity, rest_of_empty inside empty]
      by_cases second : i + 1 + 1 < ix.numberSegments
      · simp only [if_pos second]
        apply Unread.whole fit second _ rfl
        intro also
        have same := fit.one_empty _ inside _ second empty also
        omega
      · rw [rest_of_le (not_lt.mp second), if_neg second]
        exact Unread.finished _ _ _ (not_lt.mp second)
    · simp only [if_neg empty, if_pos inside, not_parity]
      exact Unread.whole fit inside empty rfl
  · rw [if_neg inside, rest_of_le (not_lt.mp inside)]
    exact Unread.finished _ _ _ (not_lt.mp inside)

theorem firstInput_unread (fit : Fit ix) (some : 0 < ix.numberSegments)
    (more : ix.segmentSizes 0 = 0 → 1 < ix.numberSegments) :
    Unread ix (firstInput ix) ix.elements := by
  unfold firstInput
  rw [← rest_zero]
  by_cases empty : ix.segmentSizes 0 = 0
  · have second : ix.segmentSizes 1 ≠ 0 := by
      intro also
      exact absurd (fit.one_empty 0 some 1 (more empty) empty also) Nat.zero_ne_one
    have whole := Unread.whole fit (more empty) second rfl
    simp only [Nat.one_mod, decide_true, if_true, one_mul, Nat.add_zero] at whole
    rw [if_pos empty, rest_of_empty some empty]
    exact whole
  · have whole := Unread.whole fit some empty rfl
    simp only [Nat.zero_mod, zero_mul, Nat.zero_add] at whole
    rw [if_neg empty]
    exact whole

/-- A chunk of the segment is the beginning of what is left. -/
theorem Unread.split (unread : Unread ix input l) (le : n ≤ input.size) :
    ∃ l', l = readCells ix.cell input.keys n ++ l' := by
  cases unread with
  | inside i m inside positive bounded =>
      obtain ⟨k, rfl⟩ := Nat.exists_eq_add_of_le le
      exact ⟨readCells ix.cell (ix.stop i - (n + k) + n) k ++ rest ix (i + 1), by
        rw [readCells_add, List.append_assoc]⟩
  | finished i odd keys outside =>
      obtain rfl : n = 0 := Nat.le_zero.mp le
      exact ⟨[], rfl⟩

theorem Unread.eq_nil (unread : Unread ix input l) (empty : input.size = 0) : l = [] := by
  cases unread with
  | inside i m inside positive bounded => exact absurd empty positive.ne'
  | finished => rfl

theorem Unread.readRun (unread : Unread ix input l) (fit : Fit ix) (le : n ≤ input.size) :
    ix.readRun input.keys n = some (readCells ix.cell input.keys n) := by
  cases unread with
  | inside i m inside positive bounded =>
      have bounds := Storage.layout (fit.sizes_le i inside)
      dsimp only at le ⊢
      exact ix.readRun_eq inside (fit.sizes_le i inside) (by omega) (by omega)
  | finished i odd keys outside =>
      obtain rfl : n = 0 := Nat.le_zero.mp le
      exact if_pos (by simp)

theorem Unread.readKey (unread : Unread ix input l) (fit : Fit ix) (lt : n < input.size) :
    ix.readKey (input.keys + n) = some (ix.cell (input.keys + n)).1 := by
  cases unread with
  | inside i m inside positive bounded =>
      have bounds := Storage.layout (fit.sizes_le i inside)
      dsimp only at lt ⊢
      exact if_pos (Storage.occupied_of_segment inside (fit.sizes_le i inside) (by omega)
        (by omega))
  | finished i odd keys outside => exact absurd lt (Nat.not_lt_zero n)

/-- The input after a chunk. -/
theorem Unread.advance (unread : Unread ix s.input l) (fit : Fit ix) {l' : List (Int × Int)}
    (split : l = readCells ix.cell s.input.keys n ++ l') (le : n ≤ s.input.size) :
    Unread ix (s.advance ix n).input l' := by
  rcases s with ⟨pma, insert, input⟩
  unfold State.advance
  cases unread with
  | inside i m inside positive bounded =>
      have bounds := Storage.layout (fit.sizes_le i inside)
      obtain ⟨k, rfl⟩ := Nat.exists_eq_add_of_le (show n ≤ m from le)
      simp only [readCells_add, List.append_assoc, List.append_cancel_left_eq] at split
      simp only [Nat.add_sub_cancel_left]
      by_cases done : k = 0
      · subst done
        rw [if_pos rfl, ← split, readCells_zero, List.nil_append]
        exact nextInput_unread fit _
      · have place : ix.stop i - (n + k) + n = ix.stop i - k := by omega
        rw [if_neg done, ← split, place]
        exact Unread.inside i k inside (Nat.pos_of_ne_zero done) (by omega)
  | finished i odd keys outside =>
      obtain rfl : n = 0 := Nat.le_zero.mp le
      obtain rfl : [] = l' := split
      simp only [Nat.sub_self, if_true, nextInput]
      rw [if_neg (by omega)]
      exact Unread.finished _ _ _ (by omega)

end Reading

/-! ## A turn -/

/-- A step writes `out` at `output`, in the segment `j` whose first cell is `start`; the elements
left were `l`. -/
structure Copied (j start output : Nat) (out l : List (Int × Int)) (s s' : State) : Prop where
  storage : s'.pma.storage =
    (s.pma.storage.write output out).withCardinality s'.pma.storage.cardinality
  cardinality : counterAfter s'.insert s'.pma.storage.cardinality =
    counterAfter s.insert s.pma.storage.cardinality
  detector : s'.pma.detector = s.pma.detector
  insert : ∀ e, s'.insert = some e → s.insert = some e ∧ ∀ x ∈ out, x.1 < e.1
  index : (s'.pma.index = s.pma.index ∧ (output = start → out.head? = l.head?)) ∨
    output = start ∧ ∃ e, out.head? = some e ∧
      s'.pma.index = s.pma.index.setSeparatorKey j e.1

section Turns

variable {ix : Storage} {s s' s'' : State} {j start output n k : Nat}
  {l l' out out' : List (Int × Int)} {e : Int × Int}

/-- Two steps, the second one further right. -/
theorem Copied.trans (first : Copied j start output out l s s')
    (second : Copied j start (output + out.length) out' l' s' s'') (some : out ≠ [])
    (right : start ≤ output) : Copied j start output (out ++ out') l s s'' := by
  have positive := List.length_pos_iff.mpr some
  have head : (out ++ out').head? = out.head? := by
    cases out with
    | nil => exact absurd rfl some
    | cons => rfl
  constructor
  · have written := second.storage
    rw [first.storage, Storage.write_withCardinality, Storage.write_append] at written
    exact written
  · exact second.cardinality.trans first.cardinality
  · exact second.detector.trans first.detector
  · intro e left
    rcases second.insert e left with ⟨left', below'⟩
    rcases first.insert e left' with ⟨left, below⟩
    exact ⟨left, fun x member => (List.mem_append.mp member).elim (below x) (below' x)⟩
  · rcases second.index with ⟨same, _⟩ | ⟨at_, _⟩
    · rw [same, head]
      exact first.index
    · omega

/-- What a turn does when it copies the chunk. -/
theorem copy_spec (j start output : Nat) (unread : Unread ix s.input l) (fit : Fit ix)
    (le : n ≤ s.input.size)
    (positive : 0 < n) (split : l = readCells ix.cell s.input.keys n ++ l')
    (below : ∀ e, s.insert = some e → ∀ x ∈ readCells ix.cell s.input.keys n, x.1 < e.1) :
    ∃ s', s.copy ix output n = some s' ∧
      Copied j start output (readCells ix.cell s.input.keys n) l s (s'.advance ix n) ∧
      Unread ix (s'.advance ix n).input l' ∧ (s'.advance ix n).insert = s.insert := by
  unfold State.copy
  rw [unread.readRun fit le, Option.map_some]
  refine ⟨_, rfl, ⟨rfl, rfl, rfl, fun e left => ⟨left, below e left⟩, Or.inl ⟨rfl, ?_⟩⟩, ?_, rfl⟩
  · intro _
    rw [split]
    obtain ⟨m, rfl⟩ := Nat.exists_eq_add_one_of_ne_zero positive.ne'
    rw [readCells_succ]
    rfl
  · exact unread.advance fit split le

/-- What a turn does when it merges the new element. -/
theorem merge_spec (j start output : Nat) (unread : Unread ix s.input l) (fit : Fit ix)
    (le : n ≤ s.input.size)
    (inserting : s.insert = some e) (split : l = readCells ix.cell s.input.keys n ++ l') :
    ∃ s', s.merge ix j start output n e = some s' ∧
      Copied j start output (insertUp e (readCells ix.cell s.input.keys n)) l s
        (s'.advance ix n) ∧
      Unread ix (s'.advance ix n).input l' ∧ (s'.advance ix n).insert = none := by
  unfold State.merge
  rw [unread.readRun fit le, Option.map_some]
  refine ⟨_, rfl, ⟨rfl, ?_, rfl, ?_, ?_⟩, unread.advance fit split le, rfl⟩
  · rw [inserting]
    rfl
  · exact fun _ left => absurd left (Option.some_ne_none _).symm
  · rcases exists_insertUp_split e (readCells ix.cell s.input.keys n) with
      ⟨l₁, l₂, parts, less, head⟩
    have place := insertUp_split less head
    rw [← parts] at place
    rw [place.2]
    simp only [State.advance, spreadInsertUnsafe, place.1]
    cases l₁ with
    | nil =>
        -- the new element comes first
        by_cases at_ : output = start
        · exact Or.inr ⟨at_, e, rfl, if_pos ⟨rfl, at_⟩⟩
        · exact Or.inl ⟨if_neg fun both => at_ both.2, fun also => absurd also at_⟩
    | cons x l₁ =>
        refine Or.inl ⟨if_neg fun both => absurd both.1 (Nat.succ_ne_zero _), fun _ => ?_⟩
        rw [split, parts]
        rfl

/-- Whether a turn merges: the new element is not greater than the last one of the chunk, or
there is no chunk. -/
theorem merges_spec (unread : Unread ix s.input l) (fit : Fit ix) (sorted : SortedPairs l)
    (le : n ≤ s.input.size) (positive : s.input.size ≠ 0 → 0 < n) :
    (∃ e l', s.insert = some e ∧ s.merges ix n = some (some e) ∧
      l = readCells ix.cell s.input.keys (n - 1) ++ l' ∧ ∀ x, l'.head? = some x → e.1 ≤ x.1) ∨
    s.merges ix n = some none ∧ ∀ e, s.insert = some e →
      0 < n ∧ ∀ x ∈ readCells ix.cell s.input.keys n, x.1 < e.1 := by
  unfold State.merges
  cases inserting : s.insert with
  | none => exact Or.inr ⟨rfl, fun _ none => absurd none (Option.some_ne_none _).symm⟩
  | some e =>
      simp only
      by_cases empty : s.input.size = 0
      · obtain rfl := unread.eq_nil empty
        obtain rfl : n = 0 := by omega
        exact Or.inl ⟨e, [], rfl, if_pos empty, rfl, fun _ none => absurd none (by simp)⟩
      · obtain ⟨m, rfl⟩ := Nat.exists_eq_add_one_of_ne_zero (positive empty).ne'
        obtain ⟨l', split⟩ := unread.split le
        have last : readCells ix.cell s.input.keys (m + 1) =
            readCells ix.cell s.input.keys m ++ [ix.cell (s.input.keys + m)] := readCells_add
        rw [last] at split ⊢
        rw [if_neg empty, ← Nat.add_assoc, Nat.add_sub_cancel, unread.readKey fit (by omega),
          Option.map_some, Nat.add_sub_cancel]
        by_cases merges : e.1 ≤ (ix.cell (s.input.keys + m)).1
        · rw [if_pos merges]
          refine Or.inl ⟨e, ix.cell (s.input.keys + m) :: l', rfl, rfl, by rw [split]; simp, ?_⟩
          intro x first
          cases first
          exact merges
        · rw [if_neg merges]
          refine Or.inr ⟨rfl, fun _ same => ?_⟩
          cases same
          refine ⟨Nat.succ_pos m, fun x member => ?_⟩
          rw [split] at sorted
          have chunk := (SortedPairs.append_iff.mp (SortedPairs.append_iff.mp sorted).1).2.2
          rcases List.mem_append.mp member with before | same
          · exact lt_of_le_of_lt (chunk x before _ (by simp)) (not_le.mp merges)
          · rw [List.mem_singleton.mp same]
            exact not_le.mp merges

/-- A turn takes some elements off those to be written. -/
theorem turn_spec (j start output : Nat) (unread : Unread ix s.input l) (fit : Fit ix)
    (sorted : SortedPairs l) (positive : 0 < k) (enough : k ≤ (mergeUp s.insert l).length) :
    ∃ s' out l', s.turn ix j start output k = some (s', out.length) ∧ out ≠ [] ∧
      out.length ≤ k ∧ Unread ix s'.input l' ∧
      mergeUp s.insert l = out ++ mergeUp s'.insert l' ∧ l' <:+ l ∧
      Copied j start output out l s s' := by
  unfold State.turn
  have le : min k s.input.size ≤ s.input.size := min_le_right _ _
  have bounded : min k s.input.size ≤ k := min_le_left _ _
  have some_of_size : s.input.size ≠ 0 → 0 < min k s.input.size := by omega
  generalize min k s.input.size = cpy1 at *
  rcases merges_spec unread fit sorted le some_of_size with
    ⟨e, l', inserting, merges, split, above⟩ | ⟨merges, below⟩
  · have size : cpy1 - 1 ≤ s.input.size := by omega
    rcases merge_spec j start output unread fit size inserting split with
      ⟨s', run, copied, unread', done⟩
    have length : (insertUp e (readCells ix.cell s.input.keys (cpy1 - 1))).length =
        cpy1 - 1 + 1 := by
      rw [length_insertUp, length_readCells]
    refine ⟨_, _, l', ?_, ?_, ?_, unread', ?_, ⟨_, split.symm⟩, copied⟩
    · rw [length]
      simp only [merges, run, Option.bind_eq_bind, Option.bind_some]
    · exact List.ne_nil_of_length_pos (by omega)
    · omega
    · rw [done, inserting, mergeUp_some, mergeUp_none, split, insertUp_append_right _ above]
  · have size : 0 < cpy1 := by
      cases inserting : s.insert with
      | none =>
          apply some_of_size
          intro empty
          rw [inserting, unread.eq_nil empty] at enough
          exact absurd enough (by simp; omega)
      | some e => exact (below e inserting).1
    obtain ⟨l', split⟩ := unread.split le
    rcases copy_spec j start output unread fit le size split
      (fun e inserting => (below e inserting).2) with ⟨s', run, copied, unread', kept⟩
    refine ⟨_, _, l', ?_, ?_, ?_, unread', ?_, ⟨_, split.symm⟩, copied⟩
    · rw [length_readCells]
      simp only [merges, run, Option.bind_eq_bind, Option.bind_some]
    · exact List.ne_nil_of_length_pos (by simpa using size)
    · simpa using bounded
    · rw [kept]
      cases inserting : s.insert with
      | none => exact split
      | some e =>
          rw [mergeUp_some, mergeUp_some, split,
            insertUp_append_left _ (below e inserting).2]

/-- The inner loop takes as many elements off those to be written as it is asked for. -/
theorem copySegment_spec (j : Nat) {start : Nat} (output : Nat) {fuel : Nat}
    (unread : Unread ix s.input l)
    (fit : Fit ix) (sorted : SortedPairs l) (positive : 0 < k)
    (enough : k ≤ (mergeUp s.insert l).length) (fueled : k ≤ fuel) (right : start ≤ output) :
    ∃ s' out l', s.copySegment ix j start fuel output k = some (s', output + k) ∧
      out.length = k ∧ Unread ix s'.input l' ∧
      mergeUp s.insert l = out ++ mergeUp s'.insert l' ∧ l' <:+ l ∧
      Copied j start output out l s s' := by
  induction fuel generalizing s l output k with
  | zero => omega
  | succ fuel ih =>
      rcases turn_spec j start output unread fit sorted positive enough with
        ⟨s₁, out, l₁, run, some, le, unread₁, split, suffix, copied⟩
      have progress := List.length_pos_iff.mpr some
      by_cases done : k - out.length = 0
      · have length : out.length = k := by omega
        refine ⟨s₁, out, l₁, ?_, length, unread₁, split, suffix, copied⟩
        simp only [State.copySegment, run, Option.bind_eq_bind, Option.bind_some, length,
          Nat.sub_self, if_true]
      · have sorted₁ : SortedPairs l₁ := List.Pairwise.sublist suffix.sublist sorted
        have enough₁ : k - out.length ≤ (mergeUp s₁.insert l₁).length := by
          have length := congrArg List.length split
          rw [List.length_append] at length
          omega
        rcases ih (output + out.length) unread₁ sorted₁ (by omega) enough₁ (by omega)
          (by omega) with ⟨s₂, out₂, l₂, run₂, length₂, unread₂, split₂, suffix₂, copied₂⟩
        have whole : output + out.length + (k - out.length) = output + k := by omega
        refine ⟨s₂, out ++ out₂, l₂, ?_, ?_, unread₂, ?_, suffix₂.trans suffix,
          copied.trans copied₂ some right⟩
        · simp only [State.copySegment, run, Option.bind_eq_bind, Option.bind_some, if_neg done,
            run₂, whole]
        · rw [List.length_append]
          omega
        · rw [split, split₂, List.append_assoc]

/-- The separator is the first element left in the input. -/
theorem setSeparator_spec (j : Nat) (unread : Unread ix s.input l) (fit : Fit ix) :
    ∃ index, s.setSeparator ix j = some { s with pma := { s.pma with index := index } } ∧
      (index = s.pma.index ∧ l = [] ∨
        ∃ e, l.head? = some e ∧ index = s.pma.index.setSeparatorKey j e.1) := by
  unfold State.setSeparator
  by_cases some : s.input.size > 0
  · have read := unread.readKey fit some
    obtain ⟨l', split⟩ := unread.split (n := 1) some
    rw [Nat.add_zero] at read
    rw [if_pos some, read]
    refine ⟨_, rfl, Or.inr ⟨_, ?_, rfl⟩⟩
    rw [split]
    rfl
  · rw [if_neg some]
    exact ⟨_, rfl, Or.inl ⟨rfl, unread.eq_nil (by omega)⟩⟩

/-- A turn of the outer loop gives a segment its quota. -/
theorem fillSegment_spec {N : Nat} {odd : Bool} (sized : s.pma.index.Sized N) (inside : j < N)
    (parity : odd = decide (j % 2 = 1)) (unread : Unread ix s.input l) (fit : Fit ix)
    (sorted : SortedPairs l) (positive : 0 < k) (fits : k ≤ s.pma.storage.segmentCapacity)
    (enough : k ≤ (mergeUp s.insert l).length) :
    ∃ s' out l', s.fillSegment ix j odd k = some s' ∧ out.length = k ∧ Unread ix s'.input l' ∧
      mergeUp s.insert l = out ++ mergeUp s'.insert l' ∧ l' <:+ l ∧
      s'.pma.Packed j [k] out ∧ PackedMemoryArray.Frame N s.pma s'.pma j 1 ∧
      counterAfter s'.insert s'.pma.storage.cardinality =
        counterAfter s.insert s.pma.storage.cardinality ∧
      s'.pma.detector = s.pma.detector := by
  have start : j * s.pma.storage.segmentCapacity +
      (if odd then 0 else s.pma.storage.segmentCapacity - k) =
      (s.pma.storage.setSegmentSize j k).start j := by
    have whole : (j + 1) * s.pma.storage.segmentCapacity =
        j * s.pma.storage.segmentCapacity + s.pma.storage.segmentCapacity := Nat.succ_mul j _
    unfold Storage.start
    rw [Storage.setSegmentSize_self, parity]
    by_cases even : j % 2 = 0
    · rw [if_pos even, if_neg (by simp [even])]
      change _ = (j + 1) * s.pma.storage.segmentCapacity - k
      omega
    · rw [if_neg even, if_pos (by simp; omega)]
      rfl
  let s₀ : State :=
    { s with pma := { s.pma with storage := s.pma.storage.setSegmentSize j k } }
  rcases setSeparator_spec (s := s₀) j unread fit with ⟨index, separated, first⟩
  rcases copySegment_spec (s := { s₀ with pma := { s₀.pma with index := index } }) j
    ((s.pma.storage.setSegmentSize j k).start j) unread fit sorted positive enough le_rfl
    le_rfl with ⟨s', out, l', run, length, unread', split, suffix, copied⟩
  obtain ⟨e, head⟩ : ∃ e, out.head? = some e := by
    cases out with
    | nil => exact absurd length positive.ne
    | cons e out => exact ⟨e, rfl⟩
  have stored : StaticIndex.Stored N s.pma.index s'.pma.index j e.1 := by
    rcases first with ⟨same, rfl⟩ | ⟨e₀, head₀, set⟩
    · rcases copied.index with ⟨_, none⟩ | ⟨_, e', head', set⟩
      · rw [none rfl] at head
        exact absurd head (by simp)
      · obtain rfl := Option.some.inj (head.symm.trans head')
        rw [set]
        change StaticIndex.Stored N s.pma.index (index.setSeparatorKey j e.1) j e.1
        rw [same]
        exact sized.stored inside e.1
    · have stored₀ := sized.stored inside e₀.1
      rw [← show index = s.pma.index.setSeparatorKey j e₀.1 from set] at stored₀
      rcases copied.index with ⟨same, first⟩ | ⟨_, e', head', set⟩
      · rw [first rfl] at head
        obtain rfl := Option.some.inj (head.symm.trans head₀)
        rw [same]
        exact stored₀
      · obtain rfl := Option.some.inj (head.symm.trans head')
        rw [set]
        exact stored₀.again inside e.1
  have written : s'.pma.Packed j [k] out ∧ PackedMemoryArray.Frame N s.pma s'.pma j 1 :=
    PackedMemoryArray.written copied.storage length fits head stored
  refine ⟨s', out, l', ?_, length, unread', split, suffix, written.1, written.2,
    copied.cardinality, copied.detector⟩
  -- an element that is still to be inserted is greater than the last one of the segment
  have last : ∀ e, s'.insert = some e →
      ¬e.1 < s'.pma.storage.keys ((s.pma.storage.setSegmentSize j k).start j + k - 1) := by
    intro e left
    have cells : readCells s'.pma.storage.cell ((s.pma.storage.setSegmentSize j k).start j) k =
        out := by
      rw [copied.storage, ← length]
      exact readCells_writeCells
    have member :
        s'.pma.storage.cell ((s.pma.storage.setSegmentSize j k).start j + k - 1) ∈ out := by
      rw [← cells, mem_readCells]
      exact ⟨_, by omega, by omega, rfl⟩
    exact not_lt.mpr ((copied.insert e left).2 _ member).le
  unfold State.fillSegment
  simp only [start]
  rw [separated]
  simp only [Option.bind_eq_bind, Option.bind_some]
  rw [run]
  simp only [Option.bind_some]
  cases left : s'.insert with
  | none => rfl
  | some e => exact if_neg (last e left)

end Turns

/-! ## The segments one after the other -/

/-- The position stands before the quotas `qs`. -/
inductive Remaining (partitions : List Partition) : PartitionState → List Nat → Prop
  | inside (pre : List Partition) (p : Partition) (post : List Partition) (segment : Nat) :
    partitions = pre ++ p :: post → segment < p.segments →
    Remaining partitions
      ⟨pre.length, segment, p.cardinality / p.segments, p.cardinality % p.segments⟩
      (p.sizes.drop segment ++ quotas post)
  | finished (ps : PartitionState) : Remaining partitions ps []

section Filling

variable {ix : Storage} {s : State} {partitions : List Partition} {ps : PartitionState}
  {q j N : Nat} {qs : List Nat} {l : List (Int × Int)} {odd : Bool}

theorem drop_sizes {p : Partition} {segment : Nat} (inside : segment < p.segments) :
    p.sizes.drop segment = p.size segment :: p.sizes.drop (segment + 1) := by
  rw [List.drop_eq_getElem_cons (by simpa using inside)]
  simp [sizes]

theorem Remaining.first (some : partitions ≠ []) (nonempty : ∀ p ∈ partitions, 0 < p.segments) :
    ∃ ps, PartitionState.first partitions = Option.some ps ∧
      Remaining partitions ps (quotas partitions) := by
  cases partitions with
  | nil => exact absurd rfl some
  | cons p partitions =>
      exact ⟨_, rfl, Remaining.inside [] p partitions 0 rfl (nonempty p (by simp))⟩

theorem Remaining.elementsToCopy_eq (remaining : Remaining partitions ps (q :: qs)) :
    ps.elementsToCopy = q := by
  generalize whole : q :: qs = all at remaining
  cases remaining with
  | inside pre p post segment parts inside =>
      rw [drop_sizes inside, List.cons_append, List.cons.injEq] at whole
      exact whole.1.symm
  | finished => exact absurd whole (List.cons_ne_nil _ _)

theorem Remaining.next (remaining : Remaining partitions ps (q :: qs))
    (nonempty : ∀ p ∈ partitions, 0 < p.segments) :
    ∃ ps', ps.next partitions = some ps' ∧ Remaining partitions ps' qs := by
  generalize whole : q :: qs = all at remaining
  cases remaining with
  | inside pre p post segment parts inside =>
      rw [drop_sizes inside, List.cons_append, List.cons.injEq] at whole
      have here : partitions[pre.length]? = some p := by
        rw [parts]
        exact getElem?_focus
      refine ⟨_, by rw [PartitionState.next, here, Option.map_some], ?_⟩
      rw [whole.2]
      simp only
      by_cases last : segment + 1 ≥ p.segments
      · rw [if_pos last, List.drop_eq_nil_of_le (by simpa using last), List.nil_append]
        cases post with
        | nil =>
            rw [parts]
            simpa [quotas] using Remaining.finished _
        | cons p' post =>
            have split : partitions = (pre ++ [p]) ++ p' :: post := by simp [parts]
            have there : partitions[pre.length + 1]? = some p' := by
              rw [split]
              simp
            have positive := nonempty p' (by simp [parts])
            have begins := Remaining.inside (pre ++ [p]) p' post 0 split
              positive
            rw [there]
            simpa [quotas] using begins
      · rw [if_neg last]
        exact Remaining.inside pre p post (segment + 1) parts (not_le.mp last)
  | finished => exact absurd whole (List.cons_ne_nil _ _)

/-- The outer loop fills the segments with the elements to be written. -/
theorem fill_spec (remaining : Remaining partitions ps qs)
    (nonempty : ∀ p ∈ partitions, 0 < p.segments) (parity : odd = decide (j % 2 = 1))
    (sized : s.pma.index.Sized N) (inside : j + qs.length ≤ N) (unread : Unread ix s.input l)
    (fit : Fit ix) (sorted : SortedPairs l)
    (fits : ∀ q ∈ qs, 0 < q ∧ q ≤ s.pma.storage.segmentCapacity)
    (total : (mergeUp s.insert l).length = qs.sum) :
    ∃ s', fill ix partitions qs.length j odd ps s = some s' ∧ s'.insert = none ∧
      s'.pma.Packed j qs (mergeUp s.insert l) ∧
      PackedMemoryArray.Frame N s.pma s'.pma j qs.length ∧
      s'.pma.storage.cardinality = counterAfter s.insert s.pma.storage.cardinality ∧
      s'.pma.detector = s.pma.detector := by
  induction qs generalizing j odd ps s l with
  | nil =>
      have none : mergeUp s.insert l = [] := List.eq_nil_of_length_eq_zero total
      have done : s.insert = Option.none := by
        cases inserting : s.insert with
        | none => rfl
        | some e => simp [inserting] at total
      refine ⟨s, rfl, done, ?_, PackedMemoryArray.Frame.refl sized, by simp [done], rfl⟩
      rw [none]
      exact PackedMemoryArray.Packed.nil _ _
  | cons q qs ih =>
      rw [List.length_cons] at inside
      rw [List.sum_cons] at total
      have quota := fits q (by simp)
      rcases fillSegment_spec (k := q) sized (by omega : j < N) parity unread fit sorted quota.1
        quota.2 (by omega) with
        ⟨s₁, out, l₁, run, length, unread₁, split, suffix, packed, frame, cardinality, detector⟩
      rcases remaining.next nonempty with ⟨ps₁, next, remaining₁⟩
      have total₁ : (mergeUp s₁.insert l₁).length = qs.sum := by
        have lengths := congrArg List.length split
        rw [List.length_append] at lengths
        omega
      have parity₁ : (!odd) = decide ((j + 1) % 2 = 1) := by
        rw [parity]
        exact not_parity j
      have fits₁ : ∀ q ∈ qs, 0 < q ∧ q ≤ s₁.pma.storage.segmentCapacity := by
        rw [frame.capacity]
        exact fun q member => fits q (by simp [member])
      rcases ih remaining₁ parity₁ frame.sized (by omega) unread₁
        (List.Pairwise.sublist suffix.sublist sorted) fits₁ total₁ with
        ⟨s₂, run₂, done, packed₂, frame₂, cardinality₂, detector₂⟩
      have kept := packed.frame frame₂ (by simp; omega) (Or.inl (by simp))
        (by simpa [frame.capacity] using quota)
      refine ⟨s₂, ?_, done, ?_, ?_, by omega, detector₂.trans detector⟩
      · simp only [List.length_cons, fill, remaining.elementsToCopy_eq, run, next, run₂,
          Option.bind_eq_bind, Option.bind_some]
      · rw [split]
        exact kept.append packed₂
      · exact (frame.mono le_rfl (by simp)).trans (frame₂.mono (by omega) (by simp; omega))

end Filling

/-! ## The resize -/

/-- What a resize is asked for: the array is sorted, at most one segment is empty, and none when an
element is to be inserted; the partitions are a layout of the elements in the new segments. -/
structure Resizable (p : PackedMemoryArray) (a : RebalanceAction) : Prop where
  sorted : p.storage.Sorted
  fit : Fit p.storage
  none_empty : a.isInsert = true → ∀ i < p.storage.numberSegments, 0 < p.storage.segmentSizes i
  nonempty : ∀ q ∈ a.partitions, 0 < q.segments
  segments : (a.partitions.map segments).sum = a.windowLength
  cardinality : (a.partitions.map Partition.cardinality).sum =
    p.storage.elements.length + a.toInsert.toList.length
  quotas : ∀ q ∈ quotas a.partitions, 0 < q ∧ q ≤ p.storage.segmentCapacity

/-- What a resize leaves: the elements with the new one among them, in segments of the sizes asked
for, whose minima are in the index. -/
structure Repacked (p : PackedMemoryArray) (a : RebalanceAction) (p' : PackedMemoryArray) :
    Prop where
  numberSegments : p'.storage.numberSegments = a.windowLength
  capacity : p'.storage.segmentCapacity = p.storage.segmentCapacity
  sizes : ∀ i < a.windowLength, p'.storage.segmentSizes i = (Partition.quotas a.partitions).getD i 0
  kept : a.toInsert = none → p'.storage.elements = p.storage.elements
  inserted : ∀ e, a.toInsert = some e → Inserted e p.storage.elements p'.storage.elements
  separators : p'.index.Separators a.windowLength p'.storage.getMinimum
  cardinality : p'.storage.cardinality = p.storage.cardinality + if a.isInsert then 1 else 0

/-- The array after a resize: the elements with the new one at a sorted position, in segments of the
sizes asked for whose minima are in the index. The detector is told of the segment that got the new
element, or not at all. -/
structure Written (p : PackedMemoryArray) (a : RebalanceAction) (l : List (Int × Int))
    (p' : PackedMemoryArray) : Prop where
  numberSegments : p'.storage.numberSegments = a.windowLength
  capacity : p'.storage.segmentCapacity = p.storage.segmentCapacity
  packed : p'.Packed 0 (quotas a.partitions) l
  gained : Gained a.toInsert p.storage.elements l
  sized : p'.index.Sized a.windowLength
  cardinality : p'.storage.cardinality = counterAfter a.toInsert p.storage.cardinality
  detector : p'.detector = p.detector ∨ ∃ segment < a.windowLength, ∃ predecessor successor,
    p'.detector = p.detector ++ [.insert segment predecessor successor]

section Writing

variable {p p' : PackedMemoryArray} {a : RebalanceAction} {l : List (Int × Int)}
  {index : StaticIndex} {logs : Logarithms}

theorem Resizable.length_quotas (request : Resizable p a) :
    (Partition.quotas a.partitions).length = a.windowLength :=
  (Partition.length_quotas _).trans request.segments

theorem Resizable.pairs (request : Resizable p a) : SortedPairs p.storage.elements := by
  have sorted := request.sorted
  rwa [Storage.Sorted, List.pairwise_map] at sorted

theorem Written.elements (written : Written p a l p') (request : Resizable p a) :
    p'.storage.elements = l := by
  have whole := PackedMemoryArray.elements_eq_block p'
  rw [whole, written.numberSegments, ← request.length_quotas]
  exact written.packed.elements

/-- What is written is a sorted repack, unless the counter has wrapped. -/
theorem Written.repacked (written : Written p a l p') (request : Resizable p a)
    (counter : counterAfter a.toInsert p.storage.cardinality =
      p.storage.cardinality + if a.isInsert then 1 else 0) : Repacked p a p' := by
  have length := request.length_quotas
  have elements := written.elements request
  have gained := written.gained
  refine ⟨written.numberSegments, written.capacity, ?_, ?_, ?_, ⟨written.sized, ?_⟩,
    written.cardinality.trans counter⟩
  · intro i inside
    have size := written.packed.sizes_eq i (by omega)
    rwa [Nat.zero_add] at size
  · intro none
    rw [none] at gained
    exact elements.trans gained.eq_of_none
  · intro e inserting
    rw [inserting] at gained
    rw [elements]
    exact gained.inserted
  · intro i inside
    have separator := written.packed.separators i (by omega)
    rwa [Nat.zero_add] at separator

/-- `resize` writes the elements that it is asked for. -/
theorem Resizable.writes {cells : Nat → Int × Int} {sizes : Nat → Nat}
    {block : Option (Nat → Int)} (request : Resizable p a)
    (sized : p.index.Sized p.storage.numberSegments)
    (rebuilt : StaticIndex.rebuildIn logs a.windowLength block p.index = some (.ok () index)) :
    ∃ p' l, p.resize logs a cells sizes block = some p' ∧ Written p a l p' := by
  have built := sized.rebuiltIn rebuilt
  have segments := (sized.root.bounds sized.base).1
  have positive := (built.root.bounds built.base).1
  have length := request.length_quotas
  have total : (mergeUp a.toInsert p.storage.elements).length =
      (Partition.quotas a.partitions).sum := by
    rw [length_mergeUp, sum_quotas request.nonempty, request.cardinality]
  have least : 0 < (Partition.quotas a.partitions).sum := by
    cases quota : Partition.quotas a.partitions with
    | nil =>
        rw [quota] at length
        exact absurd length positive.ne
    | cons q qs =>
        have first := (request.quotas q (by simp [quota])).1
        rw [List.sum_cons]
        omega
  -- the first segment is empty only where there is a second one
  have more : p.storage.segmentSizes 0 = 0 → 1 < p.storage.numberSegments := by
    intro empty
    by_contra single
    have one : p.storage.numberSegments = 1 := by omega
    have none : p.storage.elements = [] := by
      rw [PackedMemoryArray.elements_eq_block, one, PackedMemoryArray.block_one]
      exact List.eq_nil_of_length_eq_zero (by simpa using empty)
    cases inserting : a.isInsert with
    | true => exact absurd empty (request.none_empty inserting 0 segments).ne'
    | false =>
        rw [← total, none] at least
        simp [RebalanceAction.toInsert, inserting] at least
  have some : a.partitions ≠ [] := by
    intro none
    rw [none] at length
    exact absurd length positive.ne
  obtain ⟨ps, first, remaining⟩ := Remaining.first some request.nonempty
  rcases fill_spec (s := ⟨⟨{ p.storage.withCells cells with
      segmentSizes := Function.update sizes 1 0 }, index, p.detector⟩, a.toInsert,
      firstInput p.storage⟩) (j := 0) remaining request.nonempty (rfl : false = _) built
      (by rw [length, Nat.zero_add]) (firstInput_unread request.fit segments more) request.fit
      request.pairs request.quotas total with
    ⟨s, run, done, packed, frame, cardinality, detector⟩
  rw [length] at run
  refine ⟨{ s.pma with storage := { s.pma.storage with numberSegments := a.windowLength } }, _, ?_,
    rfl, frame.capacity, ⟨packed.sizes_eq, packed.elements, packed.separators⟩, ?_, frame.sized,
    cardinality, Or.inl detector⟩
  · unfold PackedMemoryArray.resize
    rw [rebuilt]
    simp only [first, run, done, Option.bind_eq_bind, Option.bind_some]
  · cases a.toInsert with
    | none => exact Gained.nothing _
    | some e => exact Gained.pair (insertUp_inserted request.pairs)

end Writing

end Resize

open Resize

namespace PackedMemoryArray

end PackedMemoryArray

end Rma
