import Rma.Base.Pieces
import Rma.Base.Slice
import Rma.Repack

/-!
# Saving a window

`spread_save` writes elements from an array to the segments of a window, each of which gets an
even share. The first segment is written on its own when it is an odd one, then the pairs of an
even segment and the next one, and last an even segment that is left.

The first step copies as many more elements as there are larger segments, instead of one more.
`Saved` says what has been written so far, one segment or pair at a time, and `tail_spec` what
the steps after the first write wherever they start to read.
-/

namespace Rma

open Base

/-- `spread_detector_record`: where the new key is among the elements, and its neighbours. -/
structure SpreadDetectorRecord where
  position : Int
  predecessor : Int
  successor : Int
  deriving DecidableEq, Repr

namespace SpreadSave

/-! ## The code -/

/-- The call of the detector, when the record is of one of the elements to save. -/
def notify (detector : List Detector.Call) (record : Option SpreadDetectorRecord)
    (cardinality : Nat) (segmentOf : Nat → Nat) : List Detector.Call :=
  match record with
  | none => detector
  | some r =>
    if 0 ≤ r.position ∧ r.position < cardinality then
      detector ++ [.insert (segmentOf r.position.toNat) r.predecessor r.successor]
    else detector

/-- `for(size_t i = first; i < first + n; i++) segment_sizes[i] = k` -/
def fillSizes (s : Storage) (first n k : Nat) : Storage :=
  (List.range' first n).foldl (fun s i => s.setSegmentSize i k) s

/-- The segment of a position, counted from the start of the window. -/
def segmentOf (cardPerSegment oddSegments position : Nat) : Nat :=
  let threshold := oddSegments * (cardPerSegment + 1)
  if position < threshold then position / (cardPerSegment + 1)
  else oddSegments + (position - threshold) / cardPerSegment

/-- The local variables of `spread_save` on a window, and what it writes to. -/
structure State where
  pma : PackedMemoryArray
  windowStart : Nat
  windowLength : Nat
  keysTo : Nat
  keysFrom : Nat
  oddSegments : Nat

namespace State

variable (input : List (Int × Int)) (cardPerSegment : Nat)

/-- Copy the first segment if it's at an odd position. -/
def first (s : State) : Option State :=
  if s.windowStart % 2 = 1 then do
    let thisCard := cardPerSegment + s.oddSegments
    let l ← slice input s.keysFrom thisCard
    let storage := s.pma.storage.write s.keysTo l
    some
      { pma :=
          { s.pma with
            storage := storage
            index := s.pma.index.setSeparatorKey s.windowStart (storage.keys s.keysTo) }
        windowStart := s.windowStart + 1
        windowLength := s.windowLength - 1
        keysTo := s.keysTo + s.pma.storage.segmentCapacity
        keysFrom := s.keysFrom + thisCard
        oddSegments := s.oddSegments - 1 }
  else some s

/-- One turn of the loop over the pairs. -/
def pair (i : Nat) (s : State) : Option State := do
  let cardLeft := cardPerSegment + if i - 1 < s.oddSegments then 1 else 0
  let cardRight := cardPerSegment + if i < s.oddSegments then 1 else 0
  let length := cardLeft + cardRight
  let offset := i * s.pma.storage.segmentCapacity - cardLeft
  let left ← input[s.keysFrom]?
  let index := s.pma.index.setSeparatorKey (s.windowStart + i - 1) left.1
  let right ← input[s.keysFrom + cardLeft]?
  let index := index.setSeparatorKey (s.windowStart + i) right.1
  let l ← slice input s.keysFrom length
  some
    { s with
      pma := { s.pma with storage := s.pma.storage.write (s.keysTo + offset) l, index := index }
      keysFrom := s.keysFrom + length }

/-- Copy the bulk segments, from the pair at `i - 1` on; `fuel` bounds the turns. -/
def bulk : (fuel i : Nat) → State → Option State
  | 0, _, s => some s
  | fuel + 1, i, s =>
    if i < s.windowLength then do
      let s ← s.pair input cardPerSegment i
      bulk fuel (i + 2) s
    else some s

/-- Copy the last segment, if it's at an even position. -/
def last (s : State) : Option PackedMemoryArray :=
  if s.windowLength % 2 = 1 then do
    let offset := s.windowLength * s.pma.storage.segmentCapacity - cardPerSegment
    let first ← input[s.keysFrom]?
    let index := s.pma.index.setSeparatorKey (s.windowStart + s.windowLength - 1) first.1
    let l ← slice input s.keysFrom cardPerSegment
    some { s.pma with storage := s.pma.storage.write (s.keysTo + offset) l, index := index }
  else some s.pma

end State

end SpreadSave

namespace PackedMemoryArray

open SpreadSave

/-- `spread_save` of one segment, with the elements from a position of the input on. -/
def spreadSave (p : PackedMemoryArray) (segmentId : Nat) (input : List (Int × Int))
    (keysFrom cardinality : Nat) (record : Option SpreadDetectorRecord) :
    Option PackedMemoryArray := do
  let capacity := p.storage.segmentCapacity
  let keysTo := segmentId * capacity + if segmentId % 2 = 0 then capacity - cardinality else 0
  let l ← slice input keysFrom cardinality
  let first ← input[keysFrom]?
  some
    { storage := (p.storage.write keysTo l).setSegmentSize segmentId cardinality
      index := p.index.setSeparatorKey segmentId first.1
      detector := notify p.detector record cardinality fun _ => segmentId }

/-- `spread_save` of a window, with the elements from a position of the input on. -/
def spreadSaveWindow (p : PackedMemoryArray) (windowStart windowLength : Nat)
    (input : List (Int × Int)) (keysFrom cardinality : Nat)
    (record : Option SpreadDetectorRecord) : Option PackedMemoryArray := do
  let cardPerSegment := cardinality / windowLength
  let oddSegments := cardinality % windowLength
  let detector := notify p.detector record cardinality fun position =>
    windowStart + segmentOf cardPerSegment oddSegments position
  let storage := fillSizes p.storage windowStart oddSegments (cardPerSegment + 1)
  let storage := fillSizes storage (windowStart + oddSegments) (windowLength - oddSegments)
    cardPerSegment
  let s : State :=
    { pma := ⟨storage, p.index, detector⟩
      windowStart := windowStart
      windowLength := windowLength
      keysTo := windowStart * p.storage.segmentCapacity
      keysFrom := keysFrom
      oddSegments := oddSegments }
  let s ← s.first input cardPerSegment
  let s ← s.bulk input cardPerSegment s.windowLength 1
  s.last input cardPerSegment

end PackedMemoryArray

namespace SpreadSave

open PackedMemoryArray Rma.Partition

/-! ## What is written -/

theorem fillSizes_eq (s : Storage) (first n k : Nat) : fillSizes s first n k =
    { s with segmentSizes := fun j =>
        if first ≤ j ∧ j < first + n then k else s.segmentSizes j } := by
  induction n generalizing s first with
  | zero =>
      have none : ∀ j, ¬(first ≤ j ∧ j < first + 0) := fun j => by omega
      simp only [none, if_false]
      rfl
  | succ n ih =>
      have step : fillSizes s first (n + 1) k =
          fillSizes (s.setSegmentSize first k) (first + 1) n k := rfl
      rw [step, ih]
      unfold Storage.setSegmentSize
      congr 1
      funext j
      dsimp only
      by_cases here : j = first
      · subst here
        rw [if_neg (by omega), if_pos (by omega), Function.update_self]
      · rw [Function.update_of_ne here]
        by_cases inside : first + 1 ≤ j ∧ j < first + 1 + n
        · rw [if_pos inside, if_pos (by omega)]
        · rw [if_neg inside, if_neg (by omega)]

/-- The segments from `first` on, of which the sizes are known, have been written. -/
structure Saved (N : Nat) (p p' : PackedMemoryArray) (first : Nat) (sizes : List Nat)
    (l : List (Int × Int)) : Prop where
  packed : p'.Packed first sizes l
  frame : Frame N p p' first sizes.length
  segmentSizes : p'.storage.segmentSizes = p.storage.segmentSizes
  cardinality : p'.storage.cardinality = p.storage.cardinality
  detector : p'.detector = p.detector

/-- Only cells of elements have changed in the segments from `first` on, and no others. -/
def Exact (p p' : PackedMemoryArray) (first n : Nat) : Prop :=
  ∀ q, (∀ i < n, q < p.storage.start (first + i) ∨ p.storage.stop (first + i) ≤ q) →
    p'.storage.cell q = p.storage.cell q

section Steps

variable {N first i n k : Nat} {p p' p'' : PackedMemoryArray} {sizes sizes' : List Nat}
  {l l' : List (Int × Int)}

theorem Saved.refl (sized : p.index.Sized N) (first : Nat) : Saved N p p first [] [] :=
  ⟨Packed.nil p first, Frame.refl sized, rfl, rfl, rfl⟩

theorem Saved.start_eq (saved : Saved N p p' first sizes l) (i : Nat) :
    p'.storage.start i = p.storage.start i := by
  unfold Storage.start
  rw [saved.segmentSizes, saved.frame.capacity]

theorem Saved.stop_eq (saved : Saved N p p' first sizes l) (i : Nat) :
    p'.storage.stop i = p.storage.stop i := by
  unfold Storage.stop
  rw [saved.segmentSizes, saved.frame.capacity]

/-- What was written stays while the segments after it are written. -/
theorem Saved.append (one : Saved N p p' first sizes l)
    (two : Saved N p' p'' (first + sizes.length) sizes' l')
    (inside : first + sizes.length ≤ N)
    (fits : ∀ n ∈ sizes, 0 < n ∧ n ≤ p.storage.segmentCapacity) :
    Saved N p p'' first (sizes ++ sizes') (l ++ l') := by
  have kept := one.packed.frame two.frame inside (Or.inl le_rfl) (by rwa [one.frame.capacity])
  refine ⟨kept.append two.packed, ?_, two.segmentSizes.trans one.segmentSizes,
    two.cardinality.trans one.cardinality, two.detector.trans one.detector⟩
  rw [List.length_append]
  exact (one.frame.mono le_rfl (by omega)).trans (two.frame.mono (by omega) (by omega))

theorem Exact.append {m : Nat} (one : Exact p p' first n) (two : Exact p' p'' (first + n) m)
    (start : ∀ i, p'.storage.start i = p.storage.start i)
    (stop : ∀ i, p'.storage.stop i = p.storage.stop i) : Exact p p'' first (n + m) := by
  intro q outside
  rw [two q, one q]
  · exact fun i inside => outside i (by omega)
  · intro i inside
    rw [start, stop, Nat.add_assoc]
    exact outside (n + i) (by omega)

/-- A segment of which the size is known is written. -/
theorem saved_segment {key : Int} (sized : p.index.Sized N) (inside : i < N)
    (size : p.storage.segmentSizes i = k) (fits : k ≤ p.storage.segmentCapacity)
    (length : l.length = k)
    (head : l.head?.map Prod.fst = some key) (stored : p'.index = p.index.setSeparatorKey i key)
    (written : p'.storage = p.storage.write (p.storage.start i) l)
    (detector : p'.detector = p.detector) :
    Saved N p p' i [k] l ∧ Exact p p' i 1 := by
  have same : p.storage.setSegmentSize i k = p.storage := by
    unfold Storage.setSegmentSize
    rw [← size, Function.update_eq_self]
  have storage : p'.storage = ((p.storage.setSegmentSize i k).write
      ((p.storage.setSegmentSize i k).start i) l).withCardinality p.storage.cardinality := by
    rw [same, written]
    rfl
  obtain ⟨e, first, rfl⟩ := Option.map_eq_some_iff.mp head
  have separator : StaticIndex.Stored N p.index p'.index i e.1 := by
    rw [stored]
    exact sized.stored inside e.1
  obtain ⟨packed, frame⟩ := PackedMemoryArray.written storage length fits first separator
  have bounds := Storage.layout (size ▸ fits : p.storage.segmentSizes i ≤ _)
  refine ⟨⟨packed, frame, by rw [written]; rfl, by rw [written]; rfl, detector⟩, ?_⟩
  intro q outside
  have apart := outside 0 Nat.one_pos
  rw [Nat.add_zero] at apart
  rw [written, Storage.cell_write, writeCells_outside (by omega)]

end Steps

/-! ## The steps -/

/-- The shares of `n` segments from the `t`-th on. -/
def shares (cardPerSegment oddSegments t n : Nat) : List Nat :=
  (List.range' t n).map fun j => cardPerSegment + if j < oddSegments then 1 else 0

section Shares

variable {q o t n m : Nat}

@[simp] theorem length_shares : (shares q o t n).length = n := by
  simp [shares]

theorem shares_succ : shares q o t (n + 1) = (q + if t < o then 1 else 0) :: shares q o (t + 1) n := by
  rw [shares, List.range'_succ]
  rfl

/-- Without the first segment there is one larger segment less. -/
theorem shares_shift : shares q o (t + 1) n = shares q (o - 1) t n := by
  have moved : List.range' (t + 1) n = (List.range' t n).map fun j => j + 1 := by
    refine List.ext_getElem (by simp) fun i _ _ => ?_
    simp only [List.getElem_range', List.getElem_map]
    omega
  unfold shares
  rw [moved, List.map_map]
  apply List.map_congr_left
  intro j _
  dsimp only [Function.comp]
  congr 1
  split_ifs <;> omega

theorem mem_shares (positive : 0 < q) (fits : q + min o 1 ≤ m) :
    ∀ k ∈ shares q o t n, 0 < k ∧ k ≤ m := by
  intro k member
  obtain ⟨j, -, rfl⟩ := List.mem_map.mp member
  split_ifs <;> omega

end Shares

section Tail

variable {input : List (Int × Int)} {q N t : Nat} {s : State}

/-- A window that is written from its start on: the variables agree with it, and the sizes are
those of the shares. -/
structure Ready (N q : Nat) (s : State) : Prop where
  inside : s.windowStart + s.windowLength ≤ N
  sized : s.pma.index.Sized N
  keysTo : s.keysTo = s.windowStart * s.pma.storage.segmentCapacity
  positive : 0 < q
  fits : q + min s.oddSegments 1 ≤ s.pma.storage.segmentCapacity
  odd_lt : s.oddSegments < s.windowLength ∨ s.windowLength = 0
  sizes : ∀ j < s.windowLength, s.pma.storage.segmentSizes (s.windowStart + j) =
    q + if j < s.oddSegments then 1 else 0

theorem Ready.next (ready : Ready N q s) {p' : PackedMemoryArray} {i n : Nat} {sizes : List Nat}
    {l : List (Int × Int)} (saved : Saved N s.pma p' i sizes l) :
    Ready N q { s with pma := p', keysFrom := s.keysFrom + n } where
  inside := ready.inside
  sized := saved.frame.sized
  keysTo := by rw [saved.frame.capacity]; exact ready.keysTo
  positive := ready.positive
  fits := by rw [saved.frame.capacity]; exact ready.fits
  odd_lt := ready.odd_lt
  sizes j below := by rw [saved.segmentSizes]; exact ready.sizes j below

/-- The first cell of an even segment of the window. -/
theorem Ready.start_even (ready : Ready N q s) (aligned : s.windowStart % 2 = 0) {j : Nat}
    (even : j % 2 = 0)
    (below : j < s.windowLength) : s.pma.storage.start (s.windowStart + j) =
      s.keysTo + ((j + 1) * s.pma.storage.segmentCapacity -
        (q + if j < s.oddSegments then 1 else 0)) := by
  have fits := ready.fits
  have parity : (s.windowStart + j) % 2 = 0 := by omega
  have split : (s.windowStart + j + 1) * s.pma.storage.segmentCapacity =
      s.windowStart * s.pma.storage.segmentCapacity +
        (j * s.pma.storage.segmentCapacity + s.pma.storage.segmentCapacity) := by ring
  have whole : (j + 1) * s.pma.storage.segmentCapacity =
      j * s.pma.storage.segmentCapacity + s.pma.storage.segmentCapacity := Nat.succ_mul j _
  rw [Storage.start, if_pos parity, ready.sizes j below, ready.keysTo, split, whole]
  split_ifs <;> omega

/-- A pair is written as its two segments one after the other. -/
theorem pair_spec (input : List (Int × Int)) (ready : Ready N q s)
    (aligned : s.windowStart % 2 = 0) (even : t % 2 = 0) (below : t + 1 < s.windowLength)
    (enough : s.keysFrom + (shares q s.oddSegments t 2).sum ≤ input.length) :
    ∃ p', s.pair input q (t + 1) =
        some { s with pma := p', keysFrom := s.keysFrom + (shares q s.oddSegments t 2).sum } ∧
      Saved N s.pma p' (s.windowStart + t) (shares q s.oddSegments t 2)
        ((input.drop s.keysFrom).take (shares q s.oddSegments t 2).sum) ∧
      Exact s.pma p' (s.windowStart + t) 2 := by
  have inside := ready.inside
  have positive := ready.positive
  have fits := ready.fits
  have left := ready.sizes t (by omega)
  have right := ready.sizes (t + 1) below
  have start := ready.start_even aligned even (by omega)
  have adjacent : s.pma.storage.start (s.windowStart + t) +
      (q + if t < s.oddSegments then 1 else 0) = s.pma.storage.start (s.windowStart + (t + 1)) := by
    have parity : (s.windowStart + t) % 2 = 0 := by omega
    have next := Storage.stop_eq_start_succ (s := s.pma.storage) parity
    have bounds := Storage.layout (s := s.pma.storage) (i := s.windowStart + t)
      (by rw [left]; split_ifs <;> omega)
    rw [left] at bounds
    rw [← bounds.2.1, next, Nat.add_assoc]
  have small₁ : (q + if t < s.oddSegments then 1 else 0) ≤ s.pma.storage.segmentCapacity := by
    split_ifs <;> omega
  have small₂ : (q + if t + 1 < s.oddSegments then 1 else 0) ≤ s.pma.storage.segmentCapacity := by
    split_ifs <;> omega
  have two : shares q s.oddSegments t 2 = [q + if t < s.oddSegments then 1 else 0,
      q + if t + 1 < s.oddSegments then 1 else 0] := rfl
  rw [two] at enough ⊢
  unfold State.pair
  dsimp only
  rw [Nat.add_sub_cancel, ← start]
  generalize extra₁ : (q + if t < s.oddSegments then 1 else 0) = k₁ at *
  generalize extra₂ : (q + if t + 1 < s.oddSegments then 1 else 0) = k₂ at *
  have pos₁ : 0 < k₁ := by omega
  have pos₂ : 0 < k₂ := by omega
  rw [List.sum_cons, List.sum_singleton] at enough ⊢
  obtain ⟨e₁, first⟩ : ∃ e, input[s.keysFrom]? = some e :=
    ⟨_, List.getElem?_eq_getElem (by omega)⟩
  obtain ⟨e₂, second⟩ : ∃ e, input[s.keysFrom + k₁]? = some e :=
    ⟨_, List.getElem?_eq_getElem (by omega)⟩
  have length₁ : ((input.drop s.keysFrom).take k₁).length = k₁ := length_take_drop (by omega)
  have length₂ : ((input.drop (s.keysFrom + k₁)).take k₂).length = k₂ :=
    length_take_drop (by omega)
  rw [first, second, slice_eq (by omega), take_drop_add]
  simp only [Option.bind_eq_bind, Option.bind_some]
  refine ⟨_, rfl, ?_⟩
  -- the memory after the first half of the copy
  obtain ⟨half, halfway⟩ : ∃ half : PackedMemoryArray, half =
      ⟨s.pma.storage.write (s.pma.storage.start (s.windowStart + t))
        ((input.drop s.keysFrom).take k₁),
        s.pma.index.setSeparatorKey (s.windowStart + t) e₁.1, s.pma.detector⟩ := ⟨_, rfl⟩
  have halfIndex : half.index = s.pma.index.setSeparatorKey (s.windowStart + t) e₁.1 := by
    rw [halfway]
  obtain ⟨one, exact₁⟩ := saved_segment ready.sized (by omega) left small₁ length₁
    (by rw [head?_take_drop pos₁, first]; rfl) halfIndex (by rw [halfway]) (by rw [halfway])
  have half_start : half.storage.start (s.windowStart + (t + 1)) =
      s.pma.storage.start (s.windowStart + (t + 1)) := one.start_eq _
  obtain ⟨full, complete⟩ : ∃ full : PackedMemoryArray, full =
      ⟨half.storage.write (half.storage.start (s.windowStart + (t + 1)))
        ((input.drop (s.keysFrom + k₁)).take k₂),
        half.index.setSeparatorKey (s.windowStart + (t + 1)) e₂.1, half.detector⟩ := ⟨_, rfl⟩
  have fullIndex : full.index = half.index.setSeparatorKey (s.windowStart + (t + 1)) e₂.1 := by
    rw [complete]
  obtain ⟨two, exact₂⟩ := saved_segment one.frame.sized (by omega)
    (by rw [one.segmentSizes]; exact right)
    (by rw [one.frame.capacity]; exact small₂) length₂
    (by rw [head?_take_drop pos₂, second]; rfl) fullIndex (by rw [complete]) (by rw [complete])
  have both := one.append two (by simp only [List.length_singleton]; omega)
    (by simpa using ⟨pos₁, small₁⟩)
  have exact_both := exact₁.append exact₂ one.start_eq one.stop_eq
  have written := s.pma.storage.write_append (p := s.pma.storage.start (s.windowStart + t))
    (l := (input.drop s.keysFrom).take k₁) ((input.drop (s.keysFrom + k₁)).take k₂)
  rw [length₁, adjacent] at written
  rw [complete, half_start, halfway, written] at both exact_both
  rw [show s.windowStart + (t + 1) - 1 = s.windowStart + t by omega]
  exact ⟨both, exact_both⟩

/-- A pair that the input does not have is not copied. -/
theorem pair_beyond (beyond : input.length < s.keysFrom + (shares q s.oddSegments t 2).sum) :
    s.pair input q (t + 1) = none := by
  have two : (shares q s.oddSegments t 2).sum = (q + if t < s.oddSegments then 1 else 0) +
      (q + if t + 1 < s.oddSegments then 1 else 0) := by
    simp [shares, List.range'_succ]
  rw [two] at beyond
  unfold State.pair
  dsimp only
  rw [Nat.add_sub_cancel, slice_beyond beyond]
  cases input[s.keysFrom]? with
  | none => rfl
  | some left =>
      cases input[s.keysFrom + (q + if t < s.oddSegments then 1 else 0)]? <;> rfl

/-- The last segment, when it is an even one. -/
theorem last_spec (ready : Ready N q s) (aligned : s.windowStart % 2 = 0) (even : t % 2 = 0)
    (only : s.windowLength = t + 1)
    (enough : s.keysFrom + q ≤ input.length) :
    ∃ p', s.last input q = some p' ∧
      Saved N s.pma p' (s.windowStart + t) [q] ((input.drop s.keysFrom).take q) ∧
      Exact s.pma p' (s.windowStart + t) 1 := by
  have inside := ready.inside
  have positive := ready.positive
  have fits := ready.fits
  have small := ready.odd_lt
  have size := ready.sizes t (by omega)
  have start := ready.start_even aligned even (by omega)
  rw [if_neg (by omega)] at size start
  simp only [Nat.add_zero] at size start
  obtain ⟨e, first⟩ : ∃ e, input[s.keysFrom]? = some e :=
    ⟨_, List.getElem?_eq_getElem (by omega)⟩
  unfold State.last
  dsimp only
  rw [if_pos (by omega), only, ← start, first, slice_eq enough, ← Nat.add_assoc,
    Nat.add_sub_cancel]
  simp only [Option.bind_eq_bind, Option.bind_some]
  refine ⟨_, rfl, saved_segment ready.sized (by omega) size (by omega)
    (length_take_drop enough) (by rw [head?_take_drop positive, first]; rfl) rfl rfl rfl⟩

theorem last_beyond (odd : s.windowLength % 2 = 1) (beyond : input.length < s.keysFrom + q) :
    s.last input q = none := by
  unfold State.last
  rw [if_pos odd, slice_beyond beyond]
  cases input[s.keysFrom]? <;> rfl

/-- Where no segment is left, nothing is written. -/
theorem last_done (ready : Ready N q s) (even : t % 2 = 0) (done : s.windowLength = t) :
    s.last input q = some s.pma ∧
      Saved N s.pma s.pma (s.windowStart + t) (shares q s.oddSegments t 0)
        ((input.drop s.keysFrom).take (shares q s.oddSegments t 0).sum) ∧
      Exact s.pma s.pma (s.windowStart + t) 0 :=
  ⟨if_neg (by omega), Saved.refl ready.sized _, fun _ _ => rfl⟩

/-- The rest of a window, from the `t`-th segment on, is written with the next inputs. -/
theorem tail_spec (input : List (Int × Int)) (fuel : Nat) (ready : Ready N q s)
    (aligned : s.windowStart % 2 = 0)
    (even : t % 2 = 0) (le : t ≤ s.windowLength) (turns : s.windowLength - t ≤ fuel)
    (enough : s.keysFrom + (shares q s.oddSegments t (s.windowLength - t)).sum ≤ input.length) :
    ∃ p', (s.bulk input q fuel (t + 1) >>= fun s => s.last input q) = some p' ∧
      Saved N s.pma p' (s.windowStart + t) (shares q s.oddSegments t (s.windowLength - t))
        ((input.drop s.keysFrom).take (shares q s.oddSegments t (s.windowLength - t)).sum) ∧
      Exact s.pma p' (s.windowStart + t) (s.windowLength - t) := by
  induction fuel generalizing t s with
  | zero =>
      have done : s.windowLength = t := by omega
      have none : s.windowLength - t = 0 := by omega
      rw [none]
      exact ⟨s.pma, last_done ready even done⟩
  | succ fuel ih =>
      by_cases more : t + 1 < s.windowLength
      · -- a pair, and the rest after it
        obtain ⟨n, count⟩ : ∃ n, s.windowLength - t = n + 2 := ⟨s.windowLength - t - 2, by omega⟩
        have left : s.windowLength - (t + 2) = n := by omega
        have split : shares q s.oddSegments t (n + 2) =
            shares q s.oddSegments t 2 ++ shares q s.oddSegments (t + 2) n := by
          rw [shares_succ, shares_succ]
          rfl
        rw [count, split, List.sum_append, ← Nat.add_assoc] at enough
        obtain ⟨p', written, one, exact₁⟩ := pair_spec input ready aligned even more (by omega)
        obtain ⟨p'', rest, two, exact₂⟩ := ih (t := t + 2)
          (s := { s with pma := p', keysFrom := s.keysFrom + (shares q s.oddSegments t 2).sum })
          (ready.next one) aligned (by omega) more (by dsimp only; omega) (by dsimp only; rwa [left])
        dsimp only at two exact₂
        rw [left, ← Nat.add_assoc] at two exact₂
        have inside := ready.inside
        refine ⟨p'', ?_, ?_, ?_⟩
        · rw [State.bulk, if_pos more, written]
          exact rest
        · rw [count, split, List.sum_append, take_drop_add]
          refine one.append (by rwa [length_shares]) (by rw [length_shares]; omega) ?_
          exact mem_shares ready.positive ready.fits
        · rw [count, Nat.add_comm n 2]
          exact exact₁.append exact₂ one.start_eq one.stop_eq
      · have ended : s.bulk input q (fuel + 1) (t + 1) = some s := by
          rw [State.bulk, if_neg more]
        rw [ended]
        rcases Nat.eq_or_lt_of_le le with done | below
        · have none : s.windowLength - t = 0 := by omega
          rw [none]
          exact ⟨s.pma, last_done ready even done.symm⟩
        · -- an even segment is left
          have odd_lt := ready.odd_lt
          have one : s.windowLength - t = 1 := by omega
          have single : shares q s.oddSegments t 1 = [q] := by
            simp only [shares, List.range'_one, List.map_cons, List.map_nil]
            rw [if_neg (by omega), Nat.add_zero]
          rw [one, single] at enough ⊢
          rw [List.sum_singleton] at enough ⊢
          exact last_spec ready aligned even (by omega) enough

/-- Where the input ends before the window does, a copy is undefined. -/
theorem tail_beyond {fuel : Nat} (ready : Ready N q s) (aligned : s.windowStart % 2 = 0)
    (even : t % 2 = 0) (le : t ≤ s.windowLength) (turns : s.windowLength - t ≤ fuel)
    (some : s.keysFrom ≤ input.length)
    (beyond : input.length <
      s.keysFrom + (shares q s.oddSegments t (s.windowLength - t)).sum) :
    (s.bulk input q fuel (t + 1) >>= fun s => s.last input q) = none := by
  induction fuel generalizing t s with
  | zero =>
      have none : s.windowLength - t = 0 := by omega
      rw [none] at beyond
      exact absurd some (Nat.not_le.mpr beyond)
  | succ fuel ih =>
      by_cases more : t + 1 < s.windowLength
      · obtain ⟨n, count⟩ : ∃ n, s.windowLength - t = n + 2 := ⟨s.windowLength - t - 2, by omega⟩
        have left : s.windowLength - (t + 2) = n := by omega
        have split : shares q s.oddSegments t (n + 2) =
            shares q s.oddSegments t 2 ++ shares q s.oddSegments (t + 2) n := by
          rw [shares_succ, shares_succ]
          rfl
        rw [count, split, List.sum_append, ← Nat.add_assoc] at beyond
        rw [State.bulk, if_pos more]
        by_cases first : input.length < s.keysFrom + (shares q s.oddSegments t 2).sum
        · rw [pair_beyond first]
          rfl
        · obtain ⟨p', written, one, -⟩ := pair_spec input ready aligned even more (by omega)
          rw [written]
          exact ih (t := t + 2)
            (s := { s with pma := p', keysFrom := s.keysFrom + (shares q s.oddSegments t 2).sum })
            (ready.next one) aligned (by omega) more (by dsimp only; omega) (by dsimp only; omega)
            (by dsimp only; rwa [left])
      · have ended : s.bulk input q (fuel + 1) (t + 1) = Option.some s := by
          rw [State.bulk, if_neg more]
        rw [ended]
        rcases Nat.eq_or_lt_of_le le with done | below
        · have none : s.windowLength - t = 0 := by omega
          rw [none] at beyond
          exact absurd some (Nat.not_le.mpr beyond)
        · have odd_lt := ready.odd_lt
          have one : s.windowLength - t = 1 := by omega
          have single : shares q s.oddSegments t 1 = [q] := by
            simp only [shares, List.range'_one, List.map_cons, List.map_nil]
            rw [if_neg (by omega), Nat.add_zero]
          rw [one, single, List.sum_singleton] at beyond
          exact last_beyond (by omega) beyond

end Tail

/-! ## The whole window -/

/-- How many more elements than it should the first step copies. -/
def surplus (windowStart windowLength cardinality : Nat) : Nat :=
  if windowStart % 2 = 1 then cardinality % windowLength - 1 else 0

/-- The elements that the window gets. -/
def copied (windowStart windowLength : Nat) (input : List (Int × Int))
    (keysFrom cardinality : Nat) : List (Int × Int) :=
  let first := cardinality / windowLength + min (cardinality % windowLength) 1
  let skipped := surplus windowStart windowLength cardinality
  (input.drop keysFrom).take first ++
    (input.drop (keysFrom + first + skipped)).take (cardinality - first)

/-- Only occupied cells of the window have changed. -/
def Confined (p p' : PackedMemoryArray) (first n : Nat) : Prop :=
  ∀ q, (∀ i < n, q < p'.storage.start (first + i) ∨ p'.storage.stop (first + i) ≤ q) →
    p'.storage.cell q = p.storage.cell q

section Whole

variable {N windowStart windowLength keysFrom cardinality : Nat} {p : PackedMemoryArray}
  {input : List (Int × Int)}

theorem shares_eq_sizes (cardinality windowLength : Nat) :
    shares (cardinality / windowLength) (cardinality % windowLength) 0 windowLength =
      (Partition.mk cardinality windowLength).sizes := by
  rw [shares, ← List.range_eq_range']
  rfl

/-- The array with the sizes of the window set. -/
def sized (p : PackedMemoryArray) (windowStart windowLength cardinality : Nat)
    (detector : List Detector.Call) : PackedMemoryArray :=
  { storage :=
      fillSizes
        (fillSizes p.storage windowStart (cardinality % windowLength)
          (cardinality / windowLength + 1))
        (windowStart + cardinality % windowLength) (windowLength - cardinality % windowLength)
        (cardinality / windowLength)
    index := p.index
    detector := detector }

theorem segmentSizes_sized (p : PackedMemoryArray) (windowStart cardinality : Nat)
    (some : 0 < windowLength) (detector : List Detector.Call) (j : Nat) :
    (sized p windowStart windowLength cardinality detector).storage.segmentSizes j =
      if windowStart ≤ j ∧ j < windowStart + windowLength then
        cardinality / windowLength + if j - windowStart < cardinality % windowLength then 1 else 0
      else p.storage.segmentSizes j := by
  have rest := Nat.mod_lt cardinality some
  unfold sized
  rw [fillSizes_eq, fillSizes_eq]
  dsimp only
  split_ifs <;> omega

theorem frame_sized (windowStart cardinality : Nat) (index : p.index.Sized N) (some : 0 < windowLength)
    (detector : List Detector.Call) :
    Frame N p (sized p windowStart windowLength cardinality detector) windowStart windowLength := by
  have sizes := segmentSizes_sized p windowStart cardinality some detector
  refine ⟨?_, fun i outside => by rw [sizes, if_neg (by omega)], fun _ _ _ => rfl, index, ?_, ?_⟩
  · intro q _
    unfold sized
    rw [fillSizes_eq, fillSizes_eq]
    rfl
  · unfold sized
    rw [fillSizes_eq, fillSizes_eq]
  · unfold sized
    rw [fillSizes_eq, fillSizes_eq]

/-- A first segment that is an odd one gets its elements, whatever is copied after them. -/
theorem first_written {i k : Nat} {p : PackedMemoryArray} (p' : PackedMemoryArray)
    (out : List (Int × Int))
    (index : p.index.Sized N) (inside : i < N) (size : p.storage.segmentSizes i = k)
    (le : k ≤ out.length)
    (stored : p'.index = p.index.setSeparatorKey i (p'.storage.keys (p.storage.start i)))
    (written : p'.storage = p.storage.write (p.storage.start i) out) :
    p'.Packed i [k] (out.take k) := by
  have sizes : p'.storage.segmentSizes i = k := by rw [written]; exact size
  have start : p'.storage.start i = p.storage.start i := by
    unfold Storage.start
    rw [written]
    rfl
  refine Packed.single sizes ?_ ?_
  · have length : (out.take k).length = k := by rw [List.length_take, min_eq_left le]
    have both := writeCells_append (a := p.storage.cell) (p := p.storage.start i)
      (l := out.take k) (out.drop k)
    rw [List.take_append_drop] at both
    rw [Storage.segment_eq_readCells, start, sizes, written, Storage.cell_write, ← both,
      readCells_writeCells_outside (Or.inl (by rw [length]))]
    nth_rewrite 2 [← length]
    exact readCells_writeCells
  · have separator := (index.stored inside (p'.storage.keys (p.storage.start i))).separator
    rw [stored, separator, Storage.getMinimum, start]

/-- The steps after the sizes are set. -/
def run (input : List (Int × Int)) (cardPerSegment : Nat) (s : State) :
    Option PackedMemoryArray :=
  s.first input cardPerSegment >>= fun s =>
    s.bulk input cardPerSegment s.windowLength 1 >>= fun s => s.last input cardPerSegment

theorem spreadSaveWindow_eq (record : Option SpreadDetectorRecord) :
    p.spreadSaveWindow windowStart windowLength input keysFrom cardinality record =
      run input (cardinality / windowLength)
        { pma := sized p windowStart windowLength cardinality
            (notify p.detector record cardinality fun position => windowStart +
              segmentOf (cardinality / windowLength) (cardinality % windowLength) position)
          windowStart := windowStart
          windowLength := windowLength
          keysTo := windowStart * p.storage.segmentCapacity
          keysFrom := keysFrom
          oddSegments := cardinality % windowLength } := rfl

/-- What the steps leave in a window whose sizes are set. -/
structure Run (N : Nat) (s : State) (p' : PackedMemoryArray) (sizes : List Nat)
    (l : List (Int × Int)) : Prop where
  packed : p'.Packed s.windowStart sizes l
  frame : Frame N s.pma p' s.windowStart s.windowLength
  segmentSizes : p'.storage.segmentSizes = s.pma.storage.segmentSizes
  cardinality : p'.storage.cardinality = s.pma.storage.cardinality
  detector : p'.detector = s.pma.detector

section Steps

variable {q : Nat} {s : State}

/-- A window that starts at an even segment. -/
theorem run_even (input : List (Int × Int)) (ready : Ready N q s) (aligned : s.windowStart % 2 = 0)
    (enough : s.keysFrom + (shares q s.oddSegments 0 s.windowLength).sum ≤ input.length) :
    ∃ p', run input q s = Option.some p' ∧ Run N s p' (shares q s.oddSegments 0 s.windowLength)
        ((input.drop s.keysFrom).take (shares q s.oddSegments 0 s.windowLength).sum) ∧
      Exact s.pma p' s.windowStart s.windowLength := by
  obtain ⟨p', written, saved, exact_⟩ := tail_spec input s.windowLength
    (t := 0) ready aligned rfl (Nat.zero_le _) (Nat.sub_le _ _) enough
  have frame := saved.frame
  rw [length_shares] at frame
  refine ⟨p', ?_, ⟨saved.packed, frame, saved.segmentSizes, saved.cardinality, saved.detector⟩,
    exact_⟩
  rw [run, State.first, if_neg (by omega)]
  exact written

/-- The variables after the first step, when it writes a segment. -/
theorem first_spec (input : List (Int × Int)) (ready : Ready N q s) (odd : s.windowStart % 2 = 1)
    (several : s.oddSegments < s.windowLength)
    (enough : s.keysFrom + (q + s.oddSegments) ≤ input.length) :
    ∃ p₁, s.first input q = Option.some
        { pma := p₁, windowStart := s.windowStart + 1, windowLength := s.windowLength - 1
          keysTo := s.keysTo + s.pma.storage.segmentCapacity
          keysFrom := s.keysFrom + (q + s.oddSegments), oddSegments := s.oddSegments - 1 } ∧
      p₁.Packed s.windowStart [q + min s.oddSegments 1]
        ((input.drop s.keysFrom).take (q + min s.oddSegments 1)) ∧
      Frame N s.pma p₁ s.windowStart s.windowLength ∧
      p₁.storage.segmentSizes = s.pma.storage.segmentSizes ∧
      p₁.storage.cardinality = s.pma.storage.cardinality ∧ p₁.detector = s.pma.detector ∧
      (s.oddSegments ≤ 1 → Exact s.pma p₁ s.windowStart 1) := by
  have positive := ready.positive
  have fits := ready.fits
  have inside := ready.inside
  have size := ready.sizes 0 (by omega)
  have start : s.pma.storage.start s.windowStart = s.keysTo := by
    rw [Storage.start, if_neg (by omega), ready.keysTo]
  have share : (q + if 0 < s.oddSegments then 1 else 0) = q + min s.oddSegments 1 := by
    split_ifs <;> omega
  rw [Nat.add_zero, share] at size
  have length : ((input.drop s.keysFrom).take (q + s.oddSegments)).length = q + s.oddSegments :=
    length_take_drop enough
  unfold State.first
  dsimp only
  rw [if_pos odd, slice_eq enough]
  simp only [Option.bind_eq_bind, Option.bind_some]
  refine ⟨_, rfl, ?_, ?_, rfl, rfl, rfl, ?_⟩
  · have packed := first_written (p := s.pma) (i := s.windowStart) (k := q + min s.oddSegments 1)
      ⟨s.pma.storage.write s.keysTo ((input.drop s.keysFrom).take (q + s.oddSegments)),
        s.pma.index.setSeparatorKey s.windowStart
          ((s.pma.storage.write s.keysTo
            ((input.drop s.keysFrom).take (q + s.oddSegments))).keys s.keysTo), s.pma.detector⟩
      ((input.drop s.keysFrom).take (q + s.oddSegments)) ready.sized (by omega) size
        (by rw [length]; omega) (by rw [start]) (by rw [start])
    have le : q + min s.oddSegments 1 ≤ q + s.oddSegments := by omega
    rwa [List.take_take, min_eq_left le] at packed
  · have stored := ready.sized.stored (i := s.windowStart) (by omega)
      ((s.pma.storage.write s.keysTo
        ((input.drop s.keysFrom).take (q + s.oddSegments))).keys s.keysTo)
    refine ⟨?_, fun _ _ => rfl, ?_, stored.sized, rfl, rfl⟩
    · intro c outside
      -- the surplus stays within the window
      have room : s.windowLength - 1 ≤ (s.windowLength - 1) * s.pma.storage.segmentCapacity :=
        Nat.le_mul_of_pos_right _ (by omega)
      have split : (s.windowStart + s.windowLength) * s.pma.storage.segmentCapacity =
          s.windowStart * s.pma.storage.segmentCapacity + (s.pma.storage.segmentCapacity +
            (s.windowLength - 1) * s.pma.storage.segmentCapacity) := by
        obtain ⟨m, more⟩ : ∃ m, s.windowLength = m + 1 := ⟨s.windowLength - 1, by omega⟩
        rw [more, Nat.add_sub_cancel]
        ring
      rw [split, ← ready.keysTo] at outside
      rw [Storage.cell_write, writeCells_outside (by rw [length]; omega)]
    · exact fun j below outside => stored.others j below (by omega)
  · intro small c outside
    have apart := outside 0 Nat.one_pos
    have stop : s.pma.storage.stop s.windowStart = s.keysTo + (q + s.oddSegments) := by
      rw [Storage.stop, if_neg (by omega), size, ready.keysTo]
      omega
    rw [Nat.add_zero, start, stop] at apart
    rw [Storage.cell_write, writeCells_outside (by rw [length]; exact apart)]

/-- The variables after the first step fit the rest of the window. -/
theorem Ready.after_first (ready : Ready N q s) {p₁ : PackedMemoryArray}
    (several : s.oddSegments < s.windowLength)
    (frame : Frame N s.pma p₁ s.windowStart s.windowLength)
    (sizes : p₁.storage.segmentSizes = s.pma.storage.segmentSizes) : Ready N q
      { pma := p₁, windowStart := s.windowStart + 1, windowLength := s.windowLength - 1
        keysTo := s.keysTo + s.pma.storage.segmentCapacity
        keysFrom := s.keysFrom + (q + s.oddSegments), oddSegments := s.oddSegments - 1 } := by
  have inside := ready.inside
  have fits := ready.fits
  refine ⟨by dsimp only; omega, frame.sized, ?_, ready.positive, ?_, by dsimp only; omega, ?_⟩
  · dsimp only
    rw [frame.capacity, ready.keysTo, Nat.succ_mul]
  · dsimp only
    rw [frame.capacity]
    omega
  · intro j below
    dsimp only at below ⊢
    have size := ready.sizes (j + 1) (by omega)
    rw [sizes, Nat.add_assoc, Nat.add_comm 1 j, size]
    split_ifs <;> omega

/-- A window that starts at an odd segment: the steps after the first read where it ended. -/
theorem run_odd (input : List (Int × Int)) (ready : Ready N q s) (odd : s.windowStart % 2 = 1)
    (several : s.oddSegments < s.windowLength)
    (enough : s.keysFrom + (q + s.oddSegments) +
      (shares q (s.oddSegments - 1) 0 (s.windowLength - 1)).sum ≤ input.length) :
    ∃ p', run input q s = Option.some p' ∧
      Run N s p' ((q + min s.oddSegments 1) :: shares q (s.oddSegments - 1) 0 (s.windowLength - 1))
        ((input.drop s.keysFrom).take (q + min s.oddSegments 1) ++
          (input.drop (s.keysFrom + (q + s.oddSegments))).take
            (shares q (s.oddSegments - 1) 0 (s.windowLength - 1)).sum) ∧
      (s.oddSegments ≤ 1 → Exact s.pma p' s.windowStart s.windowLength) := by
  have inside := ready.inside
  have positive := ready.positive
  have fits := ready.fits
  obtain ⟨p₁, first, packed, frame, sizes, cardinality, detector, exact₁⟩ :=
    first_spec input ready odd several (by omega)
  obtain ⟨p', written, saved, exact₂⟩ := tail_spec input (s.windowLength - 1)
    (t := 0) (ready.after_first several frame sizes) (by dsimp only; omega) rfl (Nat.zero_le _)
      (Nat.sub_le _ _) enough
  have frame₂ := saved.frame
  rw [length_shares] at frame₂
  dsimp only at saved frame₂ exact₂
  rw [Nat.sub_zero, Nat.add_zero] at saved frame₂ exact₂
  have kept := packed.frame frame₂ (by simp only [List.length_singleton]; omega)
    (Or.inl (by rw [List.length_singleton])) (by
      rw [frame.capacity]
      simpa using ⟨Or.inl positive, fits⟩)
  refine ⟨p', ?_, ⟨kept.append saved.packed, ?_, saved.segmentSizes.trans sizes,
    saved.cardinality.trans cardinality, saved.detector.trans detector⟩, ?_⟩
  · rw [run, first]
    exact written
  · exact frame.trans (frame₂.mono (by omega) (by omega))
  · intro small
    have start : ∀ i, p₁.storage.start i = s.pma.storage.start i := fun i => by
      unfold Storage.start
      rw [sizes, frame.capacity]
    have stop : ∀ i, p₁.storage.stop i = s.pma.storage.stop i := fun i => by
      unfold Storage.stop
      rw [sizes, frame.capacity]
    have both := (exact₁ small).append exact₂ start stop
    rwa [show 1 + (s.windowLength - 1) = s.windowLength by omega] at both

/-- Where the input does not have what an odd start copies, a copy is undefined. -/
theorem run_odd_beyond (ready : Ready N q s) (odd : s.windowStart % 2 = 1)
    (several : s.oddSegments < s.windowLength)
    (beyond : input.length < s.keysFrom + (q + s.oddSegments) +
      (shares q (s.oddSegments - 1) 0 (s.windowLength - 1)).sum) : run input q s = none := by
  by_cases whole : s.keysFrom + (q + s.oddSegments) ≤ input.length
  · obtain ⟨p₁, first, -, frame, sizes, -⟩ := first_spec input ready odd several whole
    rw [run, first]
    exact tail_beyond (t := 0) (ready.after_first several frame sizes) (by dsimp only; omega) rfl
      (Nat.zero_le _) (Nat.sub_le _ _) whole beyond
  · rw [run, State.first, if_pos odd]
    dsimp only
    rw [slice_beyond (Nat.not_le.mp whole)]
    rfl

end Steps

/-- Elements for a window: one at least for each segment, and no more than it has cells for. -/
structure Fitting (p : PackedMemoryArray) (N windowStart windowLength cardinality : Nat) :
    Prop where
  index : p.index.Sized N
  inside : windowStart + windowLength ≤ N
  some : 0 < windowLength
  least : windowLength ≤ cardinality
  most : cardinality ≤ windowLength * p.storage.segmentCapacity

namespace Fitting

theorem share_pos (fitting : Fitting p N windowStart windowLength cardinality) :
    0 < cardinality / windowLength :=
  Nat.div_pos fitting.least fitting.some

theorem share_le (fitting : Fitting p N windowStart windowLength cardinality) :
    cardinality / windowLength + min (cardinality % windowLength) 1 ≤
      p.storage.segmentCapacity := by
  have bound := evenSize_le (j := 0) fitting.most fitting.some
  unfold evenSize at bound
  split_ifs at bound <;> omega

theorem ready (fitting : Fitting p N windowStart windowLength cardinality)
    (detector : List Detector.Call) (keysFrom : Nat) : Ready N (cardinality / windowLength)
      { pma := sized p windowStart windowLength cardinality detector
        windowStart := windowStart
        windowLength := windowLength
        keysTo := windowStart * p.storage.segmentCapacity
        keysFrom := keysFrom
        oddSegments := cardinality % windowLength } := by
  have frame := frame_sized windowStart cardinality fitting.index fitting.some detector
  refine ⟨fitting.inside, frame.sized, ?_, fitting.share_pos, ?_,
    Or.inl (Nat.mod_lt _ fitting.some), ?_⟩
  · dsimp only
    rw [frame.capacity]
  · dsimp only
    rw [frame.capacity]
    exact fitting.share_le
  · intro j below
    dsimp only at below ⊢
    rw [segmentSizes_sized _ _ _ fitting.some, if_pos (by omega), Nat.add_sub_cancel_left]

/-- The shares of the window, the first one apart. -/
theorem sum_shares (fitting : Fitting p N windowStart windowLength cardinality) :
    (shares (cardinality / windowLength) (cardinality % windowLength - 1) 0
      (windowLength - 1)).sum =
        cardinality - (cardinality / windowLength + min (cardinality % windowLength) 1) ∧
    (cardinality / windowLength + min (cardinality % windowLength) 1) ::
        shares (cardinality / windowLength) (cardinality % windowLength - 1) 0
          (windowLength - 1) =
      (Partition.mk cardinality windowLength).sizes := by
  obtain ⟨n, count⟩ : ∃ n, windowLength = n + 1 := ⟨windowLength - 1, by have := fitting.some; omega⟩
  have total := Partition.sum_sizes (p := ⟨cardinality, windowLength⟩) fitting.some
  have split : (Partition.mk cardinality windowLength).sizes =
      (cardinality / windowLength + min (cardinality % windowLength) 1) ::
        shares (cardinality / windowLength) (cardinality % windowLength - 1) 0
          (windowLength - 1) := by
    rw [← shares_eq_sizes]
    nth_rewrite 3 [count]
    rw [shares_succ, shares_shift, show windowLength - 1 = n by omega]
    congr 2
    split_ifs <;> omega
  rw [split, List.sum_cons] at total
  exact ⟨by dsimp only at total; omega, split.symm⟩

/-- The first segment gets no more than there is. -/
theorem first_le (fitting : Fitting p N windowStart windowLength cardinality) :
    cardinality / windowLength + min (cardinality % windowLength) 1 ≤ cardinality := by
  have total := Partition.sum_sizes (p := ⟨cardinality, windowLength⟩) fitting.some
  rw [← fitting.sum_shares.2, List.sum_cons] at total
  exact Nat.le.intro total

end Fitting

/-- **What a window gets.** Each segment has its share and its minimum in the index, and the
elements are those copied; where the first step copies no surplus, only cells of elements change. -/
theorem spreadSaveWindow_spec (input : List (Int × Int)) (keysFrom : Nat)
    (record : Option SpreadDetectorRecord)
    (fitting : Fitting p N windowStart windowLength cardinality)
    (enough : keysFrom + cardinality + surplus windowStart windowLength cardinality ≤
      input.length) :
    ∃ p', p.spreadSaveWindow windowStart windowLength input keysFrom cardinality record =
        Option.some p' ∧
      p'.Packed windowStart (Partition.mk cardinality windowLength).sizes
        (copied windowStart windowLength input keysFrom cardinality) ∧
      Frame N p p' windowStart windowLength ∧
      p'.storage.cardinality = p.storage.cardinality ∧
      p'.detector = notify p.detector record cardinality (fun position => windowStart +
        segmentOf (cardinality / windowLength) (cardinality % windowLength) position) ∧
      (surplus windowStart windowLength cardinality = 0 →
        Confined p p' windowStart windowLength) := by
  obtain ⟨detector, notified⟩ : ∃ d, d = notify p.detector record cardinality
      (fun position => windowStart +
        segmentOf (cardinality / windowLength) (cardinality % windowLength) position) := ⟨_, rfl⟩
  have ready := fitting.ready detector keysFrom
  have frame := frame_sized windowStart cardinality fitting.index fitting.some detector
  have kept : (sized p windowStart windowLength cardinality detector).storage.cardinality =
      p.storage.cardinality := by
    unfold sized
    rw [fillSizes_eq, fillSizes_eq]
  have cells : (sized p windowStart windowLength cardinality detector).storage.cell =
      p.storage.cell := by
    unfold sized
    rw [fillSizes_eq, fillSizes_eq]
    rfl
  have notifies : (sized p windowStart windowLength cardinality detector).detector = detector := rfl
  have sizes := fitting.sum_shares
  have whole := shares_eq_sizes cardinality windowLength
  have total := Partition.sum_sizes (p := ⟨cardinality, windowLength⟩) fitting.some
  rw [spreadSaveWindow_eq, ← notified]
  generalize sized p windowStart windowLength cardinality detector = p₁ at *
  -- the last clause, from the layout that the sizes give
  have confined : ∀ p', p'.storage.segmentSizes = p₁.storage.segmentSizes →
      Frame N p₁ p' windowStart windowLength → Exact p₁ p' windowStart windowLength →
      Confined p p' windowStart windowLength := by
    intro p' same frame exact_ c outside
    rw [exact_ c, cells]
    intro i inside
    have apart := outside i inside
    unfold Storage.start Storage.stop at apart ⊢
    rwa [same, frame.capacity] at apart
  unfold surplus at enough ⊢
  unfold copied surplus
  dsimp only
  by_cases odd : windowStart % 2 = 1
  · rw [if_pos odd] at enough ⊢
    have several := Nat.mod_lt cardinality fitting.some
    have le := fitting.first_le
    obtain ⟨p', written, result, exact_⟩ := run_odd input ready odd several
      (by dsimp only; rw [sizes.1]; omega)
    dsimp only at result exact_
    rw [sizes.1, sizes.2] at result
    refine ⟨p', written, ?_, frame.trans result.frame, result.cardinality.trans kept,
      result.detector.trans notifies, fun none => ?_⟩
    · have packed := result.packed
      dsimp only at packed
      rwa [show keysFrom + (cardinality / windowLength + min (cardinality % windowLength) 1) +
        (cardinality % windowLength - 1) =
        keysFrom + (cardinality / windowLength + cardinality % windowLength) by omega]
    · exact confined p' result.segmentSizes result.frame (exact_ (by omega))
  · rw [if_neg odd] at enough ⊢
    have le := fitting.first_le
    obtain ⟨p', written, result, exact_⟩ := run_even input ready (by dsimp only; omega)
      (by dsimp only; rw [whole, total]; exact enough)
    dsimp only at result exact_
    rw [whole, total] at result
    refine ⟨p', written, ?_, frame.trans result.frame, result.cardinality.trans kept,
      result.detector.trans notifies, fun _ => ?_⟩
    · have packed := result.packed
      dsimp only at packed
      rwa [Nat.add_zero, ← take_drop_add, Nat.add_sub_cancel' le]
    · exact confined p' result.segmentSizes result.frame exact_

/-- Where the input does not have what is copied, a copy is undefined. -/
theorem spreadSaveWindow_beyond (record : Option SpreadDetectorRecord)
    (fitting : Fitting p N windowStart windowLength cardinality) (start : keysFrom ≤ input.length)
    (beyond : input.length < keysFrom + cardinality + surplus windowStart windowLength cardinality) :
    p.spreadSaveWindow windowStart windowLength input keysFrom cardinality record = none := by
  have several := Nat.mod_lt cardinality fitting.some
  have total := Partition.sum_sizes (p := ⟨cardinality, windowLength⟩) fitting.some
  have sizes := fitting.sum_shares
  have ready := fitting.ready
    (notify p.detector record cardinality fun position => windowStart +
      segmentOf (cardinality / windowLength) (cardinality % windowLength) position) keysFrom
  rw [spreadSaveWindow_eq]
  unfold surplus at beyond
  by_cases odd : windowStart % 2 = 1
  · rw [if_pos odd] at beyond
    refine run_odd_beyond ready odd several ?_
    dsimp only
    have le := fitting.first_le
    rw [sizes.1]
    omega
  · rw [if_neg odd] at beyond
    rw [run, State.first, if_neg odd]
    refine tail_beyond (t := 0) ready (by dsimp only; omega) rfl (Nat.zero_le _) (Nat.sub_le _ _)
      start ?_
    dsimp only
    rw [Nat.sub_zero, shares_eq_sizes, total]
    exact beyond

/-! ## When it is right -/

/-- The elements are in the window, in order, each segment with its share, and nothing else has
changed. -/
structure SavedWindow (N : Nat) (p p' : PackedMemoryArray) (windowStart windowLength : Nat)
    (l : List (Int × Int)) : Prop where
  packed : p'.Packed windowStart (Partition.mk l.length windowLength).sizes l
  frame : Frame N p p' windowStart windowLength
  confined : Confined p p' windowStart windowLength

/-- **A window is saved as it should exactly when there is no surplus**: it starts at an even
segment, or at most one segment is larger than the others. The input is any array that begins with
the elements, also the one that ends after them. -/
theorem spreadSaveWindow_saves_iff {l : List (Int × Int)} (record : Option SpreadDetectorRecord)
    (fitting : Fitting p N windowStart windowLength l.length) :
    (∀ rest, ∃ p', p.spreadSaveWindow windowStart windowLength (l ++ rest) 0 l.length record =
        some p' ∧ SavedWindow N p p' windowStart windowLength l) ↔
      windowStart % 2 = 0 ∨ l.length % windowLength ≤ 1 := by
  have none_iff : surplus windowStart windowLength l.length = 0 ↔
      windowStart % 2 = 0 ∨ l.length % windowLength ≤ 1 := by
    unfold surplus
    split_ifs <;> omega
  rw [← none_iff]
  constructor
  · intro saves
    by_contra surplus_
    obtain ⟨p', written, -⟩ := saves []
    rw [spreadSaveWindow_beyond record fitting (Nat.zero_le _)
      (by rw [List.append_nil]; omega)] at written
    cases written
  · intro none rest
    obtain ⟨p', written, packed, frame, -, -, confined⟩ := spreadSaveWindow_spec
      (l ++ rest) 0 record fitting
      (by rw [none, List.length_append]; omega)
    have le := fitting.first_le
    have same : copied windowStart windowLength (l ++ rest) 0 l.length = l := by
      unfold copied
      dsimp only
      rw [none, Nat.add_zero, ← take_drop_add, Nat.add_sub_cancel' le, List.drop_zero,
        List.take_left]
    rw [same] at packed
    exact ⟨p', written, packed, frame, confined none⟩

/-- Four segments of 32 cells. -/
def fourSegments (index : StaticIndex) : PackedMemoryArray :=
  ⟨⟨fun _ => 0, fun _ => 0, fun _ => 1, 32, 4, 4, 1⟩, index, []⟩

/-- Six elements in three segments from an odd one on: one segment is not larger than another. -/
theorem spreadSaveWindow_saves_six :
    ∃ u index, StaticIndex.create 3 4 (some fun _ => 0) (StaticIndex.blank 3) = .ok u index ∧
      ∀ rest, ∃ p', (fourSegments index).spreadSaveWindow 1 3
          ([(0, 0), (1, 1), (2, 2), (3, 3), (4, 4), (5, 5)] ++ rest) 0 6 none = some p' ∧
        SavedWindow 4 (fourSegments index) p' 1 3
          [(0, 0), (1, 1), (2, 2), (3, 3), (4, 4), (5, 5)] := by
  have ⟨u, index, construction⟩ : ∃ u index,
      StaticIndex.create 3 4 (some fun _ => 0) (StaticIndex.blank 3) = .ok u index := ⟨_, _, rfl⟩
  have fitting : Fitting (fourSegments index) 4 1 3
      ([(0, 0), (1, 1), (2, 2), (3, 3), (4, 4), (5, 5)] : List (Int × Int)).length :=
    ⟨StaticIndex.create_ok (by decide) construction, by decide, by decide, by decide,
      by simp [fourSegments]⟩
  exact ⟨u, index, construction,
    (spreadSaveWindow_saves_iff none fitting).mpr (Or.inr (by decide))⟩

/-- Five elements in the same segments: the copies would need a sixth one. -/
theorem spreadSaveWindow_reads_beyond :
    ∃ u index, StaticIndex.create 3 4 (some fun _ => 0) (StaticIndex.blank 3) = .ok u index ∧
      Fitting (fourSegments index) 4 1 3 5 ∧
      ¬∀ rest, ∃ p', (fourSegments index).spreadSaveWindow 1 3
          ([(0, 0), (1, 1), (2, 2), (3, 3), (4, 4)] ++ rest) 0 5 none = some p' ∧
        SavedWindow 4 (fourSegments index) p' 1 3 [(0, 0), (1, 1), (2, 2), (3, 3), (4, 4)] := by
  have ⟨u, index, construction⟩ : ∃ u index,
      StaticIndex.create 3 4 (some fun _ => 0) (StaticIndex.blank 3) = .ok u index := ⟨_, _, rfl⟩
  have fitting : Fitting (fourSegments index) 4 1 3 5 :=
    ⟨StaticIndex.create_ok (by decide) construction, by decide, by decide, by decide,
      by simp [fourSegments]⟩
  refine ⟨u, index, construction, fitting, fun saves => ?_⟩
  obtain ⟨p', written, -⟩ := saves []
  have undefined : (fourSegments index).spreadSaveWindow 1 3
      ([(0, 0), (1, 1), (2, 2), (3, 3), (4, 4)] ++ []) 0 5 none = none := rfl
  rw [undefined] at written
  cases written

end Whole

end SpreadSave

end Rma
