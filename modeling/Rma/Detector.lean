import Rma.Base.Runs

/-!
# The detector

`Detector` records the updates of each segment: how many of them were insertions rather
than deletions, whether they follow each other forwards or backwards, and the timestamps of
the last `m_modulus` ones, in a circular buffer. The counters and the head of the buffer are
16-bit integers, kept next to each other in the first word of an entry.

`Journal` is what the timestamps are about: the updates of each segment since it was last
cleared. A counter leaves its range when a sequence is contradicted at its maximum in the
other direction; `Regular` is the condition on a call, and `detector_bounded` says that the
counters and the timestamps are right all along a run exactly when its calls are regular.
-/

namespace Rma

open Base

/-- The conversion to a signed integer of 16 bits. -/
def int16 (x : Int) : Int := x.bmod (2 ^ 16)

theorem int16_cases (x : Int) :
    ∃ k, x = int16 x + 2 ^ 16 * k ∧ -2 ^ 15 ≤ int16 x ∧ int16 x < 2 ^ 15 := by
  refine ⟨(x - int16 x) / 2 ^ 16, ?_⟩
  unfold int16 Int.bmod
  norm_num
  split <;> omega

/-- A number that fits is kept. -/
theorem int16_of_fits {x : Int} (lower : -2 ^ 15 ≤ x) (upper : x < 2 ^ 15) : int16 x = x := by
  rcases int16_cases x with ⟨k, same, above, below⟩
  omega

/-- The knobs that the detector and the weights read. -/
structure Knobs where
  segmentThreshold : Nat
  sequenceThreshold : Nat
  maxSequenceCounter : Nat
  maxSegmentCounter : Nat

/-- An entry of the buffer: the header, the two keys and the timestamps. -/
@[ext] structure Entry where
  head : Int
  countFwd : Int
  countBwd : Int
  countSegment : Int
  keyFwd : Int
  keyBwd : Int
  timestamps : Nat → Int

namespace Entry

def zero : Entry := ⟨0, 0, 0, 0, 0, 0, fun _ => 0⟩

/-! ## Update -/

/-- The segment counter after an update. -/
def segmentCounter (knobs : Knobs) (increment : Int) (count : Int) : Int :=
  if count * increment ≥ 0 then
    if count * increment < int16 knobs.maxSegmentCounter then int16 (count + increment) else count
  else int16 (count + 2 * increment) -- decrease by 2

/-- A sequence counter, when the sequence continues. -/
def continued (knobs : Knobs) (increment : Int) (count : Int) : Int :=
  let sequenceCountMax := int16 knobs.maxSequenceCounter
  let sequenceCountMin := int16 (-sequenceCountMax)
  if (increment > 0 ∧ count < sequenceCountMax) ∨ (increment < 0 ∧ count > sequenceCountMin) then
    int16 (count + increment)
  else count

/-- A sequence counter and its key, when the sequence is contradicted. -/
def contradicted (increment : Int) (count key newKey : Int) : Int × Int :=
  if count = 0 then (int16 (count + increment), newKey) else (int16 (count - increment), key)

/-- The sequence counters after an update. -/
def sequence (knobs : Knobs) (increment : Int) (e : Entry) (predecessor successor : Int) : Entry :=
  if successor = e.keyBwd then -- direction forwards
    { e with countBwd := continued knobs increment e.countBwd }
  else if predecessor = e.keyFwd then -- direction backwards
    { e with countFwd := continued knobs increment e.countFwd }
  else
    let fwd := contradicted increment e.countFwd e.keyFwd predecessor
    let bwd := contradicted increment e.countBwd e.keyBwd successor
    { e with countFwd := fwd.1, keyFwd := fwd.2, countBwd := bwd.1, keyBwd := bwd.2 }

/-- Store the timestamp; the head is computed with unsigned integers of 32 bits. -/
def stamp (modulus : Nat) (timestamp : Int) (e : Entry) : Entry :=
  { e with
    timestamps := Function.update e.timestamps e.head.toNat timestamp
    head := int16 ((e.head + 1) % 2 ^ 32 % modulus) }

/-- `update<increment>` of the entry of a segment. -/
def update (knobs : Knobs) (modulus : Nat) (increment : Int) (e : Entry)
    (predecessor successor timestamp : Int) : Entry :=
  let e := { e with countSegment := segmentCounter knobs increment e.countSegment }
  (e.sequence knobs increment predecessor successor).stamp modulus timestamp

end Entry

/-- The fields of `Detector`. The buffer holds `m_capacity` entries. -/
structure Detector where
  entries : Nat → Entry
  capacity : Nat
  sizeofEntry : Nat
  modulus : Nat
  counter : Int

namespace Detector

/-- The constructor; the size of an entry is a number of 32 bits. -/
def create (size modulus : Nat) : Detector :=
  { entries := fun _ => Entry.zero
    capacity := size
    sizeofEntry := (modulus + 3) % 2 ^ 32
    modulus := modulus
    counter := 0 }

/-- `clear()` -/
def clear (d : Detector) : Detector := { d with entries := fun _ => Entry.zero }

/-- `clear(segment_id)` -/
def clearSegment (d : Detector) (segmentId : Nat) : Detector :=
  { d with entries := Function.update d.entries segmentId Entry.zero }

/-- `resize(size)` -/
def resize (d : Detector) (size : Nat) : Detector :=
  { d with entries := fun _ => Entry.zero, capacity := size }

/-- `update<increment>(segment_id, predecessor, successor)`: undefined where the timestamp
overflows, the segment is not there, or the timestamp is stored outside the entry. -/
def update (knobs : Knobs) (increment : Int) (d : Detector) (segmentId : Nat)
    (predecessor successor : Int) : Option Detector :=
  let e := d.entries segmentId
  if d.counter + 1 < 2 ^ 63 ∧ segmentId < d.capacity ∧ 0 ≤ e.head ∧ 3 + e.head < d.sizeofEntry then
    some { d with
      counter := d.counter + 1
      entries := Function.update d.entries segmentId
        (e.update knobs d.modulus increment predecessor successor (d.counter + 1)) }
  else none

/-- A call of a method that changes the detector. -/
inductive Call where
  | insert (segment : Nat) (predecessor successor : Int)
  | remove (segment : Nat) (predecessor successor : Int)
  | clear
  | clearSegment (segment : Nat)
  | resize (size : Nat)

/-- The effect of a call; undefined where `update` is. -/
def perform (knobs : Knobs) (d : Detector) : Call → Option Detector
  | .insert segment predecessor successor => d.update knobs 1 segment predecessor successor
  | .remove segment predecessor successor => d.update knobs (-1) segment predecessor successor
  | .clear => some d.clear
  | .clearSegment segment => some (d.clearSegment segment)
  | .resize size => some (d.resize size)

/-- The segment of a call is one that the detector has an entry for, which the source
asserts. -/
def Call.Within (capacity : Nat) : Call → Prop
  | .insert segment _ _ => segment < capacity
  | .remove segment _ _ => segment < capacity
  | .clearSegment segment => segment < capacity
  | _ => True

/-- The number of entries after a call. -/
def Call.capacityAfter (capacity : Nat) : Call → Nat
  | .resize size => size
  | _ => capacity

def Within : Nat → List Call → Prop
  | _, [] => True
  | capacity, c :: calls => c.Within capacity ∧ Within (c.capacityAfter capacity) calls

end Detector

/-! ## The journal -/

/-- The timestamps of the updates of each segment since it was cleared, the last one first. -/
structure Journal where
  counter : Int
  stamps : Nat → List Int

namespace Journal

def empty : Journal := ⟨0, fun _ => []⟩

/-- An update of a segment takes the next timestamp. -/
def note (j : Journal) (segment : Nat) : Journal :=
  { counter := j.counter + 1
    stamps := Function.update j.stamps segment ((j.counter + 1) :: j.stamps segment) }

def record (j : Journal) : Detector.Call → Journal
  | .insert segment _ _ => j.note segment
  | .remove segment _ _ => j.note segment
  | .clear => { j with stamps := fun _ => [] }
  | .clearSegment segment => { j with stamps := Function.update j.stamps segment [] }
  | .resize _ => { j with stamps := fun _ => [] }

end Journal

namespace Entry

/-- The counters of an entry are within their maxima. -/
structure Bounded (knobs : Knobs) (e : Entry) : Prop where
  fwd : |e.countFwd| ≤ knobs.maxSequenceCounter
  bwd : |e.countBwd| ≤ knobs.maxSequenceCounter
  segment : |e.countSegment| ≤ knobs.maxSegmentCounter

/-- The entry holds the last timestamps of a list, going backwards from its head. -/
structure Stamped (modulus : Nat) (stamps : List Int) (e : Entry) : Prop where
  nonneg : 0 ≤ e.head
  lt : e.head < modulus
  stamp_eq : ∀ k < modulus,
    e.timestamps ((e.head.toNat + (modulus - 1 - k)) % modulus) = stamps.getD k 0

end Entry

namespace Detector

/-- The counters are within their maxima, and the slots hold the last timestamps. -/
def Keeps (knobs : Knobs) (d : Detector) (j : Journal) : Prop :=
  ∀ segment, (d.entries segment).Bounded knobs ∧
    (d.entries segment).Stamped d.modulus (j.stamps segment)

/-- The detector is right at every moment of a run, and no call is undefined. -/
def KeepsRun (knobs : Knobs) (d : Detector) (j : Journal) : List Call → Prop
  | [] => d.Keeps knobs j
  | c :: calls => d.Keeps knobs j ∧
      ∃ d', d.perform knobs c = some d' ∧ d'.KeepsRun knobs (j.record c) calls

/-- The update contradicts no sequence that has reached its maximum in the other direction,
and there is room for another timestamp. -/
structure RegularUpdate (knobs : Knobs) (increment : Int) (d : Detector) (segment : Nat)
    (predecessor successor : Int) : Prop where
  fwd : successor ≠ (d.entries segment).keyBwd → predecessor ≠ (d.entries segment).keyFwd →
    (d.entries segment).countFwd ≠ -(increment * knobs.maxSequenceCounter)
  bwd : successor ≠ (d.entries segment).keyBwd → predecessor ≠ (d.entries segment).keyFwd →
    (d.entries segment).countBwd ≠ -(increment * knobs.maxSequenceCounter)
  head : d.modulus ≤ 2 ^ 15 ∨ (d.entries segment).head ≠ 2 ^ 15 - 1
  size : d.modulus + 3 < 2 ^ 32
  counter : d.counter + 1 < 2 ^ 63

def Regular (knobs : Knobs) (d : Detector) : Call → Prop
  | .insert segment predecessor successor =>
    d.RegularUpdate knobs 1 segment predecessor successor
  | .remove segment predecessor successor =>
    d.RegularUpdate knobs (-1) segment predecessor successor
  | _ => True

/-- Every call of a run is regular. -/
def RegularRun (knobs : Knobs) (d : Detector) : List Call → Prop
  | [] => True
  | c :: calls => d.Regular knobs c ∧
      ∀ d', d.perform knobs c = some d' → d'.RegularRun knobs calls

end Detector

/-! ## The counters -/

namespace Entry

section Counters

variable {knobs : Knobs} {increment count : Int}

/-- The segment counter moves towards its maximum by one, and away from it by two. -/
theorem segmentCounter_bounded (least : 1 ≤ knobs.maxSegmentCounter)
    (most : knobs.maxSegmentCounter < 2 ^ 15) (sign : increment = 1 ∨ increment = -1)
    (bounded : |count| ≤ knobs.maxSegmentCounter) :
    |segmentCounter knobs increment count| ≤ knobs.maxSegmentCounter := by
  rw [abs_le] at bounded ⊢
  have max := int16_of_fits (x := (knobs.maxSegmentCounter : Int)) (by omega) (by omega)
  unfold segmentCounter
  rw [max]
  rcases sign with rfl | rfl
  · split_ifs
    · rw [int16_of_fits (by omega) (by omega)]
      omega
    · exact bounded
    · rw [int16_of_fits (by omega) (by omega)]
      omega
  · split_ifs
    · rw [int16_of_fits (by omega) (by omega)]
      omega
    · exact bounded
    · rw [int16_of_fits (by omega) (by omega)]
      omega

theorem continued_bounded (most : knobs.maxSequenceCounter < 2 ^ 15)
    (sign : increment = 1 ∨ increment = -1) (bounded : |count| ≤ knobs.maxSequenceCounter) :
    |continued knobs increment count| ≤ knobs.maxSequenceCounter := by
  rw [abs_le] at bounded ⊢
  have max := int16_of_fits (x := (knobs.maxSequenceCounter : Int)) (by omega) (by omega)
  have min := int16_of_fits (x := -(knobs.maxSequenceCounter : Int)) (by omega) (by omega)
  unfold continued
  simp only [max, min]
  rcases sign with rfl | rfl
  · split_ifs
    · rw [int16_of_fits (by omega) (by omega)]
      omega
    · exact bounded
  · split_ifs
    · rw [int16_of_fits (by omega) (by omega)]
      omega
    · exact bounded

/-- A contradicted counter stays within the maximum unless it was at the maximum of the
other direction, which it then leaves. -/
theorem contradicted_bounded_iff (key newKey : Int) (least : 1 ≤ knobs.maxSequenceCounter)
    (most : knobs.maxSequenceCounter < 2 ^ 15) (sign : increment = 1 ∨ increment = -1)
    (bounded : |count| ≤ knobs.maxSequenceCounter) :
    |(contradicted increment count key newKey).1| ≤ knobs.maxSequenceCounter ↔
      count ≠ -(increment * knobs.maxSequenceCounter) := by
  rw [abs_le] at bounded ⊢
  have wrapped := int16_cases (count - increment)
  unfold contradicted
  rcases sign with rfl | rfl
  · split_ifs with zero
    · rw [int16_of_fits (by omega) (by omega)]
      omega
    · dsimp only
      omega
  · split_ifs with zero
    · rw [int16_of_fits (by omega) (by omega)]
      omega
    · dsimp only
      omega

/-- The counters after an update stay within their maxima exactly when no contradicted one
is at the maximum of the other direction. -/
theorem update_bounded_iff {e : Entry} {modulus : Nat} {predecessor successor timestamp : Int}
    (leastSequence : 1 ≤ knobs.maxSequenceCounter) (mostSequence : knobs.maxSequenceCounter < 2 ^ 15)
    (leastSegment : 1 ≤ knobs.maxSegmentCounter) (mostSegment : knobs.maxSegmentCounter < 2 ^ 15)
    (sign : increment = 1 ∨ increment = -1) (bounded : e.Bounded knobs) :
    (e.update knobs modulus increment predecessor successor timestamp).Bounded knobs ↔
      (successor ≠ e.keyBwd → predecessor ≠ e.keyFwd →
        e.countFwd ≠ -(increment * knobs.maxSequenceCounter) ∧
          e.countBwd ≠ -(increment * knobs.maxSequenceCounter)) := by
  have segment := segmentCounter_bounded leastSegment mostSegment sign bounded.segment
  have fwd := contradicted_bounded_iff e.keyFwd predecessor leastSequence
    mostSequence sign bounded.fwd
  have bwd := contradicted_bounded_iff e.keyBwd successor leastSequence
    mostSequence sign bounded.bwd
  unfold update stamp sequence
  by_cases forwards : successor = e.keyBwd
  · simp only [if_pos forwards]
    exact ⟨fun _ other => absurd forwards other, fun _ =>
      ⟨bounded.fwd, continued_bounded mostSequence sign bounded.bwd, segment⟩⟩
  · by_cases backwards : predecessor = e.keyFwd
    · simp only [if_neg forwards, if_pos backwards]
      exact ⟨fun _ _ other => absurd backwards other, fun _ =>
        ⟨continued_bounded mostSequence sign bounded.fwd, bounded.bwd, segment⟩⟩
    · simp only [if_neg forwards, if_neg backwards]
      exact ⟨fun after _ _ => ⟨fwd.mp after.fwd, bwd.mp after.bwd⟩, fun regular =>
        ⟨fwd.mpr (regular forwards backwards).1, bwd.mpr (regular forwards backwards).2, segment⟩⟩

end Counters

/-! ## The timestamps -/

@[simp] theorem sequence_head (knobs : Knobs) (increment : Int) (e : Entry)
    (predecessor successor : Int) :
    (e.sequence knobs increment predecessor successor).head = e.head := by
  unfold sequence
  split_ifs <;> rfl

@[simp] theorem sequence_timestamps (knobs : Knobs) (increment : Int) (e : Entry)
    (predecessor successor : Int) :
    (e.sequence knobs increment predecessor successor).timestamps = e.timestamps := by
  unfold sequence
  split_ifs <;> rfl

@[simp] theorem update_head (knobs : Knobs) (modulus : Nat) (increment : Int) (e : Entry)
    (predecessor successor timestamp : Int) :
    (e.update knobs modulus increment predecessor successor timestamp).head =
      int16 ((e.head + 1) % 2 ^ 32 % modulus) := by
  simp [update, stamp]

@[simp] theorem update_timestamps (knobs : Knobs) (modulus : Nat) (increment : Int) (e : Entry)
    (predecessor successor timestamp : Int) :
    (e.update knobs modulus increment predecessor successor timestamp).timestamps =
      Function.update e.timestamps e.head.toNat timestamp := by
  simp [update, stamp]

/-- A slot of a circular buffer. -/
theorem add_mod_wrap {m h j : Nat} (head : h < m) (offset : j < m) :
    (h + j) % m = if h + j < m then h + j else h + j - m := by
  split
  · next inside => exact Nat.mod_eq_of_lt inside
  · next outside => rw [Nat.mod_eq_sub_mod (by omega), Nat.mod_eq_of_lt (by omega)]

section Timestamps

variable {knobs : Knobs} {modulus : Nat} {stamps : List Int} {e : Entry}
  {increment predecessor successor timestamp : Int}

/-- The head moves to the next slot, unless it leaves the range of 16 bits. -/
theorem next_head (size : modulus + 3 < 2 ^ 32) (fits : e.head < 2 ^ 15) (nonneg : 0 ≤ e.head)
    (lt : e.head < modulus) :
    (modulus ≤ 2 ^ 15 ∨ e.head ≠ 2 ^ 15 - 1 →
      int16 ((e.head + 1) % 2 ^ 32 % modulus) = ((e.head.toNat + 1) % modulus : Nat)) ∧
    (¬(modulus ≤ 2 ^ 15 ∨ e.head ≠ 2 ^ 15 - 1) →
      int16 ((e.head + 1) % 2 ^ 32 % modulus) < 0) := by
  have small : (e.head + 1) % 2 ^ 32 = e.head + 1 := Int.emod_eq_of_lt (by omega) (by omega)
  have next : (e.head + 1) % modulus = ((e.head.toNat + 1) % modulus : Nat) := by
    push_cast
    rw [Int.toNat_of_nonneg nonneg]
  have slot : (e.head.toNat + 1) % modulus =
      if e.head.toNat + 1 < modulus then e.head.toNat + 1 else e.head.toNat + 1 - modulus := by
    rcases Nat.eq_or_lt_of_le (show 1 ≤ modulus by omega) with one | several
    · rw [← one, Nat.mod_one]
      split <;> omega
    · exact add_mod_wrap (by omega) several
  have wrapped := int16_cases ((e.head.toNat + 1) % modulus : Nat)
  rw [small, next]
  constructor
  · intro room
    apply int16_of_fits
    · omega
    · rw [slot]
      split <;> omega
  · intro none
    rw [slot] at wrapped ⊢
    rw [if_pos (by omega)] at wrapped ⊢
    omega

/-- The new timestamp takes the slot of the head. -/
theorem Stamped.update (stamped : e.Stamped modulus stamps) (size : modulus + 3 < 2 ^ 32)
    (fits : e.head < 2 ^ 15) (room : modulus ≤ 2 ^ 15 ∨ e.head ≠ 2 ^ 15 - 1) :
    (e.update knobs modulus increment predecessor successor timestamp).Stamped modulus
      (timestamp :: stamps) := by
  have nonneg := stamped.nonneg
  have lt := stamped.lt
  have positive : 0 < modulus := by omega
  have head := (next_head size fits nonneg lt).1 room
  have below := Nat.mod_lt (e.head.toNat + 1) positive
  refine ⟨?_, ?_, fun k inside => ?_⟩
  · rw [update_head, head]
    omega
  · rw [update_head, head]
    omega
  · have wrap : ((e.head.toNat + 1) % modulus + (modulus - 1 - k)) % modulus =
        (e.head.toNat + (modulus - k)) % modulus := by
      rw [Nat.mod_add_mod]
      congr 1
      omega
    rw [update_head, update_timestamps, head, Int.toNat_natCast, wrap]
    cases k with
    | zero =>
        rw [Nat.sub_zero, Nat.add_mod_right, Nat.mod_eq_of_lt (by omega), Function.update_self]
        rfl
    | succ k =>
        have other : (e.head.toNat + (modulus - (k + 1))) % modulus ≠ e.head.toNat := by
          rw [add_mod_wrap (by omega) (by omega)]
          split <;> omega
        have before := stamped.stamp_eq k (by omega)
        rw [show modulus - 1 - k = modulus - (k + 1) by omega] at before
        rw [Function.update_of_ne other, before]
        rfl

theorem Stamped.zero (positive : 0 < modulus) : zero.Stamped modulus [] :=
  ⟨le_rfl, Int.natCast_pos.mpr positive, fun _ _ => rfl⟩

end Timestamps

theorem zero_fits : zero.head < 2 ^ 15 := by
  norm_num [zero]

theorem Bounded.zero (knobs : Knobs) : zero.Bounded knobs := by
  constructor <;> simp [Entry.zero]

end Entry

namespace Detector

/-! ## Runs -/

section Runs

variable {knobs : Knobs} {d d' : Detector} {j : Journal} {segment : Nat}
  {increment predecessor successor : Int} {c : Call} {calls : List Call}

/-- The knobs that the detector admits. -/
structure Admits (knobs : Knobs) : Prop where
  leastSequence : 1 ≤ knobs.maxSequenceCounter
  mostSequence : knobs.maxSequenceCounter < 2 ^ 15
  leastSegment : 1 ≤ knobs.maxSegmentCounter
  mostSegment : knobs.maxSegmentCounter < 2 ^ 15

/-- The detector is right, and its numbers are those of the source. -/
structure Valid (knobs : Knobs) (d : Detector) (j : Journal) : Prop where
  keeps : d.Keeps knobs j
  positive : 0 < d.modulus
  modulus_lt : d.modulus < 2 ^ 32
  sizeof_eq : d.sizeofEntry = (d.modulus + 3) % 2 ^ 32
  counter_eq : d.counter = j.counter
  fits : ∀ segment, (d.entries segment).head < 2 ^ 15

theorem Valid.create {size modulus : Nat} (positive : 0 < modulus) (lt : modulus < 2 ^ 32) :
    (create size modulus).Valid knobs Journal.empty :=
  ⟨fun _ => ⟨Entry.Bounded.zero knobs, Entry.Stamped.zero positive⟩, positive, lt, rfl, rfl,
    fun _ => Entry.zero_fits⟩

/-- The detector with other entries, which are right. -/
theorem Valid.entries (valid : d.Valid knobs j) {entries : Nat → Entry} {capacity : Nat}
    {j' : Journal} (counter : j'.counter = j.counter)
    (keeps : ∀ segment, (entries segment).Bounded knobs ∧
      (entries segment).Stamped d.modulus (j'.stamps segment))
    (fits : ∀ segment, (entries segment).head < 2 ^ 15) :
    ({ d with entries := entries, capacity := capacity } : Detector).Valid knobs j' :=
  ⟨keeps, valid.positive, valid.modulus_lt, valid.sizeof_eq, valid.counter_eq.trans counter.symm,
    fits⟩

theorem Valid.cleared (valid : d.Valid knobs j) {capacity : Nat} {j' : Journal}
    (counter : j'.counter = j.counter) (stamps : j'.stamps = fun _ => []) :
    ({ d with entries := fun _ => Entry.zero, capacity := capacity } : Detector).Valid knobs j' := by
  refine valid.entries counter (fun segment => ⟨Entry.Bounded.zero knobs, ?_⟩) fun _ => Entry.zero_fits
  rw [stamps]
  exact Entry.Stamped.zero valid.positive

/-- An update is defined when the timestamp and the entry do not overflow. -/
theorem Valid.update_eq (valid : d.Valid knobs j) (within : segment < d.capacity) :
    d.update knobs increment segment predecessor successor =
      if d.modulus + 3 < 2 ^ 32 ∧ d.counter + 1 < 2 ^ 63 then
        some { d with
          counter := d.counter + 1
          entries := Function.update d.entries segment
            ((d.entries segment).update knobs d.modulus increment predecessor successor
              (d.counter + 1)) }
      else none := by
  have stamped := (valid.keeps segment).2
  have nonneg := stamped.nonneg
  have lt := stamped.lt
  have size := valid.sizeof_eq
  have modulus := valid.modulus_lt
  have defined : (d.counter + 1 < 2 ^ 63 ∧ segment < d.capacity ∧ 0 ≤ (d.entries segment).head ∧
      3 + (d.entries segment).head < d.sizeofEntry) ↔
      d.modulus + 3 < 2 ^ 32 ∧ d.counter + 1 < 2 ^ 63 := by
    omega
  unfold Detector.update
  simp only [defined]

/-- The entries after an update. -/
theorem keeps_update_iff (keeps : d.Keeps knobs j) {timestamp : Int} {e : Entry} :
    ({ d with counter := timestamp, entries := Function.update d.entries segment e } :
        Detector).Keeps knobs (j.note segment) ↔
      e.Bounded knobs ∧ e.Stamped d.modulus ((j.counter + 1) :: j.stamps segment) := by
  constructor
  · intro after
    simpa [Journal.note] using after segment
  · intro new other
    by_cases same : other = segment
    · subst same
      simpa [Journal.note] using new
    · simpa [Journal.note, same] using keeps other

/-- An update keeps the detector right exactly when it is regular. -/
theorem Valid.update_iff (admits : Admits knobs) (valid : d.Valid knobs j)
    (sign : increment = 1 ∨ increment = -1) (within : segment < d.capacity) :
    d.RegularUpdate knobs increment segment predecessor successor ↔
      ∃ d', d.update knobs increment segment predecessor successor = some d' ∧
        d'.Keeps knobs (j.note segment) := by
  have entry := valid.keeps segment
  have counters := @Entry.update_bounded_iff knobs increment (d.entries segment) d.modulus
    predecessor successor (d.counter + 1) admits.leastSequence admits.mostSequence
    admits.leastSegment admits.mostSegment sign entry.1
  have head := fun size => Entry.next_head size (valid.fits segment) entry.2.nonneg entry.2.lt
  rw [valid.update_eq within]
  constructor
  · intro regular
    rw [if_pos ⟨regular.size, regular.counter⟩]
    refine ⟨_, rfl, (keeps_update_iff valid.keeps).mpr ⟨counters.mpr ?_, ?_⟩⟩
    · exact fun other other' => ⟨regular.fwd other other', regular.bwd other other'⟩
    · rw [← valid.counter_eq]
      exact entry.2.update regular.size (valid.fits segment) regular.head
  · rintro ⟨d', updated, keeps⟩
    split at updated
    · next defined =>
      cases updated
      rcases (keeps_update_iff valid.keeps).mp keeps with ⟨bounded, stamped⟩
      refine ⟨fun other other' => (counters.mp bounded other other').1,
        fun other other' => (counters.mp bounded other other').2, ?_, defined.1, defined.2⟩
      by_contra full
      have negative := (head defined.1).2 full
      have nonneg := stamped.nonneg
      rw [Entry.update_head] at nonneg
      omega
    · cases updated

theorem Valid.update (valid : d.Valid knobs j) (within : segment < d.capacity)
    (updated : d.update knobs increment segment predecessor successor = some d')
    (keeps : d'.Keeps knobs (j.note segment)) : d'.Valid knobs (j.note segment) := by
  rw [valid.update_eq within] at updated
  split at updated
  · cases updated
    refine ⟨keeps, valid.positive, valid.modulus_lt, valid.sizeof_eq, ?_, fun other => ?_⟩
    · exact congrArg (· + 1) valid.counter_eq
    · by_cases same : other = segment
      · subst same
        simp only [Function.update_self, Entry.update_head]
        rcases int16_cases (((d.entries other).head + 1) % 2 ^ 32 % d.modulus) with ⟨_, _, _, below⟩
        exact below
      · simpa [same] using valid.fits other
  · cases updated

theorem perform_capacity (performed : d.perform knobs c = some d') :
    d'.capacity = c.capacityAfter d.capacity := by
  have updated : ∀ {increment segment predecessor successor},
      d.update knobs increment segment predecessor successor = some d' →
        d'.capacity = d.capacity := by
    intro _ _ _ _ updated
    simp only [Detector.update] at updated
    split at updated
    · cases updated
      rfl
    · cases updated
  cases c with
  | insert segment predecessor successor => exact updated performed
  | remove segment predecessor successor => exact updated performed
  | clear => cases performed; rfl
  | clearSegment segment => cases performed; rfl
  | resize size => cases performed; rfl

theorem Valid.clearSegment (valid : d.Valid knobs j) (segment : Nat) :
    (d.clearSegment segment).Valid knobs (j.record (.clearSegment segment)) := by
  refine valid.entries rfl (fun other => ?_) fun other => ?_
  · by_cases same : other = segment
    · subst same
      simpa [Journal.record] using
        And.intro (Entry.Bounded.zero knobs) (Entry.Stamped.zero valid.positive)
    · simpa [Journal.record, same] using valid.keeps other
  · by_cases same : other = segment
    · subst same
      simpa using Entry.zero_fits
    · simpa [same] using valid.fits other

/-- A call that keeps the detector right keeps its numbers. -/
theorem Valid.perform (valid : d.Valid knobs j) (within : c.Within d.capacity)
    (performed : d.perform knobs c = some d') (keeps : d'.Keeps knobs (j.record c)) :
    d'.Valid knobs (j.record c) := by
  cases c with
  | insert segment predecessor successor => exact valid.update within performed keeps
  | remove segment predecessor successor => exact valid.update within performed keeps
  | clear =>
      cases performed
      exact valid.cleared rfl rfl
  | clearSegment segment =>
      cases performed
      exact valid.clearSegment segment
  | resize size =>
      cases performed
      exact valid.cleared rfl rfl

/-- A call keeps the detector right exactly when it is regular. -/
theorem Valid.perform_iff (admits : Admits knobs) (valid : d.Valid knobs j)
    (within : c.Within d.capacity) :
    d.Regular knobs c ↔ ∃ d', d.perform knobs c = some d' ∧ d'.Keeps knobs (j.record c) := by
  cases c with
  | insert segment predecessor successor => exact valid.update_iff admits (Or.inl rfl) within
  | remove segment predecessor successor => exact valid.update_iff admits (Or.inr rfl) within
  | clear =>
      have cleared : d.clear.Valid knobs (j.record .clear) := valid.cleared rfl rfl
      exact ⟨fun _ => ⟨_, rfl, cleared.keeps⟩, fun _ => trivial⟩
  | clearSegment segment =>
      exact ⟨fun _ => ⟨_, rfl, (valid.clearSegment segment).keeps⟩, fun _ => trivial⟩
  | resize size =>
      have cleared : (d.resize size).Valid knobs (j.record (.resize size)) := valid.cleared rfl rfl
      exact ⟨fun _ => ⟨_, rfl, cleared.keeps⟩, fun _ => trivial⟩

theorem KeepsRun.keeps (run : d.KeepsRun knobs j calls) : d.Keeps knobs j := by
  cases calls with
  | nil => exact run
  | cons c calls => exact run.1

/-- The detector is right at the end of the run. -/
theorem KeepsRun.run (run : d.KeepsRun knobs j calls) :
    ∃ d', runFrom (perform knobs) d calls = some d' ∧ ∃ j', d'.Keeps knobs j' := by
  induction calls generalizing d j with
  | nil => exact ⟨d, rfl, j, run⟩
  | cons c calls ih =>
      rcases run with ⟨-, d', performed, rest⟩
      rcases ih rest with ⟨d'', reached, keeps⟩
      exact ⟨d'', runFrom_cons_eq_some.mpr ⟨d', performed, reached⟩, keeps⟩

theorem Valid.keepsRun_iff (admits : Admits knobs) (valid : d.Valid knobs j)
    (within : Within d.capacity calls) : d.KeepsRun knobs j calls ↔ d.RegularRun knobs calls := by
  induction calls generalizing d j with
  | nil => exact ⟨fun _ => trivial, fun _ => valid.keeps⟩
  | cons c calls ih =>
      have step := valid.perform_iff admits within.1
      constructor
      · rintro ⟨-, d', performed, rest⟩
        have valid' := valid.perform within.1 performed rest.keeps
        refine ⟨step.mpr ⟨d', performed, rest.keeps⟩, fun d'' performed' => ?_⟩
        obtain rfl : d' = d'' := Option.some_injective _ (performed.symm.trans performed')
        exact (ih valid' (perform_capacity performed ▸ within.2)).mp rest
      · rintro ⟨regular, rest⟩
        rcases step.mp regular with ⟨d', performed, keeps⟩
        have valid' := valid.perform within.1 performed keeps
        exact ⟨valid.keeps, d', performed,
          (ih valid' (perform_capacity performed ▸ within.2)).mpr (rest d' performed)⟩

end Runs

/-- The counters stay within their maxima, the heads in the buffers, and the slots hold the
last timestamps, all along a run of calls, exactly when every call is regular. -/
theorem detector_bounded {knobs : Knobs} {size modulus : Nat} {calls : List Call}
    (admits : Admits knobs) (positive : 0 < modulus) (lt : modulus < 2 ^ 32)
    (within : Within size calls) :
    (create size modulus).KeepsRun knobs Journal.empty calls ↔
      (create size modulus).RegularRun knobs calls :=
  (Valid.create positive lt).keepsRun_iff admits within

/-- The knobs of the constructor. -/
def defaultKnobs : Knobs where
  segmentThreshold := 6
  sequenceThreshold := 6
  maxSequenceCounter := 8
  maxSegmentCounter := 10

theorem admits_defaultKnobs : Admits defaultKnobs := by
  constructor <;> decide

/-- Insertions and deletions in two segments, with a timestamp that leaves its slot. -/
theorem detector_bounded_two :
    (create 2 2).KeepsRun defaultKnobs Journal.empty
      [.insert 0 5 7, .insert 0 6 7, .remove 1 3 4, .insert 0 7 9, .clearSegment 1, .resize 3] ↔
    (create 2 2).RegularRun defaultKnobs
      [.insert 0 5 7, .insert 0 6 7, .remove 1 3 4, .insert 0 7 9, .clearSegment 1, .resize 3] :=
  detector_bounded admits_defaultKnobs (by decide) (by decide)
    (by simp [Within, Call.Within, Call.capacityAfter])

/-- After eight deletions in sequence, an insertion elsewhere takes the
backwards counter to -9. -/
theorem detector_bounded_fails :
    ¬∀ (knobs : Knobs) (size modulus : Nat) (calls : List Call), Admits knobs → 0 < modulus →
      modulus < 2 ^ 32 → Within size calls →
      (create size modulus).KeepsRun knobs Journal.empty calls := by
  intro claim
  have within : Within 1 (List.replicate 8 (.remove 0 5 6) ++ [.insert 0 7 8]) := by
    simp [List.replicate, Within, Call.Within, Call.capacityAfter]
  have keepsRun := claim defaultKnobs 1 8 _ admits_defaultKnobs (by decide) (by decide) within
  rcases keepsRun.run with ⟨d, run, j, keeps⟩
  have reached : (runFrom (perform defaultKnobs) (create 1 8)
      (List.replicate 8 (.remove 0 5 6) ++ [.insert 0 7 8])).map
        (fun d => (d.entries 0).countBwd) = some (-9) := by
    decide +kernel
  rw [run, Option.map_some, Option.some_inj] at reached
  have bounded := (keeps 0).1.bwd
  rw [reached] at bounded
  exact absurd bounded (by decide)

end Detector

end Rma
