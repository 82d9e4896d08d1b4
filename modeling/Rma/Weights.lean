import Rma.Detector
import Rma.Storage

/-!
# Hammered intervals

`Weights` reads from the detector which segments of a window are hammered, by insertions or
by deletions, and turns them into intervals of positions: a whole segment, or two elements
at the end of a sequence. Intervals that touch are merged; where their weights disagree, the
interval is neutral and is removed at the end.

The bounds of an interval are kept in a field of 32 bits and in one of 16 bits.
`detectHammered_valid` says that the intervals are valid exactly when the bounds of those
that remain fit: `Narrow` merges the sections without a limit, and asks that no interval
becomes longer than the field unless its weights disagree.
-/

namespace Rma

open Base

/-- `Interval`. Its bounds and its segment as they are computed, before they are stored, are
kept beside it. -/
structure Interval where
  start : Nat
  length : Nat
  weight : Int
  associatedSegment : Int
  computedStart : Nat
  computedLength : Nat
  computedSegment : Nat

/-- The conversions of the constructor. -/
def Interval.make (start length : Nat) (weight : Int) (segment : Nat) : Interval where
  start := start % 2 ^ 32
  length := length % 2 ^ 16
  weight := int16 weight
  associatedSegment := (segment : Int).bmod (2 ^ 32)
  computedStart := start
  computedLength := length
  computedSegment := segment

/-- What `Weights` reads: the array, the knobs and the window. -/
structure WeightsWindow where
  storage : Storage
  knobs : Knobs
  segmentStart : Nat
  segmentLength : Nat

/-- What `Weights` computes: the output, its last interval first, and the balance. -/
structure WeightsState where
  output : List Interval
  balance : Int
  detector : Detector

/-- `find_position(segment_id, key)`, -1 where the key is not there. -/
def Storage.findPosition (s : Storage) (segmentId : Nat) (key : Int) : Int :=
  if key = -2 ^ 63 then 0
  else if key = 2 ^ 63 - 1 then s.segmentSizes segmentId
  else
    -- in rebalance, we may temporarily alter the size of a segment to segment_capacity + 1
    let sz := min (s.segmentSizes segmentId) s.segmentCapacity
    let start := if segmentId % 2 = 0 then s.segmentCapacity - sz else 0
    let i := scanUp (fun i => s.keys (segmentId * s.segmentCapacity + i) ≠ key) start sz
    if i < start + sz then i - start else -1

namespace WeightsWindow

/-! ## Sections -/

/-- `get_cardinality(segment_id)` -/
def getCardinality (w : WeightsWindow) (i : Nat) : Nat :=
  w.storage.segmentSizes (w.segmentStart + i)

/-- `get_cardinality_upto_excl(segment_id)` -/
def getCardinalityUptoExcl (w : WeightsWindow) (i : Nat) : Nat :=
  ((List.range i).map w.getCardinality).sum

/-- The number of elements of the window. -/
def total (w : WeightsWindow) : Nat := w.getCardinalityUptoExcl w.segmentLength

/-- `find_key(segment_id, key)` -/
def findKey (w : WeightsWindow) (i : Nat) (key : Int) : Int :=
  w.storage.findPosition (w.segmentStart + i) key

/-- A hammered section: its first position, its length, its weight and its segment. -/
structure Section where
  base : Nat
  length : Nat
  weight : Int
  segment : Nat

def Section.wend (c : Section) : Nat := c.base + c.length

/-- The weight of a segment, 0 when it is not hammered. -/
def weightOf (w : WeightsWindow) (selectThreshold : Int) (e : Entry) : Int :=
  let timestampMin := e.timestamps e.head.toNat
  if timestampMin < selectThreshold then 0 -- skip this segment
  else if e.countSegment > w.knobs.segmentThreshold then 1
  else if e.countSegment < -w.knobs.segmentThreshold then -1
  else 0

/-- The two elements at the end of a sequence, or the whole segment. -/
def runOf (w : WeightsWindow) (i : Nat) (e : Entry) (weight : Int) : Nat × Nat :=
  let base := w.getCardinalityUptoExcl i
  let length := w.getCardinality i
  let threshold : Int := w.knobs.sequenceThreshold
  if (weight > 0 ∧ e.countBwd ≥ threshold) ∨ (weight < 0 ∧ e.countBwd ≤ -threshold) then -- forwards
    let pos := w.findKey i e.keyBwd
    if pos ≠ -1 then
      (base + (if pos > 0 then pos - 1 else pos).toNat, 2) -- as this is the next element
    else (base, length)
  else if (weight > 0 ∧ e.countFwd ≥ threshold) ∨ (weight < 0 ∧ e.countBwd ≤ -threshold) then
    -- backwards
    let pos := w.findKey i e.keyFwd
    if pos ≠ -1 then (base + pos.toNat, 2) else (base, length)
  else (base, length)

/-- Clip a run at the end of the window; an empty one becomes one element. The numbers have
64 bits, and the last position of an empty window wraps around. -/
def clip (w : WeightsWindow) (run : Nat × Nat) : Nat × Nat :=
  let length := if run.1 + run.2 > w.total then w.total - run.1 else run.2
  if length = 0 then (if run.1 ≥ w.total then (w.total + (2 ^ 64 - 1)) % 2 ^ 64 else run.1, 1)
  else (run.1, length)

/-- The section of a segment, if it is hammered. -/
def sectionOf (w : WeightsWindow) (selectThreshold : Int) (i : Nat) (e : Entry) : Option Section :=
  let weight := w.weightOf selectThreshold e
  if weight = 0 then none
  else
    let run := w.clip (w.runOf i e weight)
    some ⟨run.1, run.2, weight, i⟩

/-! ## Intervals -/

/-- Merge a section with the last interval, or add it. -/
def addSection (w : WeightsWindow) (s : WeightsState) (c : Section) : WeightsState :=
  let added : WeightsState :=
    { s with
      output := Interval.make c.base c.length c.weight c.segment :: s.output
      balance := s.balance + c.weight }
  match s.output with
  | [] => added
  | predecessor :: output =>
    -- do the intervals overlap?
    if (predecessor.start + predecessor.length) % 2 ^ 32 ≥ c.base then
      -- a section does not end before the last interval begins
      let length := c.wend - predecessor.start
      let merged := { predecessor with length := length % 2 ^ 16, computedLength := length }
      if predecessor.weight ≠ c.weight then
        { output := { merged with weight := 0 } :: output
          balance := s.balance + -predecessor.weight
          detector := s.detector.clearSegment (w.segmentStart + c.segment) }
      else { s with output := merged :: output }
    else added

/-- One turn of the loop of `detect_hammered`. -/
def step (w : WeightsWindow) (selectThreshold : Int) (s : WeightsState) (i : Nat) : WeightsState :=
  match w.sectionOf selectThreshold i (s.detector.entries (w.segmentStart + i)) with
  | none => s
  | some c => w.addSection s c

/-- `detect_hammered(select_threshold)` -/
def detectHammered (w : WeightsWindow) (selectThreshold : Int) (detector : Detector) :
    WeightsState :=
  (List.range w.segmentLength).foldl (w.step selectThreshold) ⟨[], 0, detector⟩

/-- `remove_neutral`, from the last interval on. -/
def removeNeutral (w : WeightsWindow) : List Interval → Detector → List Interval × Detector
  | [], detector => ([], detector)
  | entry :: output, detector =>
    if entry.weight = 0 then
      w.removeNeutral output
        (if entry.associatedSegment ≥ 0 then
          detector.clearSegment (w.segmentStart + entry.associatedSegment.toNat)
        else detector)
    else
      let (output, detector) := w.removeNeutral output detector
      (entry :: output, detector)

/-- The part of the constructor from the prefix sums on: undefined where they overflow. -/
def detect (w : WeightsWindow) (selectThreshold : Int) (detector : Detector) :
    Option WeightsState :=
  if w.total < 2 ^ 31 then
    let s := w.detectHammered selectThreshold detector
    let (output, detector) := w.removeNeutral s.output s.detector
    some { s with output := output, detector := detector }
  else none

/-- `release()`: the intervals from the first one on. -/
def release (s : WeightsState) : List Interval := s.output.reverse

/-! ## The sections of a window -/

/-- The sections of the hammered segments. -/
def sections (w : WeightsWindow) (selectThreshold : Int) (detector : Detector) : List Section :=
  (List.range w.segmentLength).filterMap fun i =>
    w.sectionOf selectThreshold i (detector.entries (w.segmentStart + i))

/-- Sections that touch, merged without a limit; the segment is the first one. -/
structure Group where
  start : Nat
  wend : Nat
  weight : Int
  segment : Nat

def Group.ofSection (c : Section) : Group := ⟨c.base, c.wend, c.weight, c.segment⟩

def Group.merge (g : Group) (c : Section) : Group :=
  ⟨g.start, c.wend, if g.weight = c.weight then g.weight else 0, g.segment⟩

/-- The number of the segment fits in its field, or the interval is removed. -/
def Group.Settled (g : Group) : Prop := g.weight = 0 ∨ g.segment < 2 ^ 31

/-- Merge the sections from left to right, the last interval being given if there is one.
No interval is longer than its field, unless the weights of its sections disagree; the
merge then starts again after it. -/
def Narrow : Option Group → List Section → Prop
  | none, [] => True
  | some g, [] => g.Settled
  | none, c :: cs => Narrow (some (.ofSection c)) cs
  | some g, c :: cs =>
    if g.wend ≥ c.base then
      if c.wend - g.start < 2 ^ 16 then Narrow (some (g.merge c)) cs
      else (g.merge c).weight = 0 ∧ Narrow none cs
    else g.Settled ∧ Narrow (some (.ofSection c)) cs

/-- The intervals are sorted and disjoint, not empty, and within the window; their bounds are
those computed, and the balance is the sum of their weights. -/
structure Valid (w : WeightsWindow) (s : WeightsState) : Prop where
  ordered : (release s).Pairwise fun a b => a.start + a.length ≤ b.start
  nonempty : ∀ a ∈ s.output, 0 < a.length
  inside : ∀ a ∈ s.output, a.start + a.length ≤ w.total
  exact : ∀ a ∈ s.output, a.start = a.computedStart ∧ a.length = a.computedLength
  weight : ∀ a ∈ s.output, a.weight = 1 ∨ a.weight = -1
  segment : ∀ a ∈ s.output, 0 ≤ a.associatedSegment ∧ a.associatedSegment < w.segmentLength
  balance : s.balance = (s.output.map Interval.weight).sum

section Sections

variable {w : WeightsWindow} {selectThreshold : Int} {i j : Nat} {e : Entry} {c : Section}

theorem getCardinalityUptoExcl_succ (w : WeightsWindow) (i : Nat) :
    w.getCardinalityUptoExcl (i + 1) = w.getCardinalityUptoExcl i + w.getCardinality i := by
  simp [getCardinalityUptoExcl, List.range_succ]

theorem getCardinalityUptoExcl_mono (w : WeightsWindow) (le : i ≤ j) :
    w.getCardinalityUptoExcl i ≤ w.getCardinalityUptoExcl j := by
  refine monotone_nat_of_le_succ (fun i => ?_) le
  rw [getCardinalityUptoExcl_succ]
  exact Nat.le_add_right _ _

/-- A position is within its segment, or just after it. -/
theorem findKey_bounds (w : WeightsWindow) (i : Nat) (key : Int) :
    w.findKey i key = -1 ∨ 0 ≤ w.findKey i key ∧ w.findKey i key ≤ w.getCardinality i := by
  unfold findKey Storage.findPosition getCardinality
  split
  · omega
  · split
    · omega
    · simp only
      have sz := min_le_left (w.storage.segmentSizes (w.segmentStart + i)) w.storage.segmentCapacity
      generalize min (w.storage.segmentSizes (w.segmentStart + i)) w.storage.segmentCapacity = n
        at *
      generalize (if (w.segmentStart + i) % 2 = 0 then w.storage.segmentCapacity - n else 0) = start
      have scan := scanUp_spec (fun j => decide (w.storage.keys
          ((w.segmentStart + i) * w.storage.segmentCapacity + j) ≠ key)) start n
      generalize scanUp (fun j => decide (w.storage.keys
          ((w.segmentStart + i) * w.storage.segmentCapacity + j) ≠ key)) start n = k at *
      split <;> omega

/-- A run begins in its segment, or just after it. -/
theorem runOf_bounds (w : WeightsWindow) (i : Nat) (e : Entry) (weight : Int)
    (short : w.getCardinality i < 2 ^ 16) :
    w.getCardinalityUptoExcl i ≤ (w.runOf i e weight).1 ∧
      (w.runOf i e weight).1 ≤ w.getCardinalityUptoExcl (i + 1) ∧
      (w.runOf i e weight).1 + (w.runOf i e weight).2 ≤ w.getCardinalityUptoExcl (i + 1) + 2 ∧
      (w.runOf i e weight).2 < 2 ^ 16 := by
  have next := getCardinalityUptoExcl_succ w i
  have forwards := w.findKey_bounds i e.keyBwd
  have backwards := w.findKey_bounds i e.keyFwd
  unfold runOf
  simp only
  split_ifs <;> simp only <;> omega

/-- A clipped run is not empty, and within the window. -/
theorem clip_bounds {run : Nat × Nat} (positive : 0 < w.total) (small : w.total < 2 ^ 31)
    (le : run.1 ≤ w.total) :
    min run.1 (w.total - 1) ≤ (w.clip run).1 ∧ (w.clip run).1 ≤ run.1 ∧ 0 < (w.clip run).2 ∧
      (w.clip run).1 + (w.clip run).2 ≤ w.total ∧
      (w.clip run).1 + (w.clip run).2 ≤ max (run.1 + run.2) (run.1 + 1) ∧
      (w.clip run).2 ≤ max run.2 1 := by
  unfold clip
  simp only
  split_ifs <;> simp only <;> omega

/-- What is known of the section of a segment. -/
structure Located (w : WeightsWindow) (c : Section) : Prop where
  lower : min (w.getCardinalityUptoExcl c.segment) (w.total - 1) ≤ c.base
  upper : c.base ≤ w.getCardinalityUptoExcl (c.segment + 1)
  wend_le : c.wend ≤ w.getCardinalityUptoExcl (c.segment + 1) + 2
  base_lt : c.base < c.wend
  inside : c.wend ≤ w.total
  short : c.length < 2 ^ 16
  weight : c.weight = 1 ∨ c.weight = -1
  segment_lt : c.segment < w.segmentLength

theorem weightOf_cases (w : WeightsWindow) (selectThreshold : Int) (e : Entry) :
    w.weightOf selectThreshold e = 0 ∨ w.weightOf selectThreshold e = 1 ∨
      w.weightOf selectThreshold e = -1 := by
  unfold weightOf
  simp only
  split_ifs <;> simp

theorem sectionOf_located (positive : 0 < w.total) (small : w.total < 2 ^ 31)
    (short : ∀ i < w.segmentLength, w.getCardinality i < 2 ^ 16) (inside : i < w.segmentLength)
    (found : w.sectionOf selectThreshold i e = some c) : c.segment = i ∧ w.Located c := by
  unfold sectionOf at found
  simp only at found
  split at found
  · cases found
  · next hammered =>
    cases found
    have upto := getCardinalityUptoExcl_mono w (Nat.succ_le_of_lt inside)
    have run := w.runOf_bounds i e (w.weightOf selectThreshold e) (short i inside)
    have clip := clip_bounds positive small (run.2.1.trans upto)
    have weight := (w.weightOf_cases selectThreshold e).resolve_left hammered
    refine ⟨rfl, ?_, ?_, ?_, ?_, ?_, ?_, weight, inside⟩
    all_goals simp only [Section.wend]
    all_goals omega

/-- The sections of a window in order: one that follows another begins at or after it, and
after its end but for two elements. -/
theorem Located.follows {c' : Section} (located : w.Located c) (located' : w.Located c')
    (before : c.segment < c'.segment) : c.base ≤ c'.base ∧ c.wend ≤ c'.base + 2 := by
  have upto := getCardinalityUptoExcl_mono w (Nat.succ_le_of_lt before)
  have h₁ := located.upper
  have h₂ := located.wend_le
  have h₃ := located.base_lt
  have h₄ := located.inside
  have h₅ := located'.lower
  rw [Nat.succ_eq_add_one] at upto
  omega

theorem sections_located (positive : 0 < w.total) (small : w.total < 2 ^ 31)
    (short : ∀ i < w.segmentLength, w.getCardinality i < 2 ^ 16) (detector : Detector) :
    (∀ c ∈ w.sections selectThreshold detector, w.Located c) ∧
      (w.sections selectThreshold detector).Pairwise fun c c' =>
        c.base ≤ c'.base ∧ c.wend ≤ c'.base + 2 := by
  constructor
  · intro c member
    rcases List.mem_filterMap.mp member with ⟨i, inside, found⟩
    exact (sectionOf_located positive small short (List.mem_range.mp inside) found).2
  · unfold sections
    rw [List.pairwise_filterMap]
    apply List.Pairwise.imp_of_mem _ List.pairwise_lt_range
    intro i j memI memJ before c found c' found'
    have first := sectionOf_located positive small short (List.mem_range.mp memI) found
    have second := sectionOf_located positive small short (List.mem_range.mp memJ) found'
    exact first.2.follows second.2 (by rw [first.1, second.1]; exact before)

/-- Adding a section resets no entry but that of its segment. -/
theorem addSection_entries (w : WeightsWindow) (s : WeightsState) (c : Section) {k : Nat}
    (other : k ≠ w.segmentStart + c.segment) :
    (w.addSection s c).detector.entries k = s.detector.entries k := by
  unfold addSection
  rcases s.output with _ | ⟨predecessor, output⟩
  · rfl
  · simp only
    split_ifs
    · exact Function.update_of_ne other _ _
    · rfl
    · rfl

/-- The loop adds the sections of the window, as the detector gives them at its start. -/
theorem detectHammered_eq (w : WeightsWindow) (selectThreshold : Int) (detector : Detector) :
    w.detectHammered selectThreshold detector =
      (w.sections selectThreshold detector).foldl w.addSection ⟨[], 0, detector⟩ := by
  have loop : ∀ (l : List Nat) (s : WeightsState), l.Pairwise (· < ·) →
      (∀ i ∈ l, s.detector.entries (w.segmentStart + i) =
        detector.entries (w.segmentStart + i)) →
      l.foldl (w.step selectThreshold) s =
        (l.filterMap fun i =>
          w.sectionOf selectThreshold i (detector.entries (w.segmentStart + i))).foldl
            w.addSection s := by
    intro l
    induction l with
    | nil => exact fun _ _ _ => rfl
    | cons i l ih =>
        intro s increasing same
        rcases List.pairwise_cons.mp increasing with ⟨later, increasing⟩
        have rest := fun s => ih s increasing
        rw [List.foldl_cons, step, same i List.mem_cons_self]
        rcases found : w.sectionOf selectThreshold i (detector.entries (w.segmentStart + i)) with
          _ | c
        · simp only [List.filterMap_cons, found]
          exact rest s fun j member => same j (List.mem_cons_of_mem _ member)
        · simp only [List.filterMap_cons, found, List.foldl_cons]
          apply rest
          intro j member
          have segment : c.segment = i := by
            unfold sectionOf at found
            simp only at found
            split at found
            · cases found
            · cases found
              rfl
          have after := later j member
          rw [addSection_entries w s c (by omega)]
          exact same j (List.mem_cons_of_mem _ member)
  exact loop _ _ List.pairwise_lt_range fun _ _ => rfl

end Sections

/-! ## Merging -/

section Merging

variable {w : WeightsWindow} {s : WeightsState} {c : Section} {cs : List Section} {p : Interval}
  {rest : List Interval}

/-- The last interval with a section that touches it. -/
def merge (p : Interval) (c : Section) : Interval :=
  { p with
    length := (c.wend - p.start) % 2 ^ 16
    computedLength := c.wend - p.start
    weight := if p.weight = c.weight then p.weight else 0 }

theorem addSection_merge (split : s.output = p :: rest) (small : p.start + p.length < 2 ^ 32)
    (touch : c.base ≤ p.start + p.length) :
    (w.addSection s c).output = merge p c :: rest ∧
      (w.addSection s c).balance = s.balance + (merge p c).weight - p.weight := by
  unfold addSection merge
  simp only [split, Nat.mod_eq_of_lt small, if_pos touch]
  by_cases same : p.weight = c.weight
  · simp [same]
  · refine ⟨by simp [same], ?_⟩
    simp only [ne_eq, same, not_false_eq_true, if_true, if_false]
    omega

theorem addSection_push
    (apart : ∀ a, s.output.head? = some a → a.start + a.length < 2 ^ 32 ∧
      a.start + a.length < c.base) :
    (w.addSection s c).output = Interval.make c.base c.length c.weight c.segment :: s.output ∧
      (w.addSection s c).balance = s.balance + c.weight := by
  unfold addSection
  rcases split : s.output with _ | ⟨a, rest⟩
  · exact ⟨rfl, rfl⟩
  · rcases apart a (by rw [split]; rfl) with ⟨small, less⟩
    simp only [Nat.mod_eq_of_lt small, if_neg (not_le.mpr less), and_self]

/-- An interval, in the window, whose bounds are those computed but for the conversion. -/
structure Stored (w : WeightsWindow) (a : Interval) : Prop where
  start : a.start = a.computedStart
  length : a.length = a.computedLength % 2 ^ 16
  positive : 0 < a.computedLength
  inside : a.start + a.computedLength ≤ w.total
  weight : a.weight = 0 ∨ a.weight = 1 ∨ a.weight = -1
  segment : a.associatedSegment = (a.computedSegment : Int).bmod (2 ^ 32)
  segment_lt : a.computedSegment < w.segmentLength

theorem Stored.length_le {a : Interval} (stored : w.Stored a) : a.length ≤ a.computedLength := by
  rw [stored.length]
  exact Nat.mod_le _ _

/-- The state before the sections that are left. -/
structure Follows (w : WeightsWindow) (s : WeightsState) (cs : List Section) : Prop where
  ordered : s.output.Pairwise fun a b => b.start + b.length < a.start
  stored : ∀ a ∈ s.output, w.Stored a
  balance : s.balance = (s.output.map Interval.weight).sum
  located : ∀ c ∈ cs, w.Located c
  apart : cs.Pairwise fun c c' => c.base ≤ c'.base ∧ c.wend ≤ c'.base + 2
  after : ∀ a, s.output.head? = some a →
    ∀ c ∈ cs, a.start ≤ c.base ∧ a.start + a.computedLength ≤ c.base + 2

theorem Stored.make (total : w.total < 2 ^ 31) (located : w.Located c) :
    w.Stored (Interval.make c.base c.length c.weight c.segment) := by
  have base := located.base_lt
  have inside := located.inside
  unfold Section.wend at base inside
  have start : c.base % 2 ^ 32 = c.base := Nat.mod_eq_of_lt (by omega)
  refine ⟨start, by rw [Interval.make], ?_, ?_, ?_, by rw [Interval.make], located.segment_lt⟩
  · change 0 < c.length
    omega
  · change c.base % 2 ^ 32 + c.length ≤ w.total
    rw [start]
    exact inside
  · change int16 c.weight = 0 ∨ int16 c.weight = 1 ∨ int16 c.weight = -1
    rcases located.weight with one | one
    · rw [one]
      decide
    · rw [one]
      decide

/-- The weight that the constructor stores. -/
theorem make_weight (located : w.Located c) :
    (Interval.make c.base c.length c.weight c.segment).weight = c.weight := by
  change int16 c.weight = c.weight
  rcases located.weight with one | one
  · rw [one]
    decide
  · rw [one]
    decide

theorem Stored.merge (stored : w.Stored p) (located : w.Located c) (le : p.start ≤ c.base) :
    w.Stored (merge p c) := by
  have base := located.base_lt
  have inside := located.inside
  refine ⟨stored.start, rfl, ?_, ?_, ?_, stored.segment, stored.segment_lt⟩
  · change 0 < c.wend - p.start
    omega
  · change p.start + (c.wend - p.start) ≤ w.total
    omega
  · change (if p.weight = c.weight then p.weight else 0) = 0 ∨ _
    by_cases same : p.weight = c.weight
    · simpa [WeightsWindow.merge, same] using same ▸ stored.weight
    · exact Or.inl (if_neg same)

/-- The next section is added to the last interval, or it becomes the last one. -/
theorem Follows.add (total : w.total < 2 ^ 31)
    (follows : w.Follows s (c :: cs)) :
    w.Follows (w.addSection s c) cs ∧
      ((∃ p rest, s.output = p :: rest ∧ c.base ≤ p.start + p.length ∧
          (w.addSection s c).output = merge p c :: rest) ∨
        (∀ a, s.output.head? = some a → a.start + a.length < c.base) ∧
          (w.addSection s c).output =
            Interval.make c.base c.length c.weight c.segment :: s.output) := by
  have located := follows.located c List.mem_cons_self
  rcases List.pairwise_cons.mp follows.apart with ⟨next, apart⟩
  have later := fun c' member => follows.located c' (List.mem_cons_of_mem c member)
  have small : ∀ a ∈ s.output, a.start + a.length < 2 ^ 32 := by
    intro a member
    have stored := follows.stored a member
    have length := stored.length_le
    have inside := stored.inside
    omega
  by_cases touch : ∃ p rest, s.output = p :: rest ∧ c.base ≤ p.start + p.length
  · rcases touch with ⟨p, rest, split, touch⟩
    have member : p ∈ s.output := by rw [split]; exact List.mem_cons_self
    rcases addSection_merge split (small p member) touch with ⟨output, balance⟩
    have after := (follows.after p (by rw [split]; rfl) c List.mem_cons_self).1
    have ordered := follows.ordered
    have stored := follows.stored
    have sum := follows.balance
    rw [split] at ordered stored sum
    rcases List.pairwise_cons.mp ordered with ⟨first, orderedRest⟩
    refine ⟨⟨?_, ?_, ?_, later, apart, ?_⟩, Or.inl ⟨p, rest, split, touch, output⟩⟩
    · rw [output]
      exact List.pairwise_cons.mpr ⟨first, orderedRest⟩
    · rw [output]
      intro a memA
      rcases List.mem_cons.mp memA with rfl | memA
      · exact (stored p List.mem_cons_self).merge located after
      · exact stored a (List.mem_cons_of_mem _ memA)
    · rw [balance, output, sum, List.map_cons, List.map_cons, List.sum_cons, List.sum_cons]
      omega
    · rw [output]
      intro a head c' memC
      obtain rfl : merge p c = a := Option.some_injective _ head
      have base := located.base_lt
      have following := next c' memC
      change p.start ≤ c'.base ∧ p.start + (c.wend - p.start) ≤ c'.base + 2
      omega
  · have apart' : ∀ a, s.output.head? = some a → a.start + a.length < c.base := by
      intro a head
      by_contra touching
      rcases split : s.output with _ | ⟨b, rest⟩
      · rw [split] at head
        cases head
      · rw [split] at head
        obtain rfl : b = a := Option.some_injective _ head
        exact touch ⟨b, rest, split, not_lt.mp touching⟩
    have push := @addSection_push w s c fun a head =>
      ⟨small a (List.mem_of_mem_head? head), apart' a head⟩
    rcases push with ⟨output, balance⟩
    have start : (Interval.make c.base c.length c.weight c.segment).start = c.base := by
      have base := located.base_lt
      have inside := located.inside
      exact Nat.mod_eq_of_lt (by omega)
    refine ⟨⟨?_, ?_, ?_, later, apart, ?_⟩, Or.inr ⟨apart', output⟩⟩
    · rw [output]
      refine List.pairwise_cons.mpr ⟨fun a member => ?_, follows.ordered⟩
      rw [start]
      rcases split : s.output with _ | ⟨b, rest⟩
      · rw [split] at member
        cases member
      · have first := apart' b (by rw [split]; rfl)
        have ordered := follows.ordered
        rw [split] at ordered member
        rcases List.mem_cons.mp member with rfl | member
        · exact first
        · have before := (List.pairwise_cons.mp ordered).1 a member
          omega
    · rw [output]
      intro a memA
      rcases List.mem_cons.mp memA with rfl | memA
      · exact Stored.make total located
      · exact follows.stored a memA
    · rw [balance, output, List.map_cons, List.sum_cons, make_weight located, follows.balance]
      omega
    · rw [output]
      intro a head c' memC
      obtain rfl : Interval.make c.base c.length c.weight c.segment = a :=
        Option.some_injective _ head
      rw [start]
      exact next c' memC

/-- The bounds and the segment of an interval fit in their fields, or it is removed. -/
def Fit (a : Interval) : Prop :=
  a.weight = 0 ∨ a.computedLength < 2 ^ 16 ∧ a.computedSegment < 2 ^ 31

def groupOf (a : Interval) : Group :=
  ⟨a.start, a.start + a.computedLength, a.weight, a.computedSegment⟩

/-- The last interval, as long as its length fits. -/
def lastGroup (output : List Interval) : Option Group :=
  match output with
  | [] => none
  | a :: _ => if a.computedLength < 2 ^ 16 then some (groupOf a) else none

/-- The intervals that are not extended any more. -/
def closed (output : List Interval) : List Interval :=
  match output with
  | [] => []
  | a :: rest => if a.computedLength < 2 ^ 16 then rest else a :: rest

section LastInterval

variable {a : Interval}

theorem closed_of_fits (fits : a.computedLength < 2 ^ 16) : closed (a :: rest) = rest := if_pos fits

theorem lastGroup_of_fits (fits : a.computedLength < 2 ^ 16) :
    lastGroup (a :: rest) = some (groupOf a) := if_pos fits

theorem closed_of_wide (wide : ¬a.computedLength < 2 ^ 16) : closed (a :: rest) = a :: rest :=
  if_neg wide

theorem lastGroup_of_wide (wide : ¬a.computedLength < 2 ^ 16) : lastGroup (a :: rest) = none :=
  if_neg wide

theorem settled_groupOf (fits : a.computedLength < 2 ^ 16) : (groupOf a).Settled ↔ Fit a :=
  or_congr_right (iff_and_self.mpr fun _ => fits)

/-- The intervals fit when the closed ones do, and the last one is settled. -/
theorem forall_fit_iff (output : List Interval) :
    (∀ a ∈ output, Fit a) ↔
      (∀ a ∈ closed output, Fit a) ∧ ∀ g, lastGroup output = some g → g.Settled := by
  rcases output with _ | ⟨a, rest⟩
  · simp [closed, lastGroup]
  · rw [List.forall_mem_cons]
    by_cases fits : a.computedLength < 2 ^ 16
    · rw [closed_of_fits fits, lastGroup_of_fits fits]
      simp only [Option.some_inj, forall_eq', settled_groupOf fits]
      exact and_comm
    · rw [closed_of_wide fits, lastGroup_of_wide fits, List.forall_mem_cons]
      simp

end LastInterval

/-- An interval that does not fit is never extended. -/
theorem Follows.fits_of_touch (follows : w.Follows s (c :: cs)) (split : s.output = p :: rest)
    (touch : c.base ≤ p.start + p.length) : p.computedLength < 2 ^ 16 := by
  have stored := follows.stored p (by rw [split]; exact List.mem_cons_self)
  have after := (follows.after p (by rw [split]; rfl) c List.mem_cons_self).2
  have length := stored.length
  omega

/-- The intervals of the end fit exactly when the closed ones do and the sections that are
left are narrow. -/
theorem Follows.narrow_iff (total : w.total < 2 ^ 31) (follows : w.Follows s cs) :
    (∀ a ∈ (cs.foldl w.addSection s).output, Fit a) ↔
      (∀ a ∈ closed s.output, Fit a) ∧ Narrow (lastGroup s.output) cs := by
  induction cs generalizing s with
  | nil =>
      rw [List.foldl_nil, forall_fit_iff]
      cases lastGroup s.output <;> simp [Narrow]
  | cons c cs ih =>
      have located := follows.located c List.mem_cons_self
      have base := located.base_lt
      rcases follows.add total with ⟨next, ⟨p, rest, split, touch, output⟩ | ⟨apart, output⟩⟩
      · have fits := follows.fits_of_touch split touch
        have length := (follows.stored p (by rw [split]; exact List.mem_cons_self)).length
        rw [Nat.mod_eq_of_lt fits] at length
        have after := (follows.after p (by rw [split]; rfl) c List.mem_cons_self).1
        have wend : p.start + (c.wend - p.start) = c.wend := by omega
        have touches : (groupOf p).wend ≥ c.base := by
          change c.base ≤ p.start + p.computedLength
          rwa [← length]
        rw [List.foldl_cons, ih next, output, split, closed_of_fits fits, lastGroup_of_fits fits,
          Narrow, if_pos touches]
        by_cases short : c.wend - p.start < 2 ^ 16
        · have group : groupOf (merge p c) = (groupOf p).merge c := by
            unfold groupOf merge Group.merge
            rw [wend]
          have fits' : (merge p c).computedLength < 2 ^ 16 := short
          rw [if_pos (show c.wend - (groupOf p).start < 2 ^ 16 from short), ← group,
            closed_of_fits fits', lastGroup_of_fits fits']
        · have fit : Fit (merge p c) ↔ ((groupOf p).merge c).weight = 0 := by
            have wide : ¬(merge p c).computedLength < 2 ^ 16 := short
            simp only [Fit, wide, false_and, or_false]
            rfl
          rw [if_neg (show ¬c.wend - (groupOf p).start < 2 ^ 16 from short), ← fit]
          have wide : ¬(merge p c).computedLength < 2 ^ 16 := short
          rw [closed_of_wide wide, lastGroup_of_wide wide, List.forall_mem_cons]
          tauto
      · have start : c.base % 2 ^ 32 = c.base := by
          have inside := located.inside
          exact Nat.mod_eq_of_lt (by omega)
        have weight := make_weight located
        simp only [Interval.make] at weight
        have fits' : (Interval.make c.base c.length c.weight c.segment).computedLength < 2 ^ 16 :=
          located.short
        have group : groupOf (Interval.make c.base c.length c.weight c.segment) = .ofSection c := by
          simp only [groupOf, Interval.make, Group.ofSection, start, weight, Section.wend]
        rw [List.foldl_cons, ih next, output, closed_of_fits fits', lastGroup_of_fits fits', group,
          forall_fit_iff, and_assoc]
        refine and_congr_right fun _ => ?_
        rcases split : s.output with _ | ⟨p, rest⟩
        · simp [lastGroup, Narrow]
        · by_cases fits : p.computedLength < 2 ^ 16
          · rw [lastGroup_of_fits fits]
            have length := (follows.stored p (by rw [split]; exact List.mem_cons_self)).length
            have less := apart p (by rw [split]; rfl)
            rw [length, Nat.mod_eq_of_lt fits] at less
            have less : ¬(groupOf p).wend ≥ c.base := not_le.mpr less
            rw [Narrow, if_neg less]
            simp
          · rw [lastGroup_of_wide fits]
            simp [Narrow]

theorem Follows.foldl (total : w.total < 2 ^ 31)
    (follows : w.Follows s cs) : w.Follows (cs.foldl w.addSection s) [] := by
  induction cs generalizing s with
  | nil => exact follows
  | cons c cs ih => exact ih (follows.add total).1

/-! ## Neutral intervals -/

theorem removeNeutral_output (w : WeightsWindow) (output : List Interval) (detector : Detector) :
    (w.removeNeutral output detector).1 = output.filter fun a => a.weight ≠ 0 := by
  induction output generalizing detector with
  | nil => rfl
  | cons a output ih =>
      rw [removeNeutral]
      by_cases neutral : a.weight = 0
      · rw [if_pos neutral, ih, List.filter_cons_of_neg (by simpa using neutral)]
      · rw [if_neg neutral, List.filter_cons_of_pos (by simpa using neutral), ← ih detector]

theorem sum_filter_weight (output : List Interval) :
    ((output.filter fun a => a.weight ≠ 0).map Interval.weight).sum =
      (output.map Interval.weight).sum := by
  induction output with
  | nil => rfl
  | cons a output ih =>
      by_cases neutral : a.weight = 0
      · rw [List.filter_cons_of_neg (by simpa using neutral), ih, List.map_cons, List.sum_cons,
          neutral, zero_add]
      · rw [List.filter_cons_of_pos (by simpa using neutral), List.map_cons, List.sum_cons, ih,
          List.map_cons, List.sum_cons]

theorem Stored.segment_iff {a : Interval} (stored : w.Stored a)
    (segments : w.segmentLength < 2 ^ 32) :
    (0 ≤ a.associatedSegment ∧ a.associatedSegment < w.segmentLength) ↔
      a.computedSegment < 2 ^ 31 := by
  have segment_lt := stored.segment_lt
  rw [stored.segment]
  by_cases small : a.computedSegment < 2 ^ 31
  · rw [Int.bmod_eq_of_le (by omega) (by omega)]
    omega
  · have negative : (a.computedSegment : Int).bmod (2 ^ 32) = a.computedSegment - 2 ^ 32 := by
      rw [← Int.sub_bmod_right, Int.bmod_eq_of_le (by omega) (by omega)]
      rfl
    rw [negative]
    omega

/-- At the end the intervals that remain are valid exactly when they fit. -/
theorem Follows.valid_iff (segments : w.segmentLength < 2 ^ 32) (follows : w.Follows s [])
    (detector : Detector) :
    w.Valid { s with output := s.output.filter fun a => a.weight ≠ 0, detector := detector } ↔
      ∀ a ∈ s.output, Fit a := by
  have remains : ∀ a ∈ s.output.filter fun a => a.weight ≠ 0, a ∈ s.output ∧ a.weight ≠ 0 := by
    intro a member
    simpa using List.mem_filter.mp member
  constructor
  · intro valid a member
    refine or_iff_not_imp_left.mpr fun weighted => ?_
    have remaining : a ∈ s.output.filter fun a => a.weight ≠ 0 :=
      List.mem_filter.mpr ⟨member, by simpa using weighted⟩
    have stored := follows.stored a member
    have length := stored.length
    have same := (valid.exact a remaining).2
    exact ⟨by omega, (stored.segment_iff segments).mp (valid.segment a remaining)⟩
  · intro fit
    have fits : ∀ a ∈ s.output.filter fun a => a.weight ≠ 0,
        a.length = a.computedLength ∧ a.computedSegment < 2 ^ 31 := by
      intro a member
      rcases fit a (remains a member).1 with neutral | ⟨short, segment⟩
      · exact absurd neutral (remains a member).2
      · have stored := follows.stored a (remains a member).1
        exact ⟨by rw [stored.length, Nat.mod_eq_of_lt short], segment⟩
    refine ⟨?_, ?_, ?_, ?_, ?_, ?_, ?_⟩
    · rw [release, List.pairwise_reverse]
      exact (follows.ordered.filter _).imp Nat.le_of_lt
    · intro a member
      rw [(fits a member).1]
      exact (follows.stored a (remains a member).1).positive
    · intro a member
      rw [(fits a member).1]
      exact (follows.stored a (remains a member).1).inside
    · exact fun a member => ⟨(follows.stored a (remains a member).1).start, (fits a member).1⟩
    · exact fun a member =>
        (follows.stored a (remains a member).1).weight.resolve_left (remains a member).2
    · exact fun a member =>
        ((follows.stored a (remains a member).1).segment_iff segments).mpr (fits a member).2
    · rw [sum_filter_weight]
      exact follows.balance

end Merging

/-- The output of `detect`. -/
theorem detect_eq {w : WeightsWindow} {selectThreshold : Int} {detector : Detector}
    (total : w.total < 2 ^ 31) :
    w.detect selectThreshold detector =
      some { w.detectHammered selectThreshold detector with
        output := (w.detectHammered selectThreshold detector).output.filter fun a => a.weight ≠ 0
        detector := (w.removeNeutral (w.detectHammered selectThreshold detector).output
          (w.detectHammered selectThreshold detector).detector).2 } := by
  rw [detect, if_pos total, ← removeNeutral_output w _
    (w.detectHammered selectThreshold detector).detector]

/-- **The intervals are valid.** Exactly when the window holds fewer than `2 ^ 31` elements,
and its hammered sections are narrow. -/
theorem detectHammered_valid {w : WeightsWindow} {selectThreshold : Int} {detector : Detector}
    (positive : 0 < w.total) (short : ∀ i < w.segmentLength, w.getCardinality i < 2 ^ 16)
    (segments : w.segmentLength < 2 ^ 32) :
    (∃ s, w.detect selectThreshold detector = some s ∧ w.Valid s) ↔
      w.total < 2 ^ 31 ∧ Narrow none (w.sections selectThreshold detector) := by
  by_cases total : w.total < 2 ^ 31
  · rcases @sections_located w selectThreshold positive total short detector with ⟨located, apart⟩
    have start : w.Follows ⟨[], 0, detector⟩ (w.sections selectThreshold detector) :=
      ⟨List.Pairwise.nil, fun _ member => absurd member List.not_mem_nil, rfl, located, apart,
        fun _ head => nomatch head⟩
    have narrow := start.narrow_iff total
    have final := start.foldl total
    rw [← detectHammered_eq] at narrow final
    have valid := final.valid_iff segments (w.removeNeutral (w.detectHammered selectThreshold
      detector).output (w.detectHammered selectThreshold detector).detector).2
    rw [detect_eq total, and_iff_right total]
    constructor
    · rintro ⟨s, same, isValid⟩
      cases same
      exact (narrow.mp (valid.mp isValid)).2
    · intro sections
      refine ⟨_, rfl, valid.mpr (narrow.mpr ⟨?_, sections⟩)⟩
      exact fun _ member => absurd member List.not_mem_nil
  · constructor
    · rintro ⟨s, detected, _⟩
      rw [detect, if_neg total] at detected
      cases detected
    · exact fun narrow => absurd narrow.1 total

/-- A window of full segments, at the start of the array. -/
def fullWindow (segments capacity : Nat) : WeightsWindow where
  storage :=
    { keys := fun p => p, values := fun p => p, segmentSizes := fun _ => capacity
      segmentCapacity := capacity, cardinality := segments * capacity
      numberSegments := segments, pagesPerExtent := 1 }
  knobs := Detector.defaultKnobs
  segmentStart := 0
  segmentLength := segments

/-- Each segment is hammered by insertions, without a sequence. -/
def hammered (segments : Nat) : Detector :=
  { Detector.create segments 8 with
    entries := fun _ => { Entry.zero with countSegment := 7 } }

/-- Two segments, which are merged. -/
theorem detectHammered_valid_two :
    (∃ s, (fullWindow 2 32).detect 0 (hammered 2) = some s ∧ (fullWindow 2 32).Valid s) ↔
      (fullWindow 2 32).total < 2 ^ 31 ∧
        Narrow none ((fullWindow 2 32).sections 0 (hammered 2)) :=
  detectHammered_valid (by decide) (fun _ _ => show 32 < 2 ^ 16 by decide) (by decide)

/-- The interval of 128 segments of 512 elements is stored with the length 0. -/
theorem detectHammered_valid_fails :
    ¬∀ (w : WeightsWindow) (selectThreshold : Int) (detector : Detector), 0 < w.total →
      (∀ i < w.segmentLength, w.getCardinality i < 2 ^ 16) → w.segmentLength < 2 ^ 32 →
      ∃ s, w.detect selectThreshold detector = some s ∧ w.Valid s := by
  intro claim
  rcases claim (fullWindow 128 512) 0 (hammered 128) (by decide +kernel)
    (fun _ _ => show 512 < 2 ^ 16 by decide) (by decide) with ⟨s, detected, valid⟩
  have lengths : ((fullWindow 128 512).detect 0 (hammered 128)).map
      (fun s => s.output.map Interval.length) = some [0] := by
    decide +kernel
  rw [detected, Option.map_some, Option.some_inj] at lengths
  have member : 0 ∈ s.output.map Interval.length := by
    rw [lengths]
    exact List.mem_singleton_self _
  rcases List.mem_map.mp member with ⟨a, stored, zero⟩
  have nonempty := valid.nonempty a stored
  omega

end WeightsWindow

end Rma
