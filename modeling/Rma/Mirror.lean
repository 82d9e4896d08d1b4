import Rma.Weights

/-!
# Deletions as the mirror image of insertions

`neg` flips the signs of the counters of a detector. An update by a deletion mirrors one by
an insertion, and so does the merge of sections. The sections themselves are mirrored but for
one case: a segment hammered by deletions, backwards, is reported as a whole, as the condition
for it reads the counter of the forward sequence. `Plain` leaves out that case.
-/

namespace Rma

/-! ## Counters -/

namespace Entry

/-- Flip the signs of the counters. -/
def neg (e : Entry) : Entry :=
  { e with
    countFwd := int16 (-e.countFwd)
    countBwd := int16 (-e.countBwd)
    countSegment := int16 (-e.countSegment) }

/-- The counters are integers of 16 bits, and none of them is the least one. -/
structure Reversible (e : Entry) : Prop where
  fwd : -2 ^ 15 < e.countFwd ∧ e.countFwd < 2 ^ 15
  bwd : -2 ^ 15 < e.countBwd ∧ e.countBwd < 2 ^ 15
  segment : -2 ^ 15 < e.countSegment ∧ e.countSegment < 2 ^ 15

/-- The counters are integers of 16 bits. -/
structure Counters (e : Entry) : Prop where
  fwd : -2 ^ 15 ≤ e.countFwd ∧ e.countFwd < 2 ^ 15
  bwd : -2 ^ 15 ≤ e.countBwd ∧ e.countBwd < 2 ^ 15
  segment : -2 ^ 15 ≤ e.countSegment ∧ e.countSegment < 2 ^ 15

section Update

variable {knobs : Knobs} {count : Int}

theorem int16_neg_int16 (x : Int) : int16 (-int16 x) = int16 (-x) := by
  have zero := Int.sub_bmod_bmod (x := 0) (y := x) (n := 2 ^ 16)
  rw [zero_sub, zero_sub] at zero
  exact zero

/-- The negation of a counter that is not the least one. -/
theorem int16_neg (lower : -2 ^ 15 < count) (upper : count < 2 ^ 15) : int16 (-count) = -count :=
  int16_of_fits (by omega) (by omega)

/-- The least counter is its own negation. -/
theorem int16_neg_cases (lower : -2 ^ 15 ≤ count) (upper : count < 2 ^ 15) :
    count = -2 ^ 15 ∧ int16 (-count) = -2 ^ 15 ∨ count ≠ -2 ^ 15 ∧ int16 (-count) = -count := by
  by_cases least : count = -2 ^ 15
  · rw [least]
    exact Or.inl ⟨rfl, by decide⟩
  · exact Or.inr ⟨least, int16_neg (by omega) upper⟩

theorem int16_neg_neg (lower : -2 ^ 15 ≤ count) (upper : count < 2 ^ 15) :
    int16 (-int16 (-count)) = count := by
  rcases int16_neg_cases lower upper with ⟨least, turned⟩ | ⟨least, turned⟩
  · rw [turned, least]
    decide
  · rw [turned, neg_neg, int16_of_fits lower upper]

theorem int16_range (x : Int) : -2 ^ 15 ≤ int16 x ∧ int16 x < 2 ^ 15 := by
  rcases int16_cases x with ⟨_, _, lower, upper⟩
  exact ⟨lower, upper⟩

theorem counters_neg (e : Entry) : e.neg.Counters :=
  ⟨int16_range _, int16_range _, int16_range _⟩

theorem Counters.neg_neg {e : Entry} (counters : e.Counters) : e.neg.neg = e := by
  obtain ⟨fwd, bwd, segment⟩ := counters
  unfold Entry.neg
  simp only [int16_neg_neg fwd.1 fwd.2, int16_neg_neg bwd.1 bwd.2,
    int16_neg_neg segment.1 segment.2]

theorem segmentCounter_neg (lower : -2 ^ 15 < count) (upper : count < 2 ^ 15) :
    segmentCounter knobs (-1) (int16 (-count)) = int16 (-segmentCounter knobs 1 count) := by
  have turned : -count * -1 = count * 1 := by omega
  unfold segmentCounter
  rw [int16_neg lower upper, turned]
  split_ifs
  · rw [int16_neg_int16, neg_add]
  · rw [int16_neg lower upper]
  · rw [int16_neg_int16, neg_add, mul_neg]

theorem continued_neg (most : knobs.maxSequenceCounter < 2 ^ 15) (lower : -2 ^ 15 < count)
    (upper : count < 2 ^ 15) :
    continued knobs (-1) (int16 (-count)) = int16 (-continued knobs 1 count) := by
  have max := @int16_of_fits knobs.maxSequenceCounter (by omega) (by omega)
  have min := @int16_of_fits (-(knobs.maxSequenceCounter : Int)) (by omega) (by omega)
  unfold continued
  simp only [max, min, int16_neg lower upper]
  by_cases less : count < knobs.maxSequenceCounter
  · rw [if_pos (Or.inr (by omega)), if_pos (Or.inl (by omega)), int16_neg_int16, neg_add]
  · rw [if_neg (by omega), if_neg (by omega), int16_neg lower upper]

theorem contradicted_neg (key newKey : Int) (lower : -2 ^ 15 < count) (upper : count < 2 ^ 15) :
    contradicted (-1) (int16 (-count)) key newKey =
      (int16 (-(contradicted 1 count key newKey).1), (contradicted 1 count key newKey).2) := by
  unfold contradicted
  rw [int16_neg lower upper]
  by_cases zero : count = 0
  · rw [if_pos (by omega), if_pos zero, int16_neg_int16, neg_add]
  · rw [if_neg (by omega), if_neg zero, int16_neg_int16, neg_sub', Int.sub_eq_add_neg]

theorem sequence_neg (most : knobs.maxSequenceCounter < 2 ^ 15) (e : Entry)
    (fwd : -2 ^ 15 < e.countFwd ∧ e.countFwd < 2 ^ 15)
    (bwd : -2 ^ 15 < e.countBwd ∧ e.countBwd < 2 ^ 15) (predecessor successor : Int) :
    e.neg.sequence knobs (-1) predecessor successor =
      (e.sequence knobs 1 predecessor successor).neg := by
  unfold sequence neg
  simp only [continued_neg most fwd.1 fwd.2, continued_neg most bwd.1 bwd.2,
    contradicted_neg _ _ fwd.1 fwd.2, contradicted_neg _ _ bwd.1 bwd.2]
  split_ifs
  · dsimp only
  · dsimp only
  · dsimp only

/-- An update by a deletion mirrors one by an insertion. -/
theorem update_neg (most : knobs.maxSequenceCounter < 2 ^ 15) (modulus : Nat) {e : Entry}
    (reversible : e.Reversible) (predecessor successor timestamp : Int) :
    e.neg.update knobs modulus (-1) predecessor successor timestamp =
      (e.update knobs modulus 1 predecessor successor timestamp).neg := by
  have segment := @segmentCounter_neg knobs _ reversible.segment.1 reversible.segment.2
  have sequence := sequence_neg most
    { e with countSegment := segmentCounter knobs 1 e.countSegment } reversible.fwd reversible.bwd
    predecessor successor
  unfold update neg at *
  dsimp only at *
  rw [segment, sequence]
  rfl

end Update

end Entry

def Detector.neg (d : Detector) : Detector := { d with entries := fun i => (d.entries i).neg }

def Interval.neg (a : Interval) : Interval := { a with weight := -a.weight }

/-- The same intervals with the opposite weights. -/
def WeightsState.neg (s : WeightsState) : WeightsState where
  output := s.output.map Interval.neg
  balance := -s.balance
  detector := s.detector.neg

theorem Detector.clearSegment_neg (d : Detector) (k : Nat) :
    d.neg.clearSegment k = (d.clearSegment k).neg := by
  unfold neg clearSegment
  congr 1
  funext i
  by_cases same : i = k
  · simp only [same, Function.update_self]
    rfl
  · simp only [Function.update_of_ne same]

namespace WeightsWindow

def Section.neg (c : Section) : Section := { c with weight := -c.weight }

/-! ## Sections -/

/-- An entry that insertions hammer backwards and not forwards, where this makes a difference: the
key is found, and two elements from there on are not the whole segment. -/
structure Descending (w : WeightsWindow) (i : Nat) (e : Entry) : Prop where
  bwd : e.countBwd < w.knobs.sequenceThreshold
  fwd : w.knobs.sequenceThreshold ≤ e.countFwd
  found : w.findKey i e.keyFwd ≠ -1
  shorter : w.getCardinality i ≠ 2 ∨ w.findKey i e.keyFwd ≠ 0
  room : w.getCardinalityUptoExcl i + 1 < w.total

/-- The run of a segment that is hammered forwards. -/
def forwards (w : WeightsWindow) (i : Nat) (e : Entry) : Nat × Nat :=
  let pos := w.findKey i e.keyBwd
  if pos ≠ -1 then
    (w.getCardinalityUptoExcl i + (if pos > 0 then pos - 1 else pos).toNat, 2)
  else (w.getCardinalityUptoExcl i, w.getCardinality i)

/-- The run of a segment that is hammered backwards, as it is for insertions. -/
def backwards (w : WeightsWindow) (i : Nat) (e : Entry) : Nat × Nat :=
  let pos := w.findKey i e.keyFwd
  if pos ≠ -1 then (w.getCardinalityUptoExcl i + pos.toNat, 2)
  else (w.getCardinalityUptoExcl i, w.getCardinality i)

def whole (w : WeightsWindow) (i : Nat) : Nat × Nat :=
  (w.getCardinalityUptoExcl i, w.getCardinality i)

/-- The run of an entry of insertions is not that of its negation: it is descending, or has the
least counter, which deletions take for a forward run. -/
def Lopsided (w : WeightsWindow) (i : Nat) (e : Entry) : Prop :=
  if e.countBwd = -2 ^ 15 then
    w.knobs.sequenceThreshold ≤ 2 ^ 15 ∧
      w.clip (w.forwards i e) ≠ w.clip
        (if (w.knobs.sequenceThreshold : Int) ≤ e.countFwd then w.backwards i e else w.whole i)
  else w.Descending i e

/-- A hammered segment whose weight does not change its sign with the entry, or whose run
changes. -/
structure Askew (w : WeightsWindow) (selectThreshold : Int) (i : Nat) (e : Entry) : Prop where
  hammered : w.weightOf selectThreshold e ≠ 0
  turned : e.countSegment = -2 ^ 15 ∨
    w.Lopsided i (if w.weightOf selectThreshold e = 1 then e else e.neg)

/-- No segment of the window is askew. -/
def Plain (w : WeightsWindow) (selectThreshold : Int) (detector : Detector) : Prop :=
  ∀ i < w.segmentLength, ¬w.Askew selectThreshold i (detector.entries (w.segmentStart + i))

section Sections

variable {w : WeightsWindow} {selectThreshold : Int} {i : Nat} {e : Entry}

/-- The weight changes its sign with the entry, unless the counter is the least one. -/
theorem weightOf_neg (counters : e.Counters) :
    w.weightOf selectThreshold e.neg =
      if e.countSegment = -2 ^ 15 then w.weightOf selectThreshold e
      else -w.weightOf selectThreshold e := by
  have same : e.neg.timestamps e.neg.head.toNat = e.timestamps e.head.toNat := rfl
  have segment : e.neg.countSegment = int16 (-e.countSegment) := rfl
  unfold weightOf
  simp only [segment, same]
  rcases Entry.int16_neg_cases counters.segment.1 counters.segment.2 with
    ⟨least, turned⟩ | ⟨least, turned⟩
  · rw [turned, if_pos least, least]
  · rw [turned, if_neg least]
    split_ifs <;> omega

theorem weightOf_neg_ne_zero (counters : e.Counters)
    (hammered : w.weightOf selectThreshold e ≠ 0) : w.weightOf selectThreshold e.neg ≠ 0 := by
  rw [weightOf_neg counters]
  split_ifs
  · exact hammered
  · omega

theorem weightOf_neg_eq_zero (counters : e.Counters)
    (ignored : w.weightOf selectThreshold e = 0) : w.weightOf selectThreshold e.neg = 0 := by
  rw [weightOf_neg counters, ignored, neg_zero, ite_self]

theorem runOf_insertions (w : WeightsWindow) (i : Nat) (e : Entry) :
    w.runOf i e 1 =
      if (w.knobs.sequenceThreshold : Int) ≤ e.countBwd then w.forwards i e
      else if (w.knobs.sequenceThreshold : Int) ≤ e.countFwd then w.backwards i e
      else w.whole i := by
  unfold runOf
  simp only [zero_lt_one, gt_iff_lt, ge_iff_le, true_and, Int.reduceLT, false_and, or_false]
  rfl

/-- Deletions never run backwards: the condition names the other counter. -/
theorem runOf_deletions (w : WeightsWindow) (i : Nat) (e : Entry) :
    w.runOf i e (-1) =
      if e.countBwd ≤ -(w.knobs.sequenceThreshold : Int) then w.forwards i e else w.whole i := by
  unfold runOf
  simp only [gt_iff_lt, ge_iff_le, Int.reduceLT, Int.reduceNeg, false_and, true_and, false_or]
  by_cases bwd : e.countBwd ≤ -(w.knobs.sequenceThreshold : Int)
  · rw [if_pos bwd, if_pos bwd]
    rfl
  · rw [if_neg bwd, if_neg bwd, if_neg bwd]
    rfl

theorem getCardinality_upto_le (inside : i < w.segmentLength) :
    w.getCardinalityUptoExcl i + w.getCardinality i ≤ w.total := by
  rw [← getCardinalityUptoExcl_succ]
  exact getCardinalityUptoExcl_mono w inside

/-- The two runs of a segment hammered backwards are clipped to the same one exactly when
they are the same, or no more than one element is left. -/
theorem clip_backwards_iff (inside : i < w.segmentLength) (small : w.total < 2 ^ 31) :
    w.clip (w.backwards i e) = w.clip (w.whole i) ↔
      ¬(w.findKey i e.keyFwd ≠ -1 ∧ (w.getCardinality i ≠ 2 ∨ w.findKey i e.keyFwd ≠ 0) ∧
        w.getCardinalityUptoExcl i + 1 < w.total) := by
  have upto := getCardinality_upto_le inside
  have position := w.findKey_bounds i e.keyFwd
  unfold backwards whole clip
  simp only
  generalize w.findKey i e.keyFwd = pos at *
  generalize w.getCardinalityUptoExcl i = base at *
  generalize w.getCardinality i = length at *
  by_cases found : pos = -1
  · simp [found]
  · simp only [ne_eq, found, not_false_eq_true, if_true, true_and]
    split_ifs
    all_goals simp only [Prod.mk.injEq, true_iff, and_true]
    all_goals first | contradiction | omega

/-- The runs of an entry of insertions and of its negation are clipped to the same one exactly
when it is not lopsided. -/
theorem clip_runOf_neg_iff (inside : i < w.segmentLength) (small : w.total < 2 ^ 31)
    (counters : e.Counters) :
    w.clip (w.runOf i e.neg (-1)) = w.clip (w.runOf i e 1) ↔ ¬w.Lopsided i e := by
  have keys : w.forwards i e.neg = w.forwards i e := rfl
  have bwd : e.neg.countBwd = int16 (-e.countBwd) := rfl
  have upper := counters.fwd.2
  rw [runOf_insertions, runOf_deletions, keys, bwd]
  unfold Lopsided
  rcases Entry.int16_neg_cases counters.bwd.1 counters.bwd.2 with
    ⟨least, turned⟩ | ⟨least, turned⟩
  · rw [turned, if_pos least, if_neg (show ¬(w.knobs.sequenceThreshold : Int) ≤ e.countBwd by omega)]
    by_cases reached : w.knobs.sequenceThreshold ≤ 2 ^ 15
    · rw [if_pos (by omega), not_and, not_ne_iff]
      exact ⟨fun same _ => same, fun same => same reached⟩
    · rw [if_neg (by omega), if_neg (by omega)]
      exact iff_of_true rfl fun lopsided => reached lopsided.1
  · rw [turned, if_neg least]
    by_cases ascending : (w.knobs.sequenceThreshold : Int) ≤ e.countBwd
    · rw [if_pos (by omega), if_pos ascending]
      exact iff_of_true rfl fun descending => absurd descending.bwd (by omega)
    · rw [if_neg (by omega), if_neg ascending]
      by_cases fwd : (w.knobs.sequenceThreshold : Int) ≤ e.countFwd
      · rw [if_pos fwd, eq_comm, clip_backwards_iff inside small]
        exact not_congr ⟨fun h => ⟨by omega, fwd, h.1, h.2.1, h.2.2⟩,
          fun h => ⟨h.found, h.shorter, h.room⟩⟩
      · rw [if_neg fwd]
        exact iff_of_true rfl fun descending => fwd descending.fwd

theorem sectionOf_eq_none (ignored : w.weightOf selectThreshold e = 0) :
    w.sectionOf selectThreshold i e = none := if_pos ignored

theorem sectionOf_eq_some (hammered : w.weightOf selectThreshold e ≠ 0) :
    w.sectionOf selectThreshold i e =
      some ⟨(w.clip (w.runOf i e (w.weightOf selectThreshold e))).1,
        (w.clip (w.runOf i e (w.weightOf selectThreshold e))).2,
        w.weightOf selectThreshold e, i⟩ := if_neg hammered

/-- The section of a segment is mirrored exactly when the segment is not askew. -/
theorem sectionOf_neg_iff (inside : i < w.segmentLength) (small : w.total < 2 ^ 31)
    (counters : e.Counters) :
    w.sectionOf selectThreshold i e.neg = (w.sectionOf selectThreshold i e).map Section.neg ↔
      ¬w.Askew selectThreshold i e := by
  by_cases ignored : w.weightOf selectThreshold e = 0
  · rw [sectionOf_eq_none ignored, sectionOf_eq_none (weightOf_neg_eq_zero counters ignored)]
    exact iff_of_true rfl fun askew => askew.hammered ignored
  · have unit := (w.weightOf_cases selectThreshold e).resolve_left ignored
    rw [sectionOf_eq_some ignored, sectionOf_eq_some (weightOf_neg_ne_zero counters ignored),
      Option.map_some, Option.some_inj, Section.neg, Section.mk.injEq, weightOf_neg counters]
    by_cases least : e.countSegment = -2 ^ 15
    · rw [if_pos least]
      refine iff_of_false (fun same => ?_) fun plain => plain ⟨ignored, Or.inl least⟩
      have weight : w.weightOf selectThreshold e = -w.weightOf selectThreshold e := same.2.2.1
      omega
    · have askew : w.Askew selectThreshold i e ↔
          w.Lopsided i (if w.weightOf selectThreshold e = 1 then e else e.neg) :=
        ⟨fun h => h.turned.resolve_left least, fun h => ⟨ignored, Or.inr h⟩⟩
      rw [if_neg least, askew]
      rcases unit with one | one
      · rw [one, if_pos rfl, ← clip_runOf_neg_iff inside small counters]
        simp only [and_true]
        exact Prod.ext_iff.symm
      · have turned := clip_runOf_neg_iff inside small e.counters_neg
        rw [counters.neg_neg] at turned
        rw [one, if_neg (by decide), ← turned, neg_neg]
        simp only [and_true]
        exact Prod.ext_iff.symm.trans eq_comm

end Sections

/-! ## Intervals -/

section Intervals

variable {w : WeightsWindow} {selectThreshold : Int} {detector : Detector}

theorem Section.make_neg {c : Section} (unit : c.weight = 1 ∨ c.weight = -1) :
    Interval.make c.base c.length (-c.weight) c.segment =
      (Interval.make c.base c.length c.weight c.segment).neg := by
  have weight : int16 (-c.weight) = -int16 c.weight := by
    rcases unit with one | one
    · rw [one]
      decide
    · rw [one]
      decide
  simp only [Interval.make, Interval.neg, weight]

/-- Adding the mirrored section to the mirrored state. -/
theorem addSection_neg (s : WeightsState) {c : Section} (unit : c.weight = 1 ∨ c.weight = -1) :
    w.addSection s.neg c.neg = (w.addSection s c).neg := by
  have made := Section.make_neg unit
  rcases split : s.output with _ | ⟨p, rest⟩
  · simp only [addSection, WeightsState.neg, split, List.map_nil, Section.neg, made,
      List.map_cons, neg_add]
  · simp only [addSection, WeightsState.neg, split, List.map_cons, Section.neg, Section.wend,
      Interval.neg, ne_eq, neg_inj, made, Detector.clearSegment_neg]
    split_ifs <;> simp [Interval.neg, add_comm]

theorem foldl_addSection_neg (s : WeightsState) {cs : List Section}
    (units : ∀ c ∈ cs, c.weight = 1 ∨ c.weight = -1) :
    (cs.map Section.neg).foldl w.addSection s.neg = (cs.foldl w.addSection s).neg := by
  induction cs generalizing s with
  | nil => rfl
  | cons c cs ih =>
      rw [List.map_cons, List.foldl_cons, List.foldl_cons,
        addSection_neg s (units c List.mem_cons_self)]
      exact ih _ fun c' member => units c' (List.mem_cons_of_mem c member)

theorem sections_unit (w : WeightsWindow) (selectThreshold : Int) (detector : Detector) :
    ∀ c ∈ w.sections selectThreshold detector, c.weight = 1 ∨ c.weight = -1 := by
  intro c member
  rcases List.mem_filterMap.mp member with ⟨i, _, found⟩
  unfold sectionOf at found
  simp only at found
  split at found
  · cases found
  · next hammered =>
    cases found
    exact (w.weightOf_cases selectThreshold _).resolve_left hammered

theorem removeNeutral_neg (w : WeightsWindow) (output : List Interval) (detector : Detector) :
    w.removeNeutral (output.map Interval.neg) detector.neg =
      ((w.removeNeutral output detector).1.map Interval.neg,
        (w.removeNeutral output detector).2.neg) := by
  induction output generalizing detector with
  | nil => rfl
  | cons a output ih =>
      rw [List.map_cons, removeNeutral, removeNeutral]
      by_cases neutral : a.weight = 0
      · have same : a.neg.associatedSegment = a.associatedSegment := rfl
        rw [if_pos (show a.neg.weight = 0 by simp [Interval.neg, neutral]), if_pos neutral,
          Detector.clearSegment_neg, same]
        by_cases found : a.associatedSegment ≥ 0
        · rw [if_pos found, if_pos found]
          exact ih _
        · rw [if_neg found, if_neg found]
          exact ih _
      · have kept : ¬a.neg.weight = 0 := by simpa [Interval.neg] using neutral
        rw [if_neg kept, if_neg neutral, ih]
        rfl

/-- Mirrored sections give mirrored intervals. -/
theorem detect_neg (sections : w.sections selectThreshold detector.neg =
      (w.sections selectThreshold detector).map Section.neg) :
    w.detect selectThreshold detector.neg =
      (w.detect selectThreshold detector).map WeightsState.neg := by
  have hammered : w.detectHammered selectThreshold detector.neg =
      (w.detectHammered selectThreshold detector).neg := by
    rw [detectHammered_eq, detectHammered_eq, sections]
    exact foldl_addSection_neg ⟨[], 0, detector⟩ (sections_unit w selectThreshold detector)
  unfold detect
  split_ifs
  · have neutral := removeNeutral_neg w (w.detectHammered selectThreshold detector).output
      (w.detectHammered selectThreshold detector).detector
    rw [hammered, Option.map_some, Option.some_inj]
    simp only [WeightsState.neg, neutral]
  · rfl

theorem Plain.sections_neg (small : w.total < 2 ^ 31)
    (counters : ∀ i < w.segmentLength, (detector.entries (w.segmentStart + i)).Counters)
    (plain : w.Plain selectThreshold detector) :
    w.sections selectThreshold detector.neg =
      (w.sections selectThreshold detector).map Section.neg := by
  unfold sections
  rw [List.map_filterMap]
  apply List.filterMap_congr
  intro i member
  have inside := List.mem_range.mp member
  exact (sectionOf_neg_iff inside small (counters i inside)).mpr (plain i inside)

/-- The intervals are mirrored when no segment is askew. -/
theorem Plain.detect_neg
    (counters : ∀ i < w.segmentLength, (detector.entries (w.segmentStart + i)).Counters)
    (plain : w.Plain selectThreshold detector) :
    w.detect selectThreshold detector.neg =
      (w.detect selectThreshold detector).map WeightsState.neg := by
  by_cases small : w.total < 2 ^ 31
  · exact WeightsWindow.detect_neg (plain.sections_neg small counters)
  · rw [detect, detect, if_neg small, if_neg small]
    rfl

end Intervals

/-! ## One hammered segment -/

section Alone

variable {w : WeightsWindow} {selectThreshold : Int} {detector : Detector} {i : Nat}

/-- No other segment of the window is hammered. -/
def Alone (w : WeightsWindow) (selectThreshold : Int) (detector : Detector) (i : Nat) : Prop :=
  ∀ j < w.segmentLength, j ≠ i →
    w.weightOf selectThreshold (detector.entries (w.segmentStart + j)) = 0

theorem filterMap_range_eq {f : Nat → Option Section} {c : Section} (found : f i = some c)
    (n : Nat) (others : ∀ j < n, j ≠ i → f j = none) :
    (List.range n).filterMap f = if i < n then [c] else [] := by
  induction n with
  | zero => rfl
  | succ n ih =>
      have before := ih fun j less => others j (Nat.lt_succ_of_lt less)
      rw [List.range_succ, List.filterMap_append, before]
      by_cases last : i = n
      · subst last
        simp [found]
      · have none := others n (Nat.lt_succ_self n) (Ne.symm last)
        have less : i < n + 1 ↔ i < n := by omega
        simp [none, less]

theorem Alone.sections_eq (alone : w.Alone selectThreshold detector i)
    (inside : i < w.segmentLength) {c : Section}
    (found : w.sectionOf selectThreshold i (detector.entries (w.segmentStart + i)) = some c) :
    w.sections selectThreshold detector = [c] := by
  rw [sections, filterMap_range_eq found, if_pos inside]
  exact fun j less other => sectionOf_eq_none (alone j less other)

theorem detect_single (small : w.total < 2 ^ 31) {c : Section}
    (single : w.sections selectThreshold detector = [c]) :
    (w.detect selectThreshold detector).map WeightsState.output =
      some [Interval.make c.base c.length c.weight c.segment] := by
  have unit := sections_unit w selectThreshold detector c (by rw [single]; exact List.mem_cons_self)
  have weighted : (Interval.make c.base c.length c.weight c.segment).weight ≠ 0 := by
    change int16 c.weight ≠ 0
    rcases unit with one | one
    · rw [one]
      decide
    · rw [one]
      decide
  rw [detect_eq small, detectHammered_eq, single, Option.map_some, Option.some_inj]
  change ([Interval.make c.base c.length c.weight c.segment].filter fun a => a.weight ≠ 0) = _
  rw [List.filter_cons_of_pos (by simpa using weighted), List.filter_nil]

/-- An interval shows the weight of its section. -/
theorem make_weight_inj {c c' : Section} (unit : c.weight = 1 ∨ c.weight = -1)
    (unit' : c'.weight = 1 ∨ c'.weight = -1)
    (same : Interval.make c'.base c'.length c'.weight c'.segment =
      (Interval.make c.base c.length c.weight c.segment).neg) : c'.weight = -c.weight := by
  have weight := congrArg Interval.weight same
  change int16 c'.weight = -int16 c.weight at weight
  rwa [int16_of_fits (by omega) (by omega), int16_of_fits (by omega) (by omega)] at weight

/-- An interval shows the bounds of its section. -/
theorem Located.make_inj {c c' : Section} (small : w.total < 2 ^ 31) (located : w.Located c)
    (located' : w.Located c')
    (same : Interval.make c'.base c'.length c'.weight c'.segment =
      (Interval.make c.base c.length c.weight c.segment).neg) :
    c'.base = c.base ∧ c'.length = c.length := by
  have start := congrArg Interval.start same
  have length := congrArg Interval.length same
  change c'.base % 2 ^ 32 = c.base % 2 ^ 32 at start
  change c'.length % 2 ^ 16 = c.length % 2 ^ 16 at length
  have h₁ := located.inside
  have h₂ := located'.inside
  have h₃ := located.short
  have h₄ := located'.short
  unfold Section.wend at h₁ h₂
  omega

theorem Alone.neg (alone : w.Alone selectThreshold detector i)
    (counters : ∀ j < w.segmentLength, (detector.entries (w.segmentStart + j)).Counters) :
    w.Alone selectThreshold detector.neg i := fun j inside other =>
  weightOf_neg_eq_zero (counters j inside) (alone j inside other)

/-- A hammered segment alone: the interval of its section is mirrored if the intervals are. -/
theorem Alone.make_neg (alone : w.Alone selectThreshold detector i)
    (inside : i < w.segmentLength) (small : w.total < 2 ^ 31)
    (counters : ∀ j < w.segmentLength, (detector.entries (w.segmentStart + j)).Counters)
    {c c' : Section}
    (found : w.sectionOf selectThreshold i (detector.entries (w.segmentStart + i)) = some c)
    (foundNeg : w.sectionOf selectThreshold i (detector.entries (w.segmentStart + i)).neg =
      some c')
    (mirrored : w.detect selectThreshold detector.neg =
      (w.detect selectThreshold detector).map WeightsState.neg) :
    Interval.make c'.base c'.length c'.weight c'.segment =
      (Interval.make c.base c.length c.weight c.segment).neg := by
  have output := detect_single small (alone.sections_eq inside found)
  have outputNeg := detect_single small ((alone.neg counters).sections_eq inside foundNeg)
  rw [mirrored, Option.map_map] at outputNeg
  have same := congrArg (Option.map (List.map Interval.neg)) output
  rw [Option.map_map] at same
  have made := Option.some_injective _ (outputNeg.symm.trans same)
  exact (List.cons.inj made).1

/-- The window of a lopsided segment is not empty. -/
theorem Lopsided.positive {e : Entry} (lopsided : w.Lopsided i e) (inside : i < w.segmentLength) :
    0 < w.total := by
  unfold Lopsided at lopsided
  split at lopsided
  · by_contra empty
    have upto := getCardinality_upto_le inside
    have none : w.total = 0 := by omega
    have first : w.getCardinalityUptoExcl i = 0 := by omega
    have short : w.getCardinality i = 0 := by omega
    have position : ∀ key, w.findKey i key = -1 ∨ w.findKey i key = 0 := by
      intro key
      have bounds := w.findKey_bounds i key
      omega
    refine lopsided.2 ?_
    unfold forwards backwards whole clip
    rw [none, first, short]
    rcases position e.keyBwd with bwd | bwd
    · rcases position e.keyFwd with fwd | fwd
      · simp [bwd, fwd]
      · simp [bwd, fwd]
    · rcases position e.keyFwd with fwd | fwd
      · simp [bwd, fwd]
      · simp [bwd, fwd]
  · have room := lopsided.room
    omega

/-- No segment is askew, if the intervals are mirrored and at most one segment is hammered at
all. -/
theorem Alone.plain (alone : w.Alone selectThreshold detector i) (small : w.total < 2 ^ 31)
    (short : ∀ i < w.segmentLength, w.getCardinality i < 2 ^ 16)
    (counters : ∀ j < w.segmentLength, (detector.entries (w.segmentStart + j)).Counters)
    (mirrored : w.detect selectThreshold detector.neg =
      (w.detect selectThreshold detector).map WeightsState.neg) :
    w.Plain selectThreshold detector := by
  intro j inside askew
  obtain rfl : j = i := by
    by_contra other
    exact askew.hammered (alone j inside other)
  have counters' := counters j inside
  have found := @sectionOf_eq_some w selectThreshold j _ askew.hammered
  have foundNeg := @sectionOf_eq_some w selectThreshold j _
    (weightOf_neg_ne_zero counters' askew.hammered)
  have made := alone.make_neg inside small counters found foundNeg mirrored
  have weight := make_weight_inj
    ((w.weightOf_cases selectThreshold _).resolve_left askew.hammered)
    ((w.weightOf_cases selectThreshold _).resolve_left
      (weightOf_neg_ne_zero counters' askew.hammered)) made
  rcases askew.turned with least | lopsided
  · have kept := @weightOf_neg w selectThreshold _ counters'
    rw [if_pos least] at kept
    have hammered := askew.hammered
    simp only at weight
    omega
  · have positive := lopsided.positive inside
    have bounds := Located.make_inj small
      (sectionOf_located positive small short inside found).2
      (sectionOf_located positive small short inside foundNeg).2 made
    refine (sectionOf_neg_iff inside small counters').mp ?_ askew
    rw [found, foundNeg, Option.map_some, Option.some_inj, Section.neg, Section.mk.injEq]
    exact ⟨bounds.1, bounds.2, weight, rfl⟩

end Alone

/-- **Deletions mirror insertions.** An update does; the intervals do when no segment of the
window is askew, and where at most one segment is hammered, only then. -/
theorem deletions_mirror {knobs : Knobs} (most : knobs.maxSequenceCounter < 2 ^ 8) :
    (∀ (modulus : Nat) (e : Entry), e.Reversible → ∀ predecessor successor timestamp : Int,
      e.neg.update knobs modulus (-1) predecessor successor timestamp =
        (e.update knobs modulus 1 predecessor successor timestamp).neg) ∧
    ∀ (w : WeightsWindow) (selectThreshold : Int) (detector : Detector),
      (∀ j < w.segmentLength, (detector.entries (w.segmentStart + j)).Counters) →
        (w.Plain selectThreshold detector → w.detect selectThreshold detector.neg =
          (w.detect selectThreshold detector).map WeightsState.neg) ∧
        ∀ i, w.Alone selectThreshold detector i → w.total < 2 ^ 31 →
          (∀ i < w.segmentLength, w.getCardinality i < 2 ^ 16) →
            (w.detect selectThreshold detector.neg =
              (w.detect selectThreshold detector).map WeightsState.neg ↔
                w.Plain selectThreshold detector) := by
  refine ⟨?_, fun w selectThreshold detector counters => ⟨Plain.detect_neg counters, ?_⟩⟩
  · intro modulus e reversible predecessor successor timestamp
    exact Entry.update_neg (by omega) modulus reversible predecessor successor timestamp
  · intro i alone small short
    exact ⟨alone.plain small short counters, Plain.detect_neg counters⟩

/-- Deletions that ascend in the second of two segments: the key after the last one deleted is
50, and six of them were in sequence. -/
def ascending : Detector :=
  { Detector.create 2 8 with
    entries := fun j => if j = 1 then
      { Entry.zero with countBwd := -6, countSegment := -7, keyBwd := 50 } else Entry.zero }

theorem deletions_mirror_ascending :
    (ascending.entries 1).neg.update Detector.defaultKnobs 8 (-1) 49 51 0 =
        ((ascending.entries 1).update Detector.defaultKnobs 8 1 49 51 0).neg ∧
      (fullWindow 2 32).Plain 0 ascending ∧
      (fullWindow 2 32).detect 0 ascending.neg =
        ((fullWindow 2 32).detect 0 ascending).map WeightsState.neg ∧
      ((fullWindow 2 32).detect 0 ascending).map (fun s => s.output.map Interval.length) =
        some [2] := by
  have most : Detector.defaultKnobs.maxSequenceCounter < 2 ^ 8 := by decide
  have counters : ∀ j < 2, (ascending.entries (0 + j)).Counters := by
    intro j inside
    obtain rfl | rfl : j = 0 ∨ j = 1 := by omega
    · exact ⟨by decide, by decide, by decide⟩
    · exact ⟨by decide, by decide, by decide⟩
  have alone : (fullWindow 2 32).Alone 0 ascending 1 := by
    intro j inside other
    have inside : j < 2 := inside
    obtain rfl : j = 0 := by omega
    decide
  have plain : (fullWindow 2 32).Plain 0 ascending := by
    intro j inside askew
    have inside : j < 2 := inside
    obtain rfl | rfl : j = 0 ∨ j = 1 := by omega
    · exact askew.hammered (by decide)
    · have turned : (fullWindow 2 32).Descending 1 (ascending.entries 1).neg :=
        askew.turned.resolve_left (by decide)
      exact absurd turned.bwd (by decide)
  refine ⟨(deletions_mirror most).1 8 _ ⟨by decide, by decide, by decide⟩ 49 51 0, plain,
    (((deletions_mirror most).2 (fullWindow 2 32) 0 ascending counters).2 1 alone
      (by decide +kernel) (by decide)).mpr plain, by decide +kernel⟩

/-- A segment in which deletions are descending: the key before the last one deleted is 20,
and six of them were in sequence. -/
def descending : Detector :=
  { Detector.create 1 8 with
    entries := fun _ => { Entry.zero with countFwd := -6, countSegment := -7, keyFwd := 20 } }

/-- It is reported as a whole, while two elements are for ascending insertions. -/
theorem deletions_mirror_fails :
    ¬∀ (w : WeightsWindow) (selectThreshold : Int) (detector : Detector),
      w.detect selectThreshold detector.neg =
        (w.detect selectThreshold detector).map WeightsState.neg := by
  intro claim
  have lengths := congrArg (Option.map fun s => s.output.map Interval.length)
    (claim (fullWindow 1 32) 0 descending)
  exact absurd lengths (by decide +kernel)

end WeightsWindow

end Rma
