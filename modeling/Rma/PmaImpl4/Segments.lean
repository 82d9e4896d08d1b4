import Rma.PmaImpl4.Basic
import Rma.Base.Gaps
import Rma.Base.Multimap

/-!
# The segments of the plain packed memory array

What the operations do to the list of the segments: an insertion changes one of them
(`parts_insertIn`), a spread deals out those of a window (`parts_spread`), and a resize deals
out all the elements (`resize_parts`), which the iterator yields in order (`yields_contents`).
-/

namespace Rma

open Base

namespace PmaImpl4

variable {t t' : PmaImpl4} {i j n : Nat} {e : Int × Int}

/-- The cells of the segments. -/
structure Cells (t : PmaImpl4) : Prop where
  capacity : t.capacity = t.getNumSegments * t.segmentCapacity
  positive : 0 < t.segmentCapacity
  sizes : ∀ i < t.getNumSegments, t.segments i ≤ t.segmentCapacity

@[simp] theorem length_part (t : PmaImpl4) (i : Nat) : (t.part i).length = t.segments i :=
  length_readCells

@[simp] theorem length_parts (t : PmaImpl4) : t.parts.length = t.getNumSegments := by
  simp [parts]

theorem getElem_parts (inside : i < t.parts.length) : t.parts[i] = t.part i := by
  simp [parts]

theorem parts_getElem? (inside : i < t.getNumSegments) : t.parts[i]? = some (t.part i) := by
  simp [parts, inside]

theorem parts_eq_of {a : List (List (Int × Int))} (count : a.length = t.getNumSegments)
    (same : ∀ i < t.getNumSegments, a[i]? = some (t.part i)) : t.parts = a := by
  apply List.ext_getElem?
  intro i
  by_cases inside : i < t.getNumSegments
  · rw [parts_getElem? inside, same i inside]
  · rw [List.getElem?_eq_none (by rw [length_parts]; omega),
      List.getElem?_eq_none (by omega)]

/-- The cells of two segments are apart. -/
theorem cells_apart (lt : i < j) (C : Nat) : i * C + C ≤ j * C := by
  have := Nat.mul_le_mul_right C (Nat.succ_le_of_lt lt)
  rwa [Nat.succ_mul] at this

/-! ## Insertion in a segment -/

/-- The loop moves the elements whose keys are greater. -/
theorem makeRoom_eq (base : Nat) (key : Int) (n : Nat) (a : Nat → Int × Int) :
    makeRoom base key n a =
      (writeCells a (base + scanDown (fun i => decide ((a (base + i)).1 > key)) n + 1)
          (readCells a (base + scanDown (fun i => decide ((a (base + i)).1 > key)) n)
            (n - scanDown (fun i => decide ((a (base + i)).1 > key)) n)),
        scanDown (fun i => decide ((a (base + i)).1 > key)) n) := by
  induction n generalizing a with
  | zero => simp [makeRoom, scanDown]
  | succ n ih =>
      by_cases greater : key < (a (base + n)).1
      · have same : scanDown (fun i => decide
            ((writeCells a (base + n + 1) [a (base + n)] (base + i)).1 > key)) n =
            scanDown (fun i => decide ((a (base + i)).1 > key)) n := by
          apply scanDown_congr
          intro j below
          rw [writeCells_outside (Or.inl (by omega))]
        have upper := (scanDown_spec (fun i => decide ((a (base + i)).1 > key)) n).1
        have step : scanDown (fun i => decide ((a (base + i)).1 > key)) (n + 1) =
            scanDown (fun i => decide ((a (base + i)).1 > key)) n := by
          simp [scanDown, greater]
        rw [makeRoom, if_pos greater, ih, same, step]
        generalize scanDown (fun i => decide ((a (base + i)).1 > key)) n = k at *
        refine Prod.ext (funext fun q => ?_) rfl
        have more : n + 1 - k = n - k + 1 := by omega
        rw [readCells_writeCells_outside (Or.inl (by omega)), more, readCells_add]
        have single : readCells a (base + k + (n - k)) 1 = [a (base + n)] := by
          rw [show base + k + (n - k) = base + n by omega]
          rfl
        rw [single]
        simp only
        by_cases last : q = base + n + 1
        · subst last
          rw [writeCells_outside (Or.inr (by rw [length_readCells]; omega)),
            writeCells_inside le_rfl (by simp),
            writeCells_inside (by omega) (by simp; omega)]
          simp only [List.get_eq_getElem, Nat.sub_self, List.getElem_cons_zero]
          rw [List.getElem_append_right (by rw [length_readCells]; omega)]
          simp
        · by_cases middle : base + k + 1 ≤ q ∧ q < base + n + 1
          · rw [writeCells_inside middle.1 (by rw [length_readCells]; omega),
              writeCells_inside middle.1 (by simp; omega)]
            simp only [List.get_eq_getElem]
            rw [List.getElem_append_left (by rw [length_readCells]; omega)]
          · rw [writeCells_outside (by rw [length_readCells]; omega),
              writeCells_outside (by simp; omega), writeCells_outside (by simp; omega)]
      · have stays : scanDown (fun i => decide ((a (base + i)).1 > key)) (n + 1) = n + 1 := by
          simp [scanDown, greater]
        rw [makeRoom, if_neg greater, stays]
        simp

theorem insertIn_part (t : PmaImpl4) (i : Nat) (e : Int × Int) :
    (t.insertIn i e).part i = insertDown e (t.part i) := by
  have upper := (scanDown_spec
    (fun j => decide ((t.elements (i * t.segmentCapacity + j)).1 > e.1)) (t.segments i)).1
  have same : scanDown (fun j => decide (((t.part i).getD j default).1 > e.1)) (t.part i).length =
      scanDown (fun j => decide ((t.elements (i * t.segmentCapacity + j)).1 > e.1))
        (t.segments i) := by
    rw [length_part]
    apply scanDown_congr
    intro j below
    rw [part, getD_readCells below]
  have insertion := readCells_insertRight (a := t.elements) (p := i * t.segmentCapacity) upper e
  rw [insertDown, same]
  simpa [part, insertIn, makeRoom_eq] using insertion

theorem insertIn_other (cells : t.Cells) (inside : t.segments i < t.segmentCapacity)
    (other : j ≠ i) (inside' : j < t.getNumSegments) (e : Int × Int) :
    (t.insertIn i e).part j = t.part j := by
  have size := cells.sizes j inside'
  have upper := (scanDown_spec
    (fun j => decide ((t.elements (i * t.segmentCapacity + j)).1 > e.1)) (t.segments i)).1
  have apart : j * t.segmentCapacity + t.segmentCapacity ≤ i * t.segmentCapacity ∨
      i * t.segmentCapacity + t.segmentCapacity ≤ j * t.segmentCapacity :=
    (lt_or_gt_of_ne other).imp (cells_apart · _) (cells_apart · _)
  have sizes : (t.insertIn i e).segments j = t.segments j := by
    simp [insertIn, Function.update_of_ne other]
  have capacity : (t.insertIn i e).segmentCapacity = t.segmentCapacity := rfl
  unfold part
  rw [sizes, capacity]
  apply readCells_congr
  intro q lower below
  simp only [insertIn, makeRoom_eq]
  rw [writeCells_outside (by simp only [List.length_singleton]; omega),
    writeCells_outside (by rw [length_readCells]; omega)]

/-- An insertion changes one segment. -/
theorem parts_insertIn (cells : t.Cells)
    (room : t.segments i < t.segmentCapacity) (e : Int × Int) :
    (t.insertIn i e).parts = t.parts.set i (insertDown e (t.part i)) := by
  have count : (t.insertIn i e).getNumSegments = t.getNumSegments := rfl
  apply parts_eq_of
  · rw [List.length_set, length_parts, count]
  · intro j inside
    by_cases same : j = i
    · subst same
      rw [List.getElem?_set_self (by rw [length_parts]; exact inside), insertIn_part]
    · rw [List.getElem?_set_ne (Ne.symm same), insertIn_other cells room same inside]
      exact parts_getElem? inside

/-! ## Spread -/

section Store

variable {C : Nat} {sizes : Nat → Nat} {tmp : List (Int × Int)} {pos q : Nat}

theorem storeSegments_outside (small : ∀ m < n, sizes (i + m) ≤ C)
    (outside : q < i * C ∨ (i + n) * C ≤ q) (a : Nat → Int × Int) :
    storeSegments C sizes tmp n i pos a q = a q := by
  induction n generalizing i pos a with
  | zero => rfl
  | succ n ih =>
      have first := small 0 (Nat.succ_pos n)
      have next : (i + 1) * C = i * C + C := Nat.succ_mul i C
      have last := cells_apart (show i < i + (n + 1) by omega) C
      have length := List.length_take_le (sizes i) (tmp.drop pos)
      rw [Nat.add_zero] at first
      rw [storeSegments, ih]
      · exact writeCells_outside (by omega)
      · intro m less
        rw [Nat.add_assoc, Nat.add_comm 1 m]
        exact small (m + 1) (by omega)
      · rw [Nat.add_assoc, Nat.add_comm 1 n]
        omega

/-- Each segment gets its piece of the list. -/
theorem storeSegments_inside (tmp : List (Int × Int)) (b : Nat → Nat)
    (small : ∀ m < n, sizes (i + m) ≤ C)
    (step : ∀ m < n, b (m + 1) = b m + sizes (i + m)) (whole : b n ≤ tmp.length)
    (a : Nat → Int × Int) (inside : j < n) :
    readCells (storeSegments C sizes tmp n i (b 0) a) ((i + j) * C) (sizes (i + j)) =
      piece b tmp j := by
  induction n generalizing i j b a with
  | zero => omega
  | succ n ih =>
      have first := small 0 (Nat.succ_pos n)
      have step0 : b 1 = b 0 + sizes i := step 0 (Nat.succ_pos n)
      rw [Nat.add_zero] at first
      have mono : ∀ m, m ≤ n → b 1 ≤ b (m + 1) := by
        intro m
        induction m with
        | zero => simp
        | succ m ihm =>
            intro le
            have := step (m + 1) (by omega)
            have := ihm (by omega)
            omega
      have enough := mono n le_rfl
      have rest : ∀ m < n, sizes (i + 1 + m) ≤ C := by
        intro m less
        rw [Nat.add_assoc, Nat.add_comm 1 m]
        exact small (m + 1) (by omega)
      rw [storeSegments]
      cases j with
      | zero =>
          have length : ((tmp.drop (b 0)).take (sizes i)).length = sizes i := by
            rw [List.length_take, List.length_drop]
            omega
          have kept : readCells (storeSegments C sizes tmp n (i + 1) (b 0 + sizes i)
              (writeCells a (i * C) ((tmp.drop (b 0)).take (sizes i)))) (i * C) (sizes i) =
              readCells (writeCells a (i * C) ((tmp.drop (b 0)).take (sizes i))) (i * C)
                (sizes i) := by
            apply readCells_congr
            intro q lower upper
            have next : (i + 1) * C = i * C + C := Nat.succ_mul i C
            exact storeSegments_outside rest (Or.inl (by omega)) _
          have written := @readCells_writeCells _ a (i * C) ((tmp.drop (b 0)).take (sizes i))
          rw [length] at written
          change readCells _ (i * C) (sizes i) = _
          rw [kept, written, piece, Nat.zero_add, step0, Nat.add_sub_cancel_left]
      | succ j =>
          have shift := ih (j := j) (fun m => b (m + 1)) rest
            (fun m less => by
              rw [step (m + 1) (by omega), Nat.add_assoc i 1 m, Nat.add_comm 1 m])
            whole (writeCells a (i * C) ((tmp.drop (b 0)).take (sizes i))) (by omega)
          rw [Nat.add_assoc i 1 j, Nat.add_comm 1 j, Nat.zero_add, step0] at shift
          exact shift

end Store

/-- The elements of a window. -/
theorem window_eq (n : Nat) (inside : i + n ≤ t.getNumSegments) :
    (List.range' i n).flatMap t.part = ((t.parts.drop i).take n).flatten := by
  rw [List.flatMap_def, parts]
  congr 1
  apply List.ext_getElem
  · simp
    omega
  · intro j inside' inside''
    simp

/-- A spread deals out the elements of the window. -/
theorem parts_spread (cells : t.Cells) (positive : 0 < n) (inside : i + n ≤ t.getNumSegments)
    {numElements : Nat} (counted : numElements = ((t.parts.drop i).take n).flatten.length)
    (room : numElements ≤ n * t.segmentCapacity) :
    (t.spread numElements i n).parts =
      t.parts.take i ++ deal n ((t.parts.drop i).take n).flatten ++ t.parts.drop (i + n) := by
  have count : (t.spread numElements i n).getNumSegments = t.getNumSegments := rfl
  have sizes : ∀ m < n, (t.spread numElements i n).segments (i + m) =
      evenSize numElements n m := by
    intro m less
    simp only [spread]
    rw [if_pos (by omega), Nat.add_sub_cancel_left]
  have small : ∀ m < n, (t.spread numElements i n).segments (i + m) ≤ t.segmentCapacity := by
    intro m less
    rw [sizes m less]
    exact evenSize_le room positive
  have before : (t.parts.take i).length = i := by
    rw [List.length_take, length_parts]
    omega
  apply parts_eq_of
  · simp only [List.length_append, List.length_take, List.length_drop, length_parts, length_deal,
      count]
    omega
  · intro j inside'
    by_cases window : i ≤ j ∧ j < i + n
    · obtain ⟨m, rfl⟩ := Nat.exists_eq_add_of_le window.1
      have less : m < n := by omega
      have stored := storeSegments_inside ((List.range' i n).flatMap t.part)
        (evenStart numElements n) small
        (fun m less => by rw [evenStart_succ, sizes m less])
        (by rw [evenStart_self positive, counted, window_eq n inside]) t.elements less
      have dealt : (deal n ((t.parts.drop i).take n).flatten)[m]? =
          some (piece (evenStart numElements n) ((t.parts.drop i).take n).flatten m) := by
        rw [deal, List.getElem?_eq_getElem (by simpa using less), getElem_pieces, ← counted]
      rw [List.getElem?_append_left (by rw [List.length_append, before, length_deal]; omega),
        List.getElem?_append_right (by omega), before, Nat.add_sub_cancel_left, dealt]
      have spread : (t.spread numElements i n).part (i + m) =
          piece (evenStart numElements n) ((List.range' i n).flatMap t.part) m := by
        rw [evenStart_zero] at stored
        exact stored
      rw [spread, window_eq n inside]
    · have outside : j < i ∨ i + n ≤ j := by omega
      have kept : (t.spread numElements i n).part j = t.part j := by
        have segments : (t.spread numElements i n).segments j = t.segments j := by
          simp only [spread]
          rw [if_neg window]
        have capacity : (t.spread numElements i n).segmentCapacity = t.segmentCapacity := rfl
        have size := cells.sizes j inside'
        unfold part
        rw [segments, capacity]
        apply readCells_congr
        intro q lower upper
        refine storeSegments_outside small ?_ _
        rcases outside with less | after
        · have := cells_apart less t.segmentCapacity
          exact Or.inl (by omega)
        · have := Nat.mul_le_mul_right t.segmentCapacity after
          exact Or.inr (by omega)
      have inside' : j < t.getNumSegments := inside'
      rw [kept, ← parts_getElem? inside']
      rcases outside with less | after
      · rw [List.getElem?_append_left (by rw [List.length_append, before, length_deal]; omega),
          List.getElem?_append_left (by omega), List.getElem?_take_of_lt less]
      · rw [List.getElem?_append_right (by rw [List.length_append, before, length_deal]; omega),
          List.getElem?_drop, List.length_append, before, length_deal]
        congr 1
        omega

/-! ## Iterator -/

/-- The elements that an iterator has not yet yielded. -/
inductive Remaining (t : PmaImpl4) : Iterator → List (Int × Int) → Prop
  | done {it : Iterator} : it.hasNext = false → Remaining t it []
  | inside {i k : Nat} : i < t.getNumSegments → k < t.segments i →
    Remaining t
      ⟨i, i * t.segmentCapacity + k, i * t.segmentCapacity + t.segments i⟩
      ((t.part i).drop k ++ (t.parts.drop (i + 1)).flatten)

/-- When there are several segments, none of them is empty. -/
def Filled (t : PmaImpl4) : Prop :=
  1 < t.getNumSegments → ∀ i < t.getNumSegments, 0 < t.segments i

variable {it it' : Iterator} {l : List (Int × Int)}

theorem iterator_remaining (positive : 0 < t.getNumSegments)
    (filled : t.Filled) : Remaining t t.iterator t.contents := by
  have first : t.contents = t.part 0 ++ (t.parts.drop 1).flatten := by
    have cons : t.parts = t.part 0 :: t.parts.drop 1 := by
      rw [← getElem_parts (by rw [length_parts]; exact positive)]
      exact (List.getElem_cons_drop (by rw [length_parts]; exact positive)).symm
    rw [contents]
    conv_lhs => rw [cons]
    rw [List.flatten_cons]
  by_cases empty : t.segments 0 = 0
  · have single : t.getNumSegments = 1 := by
      by_contra several
      have := filled (by omega) 0 positive
      omega
    have nothing : t.contents = [] := by
      rw [first, List.drop_eq_nil_of_le (by rw [length_parts, single])]
      have := length_part t 0
      rw [empty] at this
      rw [List.length_eq_zero_iff.mp this]
      rfl
    rw [nothing]
    exact .done (by simp [iterator, Iterator.hasNext, empty])
  · have start := Remaining.inside (t := t) positive (Nat.pos_of_ne_zero empty)
    simp only [Nat.zero_mul, Nat.zero_add, List.drop_zero] at start
    rw [first]
    exact start

/-- The next element is the first one that remains. -/
theorem next_remaining (cells : t.Cells) (filled : t.Filled)
    (remaining : Remaining t it (e :: l)) :
    it.hasNext = true ∧ ∃ it', t.next it = some (e, it') ∧ Remaining t it' l := by
  generalize same : e :: l = whole at remaining
  cases remaining with
  | done => cases same
  | @inside i k insideI insideK =>
      have read : (t.part i).drop k =
          t.elements (i * t.segmentCapacity + k) :: (t.part i).drop (k + 1) := by
        rw [List.drop_eq_getElem_cons (by rw [length_part]; exact insideK)]
        simp [part, readCells]
      rw [read, List.cons_append] at same
      cases same
      have more : Iterator.hasNext ⟨i, i * t.segmentCapacity + k,
          i * t.segmentCapacity + t.segments i⟩ = true := by
        simp [Iterator.hasNext, insideK]
      refine ⟨more, _, by rw [next, if_pos more], ?_⟩
      unfold move
      simp only
      by_cases last : i * t.segmentCapacity + k + 1 ≥ i * t.segmentCapacity + t.segments i
      · rw [if_pos last, List.drop_eq_nil_of_le (by rw [length_part]; omega), List.nil_append]
        by_cases final : i + 1 < t.getNumSegments
        · have several := filled (by omega) (i + 1) final
          have size := cells.sizes (i + 1) final
          have apart := cells_apart final t.segmentCapacity
          have capacity := cells.capacity
          have positive := cells.positive
          rw [Nat.mul_comm t.segmentCapacity (i + 1), if_pos (by omega), if_pos final,
            if_neg (by omega)]
          have rest : (t.parts.drop (i + 1)).flatten =
              (t.part (i + 1)).drop 0 ++ (t.parts.drop (i + 1 + 1)).flatten := by
            rw [List.drop_eq_getElem_cons (by rw [length_parts]; exact final), getElem_parts,
              List.flatten_cons, List.drop_zero]
          rw [rest]
          exact Remaining.inside final several
        · have capacity := cells.capacity
          have size := cells.sizes i insideI
          have count : i + 1 = t.getNumSegments := by omega
          have next : (i + 1) * t.segmentCapacity = i * t.segmentCapacity + t.segmentCapacity :=
            Nat.succ_mul i _
          rw [Nat.mul_comm t.segmentCapacity (i + 1), if_neg (by rw [capacity, count]; omega),
            List.drop_eq_nil_of_le (by rw [length_parts]; omega)]
          exact .done (by simp only [Iterator.hasNext, decide_eq_false_iff_not]; omega)
      · rw [if_neg last]
        exact Remaining.inside (k := k + 1) insideI (by omega)

theorem Remaining.hasNext_of_nil (remaining : Remaining t it []) : it.hasNext = false := by
  generalize same : ([] : List (Int × Int)) = whole at remaining
  cases remaining with
  | done stopped => exact stopped
  | @inside i k insideI insideK =>
      have := congrArg List.length same
      simp at this
      omega

/-- The iterator yields what remains. -/
theorem yields_remaining (cells : t.Cells) (filled : t.Filled) (remaining : Remaining t it l)
    (enough : l.length ≤ n) : t.yields n it = some l := by
  induction n generalizing it l with
  | zero =>
      have nothing := List.length_eq_zero_iff.mp (Nat.le_zero.mp enough)
      subst nothing
      simp [yields, remaining.hasNext_of_nil]
  | succ n ih =>
      cases l with
      | nil => simp [yields, remaining.hasNext_of_nil]
      | cons e l =>
          obtain ⟨more, it', step, rest⟩ := next_remaining cells filled remaining
          simp [yields, more, step, ih rest (by simpa using enough)]

theorem yields_contents (cells : t.Cells) (positive : 0 < t.getNumSegments) (filled : t.Filled)
    (enough : t.contents.length ≤ n) : t.yields n t.iterator = some t.contents :=
  yields_remaining cells filled (iterator_remaining positive filled) enough

theorem readNext_remaining (cells : t.Cells) (filled : t.Filled) (remaining : Remaining t it l)
    (enough : n ≤ l.length) :
    ∃ it', t.readNext n it = some (l.take n, it') ∧ Remaining t it' (l.drop n) := by
  induction n generalizing it l with
  | zero => exact ⟨it, rfl, remaining⟩
  | succ n ih =>
      cases l with
      | nil => simp at enough
      | cons e l =>
          obtain ⟨-, it', step, rest⟩ := next_remaining cells filled remaining
          obtain ⟨it'', read, rest⟩ := ih rest (by simpa using enough)
          exact ⟨it'', by simp [readNext, step, read], rest⟩

/-! ## Resize -/

/-- The elements are copied as a spread copies them. -/
theorem fillSegments_eq (cells : t.Cells) (filled : t.Filled) {C : Nat} {sizes b : Nat → Nat}
    (step : ∀ m < n, b (m + 1) = b m + sizes (i + m)) (whole : b n ≤ l.length)
    (remaining : Remaining t it (l.drop (b 0))) (a : Nat → Int × Int) :
    t.fillSegments C sizes n i it a = some (storeSegments C sizes l n i (b 0) a) := by
  induction n generalizing i it b a with
  | zero => rfl
  | succ n ih =>
      have step0 : b 1 = b 0 + sizes i := step 0 (Nat.succ_pos n)
      have mono : ∀ m, m ≤ n → b 1 ≤ b (m + 1) := by
        intro m
        induction m with
        | zero => simp
        | succ m ihm =>
            intro le
            have := step (m + 1) (by omega)
            have := ihm (by omega)
            omega
      have enough := mono n le_rfl
      obtain ⟨it', read, rest⟩ := readNext_remaining (n := sizes i) cells filled remaining
        (by rw [List.length_drop]; omega)
      rw [List.drop_drop, ← step0] at rest
      have next := ih (b := fun m => b (m + 1)) (i := i + 1)
        (fun m less => by rw [step (m + 1) (by omega), Nat.add_assoc i 1 m, Nat.add_comm 1 m])
        whole rest (writeCells a (C * i) ((l.drop (b 0)).take (sizes i)))
      simp only [fillSegments, read, Option.bind_eq_bind, Option.bind_some, next, storeSegments,
        Nat.zero_add]
      rw [step0, Nat.mul_comm C i]

/-- A resize deals out all the elements. -/
theorem resize_parts (cells : t.Cells) (positive : 0 < t.getNumSegments) (filled : t.Filled)
    (count : t.cardinality = t.contents.length)
    {C N : Nat} (size : hyperceil (Nat.log 2 (t.capacity * 2)) = C)
    (segments : t.capacity * 2 / C = N) (several : 0 < N) (room : t.cardinality ≤ N * C) :
    ∃ u, t.resize = some u ∧ u.parts = deal N t.contents ∧ u.capacity = t.capacity * 2 ∧
      u.segmentCapacity = C ∧ u.height = Nat.log 2 N + 1 ∧ u.cardinality = t.cardinality ∧
      u.segments = evenSize t.cardinality N := by
  have small : ∀ m < N, evenSize t.cardinality N (0 + m) ≤ C := fun m _ => evenSize_le room several
  have total : evenStart t.cardinality N N ≤ t.contents.length := by
    rw [evenStart_self several, count]
  have copied := fillSegments_eq (C := C) (n := N) (i := 0)
    (b := evenStart t.cardinality N) cells filled
    (fun m _ => by rw [evenStart_succ, Nat.zero_add]) total
    (by rw [evenStart_zero]; exact iterator_remaining positive filled) fun _ => (0, 0)
  have resized : t.resize = some
      { elements := storeSegments C (evenSize t.cardinality N) t.contents N 0
          (evenStart t.cardinality N 0) fun _ => (0, 0)
        capacity := t.capacity * 2
        segments := evenSize t.cardinality N
        segmentCapacity := C
        height := Nat.log 2 N + 1
        cardinality := t.cardinality } := by
    simp only [resize, size, segments, copied, Option.bind_eq_bind, Option.bind_some]
  refine ⟨_, resized, ?_, rfl, rfl, rfl, rfl, rfl⟩
  apply parts_eq_of
  · simpa [getNumSegments] using segments.symm
  · intro m less
    have less : m < N := by simpa [getNumSegments, segments] using less
    have stored := storeSegments_inside t.contents (evenStart t.cardinality N) small
      (fun m _ => by rw [evenStart_succ, Nat.zero_add]) total (fun _ => (0, 0)) less
    rw [Nat.zero_add] at stored
    have dealt : (deal N t.contents)[m]? =
        some (piece (evenStart t.cardinality N) t.contents m) := by
      rw [deal, List.getElem?_eq_getElem (by simpa using less), getElem_pieces, ← count]
    rw [dealt, ← stored]
    simp [part, evenStart_zero]

end PmaImpl4

end Rma
