import Mathlib.Tactic

/-!
# Cutting a list into pieces

A list is dealt out to consecutive places: `b j` is where the part of the `j`-th
place begins. `evenStart` is the cut into `n` parts whose sizes differ by at most
one, the first ones getting the remainder.
-/

namespace Rma.Base

variable {α : Type*}

/-- The part of the list from `b j` to `b (j + 1)`. -/
def piece (b : Nat → Nat) (l : List α) (j : Nat) : List α := (l.drop (b j)).take (b (j + 1) - b j)

/-- The first `n` pieces. -/
def pieces (b : Nat → Nat) (n : Nat) (l : List α) : List (List α) :=
  (List.range n).map (piece b l)

section Pieces

variable {b : Nat → Nat} {n j : Nat} {l : List α}

@[simp] theorem length_pieces : (pieces b n l).length = n := by
  simp [pieces]

theorem length_piece (inside : b (j + 1) ≤ l.length) : (piece b l j).length = b (j + 1) - b j := by
  rw [piece, List.length_take, List.length_drop]
  omega

theorem getElem_pieces (inside : j < (pieces b n l).length) : (pieces b n l)[j] = piece b l j := by
  simp [pieces]

/-- A piece follows the ones before it. -/
theorem take_append_piece (mono : b j ≤ b (j + 1)) :
    l.take (b j) ++ piece b l j = l.take (b (j + 1)) := by
  obtain ⟨k, step⟩ := Nat.exists_eq_add_of_le mono
  rw [piece, step, Nat.add_sub_cancel_left, List.take_add]

/-- The pieces in order are the list. -/
theorem flatten_pieces (zero : b 0 = 0) (mono : ∀ j, b j ≤ b (j + 1)) :
    (pieces b n l).flatten = l.take (b n) := by
  induction n with
  | zero => simp [pieces, zero]
  | succ n ih =>
      have before : pieces b (n + 1) l = pieces b n l ++ [piece b l n] := by
        simp [pieces, List.range_succ]
      rw [before, List.flatten_append, ih, List.flatten_singleton, take_append_piece (mono n)]

end Pieces

/-! ## Even parts -/

/-- The size of the `j`-th of `n` parts of `card` elements. -/
def evenSize (card n j : Nat) : Nat := card / n + if j < card % n then 1 else 0

/-- Where the `j`-th part begins. -/
def evenStart (card n j : Nat) : Nat := j * (card / n) + min j (card % n)

section Even

variable {card n j k : Nat}

@[simp] theorem evenStart_zero : evenStart card n 0 = 0 := by
  simp [evenStart]

theorem evenStart_succ : evenStart card n (j + 1) = evenStart card n j + evenSize card n j := by
  have whole : (j + 1) * (card / n) = j * (card / n) + card / n := Nat.succ_mul j _
  unfold evenStart evenSize
  split <;> omega

theorem evenStart_mono (card n j : Nat) : evenStart card n j ≤ evenStart card n (j + 1) := by
  rw [evenStart_succ]
  exact Nat.le_add_right _ _

theorem evenStart_self (positive : 0 < n) : evenStart card n n = card := by
  have rest := Nat.mod_lt card positive
  rw [evenStart, min_eq_right rest.le]
  exact Nat.div_add_mod card n

/-- The parts make up the elements. -/
theorem sum_evenSize (positive : 0 < n) : ((List.range n).map (evenSize card n)).sum = card := by
  have starts : ∀ j, ((List.range j).map (evenSize card n)).sum = evenStart card n j := by
    intro j
    induction j with
    | zero => simp
    | succ j ih => simp [List.range_succ, ih, evenStart_succ]
  rw [starts, evenStart_self positive]

/-- Elements that fit in all the places fit in each. -/
theorem evenSize_le {capacity : Nat} (fits : card ≤ n * capacity) (positive : 0 < n) :
    evenSize card n j ≤ capacity := by
  have division := Nat.div_add_mod card n
  have rest := Nat.mod_lt card positive
  have quotient : card / n ≤ capacity := Nat.div_le_of_le_mul fits
  unfold evenSize
  split
  · next first =>
    rcases Nat.eq_or_lt_of_le quotient with same | less
    · rw [same] at division
      omega
    · exact less
  · exact quotient

theorem le_evenSize (enough : n * k ≤ card) (positive : 0 < n) : k ≤ evenSize card n j := by
  have quotient : k ≤ card / n := (Nat.le_div_iff_mul_le positive).mpr (by rwa [Nat.mul_comm])
  exact quotient.trans (Nat.le_add_right _ _)

/-- The list dealt out evenly. -/
def deal (n : Nat) (l : List α) : List (List α) := pieces (evenStart l.length n) n l

variable {l : List α}

@[simp] theorem length_deal : (deal n l).length = n := length_pieces

theorem flatten_deal (positive : 0 < n) : (deal n l).flatten = l := by
  rw [deal, flatten_pieces evenStart_zero (evenStart_mono _ _), evenStart_self positive,
    List.take_length]

end Even

end Rma.Base
