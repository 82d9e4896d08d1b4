import Mathlib.Tactic

/-!
# Windows of increasing lists

`window l lo hi` is the part of an increasing list of positions that lies in
`[lo, hi)`. A scan that visits the positions in order consumes a window from its
left end: `window_cons` takes one position off, `window_append` a whole run.
-/

namespace Rma.Base

/-- The positions of the list in `[lo, hi)`. -/
def window (l : List Nat) (lo hi : Nat) : List Nat := l.filter fun p => lo ≤ p ∧ p < hi

/-- Two windows with the same members of the list are equal. -/
theorem window_congr {l : List Nat} {lo hi lo' hi' : Nat}
    (same : ∀ p, p ∈ l → (lo ≤ p ∧ p < hi ↔ lo' ≤ p ∧ p < hi')) :
    window l lo hi = window l lo' hi' := by
  apply List.filter_congr
  intro p member
  exact decide_eq_decide.mpr (same p member)

theorem window_eq_nil {l : List Nat} {lo hi : Nat} (none : ∀ p, p ∈ l → lo ≤ p → hi ≤ p) :
    window l lo hi = [] := by
  rw [window, List.filter_eq_nil_iff]
  intro p member inside
  have inside := of_decide_eq_true inside
  have outside := none p member inside.1
  omega

/-- The first position of a window that starts at a member of the list. -/
theorem window_cons {l : List Nat} (increasing : l.Pairwise (· < ·)) {lo hi : Nat}
    (member : lo ∈ l) (nonempty : lo < hi) : window l lo hi = lo :: window l (lo + 1) hi := by
  induction l with
  | nil => cases member
  | cons a l ih =>
      rcases List.pairwise_cons.mp increasing with ⟨above, increasing⟩
      rcases List.mem_cons.mp member with rfl | member
      · have rest : ∀ p, p ∈ l → (lo ≤ p ∧ p < hi ↔ lo + 1 ≤ p ∧ p < hi) := by
          intro p memP
          have after := above p memP
          omega
        have same := window_congr rest
        unfold window at same ⊢
        rw [List.filter_cons_of_pos (by simpa using nonempty), same,
          List.filter_cons_of_neg (by simp)]
      · have before := above lo member
        have tail := ih increasing member
        unfold window at tail ⊢
        rw [List.filter_cons_of_neg (by simp; omega), tail,
          List.filter_cons_of_neg (by simp; omega)]

/-- A window that starts with a run of consecutive positions. -/
theorem window_append {l : List Nat} (increasing : l.Pairwise (· < ·)) {lo mid hi : Nat}
    (order : lo ≤ mid) (inside : mid ≤ hi) (run : ∀ p, lo ≤ p → p < mid → p ∈ l) :
    window l lo hi = List.range' lo (mid - lo) ++ window l mid hi := by
  obtain ⟨count, rfl⟩ : ∃ count, mid = lo + count := ⟨mid - lo, by omega⟩
  rw [Nat.add_sub_cancel_left]
  induction count generalizing lo with
  | zero => simp
  | succ count ih =>
      have shift : lo + (count + 1) = lo + 1 + count := by omega
      have rest := @ih (lo + 1) (by omega) (by omega) fun p hp below =>
        run p (by omega) (by omega)
      rw [window_cons increasing (run lo le_rfl (by omega)) (by omega), rest, shift,
        List.range'_succ, List.cons_append]

/-- The last position of a window that ends at a member of the list. -/
theorem window_concat {l : List Nat} (increasing : l.Pairwise (· < ·)) {lo last : Nat}
    (member : last ∈ l) (nonempty : lo ≤ last) :
    window l lo (last + 1) = window l lo last ++ [last] := by
  induction l with
  | nil => cases member
  | cons a l ih =>
      rcases List.pairwise_cons.mp increasing with ⟨above, increasing⟩
      rcases List.mem_cons.mp member with rfl | member
      · have nothing : ∀ hi, hi ≤ last + 1 → window l lo hi = [] := fun hi bounded =>
          window_eq_nil fun p memP _ => bounded.trans (above p memP)
        have first := nothing (last + 1) le_rfl
        have second := nothing last (by omega)
        unfold window at first second ⊢
        rw [List.filter_cons_of_pos (by simpa using nonempty), first,
          List.filter_cons_of_neg (by simp), second, List.nil_append]
      · have before := above last member
        have tail := ih increasing member
        unfold window at tail ⊢
        by_cases inside : lo ≤ a
        · rw [List.filter_cons_of_pos (by simp; omega), tail,
            List.filter_cons_of_pos (by simp; omega), List.cons_append]
        · rw [List.filter_cons_of_neg (by simp; omega), tail,
            List.filter_cons_of_neg (by simp; omega)]

end Rma.Base
