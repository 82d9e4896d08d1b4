import Mathlib.Data.List.TakeWhile
import Mathlib.Tactic

/-!
# Linear scans

The two loops a C program looks through an array with: `scanUp` is
`while(i < n && p(i)) i++` and `scanDown` is `while(i > 0 && p(i - 1)) i--`.
Each has one lemma that says where the loop stops.
-/

namespace Rma.Base

/-- `while(i < i + room && p i) i++;`, where `room` positions are left. -/
def scanUp (p : Nat → Bool) (i : Nat) : Nat → Nat
  | 0 => i
  | room + 1 => if p i then scanUp p (i + 1) room else i

/-- `while(i > 0 && p (i - 1)) i--;` -/
def scanDown (p : Nat → Bool) : Nat → Nat
  | 0 => 0
  | i + 1 => if p i then scanDown p i else i + 1

/-- The upward scan stops at the first position that fails, or at the bound. -/
theorem scanUp_spec (p : Nat → Bool) (i room : Nat) :
    i ≤ scanUp p i room ∧ scanUp p i room ≤ i + room ∧
      (∀ j, i ≤ j → j < scanUp p i room → p j = true) ∧
      (scanUp p i room < i + room → p (scanUp p i room) = false) := by
  induction room generalizing i with
  | zero => simp [scanUp]; omega
  | succ room ih =>
      rcases ih (i + 1) with ⟨lower, upper, passed, stopped⟩
      cases here : p i with
      | true =>
          simp only [scanUp, here, if_true]
          refine ⟨by omega, by omega, ?_, fun h => stopped (by omega)⟩
          intro j hj below
          cases Nat.eq_or_lt_of_le hj with
          | inl same => rw [← same]; exact here
          | inr later => exact passed j later below
      | false =>
          simp only [scanUp, here]
          exact ⟨le_refl i, by simp, fun j hj below => absurd below (by simp; omega), fun _ => here⟩

/-- The downward scan stops just after the last position that fails, or at zero. -/
theorem scanDown_spec (p : Nat → Bool) (i : Nat) :
    scanDown p i ≤ i ∧ (∀ j, scanDown p i ≤ j → j < i → p j = true) ∧
      (0 < scanDown p i → p (scanDown p i - 1) = false) := by
  induction i with
  | zero => simp [scanDown]
  | succ i ih =>
      rcases ih with ⟨upper, passed, stopped⟩
      cases here : p i with
      | true =>
          simp only [scanDown, here, if_true]
          refine ⟨by omega, ?_, stopped⟩
          intro j hj below
          cases Nat.eq_or_lt_of_le (Nat.le_of_lt_succ below) with
          | inl same => rw [same]; exact here
          | inr earlier => exact passed j hj earlier
      | false =>
          simp only [scanDown, here]
          exact ⟨by simp, fun j hj below => absurd below (by simp at hj; omega), fun _ => by simpa⟩

theorem scanDown_congr {p q : Nat → Bool} {i : Nat} (same : ∀ j < i, p j = q j) :
    scanDown p i = scanDown q i := by
  induction i with
  | zero => rfl
  | succ i ih =>
      rw [scanDown, scanDown, same i (Nat.lt_succ_self i), ih fun j below => same j (by omega)]

/-! ## Scans whose test may be undefined -/

/-- `scanUp` with a test that reads memory: undefined where a read is. -/
def scanUpM (p : Nat → Option Bool) (i : Nat) : Nat → Option Nat
  | 0 => some i
  | room + 1 => do
    if ← p i then scanUpM p (i + 1) room else some i

/-- `while(i > i - room && p i) i--;` over signed positions. -/
def scanDownM (p : Int → Option Bool) (i : Int) : Nat → Option Int
  | 0 => some i
  | room + 1 => do
    if ← p i then scanDownM p (i - 1) room else some i

/-- `scanDown` with a test that reads memory. -/
def scanDownO (p : Nat → Option Bool) : Nat → Option Nat
  | 0 => some 0
  | i + 1 => do
    if ← p i then scanDownO p i else some (i + 1)

/-- Where the test is defined, the downward scan is the plain one. -/
theorem scanDownO_eq (p : Nat → Option Bool) (q : Nat → Bool) (i : Nat)
    (defined : ∀ j < i, p j = some (q j)) : scanDownO p i = some (scanDown q i) := by
  induction i with
  | zero => rfl
  | succ i ih =>
      have rest := ih fun j below => defined j (by omega)
      simp only [scanDownO, scanDown, defined i (Nat.lt_succ_self i), rest]
      cases q i <;> rfl

/-- Where the test is defined, the upward scan is the plain one. -/
theorem scanUpM_eq (p : Nat → Option Bool) (q : Nat → Bool) (i room : Nat)
    (defined : ∀ j, i ≤ j → j < i + room → p j = some (q j)) :
    scanUpM p i room = some (scanUp q i room) := by
  induction room generalizing i with
  | zero => rfl
  | succ room ih =>
      have rest := ih (i + 1) fun j hj below => defined j (by omega) (by omega)
      simp only [scanUpM, scanUp, defined i le_rfl (by omega), rest]
      cases q i <;> rfl

/-- The upward scan of a list from a position that the test has not passed yet ends where the first
element fails. -/
theorem scanUpM_takeWhile {α : Type*} (l : List α) (p : α → Bool) {i : Nat}
    (before : i ≤ (l.takeWhile p).length) :
    scanUpM (fun j => (l[j]?).map p) i (l.length - i) = some (l.takeWhile p).length := by
  have passes : ∀ j, j < (l.takeWhile p).length → ∃ x, l[j]? = some x ∧ p x = true := by
    intro j inside
    refine ⟨(l.takeWhile p)[j], ?_, List.mem_takeWhile_imp (List.getElem_mem inside)⟩
    have split := congrArg (fun m => m[j]?) (@List.takeWhile_append_dropWhile _ p l)
    rw [← split, List.getElem?_append_left inside, List.getElem?_eq_getElem inside]
  have fails : ∀ x, l[(l.takeWhile p).length]? = some x → p x = false := by
    intro x read
    have split := congrArg (fun m => m[(l.takeWhile p).length]?)
      (@List.takeWhile_append_dropWhile _ p l)
    rw [List.getElem?_append_right le_rfl, Nat.sub_self, ← List.head?_eq_getElem?, read] at split
    have head := List.head?_dropWhile_not p l
    rw [split] at head
    simpa using head
  have within : (l.takeWhile p).length ≤ l.length := (List.takeWhile_sublist p).length_le
  generalize (l.takeWhile p).length = k at *
  obtain ⟨room, left⟩ : ∃ room, l.length - i = room := ⟨_, rfl⟩
  rw [left]
  induction room generalizing i with
  | zero => rw [scanUpM, show i = k by omega]
  | succ room ih =>
      rcases Nat.eq_or_lt_of_le before with rfl | inside
      · obtain ⟨x, read⟩ : ∃ x, l[i]? = some x := ⟨_, List.getElem?_eq_getElem (by omega)⟩
        simp [scanUpM, read, fails x read]
      · obtain ⟨x, read, holds⟩ := passes i inside
        have rest := ih inside (by omega)
        simp [scanUpM, read, holds, rest]

/-- The upward scan stops at the first position, `k` steps up, that fails; it tests no
position above. -/
theorem scanUpM_stop (p : Nat → Option Bool) (i room k : Nat) (inside : k < room)
    (passed : ∀ j, j < k → p (i + j) = some true) (stopped : p (i + k) = some false) :
    scanUpM p i room = some (i + k) := by
  induction room generalizing i k with
  | zero => omega
  | succ room ih =>
      cases k with
      | zero =>
          rw [Nat.add_zero] at stopped ⊢
          simp [scanUpM, stopped]
      | succ k =>
          have first : p i = some true := passed 0 (Nat.succ_pos k)
          have shift : ∀ m, i + 1 + m = i + (m + 1) := fun m => by omega
          have rest := ih (i + 1) k (by omega)
            (fun j below => by rw [shift]; exact passed (j + 1) (by omega)) (by rwa [shift])
          rw [shift] at rest
          simpa [scanUpM, first] using rest

/-- The downward scan stops at the first position, `k` steps down, that fails; it
tests no position below. -/
theorem scanDownM_eq (p : Int → Option Bool) (i : Int) (room k : Nat) (inside : k < room)
    (passed : ∀ j, j < k → p (i - j) = some true) (stopped : p (i - k) = some false) :
    scanDownM p i room = some (i - k) := by
  induction room generalizing i k with
  | zero => omega
  | succ room ih =>
      cases k with
      | zero =>
          rw [Nat.cast_zero, sub_zero] at stopped ⊢
          simp [scanDownM, stopped]
      | succ k =>
          have first := passed 0 (Nat.succ_pos k)
          rw [Nat.cast_zero, sub_zero] at first
          have shift : ∀ m : Nat, i - 1 - (m : Int) = i - ((m + 1 : Nat) : Int) := by
            intro m
            push_cast
            ring
          have rest := ih (i - 1) k (by omega)
            (fun j hj => by rw [shift]; exact passed (j + 1) (by omega)) (by rwa [shift])
          rw [shift] at rest
          simpa [scanDownM, first] using rest

end Rma.Base
