import Mathlib.Tactic

/-!
# Aligned windows

A window of the calibrator tree is a run of `2 ^ k` segments that starts at a multiple of its
length: `i / 2 ^ k * 2 ^ k` is where the one around segment `i` starts. It is a half of the window
of the next height, and all of them are in the array.
-/

namespace Rma.Base

/-- A window is the left or the right half of the next one. -/
theorem aligned_halves (i k : Nat) : i / 2 ^ k * 2 ^ k = i / 2 ^ (k + 1) * 2 ^ (k + 1) ∨
    i / 2 ^ k * 2 ^ k = i / 2 ^ (k + 1) * 2 ^ (k + 1) + 2 ^ k := by
  have half : i / 2 ^ (k + 1) = i / 2 ^ k / 2 := by rw [Nat.div_div_eq_div_mul, ← Nat.pow_succ]
  have parts : i / 2 ^ k * 2 ^ k =
      i / 2 ^ (k + 1) * 2 ^ (k + 1) + i / 2 ^ k % 2 * 2 ^ k := by
    rw [half, pow_succ]
    conv_lhs => rw [← Nat.div_add_mod (i / 2 ^ k) 2]
    ring
  rcases Nat.mod_two_eq_zero_or_one (i / 2 ^ k) with even | odd
  · rw [even] at parts
    omega
  · rw [odd] at parts
    omega

/-- The window of a segment is inside an array whose number of segments is a power of two. -/
theorem aligned_inside {i k m : Nat} (inside : i < 2 ^ m) (low : k ≤ m) :
    i / 2 ^ k * 2 ^ k + 2 ^ k ≤ 2 ^ m := by
  obtain ⟨n, rfl⟩ := Nat.exists_eq_add_of_le' low
  rw [pow_add] at inside ⊢
  have below : i / 2 ^ k < 2 ^ n := Nat.div_lt_of_lt_mul (by rwa [Nat.mul_comm] at inside)
  calc i / 2 ^ k * 2 ^ k + 2 ^ k = (i / 2 ^ k + 1) * 2 ^ k := by ring
    _ ≤ 2 ^ n * 2 ^ k := Nat.mul_le_mul_right _ below

end Rma.Base
