import Mathlib.Tactic

/-!
# Machine words

A value that is converted to an integer of 32 or 64 bits wraps around.
-/

namespace Rma.Base

/-- An `int64_t`, modulo `2 ^ 64`. -/
def int64 (x : Int) : Int := x.bmod (2 ^ 64)

/-- An `int`, modulo `2 ^ 32`. -/
def toInt (x : Int) : Int := x.bmod (2 ^ 32)

/-- A `uint32_t`, modulo `2 ^ 32`. -/
def uint32 (x : Int) : Nat := (x % 2 ^ 32).toNat

/-- One less than a `uint32_t`. -/
def predUint32 (n : Nat) : Nat := if n = 0 then 2 ^ 32 - 1 else n - 1

/-- A `uint64_t` or a `size_t`, modulo `2 ^ 64`. -/
def uint64 (x : Int) : Nat := (x % 2 ^ 64).toNat

/-- The sum of two `int64_t`, modulo `2 ^ 64`. -/
def addInt64 (x y : Int) : Int := (x + y).bmod (2 ^ 64)

/-- `hyperceil(value)`: `pow(2, ceil(log2(value)))`, without the rounding. -/
def hyperceil (value : Nat) : Nat := 2 ^ Nat.clog 2 value

theorem int64_of_lt {x : Int} (lower : 0 ≤ x) (upper : x < 2 ^ 63) : int64 x = x := by
  norm_num at upper
  exact Int.bmod_eq_of_le (by norm_num; omega) (by norm_num; omega)

/-- The value and its bounds. -/
theorem int64_spec (x : Int) : (∃ k, int64 x = x + k * 2 ^ 64) ∧ -2 ^ 63 ≤ int64 x ∧
    int64 x < 2 ^ 63 := by
  have same : int64 x % 2 ^ 64 = x % 2 ^ 64 := by
    have cast : ((2 ^ 64 : Nat) : Int) = 2 ^ 64 := by norm_cast
    rw [int64, ← cast]
    exact Int.bmod_emod
  refine ⟨⟨int64 x / 2 ^ 64 - x / 2 ^ 64, ?_⟩, ?_, ?_⟩
  · have left := Int.mul_ediv_add_emod (int64 x) (2 ^ 64)
    have right := Int.mul_ediv_add_emod x (2 ^ 64)
    rw [sub_mul]
    linarith
  · have bound := @Int.le_bmod x (2 ^ 64) (by norm_num)
    norm_num at bound ⊢
    exact bound
  · have bound := @Int.bmod_lt x (2 ^ 64) (by norm_num)
    norm_num at bound ⊢
    exact bound

/-- Two values are the same word when they differ by a multiple of `2 ^ 64`. -/
theorem int64_congr {x y : Int} (k : Int) (same : x = y + k * 2 ^ 64) : int64 x = int64 y := by
  obtain ⟨⟨i, left⟩, lowerX, upperX⟩ := int64_spec x
  obtain ⟨⟨j, right⟩, lowerY, upperY⟩ := int64_spec y
  norm_num at *
  omega

/-- The converse of `int64_congr`. -/
theorem int64_inj {x y : Int} (same : int64 x = int64 y) : ∃ k, x = y + k * 2 ^ 64 := by
  obtain ⟨⟨i, left⟩, -⟩ := int64_spec x
  obtain ⟨⟨j, right⟩, -⟩ := int64_spec y
  refine ⟨j - i, ?_⟩
  rw [sub_mul]
  linarith

/-- A value in range is itself. -/
theorem int64_self {x : Int} (lower : -2 ^ 63 ≤ x) (upper : x < 2 ^ 63) : int64 x = x := by
  obtain ⟨⟨k, same⟩, lower', upper'⟩ := int64_spec x
  norm_num at *
  omega

theorem int64_lt (x : Int) : int64 x < 2 ^ 63 := by
  have bound := @Int.bmod_lt x (2 ^ 64) (by norm_num)
  norm_num at bound ⊢
  exact bound

theorem toInt_of_fits {x : Int} (lower : -2 ^ 31 ≤ x) (upper : x < 2 ^ 31) : toInt x = x := by
  unfold toInt
  rw [Int.bmod_eq_iff (by norm_num)]
  omega

theorem toInt_of_lt {x : Int} (lower : 0 ≤ x) (upper : x < 2 ^ 31) : toInt x = x := by
  norm_num at upper
  exact Int.bmod_eq_of_le (by norm_num; omega) (by norm_num; omega)

theorem toInt_lt (x : Int) : toInt x < 2 ^ 31 := by
  have bound := @Int.bmod_lt x (2 ^ 32) (by norm_num)
  norm_num at bound ⊢
  exact bound

/-- The upper half of the words is that of the negative integers. -/
theorem toInt_of_ge {x : Int} (lower : 2 ^ 31 ≤ x) (upper : x < 2 ^ 32) :
    toInt x = x - 2 ^ 32 := by
  unfold toInt
  rw [Int.bmod_eq_iff (by norm_num)]
  omega

theorem uint32_of_fits {x : Int} (lower : 0 ≤ x) (upper : x < 2 ^ 32) : (uint32 x : Int) = x := by
  unfold uint32
  omega

theorem uint32_lt (x : Int) : uint32 x < 2 ^ 32 := by
  unfold uint32
  omega

/-- A counter that does not overflow. -/
theorem uint32_natCast {n : Nat} (fits : n < 2 ^ 32) : uint32 n = n := by
  unfold uint32
  omega

theorem uint32_natCast_le (n : Nat) : uint32 n ≤ n := by
  unfold uint32
  omega

theorem predUint32_of_pos {n : Nat} (positive : n ≠ 0) : predUint32 n = n - 1 := if_neg positive

theorem uint64_of_fits {x : Int} (lower : 0 ≤ x) (upper : x < 2 ^ 64) : (uint64 x : Int) = x := by
  unfold uint64
  omega

theorem uint64_natCast {n : Nat} (fits : n < 2 ^ 64) : uint64 n = n := by
  unfold uint64
  omega

end Rma.Base
