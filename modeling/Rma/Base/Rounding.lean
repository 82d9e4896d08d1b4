import Mathlib.Tactic
import Mathlib.Data.Rat.Floor

/-!
# Rounding

The numbers of a binary floating point format with `p` bits, whose least positive number is
`2 ^ -q`, are the products of an integer of `p` bits and of a power of two. The largest exponent
is left out: nothing here overflows.

An operation is rounded to a nearest number of the format (`Rounding`); which one it is when two
are equally near is left open. Rounding is monotone and leaves the numbers of the format as they
are, and `Rounding.recombine_le_one` says that a sum of two rounded parts of a number up to 1 does
not exceed 1. `Rounding.toEven` is the rounding that takes the even one of two.
-/

namespace Rma.Base

/-- The numbers of the format. -/
def IsFloat (p q : Nat) (x : ℚ) : Prop :=
  ∃ (m : Int) (n : Nat), |m| ≤ 2 ^ p ∧ x * 2 ^ q = m * 2 ^ n

/-- Each number is rounded to one of those that are nearest to it. -/
structure Rounding (p q : Nat) where
  round : ℚ → ℚ
  isFloat : ∀ x, IsFloat p q (round x)
  nearest : ∀ x y, IsFloat p q y → |x - round x| ≤ |x - y|

/-- A rounding of the operations on `double`. -/
abbrev Double := Rounding 53 1074

section Numbers

variable {p q : Nat} {x : ℚ}

theorem isFloat_div_pow {m : Int} {k : Nat} (few : |m| ≤ 2 ^ p) (le : k ≤ q) :
    IsFloat p q (m / 2 ^ k) := by
  refine ⟨m, q - k, few, ?_⟩
  have split : (2 : ℚ) ^ q = 2 ^ (q - k) * 2 ^ k := by rw [← pow_add, Nat.sub_add_cancel le]
  rw [split]
  field_simp

/-- A number with `k` binary places. -/
theorem isFloat_of_places {m : Int} {k : Nat} (places : x * 2 ^ k = m) (few : |m| ≤ 2 ^ p)
    (le : k ≤ q) : IsFloat p q x := by
  have float := isFloat_div_pow few le
  rwa [← places, mul_div_cancel_right₀ x (by positivity)] at float

theorem isFloat_intCast {m : Int} (few : |m| ≤ 2 ^ p) : IsFloat p q m := by
  simpa using isFloat_div_pow (k := 0) few (Nat.zero_le q)

theorem isFloat_zero : IsFloat p q 0 := by
  simpa using @isFloat_intCast p q 0 (by simp)

theorem isFloat_one : IsFloat p q 1 := by
  simpa using @isFloat_intCast p q 1 (by simpa using one_le_pow₀ (by norm_num))

/-- Doubling moves the exponent. -/
theorem IsFloat.mul_pow (float : IsFloat p q x) (k : Nat) : IsFloat p q (x * 2 ^ k) := by
  rcases float with ⟨m, n, few, same⟩
  refine ⟨m, n + k, few, ?_⟩
  rw [pow_add]
  linear_combination 2 ^ k * same

/-- There is no number of the format between 1 and the next one. -/
theorem IsFloat.above_one (float : IsFloat p q x) (some : 1 ≤ p) (le : p ≤ q) (above : 1 < x) :
    1 + 2 / 2 ^ p ≤ x := by
  rcases float with ⟨m, n, few, same⟩
  have large : (2 : Int) ^ q < m * 2 ^ n := by
    have scaled : (2 : ℚ) ^ q < m * 2 ^ n := by
      rw [← same]
      exact lt_mul_of_one_lt_left (by positivity) above
    exact_mod_cast scaled
  have exponent : q < p + n := by
    have most : m * 2 ^ n ≤ 2 ^ (p + n) := by
      rw [pow_add]
      exact mul_le_mul_of_nonneg_right ((le_abs_self m).trans few) (by positivity)
    exact (pow_lt_pow_iff_right₀ (by norm_num)).mp (large.trans_le most)
  -- both are multiples of the least bit of the numbers above 1
  obtain ⟨d, bits⟩ : ∃ d, q = d + (p - 1) := ⟨q - (p - 1), by omega⟩
  obtain ⟨j, rfl⟩ : ∃ j, n = d + j := ⟨n - d, by omega⟩
  have next : (2 : Int) ^ (p - 1) + 1 ≤ m * 2 ^ j := by
    rw [bits, pow_add, pow_add, mul_left_comm] at large
    exact lt_of_mul_lt_mul_left large (by positivity)
  have nextRat : (2 : ℚ) ^ (p - 1) + 1 ≤ m * 2 ^ j := by exact_mod_cast next
  have value : x * 2 ^ (p - 1) = m * 2 ^ j := by
    have unit : (0 : ℚ) < 2 ^ d := by positivity
    apply mul_right_cancel₀ unit.ne'
    rw [bits, pow_add, pow_add] at same
    linear_combination same
  have double : (2 : ℚ) ^ p = 2 * 2 ^ (p - 1) := by
    rw [← pow_succ', Nat.sub_add_cancel some]
  have power : (0 : ℚ) < 2 ^ (p - 1) := by positivity
  rw [double, div_mul_eq_div_div, div_self two_ne_zero]
  apply le_of_mul_le_mul_right _ power
  rw [value, add_mul, one_mul, one_div, inv_mul_cancel₀ power.ne']
  exact nextRat

end Numbers

/-! ## The nearest integer -/

/-- The nearest integer, the even one of two. -/
def nearestEven (x : ℚ) : Int :=
  if Int.fract x < 1 / 2 then ⌊x⌋
  else if 1 / 2 < Int.fract x then ⌊x⌋ + 1
  else if ⌊x⌋ % 2 = 0 then ⌊x⌋
  else ⌊x⌋ + 1

theorem nearestEven_error (x : ℚ) : |x - nearestEven x| ≤ 1 / 2 := by
  have split := Int.floor_add_fract x
  have nonneg := Int.fract_nonneg x
  have below := Int.fract_lt_one x
  unfold nearestEven
  rw [abs_le]
  split_ifs with lower upper even
  · constructor <;> linarith
  · push_cast
    constructor <;> linarith
  · constructor <;> linarith
  · push_cast
    constructor <;> linarith

/-- No integer is nearer. -/
theorem nearestEven_nearest (x : ℚ) (k : Int) : |x - nearestEven x| ≤ |x - k| := by
  by_cases same : nearestEven x = k
  · rw [same]
  have error := nearestEven_error x
  have apart : (1 : ℚ) ≤ |(nearestEven x : ℚ) - k| := by
    have whole : 1 ≤ |nearestEven x - k| := Int.one_le_abs (sub_ne_zero.mpr same)
    exact_mod_cast whole
  have triangle := abs_sub_le (nearestEven x : ℚ) x k
  rw [abs_sub_comm (nearestEven x : ℚ) x] at triangle
  linarith

theorem abs_nearestEven_le {x : ℚ} {k : Int} (le : |x| ≤ k) : |nearestEven x| ≤ k := by
  have error := nearestEven_error x
  have triangle := abs_sub_abs_le_abs_sub (nearestEven x : ℚ) x
  rw [abs_sub_comm] at triangle
  have below : (|nearestEven x| : ℚ) < k + 1 := by linarith
  have cast : ((|nearestEven x| : Int) : ℚ) < ((k + 1 : Int) : ℚ) := by
    push_cast
    exact below
  exact Int.lt_add_one_iff.mp (by exact_mod_cast cast)

/-- The same on the multiples of a step. -/
theorem nearestEven_scaled (x : ℚ) {step : ℚ} (positive : 0 < step) (k : Int) :
    |x - nearestEven (x / step) * step| ≤ |x - k * step| := by
  have near := mul_le_mul_of_nonneg_right (nearestEven_nearest (x / step) k) positive.le
  have scale : ∀ z : ℚ, |x / step - z| * step = |x - z * step| := by
    intro z
    rw [← abs_of_pos positive, ← abs_mul, abs_of_pos positive, sub_mul,
      div_mul_cancel₀ _ positive.ne']
  rwa [scale, scale] at near

/-! ## Laws -/

namespace Rounding

variable {p q : Nat} (r : Rounding p q) {x y : ℚ}

/-- The numbers of the format are left as they are. -/
theorem round_of_isFloat (float : IsFloat p q x) : r.round x = x := by
  have near := r.nearest x x float
  rw [sub_self, abs_zero] at near
  have zero := abs_eq_zero.mp (le_antisymm near (abs_nonneg _))
  linarith

@[simp] theorem round_zero : r.round 0 = 0 := r.round_of_isFloat isFloat_zero

@[simp] theorem round_one : r.round 1 = 1 := r.round_of_isFloat isFloat_one

theorem monotone : Monotone r.round := by
  intro x y le
  rcases le.eq_or_lt with rfl | less
  · exact le_rfl
  by_contra swapped
  rw [not_le] at swapped
  -- each would be nearer to the other's number
  have left := r.nearest x (r.round y) (r.isFloat y)
  have right := r.nearest y (r.round x) (r.isFloat x)
  have apart : 0 < r.round x - r.round y := sub_pos.mpr swapped
  have left' : (r.round x - r.round y) * (r.round x + r.round y - 2 * x) ≤ 0 := by
    linarith [sq_le_sq.mpr left]
  have right' : (r.round x - r.round y) * (2 * y - r.round x - r.round y) ≤ 0 := by
    linarith [sq_le_sq.mpr right]
  have below := nonpos_of_mul_nonpos_right left' apart
  have above := nonpos_of_mul_nonpos_right right' apart
  linarith

theorem round_nonneg (nonneg : 0 ≤ x) : 0 ≤ r.round x := by
  rw [← r.round_zero]
  exact r.monotone nonneg

theorem round_le_one (le : x ≤ 1) : r.round x ≤ 1 := by
  rw [← r.round_one]
  exact r.monotone le

/-- Between 0 and 1 the error is at most half of the last place. -/
theorem error_le (le : p ≤ q) (nonneg : 0 ≤ x) (one : x ≤ 1) :
    |x - r.round x| ≤ 1 / 2 ^ (p + 1) := by
  have unit : (0 : ℚ) < 2 ^ p := by positivity
  have scaled : |x * 2 ^ p| ≤ ((2 ^ p : Int) : ℚ) := by
    rw [abs_of_nonneg (by positivity)]
    push_cast
    exact mul_le_of_le_one_left unit.le one
  have near := r.nearest x _ (isFloat_div_pow (abs_nearestEven_le scaled) le)
  have error := nearestEven_error (x * 2 ^ p)
  have apart : x - nearestEven (x * 2 ^ p) / 2 ^ p =
      (x * 2 ^ p - nearestEven (x * 2 ^ p)) / 2 ^ p := by
    field_simp
  rw [apart, abs_div, abs_of_pos unit] at near
  refine near.trans ?_
  rw [pow_succ, div_le_div_iff₀ unit (by positivity)]
  nlinarith

/-- A little above 1 is rounded to 1. -/
theorem round_near_one (some : 1 ≤ p) (le : p ≤ q) (near : x ≤ 1 + 1 / 2 ^ (p + 1)) :
    r.round x ≤ 1 := by
  by_contra above
  rw [not_le] at above
  have next := (r.isFloat x).above_one some le above
  have error := r.nearest x 1 isFloat_one
  have unit : (0 : ℚ) < 1 / 2 ^ (p + 1) := by positivity
  have double : (2 : ℚ) / 2 ^ p = 4 * (1 / 2 ^ (p + 1)) := by
    rw [pow_succ]
    field_simp
    norm_num
  by_cases below : x ≤ 1
  · exact absurd (r.round_le_one below) (not_le.mpr above)
  · rw [abs_of_nonneg (by linarith : 0 ≤ x - 1), abs_sub_comm, abs_of_nonneg (by linarith)] at error
    linarith

/-- A number up to 1 that is put together from two parts, the second one rounded, does not exceed
1 after rounding. -/
theorem recombine_le_one (some : 1 ≤ p) (le : p ≤ q) {a b : ℚ} (nonneg : 0 ≤ a) (order : a ≤ b)
    (one : b ≤ 1) : r.round (a + r.round (b - a)) ≤ 1 := by
  apply r.round_near_one some le
  have error := r.error_le le (x := b - a) (by linarith) (by linarith)
  have bounds := abs_le.mp error
  linarith [bounds.1]

end Rounding

/-! ## Ties to even -/

/-- The place of the last of `p` bits, counted from the least one of the format. -/
def lastPlace (p q : Nat) (x : ℚ) : Nat := Nat.log 2 ⌊|x * 2 ^ q|⌋₊ + 1 - p

/-- Round to the nearest number, and to the even one of two. -/
def roundToEven (p q : Nat) (x : ℚ) : ℚ :=
  let step := 2 ^ lastPlace p q x
  nearestEven (x * 2 ^ q / step) * step / 2 ^ q

section ToEven

variable {p q : Nat}

theorem roundToEven_mul (x : ℚ) : roundToEven p q x * 2 ^ q =
    nearestEven (x * 2 ^ q / 2 ^ lastPlace p q x) * 2 ^ lastPlace p q x :=
  div_mul_cancel₀ _ (by positivity)

theorem roundToEven_isFloat (x : ℚ) : IsFloat p q (roundToEven p q x) := by
  refine ⟨nearestEven (x * 2 ^ q / 2 ^ lastPlace p q x), lastPlace p q x, ?_, roundToEven_mul x⟩
  apply abs_nearestEven_le
  have step : (0 : ℚ) < 2 ^ lastPlace p q x := by positivity
  rw [abs_div, abs_of_pos step, div_le_iff₀ step]
  have below : |x * 2 ^ q| < ⌊|x * 2 ^ q|⌋₊ + 1 := Nat.lt_floor_add_one _
  have power : ⌊|x * 2 ^ q|⌋₊ + 1 ≤ 2 ^ (p + lastPlace p q x) :=
    (Nat.lt_pow_succ_log_self (by decide) _).trans_le
      (Nat.pow_le_pow_right (by decide) (by unfold lastPlace; omega))
  have powerRat : ((⌊|x * 2 ^ q|⌋₊ + 1 : Nat) : ℚ) ≤ ((2 ^ (p + lastPlace p q x) : Nat) : ℚ) :=
    Nat.cast_le.mpr power
  push_cast at powerRat ⊢
  rw [pow_add] at powerRat
  linarith

theorem roundToEven_nearest (some : 1 ≤ p) (x y : ℚ) (float : IsFloat p q y) :
    |x - roundToEven p q x| ≤ |x - y| := by
  rcases float with ⟨m, n, few, same⟩
  have unit : (0 : ℚ) < 2 ^ q := by positivity
  have step : (0 : ℚ) < 2 ^ lastPlace p q x := by positivity
  -- compare the multiples of the least number of the format
  apply le_of_mul_le_mul_right _ unit
  have scale : ∀ z : ℚ, |x - z| * 2 ^ q = |x * 2 ^ q - z * 2 ^ q| := by
    intro z
    rw [← sub_mul, abs_mul, abs_of_pos unit]
  rw [scale, scale, roundToEven_mul, same]
  have nearest := nearestEven_scaled (x * 2 ^ q) step
  by_cases coarse : lastPlace p q x ≤ n
  · obtain ⟨k, rfl⟩ := Nat.exists_eq_add_of_le coarse
    have multiple := nearest (m * 2 ^ k)
    push_cast at multiple
    rwa [mul_assoc, ← pow_add, Nat.add_comm k] at multiple
  · -- numbers with smaller places are all nearer to 0
    have place : lastPlace p q x + (p - 1) = Nat.log 2 ⌊|x * 2 ^ q|⌋₊ := by
      unfold lastPlace at *
      omega
    have least : (2 : ℚ) ^ (lastPlace p q x + (p - 1)) ≤ |x * 2 ^ q| := by
      have positive : ⌊|x * 2 ^ q|⌋₊ ≠ 0 := by
        intro zero
        rw [zero, Nat.log_zero_right] at place
        omega
      have power := Nat.pow_log_le_self 2 positive
      rw [← place] at power
      exact (by exact_mod_cast power :
        (2 : ℚ) ^ (lastPlace p q x + (p - 1)) ≤ ⌊|x * 2 ^ q|⌋₊).trans
          (Nat.floor_le (abs_nonneg _))
    have most : |(m : ℚ) * 2 ^ n| ≤ 2 ^ (lastPlace p q x + (p - 1)) := by
      rw [abs_mul, abs_of_pos (by positivity : (0 : ℚ) < 2 ^ n)]
      have fewRat : |(m : ℚ)| ≤ 2 ^ p := by exact_mod_cast few
      calc |(m : ℚ)| * 2 ^ n ≤ 2 ^ p * 2 ^ n :=
            mul_le_mul_of_nonneg_right fewRat (by positivity)
        _ = 2 ^ (p + n) := (pow_add _ _ _).symm
        _ ≤ 2 ^ (lastPlace p q x + (p - 1)) := pow_le_pow_right₀ (by norm_num) (by omega)
    have apart := abs_sub_abs_le_abs_sub (x * 2 ^ q) (m * 2 ^ n)
    rcases le_total 0 (x * 2 ^ q) with positive | negative
    · have edge := nearest (2 ^ (p - 1))
      push_cast at edge
      rw [← pow_add, Nat.add_comm (p - 1)] at edge
      rw [abs_of_nonneg positive] at least apart
      rw [abs_of_nonneg (sub_nonneg.mpr least)] at edge
      linarith
    · have edge := nearest (-2 ^ (p - 1))
      push_cast at edge
      rw [neg_mul, ← pow_add, Nat.add_comm (p - 1), sub_neg_eq_add] at edge
      rw [abs_of_nonpos negative] at least apart
      rw [abs_of_nonpos (show x * 2 ^ q + 2 ^ (lastPlace p q x + (p - 1)) ≤ 0 by linarith)] at edge
      linarith

end ToEven

/-- The rounding that IEEE arithmetic takes by default. -/
def Rounding.toEven (p q : Nat) (some : 1 ≤ p) : Rounding p q where
  round := roundToEven p q
  isFloat := roundToEven_isFloat
  nearest := roundToEven_nearest some

/-- The numbers of `double`. -/
abbrev IsDouble (x : ℚ) : Prop := IsFloat 53 1074 x

/-- The rounding of `double`. -/
def double : Double := Rounding.toEven 53 1074 (by decide)

end Rma.Base
