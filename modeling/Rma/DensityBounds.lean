import Rma.Base.Rounding

/-!
# Density bounds

`DensityBounds` holds the four thresholds of the calibrator tree: the lower and upper
densities of the leaves, at height 1, and those of the root. Between the two they are
interpolated linearly, every operation being rounded. The constructor accepts the
thresholds that are in order, which the fields record.
-/

namespace Rma

open Base

/-- The thresholds that the constructor accepts, and the rounding of the operations on them. -/
structure DensityBounds where
  rounding : Double
  rho0 : ℚ
  rhoH : ℚ
  thetaH : ℚ
  theta0 : ℚ
  doubles : IsDouble rho0 ∧ IsDouble rhoH ∧ IsDouble thetaH ∧ IsDouble theta0
  rho0_nonneg : 0 ≤ rho0
  rho0_lt : rho0 < rhoH
  rhoH_le : rhoH ≤ thetaH
  thetaH_lt : thetaH < theta0
  theta0_le : theta0 ≤ 1

namespace DensityBounds

/-- `thresholds(tree_height, current_height)`: the lower and the upper density. -/
def thresholds (d : DensityBounds) (treeHeight currentHeight : Nat) : ℚ × ℚ :=
  if treeHeight = 1 then (d.rho0, d.theta0) -- avoid dividing by 0
  else
    let round := d.rounding.round
    let scale := round (((treeHeight : ℚ) - currentHeight) / ((treeHeight : ℚ) - 1))
    let deltaR := round (d.rhoH - d.rho0)
    let deltaT := round (d.theta0 - d.thetaH)
    (round (d.rhoH - round (deltaR * scale)), round (d.thetaH + round (deltaT * scale)))

variable (d : DensityBounds) {treeHeight height : Nat}

theorem thresholds_isDouble (treeHeight height : Nat) :
    IsDouble (d.thresholds treeHeight height).1 ∧ IsDouble (d.thresholds treeHeight height).2 := by
  unfold thresholds
  split
  · exact ⟨d.doubles.1, d.doubles.2.2.2⟩
  · exact ⟨d.rounding.isFloat _, d.rounding.isFloat _⟩

/-- Between the leaves and the root the scale is between 0 and 1. -/
theorem scale_bounds (several : 1 < treeHeight) (leaf : 1 ≤ height) (root : height ≤ treeHeight) :
    0 ≤ d.rounding.round (((treeHeight : ℚ) - height) / ((treeHeight : ℚ) - 1)) ∧
      d.rounding.round (((treeHeight : ℚ) - height) / ((treeHeight : ℚ) - 1)) ≤ 1 := by
  have positive : (0 : ℚ) < (treeHeight : ℚ) - 1 := by
    have above : (1 : ℚ) < treeHeight := by exact_mod_cast several
    linarith
  have below : (height : ℚ) ≤ treeHeight := by exact_mod_cast root
  have least : (1 : ℚ) ≤ height := by exact_mod_cast leaf
  constructor
  · exact d.rounding.round_nonneg (div_nonneg (by linarith) positive.le)
  · apply d.rounding.round_le_one
    rw [div_le_one positive]
    linarith

/-- The difference of the upper densities is not negative. -/
theorem deltaT_nonneg : 0 ≤ d.rounding.round (d.theta0 - d.thetaH) :=
  d.rounding.round_nonneg (sub_nonneg.mpr d.thetaH_lt.le)

/-- The upper densities are at least that of the root. -/
theorem le_theta (leaf : 1 ≤ height) (root : height ≤ treeHeight) :
    d.thetaH ≤ (d.thresholds treeHeight height).2 := by
  unfold thresholds
  split
  · exact d.thetaH_lt.le
  · next several =>
    have scale := (d.scale_bounds (by omega) leaf root).1
    have part := d.rounding.round_nonneg (mul_nonneg d.deltaT_nonneg scale)
    have sum := d.rounding.monotone (le_add_of_nonneg_right part : d.thetaH ≤ d.thetaH + _)
    rwa [d.rounding.round_of_isFloat d.doubles.2.2.1] at sum

/-- The upper densities do not exceed 1. -/
theorem theta_le_one (leaf : 1 ≤ height) (root : height ≤ treeHeight) :
    (d.thresholds treeHeight height).2 ≤ 1 := by
  unfold thresholds
  split
  · exact d.theta0_le
  · next several =>
    have scale := (d.scale_bounds (by omega) leaf root).2
    have part := d.rounding.monotone (mul_le_of_le_one_right d.deltaT_nonneg scale)
    rw [d.rounding.round_of_isFloat (d.rounding.isFloat _)] at part
    have nonneg : 0 ≤ d.thetaH :=
      d.rho0_nonneg.trans (d.rho0_lt.le.trans d.rhoH_le)
    exact (d.rounding.monotone (add_le_add_right part d.thetaH)).trans
      (d.rounding.recombine_le_one (by decide) (by decide) nonneg d.thetaH_lt.le d.theta0_le)

/-! ## Some thresholds -/

/-- The hardwired thresholds `m_density_bounds1` of the packed memory array. -/
def primary (rounding : Double) : DensityBounds where
  rounding := rounding
  rho0 := 0
  rhoH := 3 / 4
  thetaH := 3 / 4
  theta0 := 1
  doubles := ⟨isFloat_zero,
    isFloat_of_places (m := 3) (k := 2) (by norm_num) (by decide) (by decide),
    isFloat_of_places (m := 3) (k := 2) (by norm_num) (by decide) (by decide), isFloat_one⟩
  rho0_nonneg := le_refl 0
  rho0_lt := by norm_num
  rhoH_le := by norm_num
  thetaH_lt := by norm_num
  theta0_le := le_refl 1

/-- Thresholds far apart. -/
def wide : DensityBounds where
  rounding := double
  rho0 := 0
  rhoH := 1 / 4
  thetaH := 255 / 256
  theta0 := 1
  doubles := ⟨isFloat_zero,
    isFloat_of_places (m := 1) (k := 2) (by norm_num) (by decide) (by decide),
    isFloat_of_places (m := 255) (k := 8) (by norm_num) (by decide) (by decide), isFloat_one⟩
  rho0_nonneg := le_refl 0
  rho0_lt := by norm_num
  rhoH_le := by norm_num
  thetaH_lt := by norm_num
  theta0_le := le_refl 1

/-- Thresholds that meet `2 * rho_h < theta_h`, the upper ones close to each other. -/
def moderate : DensityBounds where
  rounding := double
  rho0 := 1 / 8
  rhoH := 3 / 8
  thetaH := 61 / 64
  theta0 := 123 / 128
  doubles := ⟨isFloat_of_places (m := 1) (k := 3) (by norm_num) (by decide) (by decide),
    isFloat_of_places (m := 3) (k := 3) (by norm_num) (by decide) (by decide),
    isFloat_of_places (m := 61) (k := 6) (by norm_num) (by decide) (by decide),
    isFloat_of_places (m := 123) (k := 7) (by norm_num) (by decide) (by decide)⟩
  rho0_nonneg := by norm_num
  rho0_lt := by norm_num
  rhoH_le := by norm_num
  thetaH_lt := by norm_num
  theta0_le := by norm_num

/-- Thresholds that do not meet `2 * rho_h < theta_h`. -/
def tight : DensityBounds where
  rounding := double
  rho0 := 1 / 2
  rhoH := 7 / 8
  thetaH := 15 / 16
  theta0 := 1
  doubles := ⟨isFloat_of_places (m := 1) (k := 1) (by norm_num) (by decide) (by decide),
    isFloat_of_places (m := 7) (k := 3) (by norm_num) (by decide) (by decide),
    isFloat_of_places (m := 15) (k := 4) (by norm_num) (by decide) (by decide), isFloat_one⟩
  rho0_nonneg := by norm_num
  rho0_lt := by norm_num
  rhoH_le := by norm_num
  thetaH_lt := by norm_num
  theta0_le := le_refl 1

/-- Thresholds far enough apart for the truncation at every height. -/
def mild : DensityBounds where
  rounding := double
  rho0 := 1 / 8
  rhoH := 3 / 8
  thetaH := 3 / 4
  theta0 := 1
  doubles := ⟨isFloat_of_places (m := 1) (k := 3) (by norm_num) (by decide) (by decide),
    isFloat_of_places (m := 3) (k := 3) (by norm_num) (by decide) (by decide),
    isFloat_of_places (m := 3) (k := 2) (by norm_num) (by decide) (by decide), isFloat_one⟩
  rho0_nonneg := by norm_num
  rho0_lt := by norm_num
  rhoH_le := by norm_num
  thetaH_lt := by norm_num
  theta0_le := le_refl 1

end DensityBounds

end Rma
