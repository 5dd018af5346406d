import LinearInverse.Proofs.ComplexSpace
import LinearInverse.Proofs.Prox.Minimisers
import Mathlib.Analysis.Convex.Function

namespace LinearInverse
variable {m n : Nat} {mu : ℝ}

namespace Penalty
variable {g : Penalty m} {v y : Space m}

/-- No point costs less than `y`, where the cost of `x` is `g(x) + ‖x - v‖² / (2μ)`. -/
structure Attained (g : Penalty m) (mu : ℝ) (v y : Space m) : Prop where
  mem : y ∈ g.domain
  cost_le : ∀ x ∈ g.domain,
    g.value y + ‖y - v‖ ^ 2 / (2 * mu) ≤ g.value x + ‖x - v‖ ^ 2 / (2 * mu)

theorem Minimiser.attained (h : g.Minimiser mu v y) : g.Attained mu v y := by
  refine ⟨h.mem,fun x hx => ?_⟩
  by_cases hxy : x = y
  · rw [hxy]
  · exact (h.cost_lt x hx hxy).le

/-- A part `t` of the way from `y` to `x` is no cheaper than `y`. -/
theorem Attained.inner_le_add (h : g.Attained mu v y) (hg : ConvexOn ℝ g.domain g.value)
    (hmu : 0 < mu) {x : Space m} (hx : x ∈ g.domain) {t : ℝ} (ht : 0 < t) (ht1 : t ≤ 1) :
    inner ℝ (v - y) (x - y) ≤ mu * (g.value x - g.value y) + t * (‖x - y‖ ^ 2 / 2) := by
  have hrest : 0 ≤ 1 - t := sub_nonneg.mpr ht1
  have hpoint : (1 - t) • y + t • x = y + t • (x - y) := by
    rw [sub_smul,one_smul,smul_sub]
    abel
  have hmem := hg.1 h.mem hx hrest ht.le (sub_add_cancel 1 t)
  have hvalue := hg.2 h.mem hx hrest ht.le (sub_add_cancel 1 t)
  have hcost := h.cost_le _ hmem
  rw [hpoint] at hvalue hcost
  have hnorm : ‖y + t • (x - y) - v‖ ^ 2 =
      ‖y - v‖ ^ 2 - 2 * (t * inner ℝ (v - y) (x - y)) + t ^ 2 * ‖x - y‖ ^ 2 := by
    rw [add_sub_right_comm,norm_add_sq_real,real_inner_smul_right,norm_smul,mul_pow,
      Real.norm_eq_abs,sq_abs,← neg_sub v y,inner_neg_left,norm_neg]
    ring
  rw [hnorm] at hcost
  have hslope : (2 * (t * inner ℝ (v - y) (x - y)) - t ^ 2 * ‖x - y‖ ^ 2) / (2 * mu) ≤
      t * (g.value x - g.value y) := by
    rw [smul_eq_mul,smul_eq_mul] at hvalue
    have hsplit : (‖y - v‖ ^ 2 - 2 * (t * inner ℝ (v - y) (x - y)) + t ^ 2 * ‖x - y‖ ^ 2) /
        (2 * mu) = ‖y - v‖ ^ 2 / (2 * mu) -
          (2 * (t * inner ℝ (v - y) (x - y)) - t ^ 2 * ‖x - y‖ ^ 2) / (2 * mu) := by
      ring
    linarith
  rw [div_le_iff₀ (mul_pos two_pos hmu)] at hslope
  refine le_of_mul_le_mul_left ?_ ht
  linarith

theorem Attained.balanced (h : g.Attained mu v y) (hg : ConvexOn ℝ g.domain g.value)
    (hmu : 0 < mu) : g.Balanced mu v y := by
  refine ⟨h.mem,fun x hx => le_of_not_gt fun hlt => ?_⟩
  -- So short a part of the way that the square of its length does not make up for the slope.
  have hgap := sub_pos.mpr hlt
  set gap := inner ℝ (v - y) (x - y) - mu * (g.value x - g.value y)
  have hhalf : 0 ≤ ‖x - y‖ ^ 2 / 2 := by positivity
  have hsum : 0 < gap + ‖x - y‖ ^ 2 / 2 := add_pos_of_pos_of_nonneg hgap hhalf
  have hle := h.inner_le_add hg hmu hx (div_pos hgap hsum)
    (div_le_one_of_le₀ (le_add_of_nonneg_right hhalf) hsum.le)
  have hlt' : gap / (gap + ‖x - y‖ ^ 2 / 2) * (‖x - y‖ ^ 2 / 2) < gap := by
    rw [div_mul_eq_mul_div,div_lt_iff₀ hsum]
    exact mul_lt_mul_of_pos_left (lt_add_of_pos_left _ hgap) hgap
  exact absurd (sub_le_iff_le_add'.mpr hle) (not_le.mpr hlt')

end Penalty

namespace ProxOperator
open Penalty

/-- The map with step `mu` answers with points that cost least. -/
def Attains (p : ProxOperator ℝ) (g : Penalty m) (mu : ℝ) : Prop :=
  ∀ (dst : List ℝ) (v : Space m), dst.length = m →
    ∃ y, p.apply mu dst (coords v) = .ok (coords y) ∧ g.Attained mu v y

theorem Minimises.attains {p : ProxOperator ℝ} {g : Penalty m} (h : p.Minimises g mu) :
    p.Attains g mu := by
  intro dst v hdst
  obtain ⟨y,hy,hmin⟩ := h dst v hdst
  exact ⟨y,hy,hmin.attained⟩

theorem Attains.balances {p : ProxOperator ℝ} {g : Penalty m} (h : p.Attains g mu)
    (hg : ConvexOn ℝ g.domain g.value) (hmu : 0 < mu) : p.Balances g mu := by
  intro dst v hdst
  obtain ⟨y,hy,hattained⟩ := h dst v hdst
  exact ⟨y,hy,hattained.balanced hg hmu⟩

theorem magnitude_element (x : Space (2 * n)) (j : Fin n) :
    (element x j).magnitude = ‖joined x j‖ :=
  (Cplx.magnitude_eq _).trans (Complex.norm_eq_sqrt_sq_add_sq (joined x j)).symm

theorem convexOn_magnitudes {w : ℝ} (hw : 0 ≤ w) (n : Nat) :
    ConvexOn ℝ (magnitudes w n).domain (magnitudes w n).value := by
  refine ⟨convex_univ,fun x _ y _ a c ha hc _ => ?_⟩
  have helement (j : Fin n) : (element (a • x + c • y) j).magnitude ≤
      a * (element x j).magnitude + c * (element y j).magnitude := by
    rw [magnitude_element,magnitude_element,magnitude_element,joined_add,joined_smul,joined_smul]
    calc ‖(a : ℂ) * joined x j + (c : ℂ) * joined y j‖
        ≤ ‖(a : ℂ) * joined x j‖ + ‖(c : ℂ) * joined y j‖ := norm_add_le _ _
      _ = a * ‖joined x j‖ + c * ‖joined y j‖ := by
          rw [norm_mul,norm_mul,Complex.norm_of_nonneg ha,Complex.norm_of_nonneg hc]
  calc w * ∑ j, (element (a • x + c • y) j).magnitude
      ≤ w * ∑ j, (a * (element x j).magnitude + c * (element y j).magnitude) := by
        gcongr with j
        exact helement j
    _ = a * (w * ∑ j, (element x j).magnitude) + c * (w * ∑ j, (element y j).magnitude) := by
        rw [Finset.sum_add_distrib,← Finset.mul_sum,← Finset.mul_sum]
        ring

end ProxOperator

end LinearInverse
