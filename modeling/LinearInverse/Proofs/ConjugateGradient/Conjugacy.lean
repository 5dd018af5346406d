import Mathlib.Analysis.InnerProductSpace.Positive
import Mathlib.LinearAlgebra.FiniteDimensional.Lemmas

namespace LinearInverse.ConjugateGradient
open Submodule

variable {E : Type*} [NormedAddCommGroup E] [InnerProductSpace ℝ E]
variable {B : E →ₗ[ℝ] E} {b x r p : E} {K : Submodule ℝ E}

/-- Iterate, residual and direction of a run on `B x = b`. `K` is spanned by the directions of the
steps before. -/
structure Conjugate (B : E →ₗ[ℝ] E) (b x r p : E) (K : Submodule ℝ E) : Prop where
  residual_eq : r = B x - b
  residual_perp : ∀ v ∈ K, inner ℝ r v = 0
  image_perp : ∀ v ∈ K, inner ℝ (B p) v = 0
  /-- Directions are mapped to combinations of residuals, the current one included. -/
  image_mem : ∀ v ∈ K, B v ∈ K ⊔ ℝ ∙ r
  sum_mem : r + p ∈ K

/-- Where the form of a positive map vanishes, the map does. -/
theorem map_eq_zero_of_inner_eq_zero (hB : B.IsPositive) (h : inner ℝ p (B p) = 0) :
    B p = 0 := by
  have hq : 0 ≤ inner ℝ (B p) (B (B p)) := by simpa using hB.inner_nonneg_right (B p)
  have hline (t : ℝ) : 0 ≤ t ^ 2 * inner ℝ (B p) (B (B p)) - 2 * t * inner ℝ (B p) (B p) := by
    have hsymm : inner ℝ p (B (B p)) = inner ℝ (B p) (B p) := (hB.isSymmetric p (B p)).symm
    have hpos : 0 ≤ inner ℝ (p - t • B p) (B (p - t • B p)) := by
      simpa using hB.inner_nonneg_right (p - t • B p)
    simp only [map_sub,map_smul,inner_sub_left,inner_sub_right,inner_smul_left,inner_smul_right,
      h,hsymm,RCLike.conj_to_real] at hpos
    linarith
  have hzero : inner ℝ (B p) (B p) = 0 := by
    generalize inner ℝ (B p) (B (B p)) = q at hq hline
    have hc : 0 ≤ inner ℝ (B p) (B p) := real_inner_self_nonneg
    generalize inner ℝ (B p) (B p) = c at hc hline
    -- The parabola `q t² - 2 c t` dips below zero at `c / (q + 1)` unless `c` is zero.
    have := hline (c / (q + 1))
    field_simp at this
    nlinarith
  exact inner_self_eq_zero.mp hzero

/-- Orthogonality to one more direction. -/
theorem inner_eq_zero_of_mem_sup {u v : E} (hK : ∀ w ∈ K, inner ℝ u w = 0)
    (hp : inner ℝ u p = 0) (hv : v ∈ K ⊔ ℝ ∙ p) : inner ℝ u v = 0 := by
  obtain ⟨w,hw,_,hs,rfl⟩ := mem_sup.mp hv
  obtain ⟨t,rfl⟩ := mem_span_singleton.mp hs
  rw [inner_add_right,inner_smul_right,hK w hw,hp,mul_zero,add_zero]

namespace Conjugate

/-- Before the first step there are no directions. -/
theorem start (x : E) : Conjugate B b x (B x - b) (-(B x - b)) ⊥ where
  residual_eq := rfl
  residual_perp v hv := by simp [(mem_bot ℝ).mp hv]
  image_perp v hv := by simp [(mem_bot ℝ).mp hv]
  image_mem v hv := by simp [(mem_bot ℝ).mp hv]
  sum_mem := by simp

theorem inner_residual_direction (h : Conjugate B b x r p K) : inner ℝ r p = -inner ℝ r r := by
  have := h.residual_perp _ h.sum_mem
  rw [inner_add_right] at this
  linarith

/-- A direction after a zero residual would be conjugate to itself. -/
theorem residual_ne_zero (h : Conjugate B b x r p K) (hp : inner ℝ p (B p) ≠ 0) : r ≠ 0 := by
  rintro rfl
  have hpK : p ∈ K := by simpa using h.sum_mem
  exact hp ((real_inner_comm (B p) p).trans (h.image_perp p hpK))

/-- Where the denominator vanishes, the iterate solves the system or nothing does. -/
theorem residual_eq_zero_iff (h : Conjugate B b x r p K) (hB : B.IsPositive)
    (hp : inner ℝ p (B p) = 0) : r = 0 ↔ b ∈ LinearMap.range B := by
  constructor
  · intro hr
    exact ⟨x,sub_eq_zero.mp (h.residual_eq.symm.trans hr)⟩
  · rintro ⟨q,rfl⟩
    have hrp : inner ℝ r p = 0 := by
      rw [h.residual_eq,← map_sub,hB.isSymmetric (x - q) p,map_eq_zero_of_inner_eq_zero hB hp,
        inner_zero_right]
    rw [h.inner_residual_direction,neg_eq_zero] at hrp
    exact inner_self_eq_zero.mp hrp

theorem curvature_pos (h : Conjugate B b x r p K) (hB : B.IsPositive)
    (hb : b ∈ LinearMap.range B) (hr : r ≠ 0) : 0 < inner ℝ p (B p) := by
  refine lt_of_le_of_ne (by simpa using hB.inner_nonneg_right p) fun hp => hr ?_
  exact (h.residual_eq_zero_iff hB hp.symm).mpr hb

/-- The new direction leaves the space of the old ones. -/
theorem direction_not_mem (h : Conjugate B b x r p K) (hr : r ≠ 0) : p ∉ K := by
  intro hp
  have hrK : r ∈ K := by
    have := sub_mem h.sum_mem hp
    rwa [add_sub_cancel_right] at this
  exact hr (inner_self_eq_zero.mp (h.residual_perp r hrK))

/-- The residual is a combination of the directions, the current one included. -/
theorem residual_mem_sup (h : Conjugate B b x r p K) : r ∈ K ⊔ ℝ ∙ p := by
  have := sub_mem (mem_sup_left (T := ℝ ∙ p) h.sum_mem)
    (mem_sup_right (mem_span_singleton_self p))
  rwa [add_sub_cancel_right] at this

theorem sup_residual_le (h : Conjugate B b x r p K) : K ⊔ ℝ ∙ r ≤ K ⊔ ℝ ∙ p :=
  sup_le le_sup_left ((span_singleton_le_iff_mem r _).mpr h.residual_mem_sup)

variable {a c : ℝ} {r' : E}

/-- The step length is the one that makes the new residual orthogonal to the direction taken. -/
theorem residual_perp_step (h : Conjugate B b x r p K) (hp : inner ℝ p (B p) ≠ 0)
    (ha : a = inner ℝ r r / inner ℝ p (B p)) (hr' : r' = r + a • B p) :
    ∀ v ∈ K ⊔ ℝ ∙ p, inner ℝ r' v = 0 := by
  intro v hv
  refine inner_eq_zero_of_mem_sup (fun w hw => ?_) ?_ hv
  · rw [hr',inner_add_left,inner_smul_left,h.residual_perp w hw,h.image_perp w hw]
    simp
  · rw [hr',inner_add_left,inner_smul_left,h.inner_residual_direction,real_inner_comm p (B p),ha]
    simp only [RCLike.conj_to_real]
    field_simp
    ring

/-- The weight of the old direction is the one that makes the new one conjugate to it. -/
theorem image_perp_step (h : Conjugate B b x r p K) (hB : B.IsPositive)
    (hp : inner ℝ p (B p) ≠ 0) (hr : inner ℝ r r ≠ 0) (ha : a = inner ℝ r r / inner ℝ p (B p))
    (hr' : r' = r + a • B p) (hc : c = inner ℝ r' r' / inner ℝ r r) :
    ∀ v ∈ K ⊔ ℝ ∙ p, inner ℝ (B (-r' + c • p)) v = 0 := by
  intro v hv
  have hperp := h.residual_perp_step hp ha hr'
  have hBp : a • B p = r' - r := by rw [hr',add_sub_cancel_left]
  have hr'B : a * inner ℝ r' (B p) = inner ℝ r' r' := by
    rw [← inner_smul_right,hBp,inner_sub_right,hperp r h.residual_mem_sup,sub_zero]
  refine inner_eq_zero_of_mem_sup (fun w hw => ?_) ?_ hv <;>
    rw [hB.isSymmetric,inner_add_left,inner_neg_left,inner_smul_left]
  · rw [hperp _ (h.sup_residual_le (h.image_mem w hw)),← hB.isSymmetric p w,h.image_perp w hw]
    simp
  · rw [hc,← hr'B,ha]
    simp only [RCLike.conj_to_real]
    field_simp
    ring

/-- One step of the recursion, with step length and weight as conjugate gradient takes them. -/
theorem step (h : Conjugate B b x r p K) (hB : B.IsPositive) (hp : inner ℝ p (B p) ≠ 0)
    (ha : a = inner ℝ r r / inner ℝ p (B p)) (hr' : r' = r + a • B p)
    (hc : c = inner ℝ r' r' / inner ℝ r r) :
    Conjugate B b (x + a • p) r' (-r' + c • p) (K ⊔ ℝ ∙ p) := by
  have hrr : inner ℝ r r ≠ 0 := inner_self_ne_zero.mpr (h.residual_ne_zero hp)
  have ha0 : a ≠ 0 := by rw [ha]; exact div_ne_zero hrr hp
  have hBp : B p = a⁻¹ • (r' - r) := by
    rw [hr',add_sub_cancel_left,smul_smul,inv_mul_cancel₀ ha0,one_smul]
  refine ⟨?_,h.residual_perp_step hp ha hr',h.image_perp_step hB hp hrr ha hr' hc,?_,?_⟩
  · rw [hr',h.residual_eq,map_add,map_smul]
    abel
  · intro v hv
    obtain ⟨w,hw,_,hs,rfl⟩ := mem_sup.mp hv
    obtain ⟨t,rfl⟩ := mem_span_singleton.mp hs
    rw [map_add,map_smul,hBp]
    have hw' := mem_sup_left (T := ℝ ∙ r') (h.sup_residual_le (h.image_mem w hw))
    have hd := sub_mem (mem_sup_right (mem_span_singleton_self r'))
      (mem_sup_left (T := ℝ ∙ r') h.residual_mem_sup)
    exact add_mem hw' (smul_mem _ t (smul_mem _ _ hd))
  · rw [add_neg_cancel_left]
    exact smul_mem _ c (mem_sup_right (mem_span_singleton_self p))

variable [FiniteDimensional ℝ E]

/-- Each step before the residual vanishes takes up a dimension. -/
theorem finrank_lt_step (h : Conjugate B b x r p K) (hr : r ≠ 0) :
    Module.finrank ℝ K < Module.finrank ℝ ↥(K ⊔ ℝ ∙ p) := by
  refine finrank_lt_finrank_of_lt (lt_of_le_of_ne le_sup_left fun he => ?_)
  apply h.direction_not_mem hr
  rw [he]
  exact mem_sup_right (mem_span_singleton_self p)

/-- When the directions fill the space, the residual is zero. -/
theorem residual_eq_zero (h : Conjugate B b x r p K)
    (hK : Module.finrank ℝ E ≤ Module.finrank ℝ K) : r = 0 := by
  have htop : K = ⊤ := eq_top_of_finrank_eq (le_antisymm (finrank_le K) hK)
  exact inner_self_eq_zero.mp (h.residual_perp r (htop ▸ mem_top))

end Conjugate

end LinearInverse.ConjugateGradient
