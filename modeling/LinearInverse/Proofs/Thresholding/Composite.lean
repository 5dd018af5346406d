import Mathlib
import LinearInverse.Proofs.Caps
import LinearInverse.Proofs.ConjugateGradient.Energy
import LinearInverse.Proofs.Prox.Convex
import LinearInverse.Proofs.Thresholding.Recursion

namespace LinearInverse.Thresholding
open ConjugateGradient

variable {n : Nat} {t : Task ℝ} {A : Space n →ₗ[ℝ] Space n} {b : Space n} {g : Penalty n}
  {tau : ℝ} {q y z : Space n}

/-- What the iterations make small. -/
noncomputable def cost (A : Space n →ₗ[ℝ] Space n) (b : Space n) (g : Penalty n) (x : Space n) :
    ℝ :=
  energy A b x + g.value x

/-- The energy lies above its tangents. -/
theorem energy_add_inner_le (hA : A.IsPositive) (b y z : Space n) :
    energy A b y + inner ℝ (A y - b) (z - y) ≤ energy A b z := by
  have htaylor := energy_add_smul hA.isSymmetric b y (z - y) 1
  have hcurve : 0 ≤ inner ℝ (z - y) (A (z - y)) := hA.inner_nonneg_right (z - y)
  rw [one_smul,add_sub_cancel] at htaylor
  rw [htaylor]
  linarith

theorem inner_sub_eq (q y z : Space n) :
    2 * inner ℝ (y - q) (z - q) = ‖y - q‖ ^ 2 + ‖q - z‖ ^ 2 - ‖y - z‖ ^ 2 := by
  rw [← sub_sub_sub_cancel_right y z q,norm_sub_sq_real (y - q),norm_sub_rev q z]
  ring

/-- After a step of size `tau` from `y` to `q`, the cost at `q` exceeds that at `z` by no more than
the step brought the iterate closer to `z`, as long as the step was not too long. -/
theorem cost_sub_le (hA : A.IsPositive) (hq : g.Balanced tau (y + tau • (b - A y)) q)
    (htau : 0 ≤ tau) (hz : z ∈ g.domain) :
    2 * tau * (cost A b g q - cost A b g z) ≤ ‖y - z‖ ^ 2 - ‖q - z‖ ^ 2 -
      (‖q - y‖ ^ 2 - tau * inner ℝ (q - y) (A (q - y))) := by
  have henergy : energy A b q - energy A b z ≤
      inner ℝ (A y - b) (q - z) + inner ℝ (q - y) (A (q - y)) / 2 := by
    have htaylor := energy_add_smul hA.isSymmetric b y (q - y) 1
    rw [one_smul,add_sub_cancel] at htaylor
    have htangent := energy_add_inner_le hA b y z
    have hsplit : inner ℝ (A y - b) (q - z) =
        inner ℝ (A y - b) (q - y) - inner ℝ (A y - b) (z - y) := by
      rw [← inner_sub_right,sub_sub_sub_cancel_right]
    linarith
  have hvalue : tau * (g.value q - g.value z) ≤
      -inner ℝ (y - q) (z - q) - tau * inner ℝ (A y - b) (q - z) := by
    have hslope := hq.inner_le z hz
    have hsplit : inner ℝ (y + tau • (b - A y) - q) (z - q) =
        inner ℝ (y - q) (z - q) + tau * inner ℝ (A y - b) (q - z) := by
      rw [add_sub_right_comm,inner_add_left,real_inner_smul_left,← neg_sub (A y) b,
        ← neg_sub q z,inner_neg_neg]
    linarith
  have hscaled := mul_le_mul_of_nonneg_left henergy htau
  have hinner := inner_sub_eq q y z
  rw [norm_sub_rev y q] at hinner
  rw [cost,cost]
  linarith

/-- The gradient steps are on the energy of a symmetric positive semi-definite map, and the
proximal map is that of a convex function and keeps its weight. -/
structure Task.Composite (t : Task ℝ) (A : Space n →ₗ[ℝ] Space n) (b : Space n) (g : Penalty n) :
    Prop where
  operator : t.operator.ActsAs A
  positive : A.IsPositive
  data : t.data = coords b
  prox : ∀ mu, 0 < mu → t.prox.Attains g mu
  convex : ConvexOn ℝ g.domain g.value
  step_pos : 0 < t.params.step
  continuation : t.params.continuation = 1
  truth : ∀ u, t.monitor.truth = some u → u.length = n

theorem Task.tau_mem (h : 0 < t.params.step) (k : Nat) : t.tau k ∈ Set.Ioc 0 t.params.step := by
  rw [tau]
  induction t.halvings k with
  | zero => exact ⟨h,le_rfl⟩
  | succ m ih =>
    rw [Function.iterate_succ_apply',Nat.cast_ofNat]
    exact ⟨half_pos ih.1,(half_le_self ih.1.le).trans ih.2⟩

namespace Task.Composite

theorem fits (h : t.Composite A b g) (x : Space n) : t.Fits (coords x).length where
  data := by rw [h.data,length_coords,length_coords]
  truth u hu := by rw [h.truth u hu,length_coords]

theorem residual_coords (h : t.Composite A b g) (x : Space n) :
    t.residual (coords x) = .ok (coords (b - A x)) := by
  rw [residual,h.operator x,h.data]
  exact congrArg Except.ok (Vec.sub_coords b (A x))

/-- With either step size that an iteration may use, the proximal map balances. -/
theorem exists_prox (h : t.Composite A b g) (j k : Nat) {dst : List ℝ} (hdst : dst.length = n)
    (v : Space n) : ∃ q, t.prox.apply (t.weight j * t.tau k) dst (coords v) = .ok (coords q) ∧
      g.Balanced (t.tau k) v q := by
  have htau := (t.tau_mem h.step_pos k).1
  rw [weight_of_one Real.one_rpow h.continuation,one_mul]
  exact (h.prox _ htau).balances h.convex htau dst v hdst

end Task.Composite

/-- Goes towards the data and shrinks. No residual is within the bound. -/
noncomputable def shrinkTask (step : ℝ) (hogwild : Bool) : Task ℝ where
  params := ⟨12,0,step,1,hogwild⟩
  operator := .identity
  prox := .softThreshold 1
  data := [1,1]
  monitor := .silent "ist"

theorem composite_shrinkTask {step : ℝ} (hstep : 0 < step) (hogwild : Bool) :
    (shrinkTask step hogwild).Composite LinearMap.id !₂[1,1] (ProxOperator.magnitudes 1 1) where
  operator := Operator.actsAs_identity 2
  positive := LinearMap.isPositive_id
  data := rfl
  prox _ hmu :=
    ((ProxOperator.balances_softThreshold zero_le_one hmu.le 1).minimises hmu).attains
  convex := ProxOperator.convexOn_magnitudes zero_le_one 1
  step_pos := hstep
  continuation := rfl
  truth := nofun

end LinearInverse.Thresholding
