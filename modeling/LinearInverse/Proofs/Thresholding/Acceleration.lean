import Mathlib
import LinearInverse.Proofs.Thresholding.Composite

namespace LinearInverse.Thresholding.Accelerated

variable {n k : Nat} {t : Task ℝ} {A : Space n →ₗ[ℝ] Space n} {b x p q y z : Space n}
  {g : Penalty n}

theorem momentum_zero : (momentum 0 : ℝ) = 1 := rfl

theorem momentum_succ (k : Nat) :
    (momentum (k + 1) : ℝ) = (1 + √(1 + 4 * momentum k ^ 2)) / 2 :=
  Momentum.next_eq _

theorem momentum_succ_mul (k : Nat) :
    (momentum (k + 1) : ℝ) * (momentum (k + 1) - 1) = momentum k ^ 2 := by
  have hroot := Real.sq_sqrt (by positivity : (0 : ℝ) ≤ 1 + 4 * momentum k ^ 2)
  rw [momentum_succ]
  linarith

theorem le_momentum (k : Nat) : ((k : ℝ) + 2) / 2 ≤ momentum k := by
  induction k with
  | zero => norm_num [momentum_zero]
  | succ k ih =>
    have hroot : 2 * momentum k ≤ √(1 + 4 * momentum k ^ 2) :=
      Real.le_sqrt_of_sq_le (by linarith [mul_pow (2 : ℝ) (momentum k) 2])
    rw [momentum_succ,Nat.cast_succ]
    linarith

theorem one_le_momentum (k : Nat) : (1 : ℝ) ≤ momentum k := by
  have hle := le_momentum k
  have hk : (0 : ℝ) ≤ k := Nat.cast_nonneg k
  linarith

/-- What the cost of `p` still has above that of `z`, and how far from `z` the iteration is headed,
weighed by the momentum. -/
noncomputable def potential (t : Task ℝ) (A : Space n →ₗ[ℝ] Space n) (b : Space n)
    (g : Penalty n) (k : Nat) (p y z : Space n) : ℝ :=
  (2 : ℕ) * t.params.step * (momentum k * (momentum k - 1) * (cost A b g p - cost A b g z)) +
    ‖(momentum k : ℝ) • y - ((momentum k : ℝ) - 1) • p - z‖ ^ 2

theorem potential_eq (k : Nat) (p y z : Space n) : potential t A b g k p y z =
    2 * t.params.step * (momentum k * (momentum k - 1) * (cost A b g p - cost A b g z)) +
      ‖(momentum k : ℝ) • y - ((momentum k : ℝ) - 1) • p - z‖ ^ 2 := by
  rw [potential,Nat.cast_ofNat]

/-- How far a point on the line through `w` and `p` is from `z`. -/
theorem norm_sq_extrapolated (m : ℝ) (w p z : Space n) : ‖m • w - (m - 1) • p - z‖ ^ 2 =
    m * (m - 1) * ‖w - p‖ ^ 2 + m * ‖w - z‖ ^ 2 - (m - 1) * ‖p - z‖ ^ 2 := by
  have hpoint : m • w - (m - 1) • p - z = m • (w - z) - (m - 1) • (p - z) := by
    module
  rw [hpoint,← sub_sub_sub_cancel_right w p z,norm_sub_sq_real,norm_sub_sq_real (w - z),
    norm_smul,norm_smul,mul_pow,mul_pow,Real.norm_eq_abs,Real.norm_eq_abs,sq_abs,sq_abs,
    real_inner_smul_left,real_inner_smul_right]
  ring

/-- The extrapolation makes up for the growth of the momentum. -/
theorem headed_succ (k : Nat) (p q z : Space n) :
    (momentum (k + 1) : ℝ) • (q + (((momentum k : ℝ) - 1) / momentum (k + 1)) • (q - p)) -
        ((momentum (k + 1) : ℝ) - 1) • q - z =
      (momentum k : ℝ) • q - ((momentum k : ℝ) - 1) • p - z := by
  have hpos : (momentum (k + 1) : ℝ) ≠ 0 := (zero_lt_one.trans_le (one_le_momentum _)).ne'
  rw [smul_add,smul_smul,mul_div_cancel₀ _ hpos]
  module

/-- The proximal map is compared with its last value and with `z`, and the two bounds are weighed by
the momentum. The start need not be in the domain: it has no weight. -/
theorem potential_succ_le (h : t.Composite A b g)
    (hA : ∀ v, inner ℝ v (A v) ≤ 1 / t.params.step * ‖v‖ ^ 2) (hp : k = 0 ∨ p ∈ g.domain)
    (hq : g.Balanced t.params.step (y + t.params.step • (b - A y)) q) (hz : z ∈ g.domain) :
    potential t A b g (k + 1) q (q + (((momentum k : ℝ) - 1) / momentum (k + 1)) • (q - p)) z ≤
      potential t A b g k p y z := by
  have hone := one_le_momentum k
  have hclose {w : Space n} (hw : w ∈ g.domain) :
      2 * t.params.step * (cost A b g q - cost A b g w) ≤ ‖y - w‖ ^ 2 - ‖q - w‖ ^ 2 := by
    have hstep := cost_sub_le h.positive hq h.step_pos.le hw
    have hcurve := mul_le_mul_of_nonneg_left (hA (q - y)) h.step_pos.le
    rw [← mul_assoc,mul_one_div_cancel h.step_pos.ne',one_mul] at hcurve
    linarith
  have hlast : momentum k * (momentum k - 1) *
        (2 * t.params.step * (cost A b g q - cost A b g p)) ≤
      momentum k * (momentum k - 1) * (‖y - p‖ ^ 2 - ‖q - p‖ ^ 2) := by
    rcases hp with rfl | hp
    · simp [momentum_zero]
    · exact mul_le_mul_of_nonneg_left (hclose hp)
        (mul_nonneg (zero_le_one.trans hone) (sub_nonneg.mpr hone))
  have hgoal := mul_le_mul_of_nonneg_left (hclose hz) (zero_le_one.trans hone)
  rw [potential_eq,potential_eq,momentum_succ_mul,headed_succ,norm_sq_extrapolated,
    norm_sq_extrapolated]
  linarith

/-- Where the iteration is after `k` steps. -/
structure Reached (t : Task ℝ) (A : Space n →ₗ[ℝ] Space n) (b : Space n) (g : Penalty n)
    (x : Space n) (k : Nat) (p y : Space n) : Prop where
  iterate : ∃ buffer, buffer.length = n ∧
    iterates t (coords x) k = .ok ⟨buffer,coords p,coords y⟩
  mem : k = 0 ∨ p ∈ g.domain
  potential_le : ∀ z ∈ g.domain, potential t A b g k p y z ≤ ‖x - z‖ ^ 2

theorem reached_start (x : Space n) : Reached t A b g x 0 x x where
  iterate := ⟨_,(List.length_map _).trans (length_coords x),rfl⟩
  mem := .inl rfl
  potential_le z _ := by simp [potential_eq,momentum_zero]

theorem Reached.next (hr : Reached t A b g x k p y) (h : t.Composite A b g)
    (hA : ∀ v, inner ℝ v (A v) ≤ 1 / t.params.step * ‖v‖ ^ 2)
    (hsteady : t.params.hogwild = false) : ∃ q y', Reached t A b g x (k + 1) q y' := by
  obtain ⟨buffer,hlen,hiterate⟩ := hr.iterate
  have htau : t.tau (k + 1) = t.params.step := by
    rw [Task.tau,Task.halvings,hsteady]
    rfl
  obtain ⟨q,hq,hbalanced⟩ := h.exists_prox k (k + 1) hlen (y + t.tau (k + 1) • (b - A y))
  rw [htau] at hbalanced
  refine ⟨q,_,⟨coords q,length_coords q,iterates_succ_eq_ok.mpr
      ⟨_,_,coords q,hiterate,h.operator y,?_,?_⟩⟩,.inr hbalanced.mem,
    fun z hz => (potential_succ_le h hA hr.mem hbalanced hz).trans (hr.potential_le z hz)⟩
  · rw [h.data,Vec.sub_coords,Vec.axpy_coords]
    exact hq
  · rw [Vec.sub_coords,Vec.axpy_coords]

theorem exists_reached (h : t.Composite A b g)
    (hA : ∀ v, inner ℝ v (A v) ≤ 1 / t.params.step * ‖v‖ ^ 2)
    (hsteady : t.params.hogwild = false) (x : Space n) (k : Nat) :
    ∃ p y, Reached t A b g x k p y := by
  induction k with
  | zero => exact ⟨x,x,reached_start x⟩
  | succ k ih =>
    obtain ⟨p,y,hr⟩ := ih
    exact hr.next h hA hsteady

theorem Reached.cost_sub_le (hr : Reached t A b g x k p y) (h : t.Composite A b g) (hk : 1 ≤ k)
    (hz : z ∈ g.domain) :
    cost A b g p - cost A b g z ≤ 2 * ‖x - z‖ ^ 2 / (t.params.step * ((k : ℝ) + 1) ^ 2) := by
  have hpos := h.step_pos
  rcases le_or_gt (cost A b g p - cost A b g z) 0 with hle | hgt
  · exact hle.trans (by positivity)
  · obtain ⟨j,rfl⟩ := Nat.exists_eq_add_of_le' hk
    have hgrown : (((j : ℝ) + 2) / 2) ^ 2 ≤ momentum j ^ 2 :=
      pow_le_pow_left₀ (by positivity) (le_momentum j) 2
    have hpotential := hr.potential_le z hz
    rw [potential_eq,momentum_succ_mul] at hpotential
    rw [le_div_iff₀ (by positivity),Nat.cast_succ]
    have hweighed := mul_le_mul_of_nonneg_right hgrown (mul_pos hpos hgt).le
    have hnorm := sq_nonneg ‖(momentum (j + 1) : ℝ) • y - ((momentum (j + 1) : ℝ) - 1) • p - z‖
    linarith

theorem exists_run (h : t.Composite A b g) (hreached : ∀ k, ∃ p y, Reached t A b g x k p y) :
    ∃ s, run t (coords x) = .ok s ∧
      (s.report.status = .converged ∨ s.report.status = .maxIterReached) := by
  have htotal (k : Nat) (u : State ℝ) (hu : At t (coords x) k u) : ∃ q, pass t k u = .ok q := by
    obtain ⟨p,y,hr⟩ := hreached k
    obtain ⟨q,y',hr'⟩ := hreached (k + 1)
    obtain ⟨_,_,hiterate⟩ := hr.iterate
    obtain ⟨_,_,hnext⟩ := hr'.iterate
    have himage : u.image = coords y :=
      congrArg Iterate.look (Except.ok.inj (hu.iterate.symm.trans hiterate))
    exact hu.exists_pass_of_iterates (h.fits x) (himage ▸ h.residual_coords y) hnext
  obtain ⟨r,hr⟩ := exists_iterate (at_start t (coords x)) htotal
    (fun k u q hu hq hgo => hu.next hq hgo) t.params.maxIter
  exact ⟨_,(run_eq (h.fits x)).trans (Checked.map_eq_ok.mpr ⟨r,hr,rfl⟩),r.status_report⟩

/-- A run returns, and if it takes all its iterations, the cost of what it leaves exceeds that of
any other point by no more than what falls with the square of their number. -/
theorem exists_accelerated_run (h : t.Composite A b g)
    (hA : ∀ v, inner ℝ v (A v) ≤ 1 / t.params.step * ‖v‖ ^ 2)
    (hsteady : t.params.hogwild = false) (hmax : 1 ≤ t.params.maxIter) (x : Space n) :
    ∃ s, run t (coords x) = .ok s ∧
      (s.report.status = .converged ∨ s.report.status = .maxIterReached) ∧
      (s.report.status = .maxIterReached → ∃ p ∈ g.domain, s.image = coords p ∧
        ∀ z ∈ g.domain, cost A b g p - cost A b g z ≤
          2 * ‖x - z‖ ^ 2 / (t.params.step * ((t.params.maxIter : ℝ) + 1) ^ 2)) := by
  have hreached := exists_reached h hA hsteady x
  obtain ⟨⟨⟨status,k⟩,image,log⟩,hrun,hstatus⟩ := exists_run h hreached
  refine ⟨_,hrun,hstatus,?_⟩
  rintro rfl
  obtain ⟨_,_,himage⟩ := ((follows (h.fits x)).capped k image).mp ⟨log,hrun⟩
  obtain ⟨p,y,hr⟩ := hreached t.params.maxIter
  obtain ⟨_,_,hiterate⟩ := hr.iterate
  have hpoint : point t (coords x) t.params.maxIter = .ok (coords p) := by
    rw [point,hiterate]
    rfl
  exact ⟨p,hr.mem.resolve_left (Nat.one_le_iff_ne_zero.mp hmax),
    Except.ok.inj (himage.symm.trans hpoint),fun z hz => hr.cost_sub_le h hmax hz⟩

/-- No residual is less than zero, so the run takes all its iterations. -/
theorem exists_accelerated_run_shrinkTask : ∃ s,
    (shrinkTask 1 false).Composite LinearMap.id !₂[1,1] (ProxOperator.magnitudes 1 1) ∧
      run (shrinkTask 1 false) (coords !₂[0,0]) = .ok s ∧
      s.report.status = .maxIterReached ∧ ∃ p : Space 2, s.image = coords p ∧
        ∀ z, cost LinearMap.id !₂[1,1] (ProxOperator.magnitudes 1 1) p -
            cost LinearMap.id !₂[1,1] (ProxOperator.magnitudes 1 1) z ≤
          2 * ‖!₂[0,0] - z‖ ^ 2 / (1 * ((12 : Nat) + 1) ^ 2) := by
  have hc := composite_shrinkTask one_pos false
  have hA (v : Space 2) : inner ℝ v v ≤ 1 / (1 : ℝ) * ‖v‖ ^ 2 := by
    rw [div_one,one_mul]
    exact (real_inner_self_eq_norm_sq v).le
  obtain ⟨⟨⟨status,k⟩,image,log⟩,hrun,hstatus,hrate⟩ :=
    exists_accelerated_run hc hA rfl (by decide) !₂[0,0]
  have hcapped : status = .maxIterReached := by
    refine hstatus.resolve_left ?_
    rintro rfl
    obtain ⟨_,_,_,⟨_,r,_,_,hnear⟩,_⟩ := ((follows (hc.fits _)).converged k image).mp ⟨log,hrun⟩
    obtain ⟨w,hw⟩ := exists_coords (rfl : r.length = r.length)
    rw [← hw,Vec.norm_coords] at hnear
    exact (norm_nonneg w).not_gt hnear
  obtain ⟨p,_,himage,hcost⟩ := hrate hcapped
  exact ⟨_,hc,hrun,hcapped,p,himage,fun z => hcost z trivial⟩

end LinearInverse.Thresholding.Accelerated
