import LinearInverse.Proofs.ConjugateGradient.Termination
import LinearInverse.Proofs.ConjugateGradient.Stopping

namespace LinearInverse.ConjugateGradient

section
variable {E : Type*} [NormedAddCommGroup E] [InnerProductSpace ℝ E] {B : E →ₗ[ℝ] E}
  {b x r p : E} {K : Submodule ℝ E}

/-- `1/2 ⟨x, B x⟩ - ⟨b, x⟩`, whose gradient is the residual. -/
noncomputable def energy (B : E →ₗ[ℝ] E) (b x : E) : ℝ :=
  inner ℝ x (B x) / (2 : ℕ) - inner ℝ b x

theorem energy_eq (B : E →ₗ[ℝ] E) (b x : E) :
    energy B b x = inner ℝ x (B x) / 2 - inner ℝ b x := by
  rw [energy,Nat.cast_ofNat]

theorem energy_add_smul (hB : B.IsSymmetric) (b x p : E) (a : ℝ) :
    energy B b (x + a • p) =
      energy B b x + a * inner ℝ (B x - b) p + a ^ 2 * inner ℝ p (B p) / 2 := by
  have hcross : inner ℝ x (B p) = inner ℝ (B x) p := (hB x p).symm
  have hcross' : inner ℝ p (B x) = inner ℝ (B x) p := real_inner_comm _ _
  simp only [energy_eq,map_add,map_smul,inner_add_left,inner_add_right,inner_sub_left,
    real_inner_smul_left,real_inner_smul_right,hcross,hcross']
  ring

/-- A step goes to the lowest point along its direction. -/
theorem Conjugate.energy_step (h : Conjugate B b x r p K) (hB : B.IsPositive)
    (hp : inner ℝ p (B p) ≠ 0) :
    energy B b (x + (inner ℝ r r / inner ℝ p (B p)) • p) =
      energy B b x - inner ℝ r r ^ 2 / (2 * inner ℝ p (B p)) := by
  rw [energy_add_smul hB.isSymmetric,← h.residual_eq,h.inner_residual_direction]
  field_simp
  ring

theorem Conjugate.energy_lt (h : Conjugate B b x r p K) (hB : B.IsPositive)
    (hp : 0 < inner ℝ p (B p)) (hr : r ≠ 0) :
    energy B b (x + (inner ℝ r r / inner ℝ p (B p)) • p) < energy B b x := by
  have hrr : 0 < inner ℝ r r := real_inner_self_pos.mpr hr
  rw [h.energy_step hB hp.ne']
  exact sub_lt_self _ (by positivity)

end

variable {n m i j : Nat} {A : Operator ℝ} {B : Space n →ₗ[ℝ] Space n} {b x y : Space n}
  {s t u : State ℝ} {w ε : ℝ}

/-- Along a descent the energy falls with every step. -/
theorem Descent.energy_lt (hA : A.ActsAs B) (hB : B.IsPositive) (h : Descent A B b m s)
    (hj : 0 < j) (hjm : j ≤ m) (hx : s.x = coords x) (hu : steps A j s = .ok u)
    (hy : u.x = coords y) : energy B b y < energy B b x := by
  induction j generalizing m s x with
  | zero => omega
  | succ j ih =>
    cases h with
    | done => omega
    | @step _ t x₀ r p K _ hs hr ht hd =>
      obtain rfl : x = x₀ := coords_injective (hx.symm.trans hs.x_eq)
      have hp := hs.curvature_pos hB hr
      obtain ⟨t',_,_,ht',hs'⟩ := hs.toPoints.exists_step hA hB hp.ne'
      obtain rfl : t = t' := Except.ok.inj (ht.symm.trans ht')
      rw [steps_succ ht] at hu
      have hlt := hs.conjugate.energy_lt hB hp hr
      cases j with
      | zero =>
        cases hu
        obtain rfl := coords_injective (hy.symm.trans hs'.x_eq)
        exact hlt
      | succ j => exact (ih hd (Nat.succ_pos j) (by omega) hs'.x_eq hu).trans hlt

/-- No later state is worse than an earlier one. -/
theorem Descent.energy_le (hA : A.ActsAs B) (hB : B.IsPositive) (h : Descent A B b m s)
    (hij : i ≤ j) (hjm : j ≤ m) (ht : steps A i s = .ok t) (hx : t.x = coords x)
    (hu : steps A j s = .ok u) (hy : u.x = coords y) : energy B b y ≤ energy B b x := by
  obtain ⟨t',ht',hd⟩ := h.exists_steps (hij.trans hjm)
  obtain rfl : t = t' := Except.ok.inj (ht.symm.trans ht')
  rcases hij.eq_or_lt with heq | hlt
  · subst heq
    obtain rfl : t = u := Except.ok.inj (ht.symm.trans hu)
    obtain rfl : x = y := coords_injective (hx.symm.trans hy)
    exact le_rfl
  · rw [← Nat.add_sub_of_le hij,steps_add,ht] at hu
    exact (hd.energy_lt hA hB (Nat.sub_pos_of_lt hlt) (by omega) hx hu hy).le

/-- A solve has steps to take, or its start is good enough and its result for every cap. -/
theorem starts_or_solve (hS : (A.shifted w).ActsAs B) (x b : Space n) (ε : ℝ) :
    (∃ s, Starts A w ε (coords x) (coords b) s) ∨
      ∀ maxIter, solve maxIter w ε A (coords x) (coords b) = .ok (⟨.converged,0⟩,coords x) := by
  by_cases hnear : ‖b - B x‖ ≤ ε
  · exact .inr (solve_of_le (by simp) (residualNorm_coords hS x b) hnear)
  · obtain ⟨s,hstart,_⟩ := exists_points hS x b
    exact .inl ⟨s,by simp,⟨_,residualNorm_coords hS x b,hnear⟩,hstart⟩

/-- The solves from `x` for each cap, with the energies of their results. -/
structure Descends (A : Operator ℝ) (B : Space n →ₗ[ℝ] Space n) (w ε : ℝ) (b x : Space n)
    (report : Nat → Report) (y : Nat → Space n) : Prop where
  solve_eq : ∀ maxIter, solve maxIter w ε A (coords x) (coords b) =
    .ok (report maxIter,coords (y maxIter))
  energy_le : ∀ maxIter, energy B b (y maxIter) ≤ energy B b x
  energy_lt : ∀ maxIter, 0 < (report maxIter).iterations → energy B b (y maxIter) < energy B b x
  antitone : Antitone fun maxIter => energy B b (y maxIter)

/-- Wherever the cap ends a solve, its result has no more energy than the start, less after a step,
and no more than with a smaller cap. -/
theorem exists_descends (hS : (A.shifted w).ActsAs B) (hB : B.IsPositive)
    (hb : b ∈ LinearMap.range B) (hε : 0 ≤ ε) (x : Space n) :
    ∃ report y, Descends A B w ε b x report y := by
  rcases starts_or_solve hS x b ε with ⟨s,hstarts⟩ | hnear
  · obtain ⟨s',hstart,_,_,hs⟩ := exists_start hS hb x
    obtain rfl : s = s' := Except.ok.inj (hstarts.start_eq.symm.trans hstart)
    obtain ⟨m,hm,hd⟩ := hs.exists_descent hS hB (d := n) (by omega)
    choose status k y hsolve hk hy _ _ using hd.exists_solve hS hb hε hstart
    have hsteps (maxIter : Nat) :
        ∃ u, steps (A.shifted w) (k maxIter) s = .ok u ∧ u.x = coords (y maxIter) := by
      obtain ⟨u,hu,_⟩ := hd.exists_steps (hk maxIter)
      exact ⟨u,hu,hy maxIter u hu⟩
    refine ⟨fun maxIter => ⟨status maxIter,k maxIter⟩,y,hsolve,?_,?_,?_⟩
    · intro maxIter
      obtain ⟨u,hu,huy⟩ := hsteps maxIter
      exact hd.energy_le hS hB (Nat.zero_le _) (hk maxIter) rfl hs.x_eq hu huy
    · intro maxIter hpos
      obtain ⟨u,hu,huy⟩ := hsteps maxIter
      exact hd.energy_lt hS hB hpos (hk maxIter) hs.x_eq hu huy
    · intro maxIter maxIter' hle
      obtain ⟨t,ht,hty⟩ := hsteps maxIter
      obtain ⟨u,hu,huy⟩ := hsteps maxIter'
      exact hd.energy_le hS hB (hstarts.iterations_le hle (hsolve maxIter) (hsolve maxIter'))
        (hk maxIter') ht hty hu huy
  · refine ⟨fun _ => ⟨.converged,0⟩,fun _ => x,hnear,fun _ => le_rfl,?_,antitone_const⟩
    intro _ hpos
    exact absurd hpos (lt_irrefl 0)

end LinearInverse.ConjugateGradient
