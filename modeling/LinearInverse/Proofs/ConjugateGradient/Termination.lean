import Mathlib.LinearAlgebra.Matrix.PosDef
import LinearInverse.Proofs.ConjugateGradient.Conjugacy
import LinearInverse.Proofs.Euclidean
import LinearInverse.Proofs.ConjugateGradient.Steps

namespace LinearInverse
variable {n : Nat}

/-- On vectors of length `n` the operator is this linear map. -/
def Operator.ActsAs (A : Operator ℝ) (L : Space n →ₗ[ℝ] Space n) : Prop :=
  ∀ x, A.apply (coords x) = .ok (coords (L x))

theorem Operator.actsAs_identity (n : Nat) :
    Operator.identity.ActsAs (LinearMap.id : Space n →ₗ[ℝ] Space n) :=
  fun x => apply_square .ok (fun _ _ h => by cases h; rfl) (coords x)

theorem Operator.ActsAs.shifted {A : Operator ℝ} {L : Space n →ₗ[ℝ] Space n} (h : A.ActsAs L)
    (w : ℝ) : (A.shifted w).ActsAs (L + w • LinearMap.id) := by
  intro x
  rw [Operator.shifted,Operator.apply_square,h x]
  by_cases hw : w = 0
  · simp [hw,Except.map]
  · simp [hw,Except.map,Vec.axpy_coords]

theorem Operator.ActsAs.shifted_zero {A : Operator ℝ} {L : Space n →ₗ[ℝ] Space n}
    (h : A.ActsAs L) : (A.shifted 0).ActsAs L := by
  have hS := h.shifted 0
  rwa [zero_smul,add_zero] at hS

theorem isPositive_shifted {L : Space n →ₗ[ℝ] Space n} (h : L.IsPositive) {w : ℝ} (hw : 0 ≤ w) :
    (L + w • LinearMap.id).IsPositive :=
  h.add (LinearMap.isPositive_id.smul_of_nonneg hw)

namespace ConjugateGradient

theorem negate_coords (x : Space n) : negate (coords x) = coords (-x) :=
  map_coords _ x

variable {A : Operator ℝ} {B : Space n →ₗ[ℝ] Space n} {b : Space n} {s t : State ℝ}

/-- The vectors of a state, and the space of the directions before it. -/
structure Points (B : Space n →ₗ[ℝ] Space n) (b : Space n) (s : State ℝ) (x r p : Space n)
    (K : Submodule ℝ (Space n)) : Prop where
  x_eq : s.x = coords x
  residual_eq : s.residual = coords r
  direction_eq : s.direction = coords p
  square_eq : s.square = inner ℝ r r
  conjugate : Conjugate B b x r p K

/-- The same for a system that has a solution. -/
structure Tracked (B : Space n →ₗ[ℝ] Space n) (b : Space n) (s : State ℝ) (x r p : Space n)
    (K : Submodule ℝ (Space n)) : Prop extends Points B b s x r p K where
  solvable : b ∈ LinearMap.range B

/-- No squared residual has been recorded yet. -/
theorem exists_points (hA : A.ActsAs B) (x b : Space n) :
    ∃ s, start A (coords x) (coords b) = .ok s ∧ s.best = none ∧ s.iterations = 0 ∧
      Points B b s x (B x - b) (-(B x - b)) ⊥ := by
  refine ⟨_,by rw [start,hA x]; rfl,rfl,rfl,rfl,?_,?_,?_,.start x⟩ <;>
    simp [negate_coords,Vec.sub_coords,Vec.dot_coords]

theorem exists_start (hA : A.ActsAs B) (hb : b ∈ LinearMap.range B) (x : Space n) :
    ∃ s, start A (coords x) (coords b) = .ok s ∧ s.best = none ∧ s.iterations = 0 ∧
      Tracked B b s x (B x - b) (-(B x - b)) ⊥ := by
  obtain ⟨s,hs,hbest,hiter,h⟩ := exists_points hA x b
  exact ⟨s,hs,hbest,hiter,h,hb⟩

/-- The length of a step is the squared residual over the curvature. -/
theorem Points.exists_step {x r p : Space n} {K : Submodule ℝ (Space n)}
    (h : Points B b s x r p K) (hA : A.ActsAs B) (hB : B.IsPositive)
    (hp : inner ℝ p (B p) ≠ 0) :
    ∃ t r' p', step A s = .ok t ∧ Points B b t (x + (inner ℝ r r / inner ℝ p (B p)) • p) r' p'
      (K ⊔ Submodule.span ℝ {p}) := by
  have hstep := h.conjugate.step hB hp rfl rfl rfl
  refine ⟨_,_,_,by rw [step,h.direction_eq,hA p]; rfl,?_,?_,?_,?_,hstep⟩ <;>
    simp [negate_coords,h.x_eq,h.residual_eq,h.square_eq,Vec.dot_coords,Vec.axpy_coords]

theorem Tracked.curvature_pos {x r p : Space n} {K : Submodule ℝ (Space n)}
    (h : Tracked B b s x r p K) (hB : B.IsPositive) (hr : r ≠ 0) : 0 < inner ℝ p (B p) :=
  h.conjugate.curvature_pos hB h.solvable hr

/-- While the residual is not zero a step is made, and its denominators are positive. -/
theorem Tracked.exists_step {x r p : Space n} {K : Submodule ℝ (Space n)}
    (h : Tracked B b s x r p K) (hA : A.ActsAs B) (hB : B.IsPositive) (hr : r ≠ 0) :
    ∃ t x' r' p', step A s = .ok t ∧ Tracked B b t x' r' p' (K ⊔ Submodule.span ℝ {p}) := by
  obtain ⟨t,r',p',ht,h'⟩ := h.toPoints.exists_step hA hB (h.curvature_pos hB hr).ne'
  exact ⟨t,_,r',p',ht,h',h.solvable⟩

theorem Tracked.square_nonneg {x r p : Space n} {K : Submodule ℝ (Space n)}
    (h : Tracked B b s x r p K) : 0 ≤ s.square := by
  rw [h.square_eq]
  exact real_inner_self_nonneg

/-- `m` more steps and the residual is zero, and it is not zero before. -/
inductive Descent (A : Operator ℝ) (B : Space n →ₗ[ℝ] Space n) (b : Space n) :
    Nat → State ℝ → Prop where
  | done {s : State ℝ} {x p : Space n} {K : Submodule ℝ (Space n)} :
      Tracked B b s x 0 p K → Descent A B b 0 s
  | step {s t : State ℝ} {x r p : Space n} {K : Submodule ℝ (Space n)} {m : Nat} :
      Tracked B b s x r p K → r ≠ 0 → step A s = .ok t → Descent A B b m t →
      Descent A B b (m + 1) s

/-- Each step takes up a dimension, so there are no more steps than dimensions left. -/
theorem Tracked.exists_descent (hA : A.ActsAs B) (hB : B.IsPositive) {x r p : Space n}
    {K : Submodule ℝ (Space n)} {d : Nat} (h : Tracked B b s x r p K)
    (hd : n ≤ Module.finrank ℝ K + d) : ∃ m ≤ d, Descent A B b m s := by
  induction d generalizing s x r p K with
  | zero =>
    have hr : r = 0 := h.conjugate.residual_eq_zero (by simpa using hd)
    exact ⟨0,le_rfl,.done (hr ▸ h)⟩
  | succ d ih =>
    by_cases hr : r = 0
    · exact ⟨0,Nat.zero_le _,.done (hr ▸ h)⟩
    · obtain ⟨t,x',r',p',ht,h'⟩ := h.exists_step hA hB hr
      have hK := h.conjugate.finrank_lt_step hr
      obtain ⟨m,hm,hdesc⟩ := ih h' (by omega)
      exact ⟨m + 1,by omega,.step h hr ht hdesc⟩

/-- The smallest squared residual meets the target exactly if the current one does, for as long as
the run goes on. -/
theorem meets_step {target : ℝ} (ht : step A s = .ok t) (hs : s.meets target = false)
    (h0 : 0 ≤ t.square) : t.meets target = decide (t.square ≤ target) := by
  have hbest := best_step ht
  rw [Scalar.real_abs,abs_of_nonneg h0] at hbest
  cases hb : s.best with
  | none => simp [State.meets,hbest,hb,improve]
  | some c =>
    have hc : target < c := by simpa [State.meets,hb] using hs
    by_cases hlt : t.square < c
    · simp [State.meets,hbest,hb,improve,hlt]
    · have : target < t.square := hc.trans_le (not_lt.mp hlt)
      simp [State.meets,hbest,hb,improve,hlt,not_le.mpr hc,not_le.mpr this]

namespace Descent
variable {m j : Nat}

theorem tracked (h : Descent A B b m s) : ∃ x r p K, Tracked B b s x r p K := by
  cases h with
  | done h => exact ⟨_,_,_,_,h⟩
  | step h => exact ⟨_,_,_,_,h⟩

/-- A descent goes on from each of its states. -/
theorem exists_steps (h : Descent A B b m s) (hj : j ≤ m) :
    ∃ u, steps A j s = .ok u ∧ Descent A B b (m - j) u := by
  induction j generalizing m s with
  | zero => exact ⟨s,rfl,h⟩
  | succ j ih =>
    cases h with
    | done => omega
    | step _ _ ht h =>
      obtain ⟨u,hu,hd⟩ := ih h (by omega)
      exact ⟨u,(steps_succ ht j).trans hu,by rwa [Nat.add_sub_add_right]⟩

/-- Step length and weight are quotients by positive numbers. -/
theorem divisors_pos (hA : A.ActsAs B) (hB : B.IsPositive) (h : Descent A B b m s) (hm : 0 < m) :
    ∃ v, A.apply s.direction = .ok v ∧ 0 < Vec.dot s.direction v ∧ 0 < s.square := by
  cases h with
  | done => omega
  | @step _ _ x r p K _ h hr =>
    refine ⟨coords (B p),by rw [h.direction_eq,hA p],?_,?_⟩
    · rw [h.direction_eq,Vec.dot_coords]
      exact h.curvature_pos hB hr
    · rw [h.square_eq]
      exact real_inner_self_pos.mpr hr

/-- The residual kept by recursion is the residual. -/
theorem residual_eq (hA : A.ActsAs B) (h : Descent A B b m s) :
    ∃ v, A.apply s.x = .ok v ∧ s.residual = Vec.sub v (coords b) := by
  obtain ⟨x,r,p,K,h⟩ := h.tracked
  exact ⟨_,by rw [h.x_eq,hA x],by rw [h.residual_eq,h.conjugate.residual_eq,Vec.sub_coords]⟩

theorem residual_eq_zero (h : Descent A B b 0 s) : s.residual = coords (0 : Space n) := by
  cases h with
  | done h => exact h.residual_eq

/-- What a run does along a descent: it ends at one of its states, and below the target unless the
cap cuts it short. -/
theorem exists_advance {target : ℝ} (htarget : 0 ≤ target) (h : Descent A B b m s)
    (hs : s.meets target = decide (s.square ≤ target)) (fuel : Nat) :
    ∃ status k t, advance A target fuel s = .ok (status,t) ∧ k ≤ m ∧ steps A k s = .ok t ∧
      Descent A B b (m - k) t ∧ (m < fuel → status = .converged) ∧
      (status = .converged → t.square ≤ target) ∧ (m ≤ fuel → t.square ≤ target) := by
  induction fuel generalizing m s with
  | zero =>
    refine ⟨.maxIterReached,0,s,rfl,Nat.zero_le m,rfl,h,by omega,nofun,fun hm => ?_⟩
    cases h with
    | done h => simpa [h.square_eq] using htarget
    | step => omega
  | succ fuel ih =>
    cases hmeets : s.meets target with
    | true =>
      have hle : s.square ≤ target := by simpa [hs] using hmeets
      exact ⟨.converged,0,s,advance_of_meets hmeets fuel,Nat.zero_le m,rfl,h,fun _ => rfl,
        fun _ => hle,fun _ => hle⟩
    | false =>
      have hlt : target < s.square := by simpa [hs] using hmeets
      cases h with
      | done h => simp [h.square_eq,not_lt.mpr htarget] at hlt
      | step _ _ ht h =>
        obtain ⟨_,_,_,_,hh⟩ := h.tracked
        obtain ⟨status,k,u,hu,hk,hsteps,hd,hc,hq,hq'⟩ :=
          ih h (meets_step ht hmeets hh.square_nonneg)
        exact ⟨status,k + 1,u,(advance_of_step hmeets ht fuel).trans hu,by omega,
          (steps_succ ht k).trans hsteps,by rwa [Nat.add_sub_add_right],
          fun hm => hc (by omega),hq,fun hm => hq' (by omega)⟩

/-- The squared residual bounds the distance of the image of the iterate from the data. -/
theorem exists_norm_sub_le (h : Descent A B b m s) :
    ∃ y, s.x = coords y ∧ ∀ c, 0 ≤ c → s.square ≤ c * c → ‖b - B y‖ ≤ c := by
  obtain ⟨y,r,p,K,h⟩ := h.tracked
  refine ⟨y,h.x_eq,fun c hc hle => ?_⟩
  rw [h.square_eq,h.conjugate.residual_eq,real_inner_self_eq_norm_mul_norm] at hle
  rw [norm_sub_rev]
  exact abs_le_of_sq_le_sq' (by nlinarith) hc |>.2

end Descent

theorem residualNorm_coords (hA : A.ActsAs B) (x b : Space n) :
    residualNorm A (coords x) (coords b) = .ok ‖b - B x‖ := by
  rw [residualNorm,hA x]
  simp only [Except.map,Vec.sub_coords,Vec.norm_coords]

/-- A start that solves the system is left alone. -/
theorem solve_of_eq (hA : A.ActsAs B) {x : Space n} (h : B x = b) (maxIter : Nat) :
    solve maxIter 0 0 A (coords x) (coords b) = .ok (⟨.converged,0⟩,coords x) := by
  rw [solve,if_neg (by simp)]
  simp only [residualNorm_coords hA.shifted_zero,h,sub_self,norm_zero,le_refl,if_true,bind,
    Except.bind]

/-- A solve is left at its start if that is good enough, and else runs along the descent. -/
theorem Descent.exists_solve {w ε : ℝ} {x : Space n} {m : Nat} (hS : (A.shifted w).ActsAs B)
    (hb : b ∈ LinearMap.range B) (hε : 0 ≤ ε)
    (hstart : start (A.shifted w) (coords x) (coords b) = .ok s)
    (hd : Descent (A.shifted w) B b m s) (maxIter : Nat) :
    ∃ status k y, solve maxIter w ε A (coords x) (coords b) = .ok (⟨status,k⟩,coords y) ∧ k ≤ m ∧
      (∀ u, steps (A.shifted w) k s = .ok u → u.x = coords y) ∧
      (m < maxIter → status = .converged) ∧ (m ≤ maxIter → ‖b - B y‖ ≤ ε) := by
  have hrun : solve maxIter w ε A (coords x) (coords b) =
      if ‖b - B x‖ ≤ ε then .ok (⟨.converged,0⟩,coords x)
      else advance (A.shifted w) (ε * ε) maxIter s >>= fun (status,t) =>
        .ok (⟨status,t.iterations⟩,t.x) := by
    rw [solve,if_neg (by simp)]
    simp only [residualNorm_coords hS,hstart]
    rfl
  obtain ⟨s',hs',hbest,hiter,hs⟩ := exists_start hS hb x
  obtain rfl : s' = s := Except.ok.inj (hs'.symm.trans hstart)
  rw [hrun]
  split
  next hle =>
    refine ⟨.converged,0,x,rfl,Nat.zero_le m,fun u hu => ?_,fun _ => rfl,fun _ => hle⟩
    cases hu
    exact hs.x_eq
  next hgt =>
    have hmeets : s'.meets (ε * ε) = decide (s'.square ≤ ε * ε) := by
      have hlt : ε * ε < ‖b - B x‖ * ‖b - B x‖ := mul_self_lt_mul_self hε (not_le.mp hgt)
      rw [norm_sub_rev,← real_inner_self_eq_norm_mul_norm,← hs.square_eq] at hlt
      simp [State.meets,hbest,not_le.mpr hlt]
    obtain ⟨status,k,t,ht,hk,hsteps,hdt,hconv,_,hle⟩ :=
      hd.exists_advance (mul_nonneg hε hε) hmeets maxIter
    obtain ⟨y,hyt,hbound⟩ := hdt.exists_norm_sub_le
    refine ⟨status,k,y,?_,hk,fun u hu => ?_,hconv,fun hm => hbound ε hε (hle hm)⟩
    · have hk' : t.iterations = k := by
        rw [iterations_steps hsteps,hiter,Nat.zero_add]
      rw [ht,hyt.symm,← hk']
      rfl
    · rw [hsteps] at hu
      cases hu
      exact hyt

/-- With no bound to reach and as many steps as dimensions a solve is exact. -/
theorem exists_exact_solve (hA : A.ActsAs B) (hB : B.IsPositive) (hb : b ∈ LinearMap.range B)
    {maxIter : Nat} (hn : n ≤ maxIter) (x : Space n) :
    ∃ report y, solve maxIter 0 0 A (coords x) (coords b) = .ok (report,coords y) ∧ B y = b := by
  have hS := hA.shifted_zero
  obtain ⟨s,hstart,_,_,hs⟩ := exists_start hS hb x
  obtain ⟨m,hm,hd⟩ := hs.exists_descent hS hB (d := n) (by omega)
  obtain ⟨status,k,y,hsolve,_,_,_,hle⟩ := hd.exists_solve hS hb le_rfl hstart maxIter
  refine ⟨_,y,hsolve,?_⟩
  rw [← sub_eq_zero,← norm_le_zero_iff,norm_sub_rev]
  exact hle (hm.trans hn)

/-- On a positive semi-definite system that has a solution the recursion reaches a zero residual
in `m` steps, `m` at most the dimension, and divides by positive numbers only until then. A run
is an initial part of it: it ends below its bound if the cap lets it, and then also reports that
if the cap leaves room to look. -/
theorem solve_of_positive {L : Space n →ₗ[ℝ] Space n} (hA : A.ActsAs L) (hL : L.IsPositive)
    {w ε : ℝ} (hw : 0 ≤ w) (hε : 0 ≤ ε) (hb : b ∈ LinearMap.range (L + w • LinearMap.id))
    (x : Space n) (maxIter : Nat) :
    ∃ status k y s m, solve maxIter w ε A (coords x) (coords b) = .ok (⟨status,k⟩,coords y) ∧
      start (A.shifted w) (coords x) (coords b) = .ok s ∧ k ≤ m ∧ m ≤ n ∧
      (∀ j < m, ∃ u v, steps (A.shifted w) j s = .ok u ∧
        (A.shifted w).apply u.direction = .ok v ∧ 0 < Vec.dot u.direction v ∧ 0 < u.square) ∧
      (∀ j ≤ m, ∃ u v, steps (A.shifted w) j s = .ok u ∧ (A.shifted w).apply u.x = .ok v ∧
        u.residual = Vec.sub v (coords b) ∧ (j = m → u.residual = coords (0 : Space n)) ∧
        (j = k → u.x = coords y)) ∧
      (n < maxIter → status = .converged ∧ ‖b - (L y + w • y)‖ ≤ ε) ∧
      (n ≤ maxIter → ε = 0 → L y + w • y = b) := by
  have hS := hA.shifted w
  have hB := isPositive_shifted hL hw
  obtain ⟨s,hstart,hbest,hiter,hs⟩ := exists_start hS hb x
  obtain ⟨m,hm,hd⟩ := hs.exists_descent hS hB (d := n) (by omega)
  obtain ⟨status,k,y,hsolve,hk,hy,hconv,hle⟩ := hd.exists_solve hS hb hε hstart maxIter
  refine ⟨status,k,y,s,m,hsolve,hstart,hk,hm,fun j hj => ?_,fun j hj => ?_,
    fun hn => ⟨hconv (by omega),hle (by omega)⟩,fun hn h0 => ?_⟩
  · obtain ⟨u,hu,hd⟩ := hd.exists_steps hj.le
    obtain ⟨v,hv⟩ := hd.divisors_pos hS hB (by omega)
    exact ⟨u,v,hu,hv⟩
  · obtain ⟨u,hu,hd⟩ := hd.exists_steps hj
    obtain ⟨v,hv,hr⟩ := hd.residual_eq hS
    refine ⟨u,v,hu,hv,hr,fun hjm => ?_,fun hjk => hy u (hjk ▸ hu)⟩
    subst hjm
    rw [Nat.sub_self] at hd
    exact hd.residual_eq_zero
  · have := hle (hm.trans hn)
    rw [h0,norm_le_zero_iff,sub_eq_zero] at this
    exact this.symm

/-- Keeps the first of two entries. -/
noncomputable def firstEntry : Space 2 →ₗ[ℝ] Space 2 :=
  Matrix.toEuclideanLin (Matrix.diagonal ![1,0])

theorem actsAs_firstEntry : (Operator.diagonal [1,0]).ActsAs firstEntry := by
  intro x
  have hvalue (i : Fin 2) : firstEntry x i = ![1,0] i * x i := Matrix.mulVec_diagonal _ _ i
  simp [Operator.apply,Operator.diagonal,coords,hvalue,List.ofFn_succ]

theorem isPositive_firstEntry : firstEntry.IsPositive := by
  rw [firstEntry,Matrix.isPositive_toEuclideanLin_iff]
  apply Matrix.PosSemidef.diagonal
  intro i
  fin_cases i <;> simp

theorem mem_range_firstEntry (a : ℝ) : !₂[a,0] ∈ LinearMap.range firstEntry := by
  refine ⟨!₂[a,0],?_⟩
  ext i
  refine (Matrix.mulVec_diagonal _ _ i).trans ?_
  fin_cases i <;> simp

/-- A singular system: the second entry is not measured. -/
theorem solve_firstEntry :
    ∃ k ≤ 2, ∃ y, solve 3 0 0 (Operator.diagonal [1,0]) (coords !₂[0,5]) (coords !₂[3,0]) =
      .ok (⟨.converged,k⟩,coords y) ∧ firstEntry y + (0 : ℝ) • y = !₂[3,0] := by
  have hrange : !₂[3,0] ∈ LinearMap.range (firstEntry + (0 : ℝ) • LinearMap.id) := by
    rw [zero_smul,add_zero]
    exact mem_range_firstEntry 3
  obtain ⟨status,k,y,s,m,hsolve,_,hk,hm,_,_,hconv,hexact⟩ :=
    solve_of_positive actsAs_firstEntry isPositive_firstEntry le_rfl le_rfl hrange !₂[0,5] 3
  obtain ⟨rfl,_⟩ := hconv (by decide)
  exact ⟨k,by omega,y,hsolve,hexact (by decide) rfl⟩

end ConjugateGradient

end LinearInverse
