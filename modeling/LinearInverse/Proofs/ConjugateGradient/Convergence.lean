import LinearInverse.Proofs.Binary64.Comparison
import LinearInverse.Proofs.Binary64.Squares
import LinearInverse.Proofs.ConjugateGradient.Stopping

namespace LinearInverse.ConjugateGradient
variable {n k maxIter : Nat} {A : Operator Float} {w ε target cost : Float} {s t u : State Float}
  {best : Option Float} {x b y : List Float}

/-- What `State.meets` asks of the least squared residual. -/
def Meets (best : Option Float) (target : Float) : Prop :=
  ∃ c, best = some c ∧ c ≤ target

theorem meets_iff (htop : Scalar.isTop target = false) :
    s.meets target = true ↔ Meets s.best target := by
  rw [State.meets,Meets]
  cases s.best with
  | none => simp [htop]
  | some c => simp

/-- The least is the new value, if that is defined, or the one before. -/
theorem improve_eq_some {c : Float} (h : improve best cost = some c) :
    c = cost ∧ cost.isNaN = false ∨ best = some c := by
  cases best with
  | none =>
    simp only [improve] at h
    split at h
    next => cases h
    next hcost =>
      cases h
      simp only [Bool.or_eq_true,not_or,Bool.not_eq_true,Binary64.scalar_isNaN] at hcost
      exact .inl ⟨rfl,hcost.2⟩
  | some a =>
    simp only [improve] at h
    split at h
    next hlt =>
      cases h
      exact .inl ⟨rfl,(Binary64.lt_iff_rank.mp hlt).1⟩
    next => exact .inr h

/-- The undefined number is never the least. -/
def DefinedBest (best : Option Float) : Prop :=
  ∀ c, best = some c → c.isNaN = false

theorem definedBest_improve (h : DefinedBest best) (cost : Float) :
    DefinedBest (improve best cost) := by
  intro c hc
  rcases improve_eq_some hc with ⟨rfl,hcost⟩ | hbest
  · exact hcost
  · exact h c hbest

/-- A target that is met for the first time is met by the latest of the squared residuals. -/
theorem le_of_meets_improve (h : Meets (improve best cost) target) (hbest : ¬Meets best target) :
    cost ≤ target := by
  obtain ⟨c,hc,hle⟩ := h
  rcases improve_eq_some hc with ⟨rfl,_⟩ | hold
  · exact hle
  · exact absurd ⟨c,hold,hle⟩ hbest

/-- One below a target that is not infinite meets it. -/
theorem meets_improve_of_le (htop : Scalar.isTop target = false) (hbest : DefinedBest best)
    (h : cost ≤ target) : Meets (improve best cost) target := by
  have hcost : Scalar.isTop cost = false := Bool.eq_false_iff.mpr fun hc => by
    rw [Binary64.isTop_of_le hc h] at htop
    cases htop
  have hnan : cost.isNaN = false := (Binary64.le_iff.mp h).1
  cases best with
  | none =>
    refine ⟨cost,?_,h⟩
    rw [improve,hcost,Binary64.scalar_isNaN,hnan]
    rfl
  | some a =>
    by_cases hlt : cost < a
    · exact ⟨cost,by simp [improve,hlt],h⟩
    · refine ⟨a,by simp [improve,hlt],?_⟩
      by_contra hle
      exact hlt (Binary64.lt_of_le_of_not_le h (hbest a rfl) hle)

theorem definedBest_steps (hs : DefinedBest s.best) (h : steps A k s = .ok t) :
    DefinedBest t.best := by
  induction k generalizing s with
  | zero =>
    cases h
    exact hs
  | succ k ih =>
    obtain ⟨u,hu,h⟩ := Checked.bind_eq_ok.mp h
    refine ih ?_ h
    rw [best_step hu]
    exact definedBest_improve hs _

theorem square_step (h : step A s = .ok t) : t.square = Vec.dot t.residual t.residual := by
  obtain ⟨v,_,rfl⟩ := Checked.map_eq_ok.mp h
  rfl

/-- No step makes an undefined residual a defined one. -/
theorem defined_of_step (hs : Sized n s) (h : step A s = .ok t) (ht : Defined t.residual) :
    Defined s.residual := by
  obtain ⟨v,hv,rfl⟩ := Checked.map_eq_ok.mp h
  have hlen : s.residual.length = v.length := by
    rw [hs.residual,Operator.length_apply hv,hs.direction]
  exact (Binary64.hereditary_isNaN.of_axpy hlen ht).1

/-- The last step of some. -/
theorem exists_last_step (h : steps A (k + 1) s = .ok t) :
    ∃ u, steps A k s = .ok u ∧ step A u = .ok t := by
  rw [steps_add] at h
  obtain ⟨u,hu,h⟩ := Checked.bind_eq_ok.mp h
  obtain ⟨v,hv,h⟩ := Checked.bind_eq_ok.mp h
  cases h
  exact ⟨u,hu,hv⟩

/-- The squared residual of a defined residual is a number and needs no absolute value. -/
theorem square_eq_abs (h : step A s = .ok t) (ht : Defined t.residual) :
    t.square.isNaN = false ∧ Scalar.abs t.square = t.square := by
  rw [square_step h]
  exact ⟨Vec.isNaN_dot ht,Vec.abs_dot ht⟩

/-- A step that meets the target for the first time ends at a residual that does. -/
theorem le_of_meets_step (htop : Scalar.isTop target = false) (h : step A s = .ok t)
    (hs : s.meets target = false) (ht : t.meets target = true) :
    Defined t.residual ∧ t.square ≤ target := by
  rw [meets_iff htop,best_step h] at ht
  rw [← Bool.not_eq_true,meets_iff htop] at hs
  have hle := le_of_meets_improve ht hs
  have hnan : (Scalar.abs t.square).isNaN = false := (Binary64.le_iff.mp hle).1
  have hsquare : (Vec.dot t.residual t.residual).isNaN = false := by
    rw [← square_step h,← Binary64.isNaN_abs]
    exact hnan
  have hdef := Vec.defined_of_dot hsquare
  rw [(square_eq_abs h hdef).2] at hle
  exact ⟨hdef,hle⟩

/-- A step that does not meet the target does not end at a residual that does. -/
theorem not_le_of_misses_step (htop : Scalar.isTop target = false) (h : step A s = .ok t)
    (hbest : DefinedBest s.best) (hdef : Defined t.residual) (ht : t.meets target = false) :
    ¬t.square ≤ target := by
  intro hle
  rw [← (square_eq_abs h hdef).2] at hle
  rw [← Bool.not_eq_true,meets_iff htop,best_step h] at ht
  exact ht (meets_improve_of_le htop hbest hle)

/-- Where a run that has started meets a target that is not infinite for the first time, the squared
residual meets it too and is the least of all. -/
theorem Starts.least_of_meets (h : Starts A w ε x b s) (htop : Scalar.isTop target = false)
    (hk : steps (A.shifted w) k s = .ok t) (hmiss : Misses (A.shifted w) target k s)
    (hmeets : t.meets target = true) :
    1 ≤ k ∧ t.square = Vec.dot t.residual t.residual ∧ t.square ≤ target ∧
      ∀ j u, 1 ≤ j → j ≤ k → steps (A.shifted w) j s = .ok u → t.square ≤ u.square := by
  have hbest : s.best = none := by
    obtain ⟨_,_,rfl⟩ := Checked.map_eq_ok.mp h.start_eq
    rfl
  have hdefined : DefinedBest s.best := by simp [DefinedBest,hbest]
  have hsized := sized_start h.length_eq rfl h.start_eq
  cases k with
  | zero =>
    cases hk
    simp [meets_iff htop,Meets,hbest] at hmeets
  | succ k =>
    obtain ⟨v,hv,hlast⟩ := exists_last_step hk
    obtain ⟨hdef,hle⟩ := le_of_meets_step htop hlast (hmiss k v (by omega) hv) hmeets
    refine ⟨by omega,square_step hlast,hle,fun j u hj hjk hu => ?_⟩
    obtain ⟨j,rfl⟩ := Nat.exists_eq_succ_of_ne_zero (by omega : j ≠ 0)
    rcases Nat.eq_or_lt_of_le hjk with heq | hlt
    · rw [heq,hk] at hu
      cases hu
      exact Binary64.le_refl (square_eq_abs hlast hdef).1
    · obtain ⟨u',hu',hudef⟩ := hsized.exists_steps_before (Q := fun s => Defined s.residual)
        (fun _ _ => defined_of_step) hk hdef (j + 1) hjk
      obtain rfl : u = u' := Except.ok.inj (hu.symm.trans hu')
      obtain ⟨v',hv',hstep⟩ := exists_last_step hu
      have hnot := not_le_of_misses_step htop hstep (definedBest_steps hdefined hv') hudef
        (hmiss (j + 1) u hlt hu)
      exact Binary64.le_of_lt
        (Binary64.lt_of_le_of_not_le hle (square_eq_abs hstep hudef).1 hnot)

/-- A run that reports convergence had a good enough start, or it ends at a squared residual that is
no larger than the square of the bound, nor than that of any other iterate: exactly if the start is
good enough indeed, or the square of the bound does not overflow. -/
theorem converged_iff (h : solve maxIter w ε A x b = .ok (⟨.converged,k⟩,y)) :
    ∃ size s, residualNorm (A.shifted w) x b = .ok size ∧ start (A.shifted w) x b = .ok s ∧
      ((k = 0 ∧ y = x ∧ size ≤ ε ∨
        1 ≤ k ∧ ∃ t, steps (A.shifted w) k s = .ok t ∧ t.x = y ∧
          t.square = Vec.dot t.residual t.residual ∧ t.square ≤ ε * ε ∧
          ∀ j u, 1 ≤ j → j ≤ k → steps (A.shifted w) j s = .ok u → t.square ≤ u.square) ↔
        size ≤ ε ∨ Scalar.isTop (ε * ε) = false) := by
  obtain ⟨hlen,hsolve⟩ := Checked.unless_eq_ok.mp h
  obtain ⟨size,hsize,_⟩ := Checked.bind_eq_ok.mp hsolve
  have hlen := Decidable.of_not_not hlen
  obtain ⟨v,hv,_⟩ := Checked.map_eq_ok.mp hsize
  obtain ⟨s,hstart⟩ : ∃ s, start (A.shifted w) x b = .ok s :=
    ⟨_,Checked.map_eq_ok.mpr ⟨v,hv,rfl⟩⟩
  refine ⟨size,s,hsize,hstart,?_⟩
  by_cases hnear : size ≤ ε
  · rw [solve_of_le hlen hsize hnear] at h
    cases h
    exact iff_of_true (.inl ⟨rfl,rfl,hnear⟩) (.inl hnear)
  · have hs : Starts A w ε x b s := ⟨hlen,⟨size,hsize,hnear⟩,hstart⟩
    obtain ⟨t,hk,hy,hmiss,hend⟩ := hs.solve_eq_ok_iff.mp h
    obtain ⟨_,_,hmeets⟩ := hend.resolve_right fun h => by cases h.1
    cases htop : Scalar.isTop (ε * ε) with
    | false =>
      obtain ⟨hk1,hsquare,hle,hleast⟩ := hs.least_of_meets htop hk hmiss hmeets
      exact iff_of_true (.inr ⟨hk1,t,hk,hy,hsquare,hle,hleast⟩) (.inr rfl)
    | true =>
      -- Nothing has been recorded before the first step, and that is not above an infinite target.
      have hmeets' : s.meets (ε * ε) = true := by
        obtain ⟨_,_,rfl⟩ := Checked.map_eq_ok.mp hstart
        exact htop
      have hk0 : k = 0 := by
        by_contra hne
        simp [hmiss 0 s (Nat.pos_of_ne_zero hne) rfl] at hmeets'
      subst hk0
      simp [hnear]

theorem eq_ok_of_toOption {γ : Type} {r : Checked Float γ} {a : γ} (h : r.toOption = some a) :
    r = .ok a := by
  cases r with
  | error d => cases h
  | ok c =>
    cases h
    rfl

set_option maxRecDepth 100000 in
/-- The identity is solved in one step. -/
theorem converged_identity :
    solve 50 0 1e-6 .identity [0] [1] = .ok (⟨.converged,1⟩,([1] : List Float)) ∧
      ∃ s t : State Float, start (Operator.identity.shifted 0) [0] [1] = .ok s ∧
        steps (Operator.identity.shifted 0) 1 s = .ok t ∧ t.x = [1] ∧
        t.square ≤ 1e-6 * 1e-6 := by
  have h : solve 50 0 1e-6 .identity [0] [1] = .ok (⟨.converged,1⟩,([1] : List Float)) :=
    eq_ok_of_toOption (by decide +kernel)
  obtain ⟨size,s,_,hs,hiff⟩ := converged_iff h
  rcases hiff.mpr (.inr (by decide +kernel)) with ⟨h0,_⟩ | ⟨_,t,ht,hx,_,hle,_⟩
  · cases h0
  · exact ⟨h,s,t,hs,ht,hx,hle⟩

set_option maxRecDepth 100000 in
/-- An infinite target is met before any step, by a start whose residual is far above the bound. -/
theorem converged_overflow : ∃ size,
    solve 50 0 1e160 .identity [0] [1e200] = .ok (⟨.converged,0⟩,([0] : List Float)) ∧
      residualNorm (Operator.identity.shifted 0) [0] [1e200] = .ok size ∧
      (1e160 : Float).isNaN = false ∧ (0 : Float) ≤ 1e160 ∧ ¬size ≤ 1e160 := by
  refine ⟨1e200,eq_ok_of_toOption ?_,eq_ok_of_toOption ?_,?_,?_,?_⟩ <;> decide +kernel

end LinearInverse.ConjugateGradient
