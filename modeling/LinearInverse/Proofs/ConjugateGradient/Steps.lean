import LinearInverse.ConjugateGradient
import LinearInverse.Proofs.Progress

namespace LinearInverse

namespace ConjugateGradient
variable {α : Type} [Scalar α] {A : Operator α} {target : α} {s t : State α}

/-- The state after `k` steps. -/
def steps (A : Operator α) : Nat → State α → Checked α (State α)
  | 0, s => .ok s
  | k + 1, s => step A s >>= steps A k

theorem steps_succ (h : step A s = .ok t) (k : Nat) : steps A (k + 1) s = steps A k t := by
  rw [steps,h]
  rfl

/-- A run that has met its target takes no step. -/
theorem advance_of_meets (h : s.meets target = true) (fuel : Nat) :
    advance A target (fuel + 1) s = .ok (.converged,s) := by
  rw [advance,if_pos h]

/-- A run that has not goes on from the next state. -/
theorem advance_of_step (h : s.meets target = false) (ht : step A s = .ok t) (fuel : Nat) :
    advance A target (fuel + 1) s = advance A target fuel t := by
  rw [advance,h,ht]
  rfl

theorem iterations_step (h : step A s = .ok t) : t.iterations = s.iterations + 1 := by
  obtain ⟨y,_,rfl⟩ := Checked.map_eq_ok.mp h
  rfl

theorem iterations_steps {k : Nat} (h : steps A k s = .ok t) :
    t.iterations = s.iterations + k := by
  induction k generalizing s with
  | zero => cases h; rfl
  | succ k ih =>
    obtain ⟨u,hu,h⟩ := Checked.bind_eq_ok.mp h
    rw [ih h,iterations_step hu]
    omega

theorem best_step (h : step A s = .ok t) : t.best = improve s.best (Scalar.abs t.square) := by
  obtain ⟨y,_,rfl⟩ := Checked.map_eq_ok.mp h
  rfl

/-- The vectors of a state have length `n`. -/
structure Sized (n : Nat) (s : State α) : Prop where
  x : s.x.length = n
  residual : s.residual.length = n
  direction : s.direction.length = n

variable {n : Nat}

theorem Sized.of_step (h : Sized n s) (ht : step A s = .ok t) : Sized n t := by
  obtain ⟨y,hy,rfl⟩ := Checked.map_eq_ok.mp ht
  have hy := (Operator.length_apply hy).trans h.direction
  have hr := Vec.length_axpy h.residual hy (s.square / Vec.dot s.direction y)
  exact ⟨Vec.length_axpy h.x h.direction _,hr,
    Vec.length_axpy ((List.length_map _).trans hr) h.direction _⟩

theorem Sized.of_steps {k : Nat} (h : Sized n s) (ht : steps A k s = .ok t) : Sized n t := by
  induction k generalizing s with
  | zero => cases ht; exact h
  | succ k ih =>
    obtain ⟨u,hu,ht⟩ := Checked.bind_eq_ok.mp ht
    exact ih (h.of_step hu) ht

theorem sized_start {x b : List α} (hx : x.length = n) (hb : b.length = n)
    (h : start A x b = .ok s) : Sized n s := by
  obtain ⟨y,hy,rfl⟩ := Checked.map_eq_ok.mp h
  have hy := (Operator.length_apply hy).trans hx
  have hr : (negate (Vec.sub b y)).length = n := (List.length_map _).trans (Vec.length_sub hb hy)
  exact ⟨hx,hr,(List.length_map _).trans hr⟩

/-- A property that no step can restore has held all along where it holds at last. -/
theorem Sized.exists_steps_before {Q : State α → Prop}
    (hQ : ∀ s t, Sized n s → step A s = .ok t → Q t → Q s) {k : Nat} (hs : Sized n s)
    (h : steps A k s = .ok t) (ht : Q t) : ∀ j ≤ k, ∃ u, steps A j s = .ok u ∧ Q u := by
  induction k generalizing s with
  | zero =>
    intro j hj
    obtain rfl := Nat.le_zero.mp hj
    exact ⟨t,h,ht⟩
  | succ k ih =>
    obtain ⟨u,hu,h⟩ := Checked.bind_eq_ok.mp h
    have hih := ih (hs.of_step hu) h
    intro j hj
    cases j with
    | zero =>
      obtain ⟨v,hv,hlast⟩ := hih 0 (Nat.zero_le k)
      cases hv
      exact ⟨s,rfl,hQ s u hs hu hlast⟩
    | succ j =>
      obtain ⟨v,hv,hlast⟩ := hih j (Nat.le_of_succ_le_succ hj)
      exact ⟨v,(steps_succ hu j).trans hv,hlast⟩

theorem Sized.of_advance {status : Status} {fuel : Nat} (h : Sized n s)
    (ht : advance A target fuel s = .ok (status,t)) : Sized n t := by
  induction fuel generalizing s with
  | zero => cases ht; exact h
  | succ fuel ih =>
    rw [advance] at ht
    split at ht
    next => cases ht; exact h
    next =>
      obtain ⟨u,hu,ht⟩ := Checked.bind_eq_ok.mp ht
      exact ih (h.of_step hu) ht

theorem length_solve {maxIter : Nat} {w epsilon : α} {x b y : List α} {report : Report}
    (h : solve maxIter w epsilon A x b = .ok (report,y)) : y.length = x.length := by
  obtain ⟨hlen,h⟩ := Checked.unless_eq_ok.mp h
  obtain ⟨size,_,h⟩ := Checked.bind_eq_ok.mp h
  split at h
  next => cases h; rfl
  next =>
    obtain ⟨⟨status,t⟩,ht,h⟩ := Checked.bind_eq_ok.mp h
    obtain ⟨s,hs,ht⟩ := Checked.bind_eq_ok.mp ht
    cases h
    exact ((sized_start rfl (Decidable.of_not_not hlen).symm hs).of_advance ht).x

theorem exists_step {y : List α} (hy : A.apply s.direction = .ok y) : ∃ t, step A s = .ok t :=
  ⟨_,by rw [step,hy]; rfl⟩

theorem Sized.exists_advance (h : Sized n s)
    (hA : ∀ x, x.length = n → ∃ y, A.apply x = .ok y) (target : α) (fuel : Nat) :
    ∃ status k t, advance A target fuel s = .ok (status,t) ∧ steps A k s = .ok t := by
  induction fuel generalizing s with
  | zero => exact ⟨.maxIterReached,0,s,rfl,rfl⟩
  | succ fuel ih =>
    cases hmeets : s.meets target with
    | true => exact ⟨.converged,0,s,advance_of_meets hmeets fuel,rfl⟩
    | false =>
      obtain ⟨y,hy⟩ := hA s.direction h.direction
      obtain ⟨t,ht⟩ := exists_step hy
      obtain ⟨status,k,u,hu,hk⟩ := ih (h.of_step ht)
      exact ⟨status,k + 1,u,(advance_of_step hmeets ht fuel).trans hu,(steps_succ ht k).trans hk⟩

/-- A solve ends at the state after some of its steps, with none of them for a start that is good
enough. -/
theorem exists_solve {x b : List α} (hx : x.length = n) (hb : b.length = n) {w : α}
    (hA : ∀ x, x.length = n → ∃ y, (A.shifted w).apply x = .ok y) (maxIter : Nat) (epsilon : α) :
    ∃ status k s t, solve maxIter w epsilon A x b = .ok (⟨status,k⟩,t.x) ∧
      start (A.shifted w) x b = .ok s ∧ steps (A.shifted w) k s = .ok t := by
  obtain ⟨y,hy⟩ := hA x hx
  have hstart : ∃ s, start (A.shifted w) x b = .ok s ∧ s.x = x ∧ s.iterations = 0 :=
    ⟨_,by rw [start,hy]; rfl,rfl,rfl⟩
  obtain ⟨s,hs,hsx,hs0⟩ := hstart
  obtain ⟨status,k,t,ht,hk⟩ := (sized_start hx hb hs).exists_advance hA (epsilon * epsilon) maxIter
  have hsolve : solve maxIter w epsilon A x b =
      if Vec.norm (Vec.sub b y) ≤ epsilon then .ok (⟨.converged,0⟩,x)
      else .ok (⟨status,t.iterations⟩,t.x) := by
    rw [solve,if_neg (by omega)]
    simp only [residualNorm,hy,hs,Except.map,bind,Except.bind,ht]
  rw [hsolve]
  split
  next => exact ⟨.converged,0,s,s,by rw [hsx],hs,rfl⟩
  next => exact ⟨status,k,s,t,by rw [iterations_steps hk,hs0,Nat.zero_add],hs,hk⟩

/-- A run adds a report to a solve, which only a ground truth of another length prevents. -/
theorem exists_run {x b : List α} (hx : x.length = n) (hb : b.length = n) {w : α}
    (hA : ∀ x, x.length = n → ∃ y, (A.shifted w).apply x = .ok y) (maxIter : Nat) (epsilon : α)
    {monitor : Monitor α} (hm : ∀ t, monitor.truth = some t → t.length = n) :
    ∃ status k s t e, solve maxIter w epsilon A x b = .ok (⟨status,k⟩,t.x) ∧
      run maxIter w epsilon A x b monitor = .ok ⟨⟨status,k⟩,t.x,[e]⟩ ∧
      start (A.shifted w) x b = .ok s ∧ steps (A.shifted w) k s = .ok t := by
  obtain ⟨status,k,s,t,hsolve,hs,hk⟩ := exists_solve hx hb hA maxIter epsilon
  have ht := ((sized_start hx hb hs).of_steps hk).x
  obtain ⟨y,hy⟩ := hA t.x ht
  obtain ⟨e,he⟩ := monitor.exists_report (fun u hu => (hm u hu).trans ht.symm) k
    (Vec.norm (Vec.sub b y))
  refine ⟨status,k,s,t,e,hsolve,?_,hs,hk⟩
  rw [run,hsolve]
  simp only [bind,Except.bind,residualNorm,hy,Except.map,he]

end ConjugateGradient

end LinearInverse
