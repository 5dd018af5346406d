import LinearInverse.Proofs.ConjugateGradient.Steps

namespace LinearInverse.ConjugateGradient
variable {α : Type} [Scalar α] {A : Operator α} {target w epsilon : α} {s t : State α}
  {status : Status} {x b y : List α} {k fuel : Nat}

theorem steps_add (A : Operator α) (m n : Nat) (s : State α) :
    steps A (m + n) s = steps A m s >>= steps A n := by
  induction m generalizing s with
  | zero => rw [Nat.zero_add]; rfl
  | succ m ih =>
    rw [Nat.succ_add,steps,steps,bind_assoc]
    exact congrArg _ (funext ih)

/-- No state before step `k` meets the target. -/
def Misses (A : Operator α) (target : α) (k : Nat) (s : State α) : Prop :=
  ∀ j u, j < k → steps A j s = .ok u → u.meets target = false

theorem misses_succ (hs : s.meets target = false) (ht : step A s = .ok t) :
    Misses A target (k + 1) s ↔ Misses A target k t := by
  constructor
  · intro h j u hj hu
    exact h (j + 1) u (Nat.succ_lt_succ hj) ((steps_succ ht j).trans hu)
  · intro h j u hj hu
    cases j with
    | zero =>
      cases hu
      exact hs
    | succ j => exact h j u (Nat.lt_of_succ_lt_succ hj) ((steps_succ ht j).symm.trans hu)

/-- A run stops at the first state that meets the target, if it has a step left there. -/
theorem advance_eq_ok_iff : advance A target fuel s = .ok (status,t) ↔
    ∃ k, steps A k s = .ok t ∧ Misses A target k s ∧
      (status = .converged ∧ k < fuel ∧ t.meets target = true ∨
        status = .maxIterReached ∧ k = fuel) := by
  -- The cap comes before the target, so the state at the cap may well meet the target.
  induction fuel generalizing s with
  | zero =>
    constructor
    · intro h
      cases h
      exact ⟨0,rfl,nofun,.inr ⟨rfl,rfl⟩⟩
    · rintro ⟨k,hk,_,⟨_,hlt,_⟩ | ⟨rfl,rfl⟩⟩
      · exact absurd hlt (Nat.not_lt_zero k)
      · cases hk
        rfl
  | succ fuel ih =>
    cases hmeets : s.meets target with
    | true =>
      rw [advance_of_meets hmeets]
      constructor
      · intro h
        cases h
        exact ⟨0,rfl,nofun,.inl ⟨rfl,Nat.succ_pos fuel,hmeets⟩⟩
      · rintro ⟨k,hk,hmiss,h⟩
        cases k with
        | zero =>
          cases hk
          obtain ⟨rfl,_⟩ | ⟨_,h⟩ := h
          · rfl
          · cases h
        | succ k =>
          rw [hmiss 0 s (Nat.succ_pos k) rfl] at hmeets
          cases hmeets
    | false =>
      rw [advance,hmeets,if_neg Bool.false_ne_true,Checked.bind_eq_ok]
      constructor
      · rintro ⟨u,hu,h⟩
        obtain ⟨k,hk,hmiss,h⟩ := ih.mp h
        exact ⟨k + 1,(steps_succ hu k).trans hk,(misses_succ hmeets hu).mpr hmiss,
          h.imp (And.imp_right (And.imp_left Nat.succ_lt_succ)) (And.imp_right (congrArg _))⟩
      · rintro ⟨k,hk,hmiss,h⟩
        cases k with
        | zero =>
          cases hk
          obtain ⟨_,_,hmet⟩ | ⟨_,hfull⟩ := h
          · cases hmeets.symm.trans hmet
          · cases hfull
        | succ k =>
          obtain ⟨u,hu,hk⟩ := Checked.bind_eq_ok.mp hk
          exact ⟨u,hu,ih.mpr ⟨k,hk,(misses_succ hmeets hu).mp hmiss,
            h.imp (And.imp_right (And.imp_left Nat.lt_of_succ_lt_succ))
              (And.imp_right Nat.succ.inj)⟩⟩

/-- A solve whose start is not good enough already. -/
structure Starts (A : Operator α) (w epsilon : α) (x b : List α) (s : State α) : Prop where
  length_eq : x.length = b.length
  far : ∃ size, residualNorm (A.shifted w) x b = .ok size ∧ ¬size ≤ epsilon
  start_eq : start (A.shifted w) x b = .ok s

theorem Starts.iterations_eq (h : Starts A w epsilon x b s) (hk : steps (A.shifted w) k s = .ok t) :
    t.iterations = k := by
  obtain ⟨z,_,rfl⟩ := Checked.map_eq_ok.mp h.start_eq
  rw [iterations_steps hk,Nat.zero_add]

theorem Starts.solve_eq_ok_iff (h : Starts A w epsilon x b s) {r : Report} :
    solve fuel w epsilon A x b = .ok (r,y) ↔
      ∃ t, steps (A.shifted w) r.iterations s = .ok t ∧ t.x = y ∧
        Misses (A.shifted w) (epsilon * epsilon) r.iterations s ∧
        (r.status = .converged ∧ r.iterations < fuel ∧ t.meets (epsilon * epsilon) = true ∨
          r.status = .maxIterReached ∧ r.iterations = fuel) := by
  obtain ⟨size,hsize,hfar⟩ := h.far
  have hsolve : solve fuel w epsilon A x b =
      (advance (A.shifted w) (epsilon * epsilon) fuel s).map fun r =>
        (⟨r.1,r.2.iterations⟩,r.2.x) := by
    rw [solve,if_neg (not_not_intro h.length_eq)]
    simp only [hsize,h.start_eq,bind,Except.bind,if_neg hfar]
    cases advance (A.shifted w) (epsilon * epsilon) fuel s <;> rfl
  rw [hsolve,Checked.map_eq_ok]
  constructor
  · rintro ⟨⟨status,t⟩,ht,heq⟩
    obtain ⟨rfl,rfl⟩ := Prod.mk.inj heq
    obtain ⟨k,hk,hmiss,hend⟩ := advance_eq_ok_iff.mp ht
    obtain rfl := h.iterations_eq hk
    exact ⟨t,hk,rfl,hmiss,hend⟩
  · rintro ⟨t,hk,rfl,hmiss,hend⟩
    refine ⟨(r.status,t),advance_eq_ok_iff.mpr ⟨_,hk,hmiss,hend⟩,?_⟩
    change (Report.mk r.status t.iterations,t.x) = _
    rw [h.iterations_eq hk]

theorem solve_of_le {size : α} (hlen : x.length = b.length)
    (hsize : residualNorm (A.shifted w) x b = .ok size) (hle : size ≤ epsilon) (fuel : Nat) :
    solve fuel w epsilon A x b = .ok (⟨.converged,0⟩,x) := by
  rw [solve,if_neg (not_not_intro hlen)]
  simp only [hsize,bind,Except.bind,if_pos hle]

/-- A solve returns its start if that is good enough, and otherwise goes through its steps. -/
theorem solve_cases {r : Report} (h : solve fuel w epsilon A x b = .ok (r,y)) :
    (r = ⟨.converged,0⟩ ∧ ∀ n, solve n w epsilon A x b = .ok (r,y)) ∨
      ∃ s, Starts A w epsilon x b s := by
  obtain ⟨hlen,h'⟩ := Checked.unless_eq_ok.mp h
  obtain ⟨size,hsize,h'⟩ := Checked.bind_eq_ok.mp h'
  split at h'
  next hle =>
    cases h'
    exact .inl ⟨rfl,solve_of_le (Decidable.of_not_not hlen) hsize hle⟩
  next hfar =>
    obtain ⟨_,h',_⟩ := Checked.bind_eq_ok.mp h'
    obtain ⟨s,hs,_⟩ := Checked.bind_eq_ok.mp h'
    exact .inr ⟨s,Decidable.of_not_not hlen,⟨size,hsize,hfar⟩,hs⟩

/-- A larger cap never ends a run earlier. -/
theorem Starts.iterations_le {fuel' : Nat} {r r' : Report} {y' : List α}
    (h : Starts A w epsilon x b s) (hm : fuel ≤ fuel')
    (hr : solve fuel w epsilon A x b = .ok (r,y))
    (hr' : solve fuel' w epsilon A x b = .ok (r',y')) : r.iterations ≤ r'.iterations := by
  obtain ⟨t,_,_,hmiss,hend⟩ := h.solve_eq_ok_iff.mp hr
  obtain ⟨t',ht',_,_,hend'⟩ := h.solve_eq_ok_iff.mp hr'
  refine Nat.le_of_not_lt fun hlt => ?_
  have hmisses := hmiss _ t' hlt ht'
  rcases hend' with ⟨_,_,hmeets⟩ | ⟨_,hfull⟩
  · simp [hmisses] at hmeets
  · omega

end LinearInverse.ConjugateGradient
