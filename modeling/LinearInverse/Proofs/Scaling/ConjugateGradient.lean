import LinearInverse.Proofs.Parallel
import LinearInverse.Proofs.Scaling.Maps

namespace LinearInverse.ConjugateGradient
variable {c : ℝ} {n : Nat} {A A' : Operator ℝ} {s : State ℝ} {x b : List ℝ}

theorem negate_scale (c : ℝ) (x : List ℝ) : negate (Vec.scale c x) = Vec.scale c (negate x) := by
  rw [negate,negate,Vec.scale,Vec.scale,List.map_map,List.map_map]
  exact List.map_congr_left fun v _ => (neg_mul v c).symm

/-- The state of the run on the multiples. -/
noncomputable def State.scaled (c : ℝ) (s : State ℝ) : State ℝ :=
  ⟨Vec.scale c s.x,Vec.scale c s.residual,Vec.scale c s.direction,c * c * s.square,
    s.best.map (c * c * ·),s.iterations⟩

theorem improve_scaled (hc : 0 < c) (best : Option ℝ) (v : ℝ) :
    improve (best.map (c * c * ·)) (c * c * v) = (improve best v).map (c * c * ·) := by
  cases best with
  | none => simp [improve]
  | some w =>
    simp only [improve,Option.map_some,mul_lt_mul_iff_right₀ (mul_pos hc hc)]
    split <;> rfl

theorem start_scaled (hA : Operator.ScaledBy c n A A') (hx : x.length = n) (b : List ℝ) :
    start A' (Vec.scale c x) (Vec.scale c b) = (start A x b).map (State.scaled c) := by
  rw [start,start,hA x hx,Checked.map_map,Checked.map_map]
  refine congrArg (Except.map · (A.apply x)) (funext fun y => ?_)
  simp only [State.scaled,Vec.sub_scale,negate_scale,Vec.dot_scale,Option.map_none]

/-- Step length and weight are quotients of numbers that grow alike. -/
theorem step_scaled (hA : Operator.ScaledBy c n A A') (hc : 0 < c) (hs : Sized n s) :
    step A' (s.scaled c) = (step A s).map (State.scaled c) := by
  have hquotient (v w : ℝ) : c * c * v / (c * c * w) = v / w :=
    mul_div_mul_left v w (mul_pos hc hc).ne'
  have habs (v : ℝ) : |c * c * v| = c * c * |v| := by
    rw [abs_mul,abs_of_pos (mul_pos hc hc)]
  rw [step,step,State.scaled,hA s.direction hs.direction,Checked.map_map,Checked.map_map]
  refine congrArg (Except.map · (A.apply s.direction)) (funext fun y => ?_)
  simp only [State.scaled,Vec.dot_scale,hquotient,Vec.axpy_scale,negate_scale,Scalar.real_abs,
    habs,improve_scaled hc]

theorem meets_scaled (hc : 0 < c) (s : State ℝ) (target : ℝ) :
    (s.scaled c).meets (c * c * target) = s.meets target := by
  rw [State.meets,State.meets,State.scaled]
  cases s.best with
  | none => rfl
  | some v => simp only [Option.map_some,mul_le_mul_iff_right₀ (mul_pos hc hc)]

theorem advance_scaled (hA : Operator.ScaledBy c n A A') (hc : 0 < c) (hs : Sized n s)
    (target : ℝ) (fuel : Nat) :
    advance A' (c * c * target) fuel (s.scaled c) =
      (advance A target fuel s).map fun (status,t) => (status,t.scaled c) := by
  induction fuel generalizing s with
  | zero => rfl
  | succ fuel ih =>
    rw [advance,advance,meets_scaled hc,step_scaled hA hc hs]
    split
    · rfl
    · rw [Checked.bind_map,Checked.map_bind]
      exact Checked.bind_congr fun t ht => ih (hs.of_step ht)

theorem residualNorm_scaled (hA : Operator.ScaledBy c n A A') (hc : 0 < c) (hx : x.length = n)
    (b : List ℝ) :
    residualNorm A' (Vec.scale c x) (Vec.scale c b) = (residualNorm A x b).map (c * ·) := by
  rw [residualNorm,residualNorm,hA x hx,Checked.map_map,Checked.map_map]
  refine congrArg (Except.map · (A.apply x)) (funext fun y => ?_)
  rw [Vec.sub_scale,Vec.norm_scale hc.le]

/-- The report is the same, and the image grows with the data. -/
theorem solve_scaled (hA : Operator.ScaledBy c n A A') (hc : 0 < c) (hx : x.length = n)
    (maxIter : Nat) (w epsilon : ℝ) (b : List ℝ) :
    solve maxIter w (c * epsilon) A' (Vec.scale c x) (Vec.scale c b) =
      (solve maxIter w epsilon A x b).map fun (report,y) => (report,Vec.scale c y) := by
  have htarget : c * epsilon * (c * epsilon) = c * c * (epsilon * epsilon) := by ring
  rw [solve,solve,Vec.length_scale,Vec.length_scale]
  split
  next => rfl
  next hb =>
    have hb : b.length = n := (Decidable.of_not_not hb).symm.trans hx
    have hS := hA.shifted w
    have hsteps : start (A'.shifted w) (Vec.scale c x) (Vec.scale c b) >>=
        advance (A'.shifted w) (c * epsilon * (c * epsilon)) maxIter =
          (start (A.shifted w) x b >>= advance (A.shifted w) (epsilon * epsilon) maxIter).map
            fun (status,t) => (status,t.scaled c) := by
      rw [start_scaled hS hx,htarget,Checked.bind_map,Checked.map_bind]
      exact Checked.bind_congr fun t ht => advance_scaled hS hc (sized_start hx hb ht) _ _
    simp only [residualNorm_scaled hS hc hx,Checked.bind_map,Checked.map_bind,
      mul_le_mul_iff_right₀ hc]
    refine Checked.bind_congr fun size _ => ?_
    split
    next => rfl
    next =>
      rw [hsteps,Checked.bind_map,Checked.map_bind]
      rfl

theorem both_run (hA : Operator.ScaledBy c n A A') (hc : 0 < c) (hx : x.length = n)
    {m m' : Monitor ℝ} (htruth : m'.truth.map List.length = m.truth.map List.length)
    (maxIter : Nat) (w epsilon : ℝ) (b : List ℝ) :
    Checked.Both (Solution.ScaledBy c) (run maxIter w epsilon A x b m)
      (run maxIter w (c * epsilon) A' (Vec.scale c x) (Vec.scale c b) m') := by
  have hsolve := Checked.Both.of_eq_map (solve_scaled hA hc hx maxIter w epsilon b)
  refine hsolve.bind fun (report,y) (report',y') hy h => ?_
  obtain ⟨rfl,rfl⟩ := Prod.mk.inj h
  have hlen : y.length = n := (length_solve hy).trans hx
  have hsize := Checked.Both.of_eq_map (residualNorm_scaled (hA.shifted w) hc hlen b)
  refine hsize.bind fun size size' _ _ => ?_
  refine (Monitor.both_report htruth (Vec.length_scale c y) _ _ _ _).map ?_
  rintro e e' ⟨p,p',rfl,rfl⟩
  exact ⟨rfl,rfl,rfl⟩

end LinearInverse.ConjugateGradient
