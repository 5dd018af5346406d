import LinearInverse.Proofs.ConjugateGradient.Termination
import LinearInverse.Proofs.ConjugateGradient.Stopping

namespace LinearInverse

theorem Vec.dot_self_nonneg (x : List ℝ) : 0 ≤ Vec.dot x x := by
  obtain ⟨v,hv⟩ := exists_coords (rfl : x.length = x.length)
  rw [← hv,Vec.dot_coords]
  exact real_inner_self_nonneg

/-- With a positive weight every system has a solution. -/
theorem mem_range_shifted {n : Nat} {L : Space n →ₗ[ℝ] Space n} (hL : L.IsPositive) {w : ℝ}
    (hw : 0 < w) (b : Space n) : b ∈ LinearMap.range (L + w • LinearMap.id) := by
  have hinj : Function.Injective (L + w • LinearMap.id : Space n →ₗ[ℝ] Space n) := by
    refine (injective_iff_map_eq_zero _).mpr fun x hx => ?_
    have hsum : inner ℝ x (L x) + w * inner ℝ x x = 0 := by
      simpa [inner_add_right,real_inner_smul_right] using congrArg (inner ℝ x) hx
    have hpos : 0 ≤ inner ℝ x (L x) := by simpa using hL.inner_nonneg_right x
    have hnonneg : 0 ≤ inner ℝ x x := real_inner_self_nonneg
    exact inner_self_eq_zero.mp (by nlinarith : inner ℝ x x = 0)
  exact LinearMap.mem_range.mpr (LinearMap.surjective_of_injective hinj b)

namespace ConjugateGradient
variable {n k m : Nat} {A : Operator ℝ} {B : Space n →ₗ[ℝ] Space n} {b : Space n}
  {s t u : State ℝ} {target w ε : ℝ}

/-- The first `k` steps divide by no zero: neither the curvature along the direction nor the squared
residual is one. -/
def Divides (A : Operator ℝ) (k : Nat) (s : State ℝ) : Prop :=
  ∀ j < k, ∃ u v, steps A j s = .ok u ∧ A.apply u.direction = .ok v ∧
    Vec.dot u.direction v ≠ 0 ∧ u.square ≠ 0

theorem Divides.mono (h : Divides A m s) (hk : k ≤ m) : Divides A k s :=
  fun j hj => h j (by omega)

/-- The first step and the steps after it. -/
theorem Divides.succ {v : List ℝ} (h : Divides A m t) (ht : step A s = .ok t)
    (hv : A.apply s.direction = .ok v) (hdot : Vec.dot s.direction v ≠ 0) (hs : s.square ≠ 0) :
    Divides A (m + 1) s := by
  intro j hj
  cases j with
  | zero => exact ⟨s,v,rfl,hv,hdot,hs⟩
  | succ j =>
    obtain ⟨u,v,hu,huv⟩ := h j (by omega)
    exact ⟨u,v,(steps_succ ht j).trans hu,huv⟩

/-- A state whose direction has no curvature. -/
structure Stuck (A : Operator ℝ) (B : Space n →ₗ[ℝ] Space n) (b : Space n) (u : State ℝ) :
    Prop where
  flat : ∃ v, A.apply u.direction = .ok v ∧ Vec.dot u.direction v = 0
  /-- All is well there only if the residual is zero. -/
  square_eq_zero_iff : u.square = 0 ↔ b ∈ LinearMap.range B

theorem Points.stuck {x r p : Space n} {K : Submodule ℝ (Space n)} (h : Points B b u x r p K)
    (hA : A.ActsAs B) (hB : B.IsPositive) (hp : inner ℝ p (B p) = 0) : Stuck A B b u := by
  refine ⟨⟨coords (B p),?_,?_⟩,?_⟩
  · simp [h.direction_eq,hA p]
  · simpa [h.direction_eq,Vec.dot_coords] using hp
  · rw [h.square_eq,inner_self_eq_zero,h.conjugate.residual_eq_zero_iff hB hp]

/-- Each step takes up a dimension, so one of the first directions has no curvature. -/
theorem Points.exists_stuck {d : Nat} (hA : A.ActsAs B) (hB : B.IsPositive) {x r p : Space n}
    {K : Submodule ℝ (Space n)} (h : Points B b s x r p K) (hd : n ≤ Module.finrank ℝ K + d) :
    ∃ m ≤ d, Divides A m s ∧ ∃ u, steps A m s = .ok u ∧ Stuck A B b u := by
  induction d generalizing s x r p K with
  | zero =>
    have hr : r = 0 := h.conjugate.residual_eq_zero (by simpa using hd)
    have hp : inner ℝ p (B p) = 0 := by
      by_contra hp
      exact h.conjugate.residual_ne_zero hp hr
    exact ⟨0,le_rfl,by simp [Divides],s,rfl,h.stuck hA hB hp⟩
  | succ d ih =>
    by_cases hp : inner ℝ p (B p) = 0
    · exact ⟨0,Nat.zero_le _,by simp [Divides],s,rfl,h.stuck hA hB hp⟩
    · obtain ⟨t,r',p',ht,h'⟩ := h.exists_step hA hB hp
      have hr : r ≠ 0 := h.conjugate.residual_ne_zero hp
      have hK := h.conjugate.finrank_lt_step hr
      obtain ⟨m,hm,hdiv,u,hu,hstuck⟩ := ih h' (by omega)
      refine ⟨m + 1,by omega,hdiv.succ (v := coords (B p)) ht ?_ ?_ ?_,u,
        (steps_succ ht m).trans hu,hstuck⟩
      · simp [h.direction_eq,hA p]
      · simpa [h.direction_eq,Vec.dot_coords] using hp
      · simpa [h.square_eq] using hr

/-- A run divides by zero exactly if it goes on from a direction without curvature. -/
theorem divides_iff_le (h : Divides A m s) (hu : steps A m s = .ok u) (hstuck : Stuck A B b u) :
    Divides A k s ↔ k ≤ m := by
  constructor
  · intro hk
    by_contra hlt
    obtain ⟨u',v',hu',hv',hne,_⟩ := hk m (by omega)
    obtain ⟨v,hv,hzero⟩ := hstuck.flat
    obtain rfl : u = u' := Except.ok.inj (hu.symm.trans hu')
    obtain rfl : v = v' := Except.ok.inj (hv.symm.trans hv')
    exact hne hzero
  · exact h.mono

/-- While a run goes on, its smallest squared residual meets the target if the current one does. -/
theorem meets_steps (hs : s.meets target = decide (s.square ≤ target))
    (hmiss : Misses A target k s) {j : Nat} (hj : j ≤ k) (hu : steps A j s = .ok u) :
    u.meets target = decide (u.square ≤ target) := by
  induction j generalizing k s with
  | zero =>
    cases hu
    exact hs
  | succ j ih =>
    obtain ⟨t,ht,hu⟩ := Checked.bind_eq_ok.mp hu
    have hs' : s.meets target = false := hmiss 0 s (by omega) rfl
    have hnonneg : 0 ≤ t.square := by
      obtain ⟨y,_,rfl⟩ := Checked.map_eq_ok.mp ht
      exact Vec.dot_self_nonneg _
    obtain ⟨k,rfl⟩ := Nat.exists_eq_succ_of_ne_zero (by omega : k ≠ 0)
    exact ih (meets_step ht hs' hnonneg) ((misses_succ hs' ht).mp hmiss) (by omega) hu

/-- Where a run ends: no later than step `m` if the cap or a small residual up to there ends it. -/
theorem Starts.iterations_le_iff {x b : List ℝ} {maxIter : Nat} {r : Report} {y : List ℝ}
    (h : Starts A w ε x b s) (hs : s.meets (ε * ε) = decide (s.square ≤ ε * ε))
    (hr : solve maxIter w ε A x b = .ok (r,y)) :
    r.iterations ≤ m ↔
      maxIter ≤ m ∨ ∃ j ≤ m, ∃ u, steps (A.shifted w) j s = .ok u ∧ u.square ≤ ε * ε := by
  obtain ⟨t,ht,_,hmiss,hend⟩ := h.solve_eq_ok_iff.mp hr
  constructor
  · intro hle
    rcases hend with ⟨_,_,hmeets⟩ | ⟨_,hfull⟩
    · rw [meets_steps hs hmiss le_rfl ht,decide_eq_true_iff] at hmeets
      exact .inr ⟨r.iterations,hle,t,ht,hmeets⟩
    · exact .inl (by omega)
  · intro hend'
    rcases hend' with hcap | ⟨j,hj,u,hu,hsmall⟩
    · rcases hend with ⟨_,hlt,_⟩ | ⟨_,hfull⟩ <;> omega
    · by_contra hlt
      have hlate : j < r.iterations := by omega
      have hmisses := hmiss j u hlate hu
      simp [meets_steps hs hmiss hlate.le hu,hsmall] at hmisses

/-- A run divides by no zero exactly if it does not go on from a direction without curvature. -/
theorem Stuck.divides_iff {x : Space n} {maxIter : Nat} {r : Report} {y : List ℝ}
    (hstuck : Stuck (A.shifted w) B b u) (hS : (A.shifted w).ActsAs B) (hε : 0 ≤ ε)
    (hstart : start (A.shifted w) (coords x) (coords b) = .ok s)
    (hdiv : Divides (A.shifted w) m s) (hu : steps (A.shifted w) m s = .ok u)
    (hr : solve maxIter w ε A (coords x) (coords b) = .ok (r,y)) :
    Divides (A.shifted w) r.iterations s ↔ b ∈ LinearMap.range B ∨ maxIter ≤ m ∨
      ∃ j ≤ m, ∃ u, steps (A.shifted w) j s = .ok u ∧ u.square ≤ ε * ε := by
  have hrange (hb : b ∈ LinearMap.range B) :
      ∃ j ≤ m, ∃ u, steps (A.shifted w) j s = .ok u ∧ u.square ≤ ε * ε := by
    have hsquare := hstuck.square_eq_zero_iff.mpr hb
    exact ⟨m,le_rfl,u,hu,by nlinarith⟩
  rw [divides_iff_le hdiv hu hstuck,or_iff_right_of_imp fun hb => .inr (hrange hb)]
  obtain ⟨s',hs',hbest,_,hpoints⟩ := exists_points hS x b
  obtain rfl : s = s' := Except.ok.inj (hstart.symm.trans hs')
  have hsquare : s.square = ‖b - B x‖ * ‖b - B x‖ := by
    rw [hpoints.square_eq,real_inner_self_eq_norm_mul_norm,norm_sub_rev]
  by_cases hnear : ‖b - B x‖ ≤ ε
  · rw [solve_of_le (by simp) (residualNorm_coords hS x b) hnear] at hr
    cases hr
    refine iff_of_true (Nat.zero_le m) (.inr ⟨0,Nat.zero_le m,s,rfl,?_⟩)
    rw [hsquare]
    exact mul_self_le_mul_self (norm_nonneg _) hnear
  · have hstarts : Starts A w ε (coords x) (coords b) s :=
      ⟨by simp,⟨_,residualNorm_coords hS x b,hnear⟩,hstart⟩
    have hlt : ε * ε < s.square := by
      rw [hsquare]
      exact mul_self_lt_mul_self hε (not_le.mp hnear)
    exact hstarts.iterations_le_iff (by simp [State.meets,hbest,hlt]) hr

theorem exists_apply (hA : A.ActsAs B) {z : List ℝ} (hz : z.length = n) :
    ∃ y, A.apply z = .ok y := by
  obtain ⟨z,rfl⟩ := exists_coords hz
  exact ⟨_,hA z⟩

/-- On a positive semi-definite system, whether it has a solution or not, the first `m` steps divide
by no zero, `m` at most the dimension, and a further step would divide by a curvature of zero. The
residual is zero there exactly if the system has a solution, as it always has with a positive
weight. A run divides by no zero exactly if it does not go on from there: the system has a solution,
the cap cuts the run short, or a residual up to there is small enough. -/
theorem solve_divides_iff {L : Space n →ₗ[ℝ] Space n} (hA : A.ActsAs L) (hL : L.IsPositive)
    (hw : 0 ≤ w) (hε : 0 ≤ ε) (x b : Space n) :
    ∃ s m, start (A.shifted w) (coords x) (coords b) = .ok s ∧ m ≤ n ∧
      Divides (A.shifted w) m s ∧
      (∃ u v, steps (A.shifted w) m s = .ok u ∧ (A.shifted w).apply u.direction = .ok v ∧
        Vec.dot u.direction v = 0 ∧
        (u.square = 0 ↔ b ∈ LinearMap.range (L + w • LinearMap.id))) ∧
      (0 < w → b ∈ LinearMap.range (L + w • LinearMap.id)) ∧
      ∀ maxIter, ∃ status k y, solve maxIter w ε A (coords x) (coords b) = .ok (⟨status,k⟩,y) ∧
        (Divides (A.shifted w) k s ↔ b ∈ LinearMap.range (L + w • LinearMap.id) ∨ maxIter ≤ m ∨
          ∃ j ≤ m, ∃ u, steps (A.shifted w) j s = .ok u ∧ u.square ≤ ε * ε) := by
  have hS := hA.shifted w
  have hB := isPositive_shifted hL hw
  obtain ⟨s,hstart,_,_,hs⟩ := exists_points hS x b
  obtain ⟨m,hm,hdiv,u,hu,hstuck⟩ := hs.exists_stuck hS hB (d := n) (by omega)
  obtain ⟨v,hv,hzero⟩ := hstuck.flat
  refine ⟨s,m,hstart,hm,hdiv,⟨u,v,hu,hv,hzero,hstuck.square_eq_zero_iff⟩,
    fun hpos => mem_range_shifted hL hpos b,?_⟩
  intro maxIter
  obtain ⟨status,k,_,t,hr,_,_⟩ := exists_solve (length_coords x) (length_coords b)
    (fun z hz => exists_apply hS hz) maxIter ε
  exact ⟨status,k,t.x,hr,hstuck.divides_iff hS hε hstart hdiv hu hr⟩

/-- The second entry is not measured, and the data have one there: with a weight that is no harm. -/
theorem solve_divides_firstEntry : ∃ s status k y,
    start ((Operator.diagonal [1,0]).shifted 1) (coords (0 : Space 2)) (coords !₂[1,1]) = .ok s ∧
      solve 5 1 0 (.diagonal [1,0]) (coords (0 : Space 2)) (coords !₂[1,1]) =
        .ok (⟨status,k⟩,y) ∧
      Divides ((Operator.diagonal [1,0]).shifted 1) k s := by
  obtain ⟨s,_,hstart,_,_,_,hrange,hsolve⟩ := solve_divides_iff actsAs_firstEntry
    isPositive_firstEntry zero_le_one le_rfl 0 !₂[1,1]
  obtain ⟨status,k,y,hr,hiff⟩ := hsolve 5
  exact ⟨s,status,k,y,hstart,hr,hiff.mpr (.inl (hrange one_pos))⟩

theorem apply_firstEntry (a b : ℝ) :
    ((Operator.diagonal [1,0]).shifted 0).apply [a,b] = .ok [a,0] := by
  simp [Operator.shifted,Operator.apply,Operator.diagonal,Operator.square,Except.map]

theorem dot_pair (a b c d : ℝ) : Vec.dot [a,b] [c,d] = a * c + b * d := by
  simp [Vec.dot,Vec.sum_lanes,Vec.Lanes.zero,Vec.Lanes.total]

/-- The run for the same data without a weight, before its first step. -/
theorem start_inconsistent :
    start ((Operator.diagonal [1,0]).shifted 0) (coords (0 : Space 2)) (coords !₂[1,1]) =
      .ok ⟨[0,0],[-1,-1],[1,1],2,none,0⟩ := by
  have hx : coords (0 : Space 2) = [0,0] := by simp [coords]
  have hb : coords (!₂[1,1] : Space 2) = [1,1] := by simp [coords]
  rw [start,hx,hb,apply_firstEntry]
  norm_num [Except.map,negate,Vec.sub,dot_pair]

/-- After the first step only what is not measured is left to go along. -/
theorem step_inconsistent :
    step ((Operator.diagonal [(1 : ℝ),0]).shifted 0) ⟨[0,0],[-1,-1],[1,1],2,none,0⟩ =
      .ok ⟨[2,2],[1,-1],[0,2],2,some 2,1⟩ := by
  rw [step,apply_firstEntry]
  norm_num [Except.map,negate,Vec.axpy,dot_pair,improve]

theorem starts_inconsistent :
    Starts (.diagonal [1,0]) 0 0 (coords (0 : Space 2)) (coords !₂[1,1])
      ⟨[0,0],[-1,-1],[1,1],2,none,0⟩ := by
  refine ⟨by simp,⟨_,residualNorm_coords actsAs_firstEntry.shifted_zero _ _,?_⟩,start_inconsistent⟩
  rw [map_zero,sub_zero,norm_le_zero_iff]
  intro h
  simpa using congrArg (fun v : Space 2 => v 0) h

/-- A run that goes on from there divides by zero. -/
theorem solve_inconsistent : ¬∀ (n : Nat) (A : Operator ℝ) (L : Space n →ₗ[ℝ] Space n) (w ε : ℝ)
    (x b : Space n) (maxIter : Nat), A.ActsAs L → L.IsPositive → 0 ≤ w → 0 ≤ ε →
      ∃ s r y, start (A.shifted w) (coords x) (coords b) = .ok s ∧
        solve maxIter w ε A (coords x) (coords b) = .ok (r,y) ∧
        Divides (A.shifted w) r.iterations s := by
  intro h
  obtain ⟨s,r,y,hs,hr,hdiv⟩ := h 2 (.diagonal [1,0]) firstEntry 0 0 0 !₂[1,1] 2
    actsAs_firstEntry isPositive_firstEntry le_rfl le_rfl
  obtain rfl := Except.ok.inj (start_inconsistent.symm.trans hs)
  have hlate : ¬r.iterations ≤ 1 := by
    rw [starts_inconsistent.iterations_le_iff (by norm_num [State.meets]) hr]
    rintro (hcap | ⟨j,hj,u,hu,hsmall⟩)
    · omega
    · interval_cases j
      · cases hu
        norm_num at hsmall
      · rw [steps_succ step_inconsistent] at hu
        cases hu
        norm_num at hsmall
  obtain ⟨u,v,hu,hv,hdot,_⟩ := hdiv 1 (by omega)
  rw [steps_succ step_inconsistent] at hu
  cases hu
  rw [apply_firstEntry] at hv
  cases hv
  simp [dot_pair] at hdot

end ConjugateGradient

end LinearInverse
