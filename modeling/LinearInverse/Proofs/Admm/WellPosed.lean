import LinearInverse.Proofs.Admm.ImageUpdate
import LinearInverse.Proofs.Admm.Optimality
import LinearInverse.Proofs.Admm.Penalty

namespace LinearInverse

section
variable {E F : Type*} [NormedAddCommGroup E] [InnerProductSpace ℝ E] [FiniteDimensional ℝ E]
  [NormedAddCommGroup F] [InnerProductSpace ℝ F] [FiniteDimensional ℝ F]
  {A : E →ₗ[ℝ] E} {G : E →ₗ[ℝ] F} {rho : ℝ}

theorem isPositive_add_normal (hA : A.IsPositive) (hrho : 0 ≤ rho) (G : E →ₗ[ℝ] F) :
    (A + rho • (G.adjoint ∘ₗ G)).IsPositive :=
  hA.add ((LinearMap.isPositive_adjoint_comp_self G).smul_of_nonneg hrho)

/-- The sum of the maps vanishes where both do. -/
theorem eq_zero_of_add_normal (hA : A.IsPositive) (hrho : 0 < rho) {x : E}
    (hx : (A + rho • (G.adjoint ∘ₗ G)) x = 0) : A x = 0 ∧ G x = 0 := by
  have hsum : inner ℝ x (A x) + rho * inner ℝ (G x) (G x) = 0 := by
    have hinner := congrArg (inner ℝ x) hx
    simpa [inner_add_right,real_inner_smul_right,LinearMap.adjoint_inner_right] using hinner
  have hpos : 0 ≤ inner ℝ x (A x) := hA.inner_nonneg_right x
  have hsquare : 0 ≤ rho * inner ℝ (G x) (G x) := mul_nonneg hrho.le real_inner_self_nonneg
  have hzero : rho * inner ℝ (G x) (G x) = 0 := by linarith
  refine ⟨ConjugateGradient.map_eq_zero_of_inner_eq_zero hA (by linarith),?_⟩
  exact inner_self_eq_zero.mp ((mul_eq_zero_iff_left hrho.ne').mp hzero)

/-- Its range takes in the ranges of both, for it takes in all that is orthogonal to its kernel. -/
theorem mem_range_add_normal (hA : A.IsPositive) (hrho : 0 < rho) {c : E}
    (hc : c ∈ LinearMap.range A) (y : F) :
    c + rho • G.adjoint y ∈ LinearMap.range (A + rho • (G.adjoint ∘ₗ G)) := by
  have hB := isPositive_add_normal hA hrho.le G
  have hself : (A + rho • (G.adjoint ∘ₗ G)).adjoint = A + rho • (G.adjoint ∘ₗ G) :=
    hB.isSymmetric.adjoint_eq
  rw [← hself,← LinearMap.orthogonal_ker,Submodule.mem_orthogonal]
  intro x hx
  obtain ⟨hAx,hGx⟩ := eq_zero_of_add_normal hA hrho (LinearMap.mem_ker.mp hx)
  obtain ⟨a,rfl⟩ := hc
  rw [inner_add_right,real_inner_smul_right,LinearMap.adjoint_inner_right,hGx,inner_zero_left,
    ← hA.isSymmetric x a,hAx,inner_zero_left,mul_zero,add_zero]

end

namespace Admm
variable {n D : Nat} {T : Fin D → LinearTerm n} {A : Space n →ₗ[ℝ] Space n} {c : Space n}
  {p : Plan ℝ} {op : Option (Operator ℝ)} {b : Option (List ℝ)} {monitor : Monitor ℝ}
  {s : State ℝ} {image : List ℝ} {ps : List (Pass ℝ (State ℝ))} {rho : ℝ}

theorem adjoints_eq (hadjoint : ∀ i, (T i).adjoint = (T i).forward.adjoint) :
    adjoints T = (forwards T).adjoint := by
  rw [LinearMap.eq_adjoint_iff]
  intro v x
  have hsum : inner ℝ (adjoints T v) x = ∑ i, inner ℝ ((T i).adjoint (v i)) x :=
    sum_inner Finset.univ (fun i => (T i).adjoint (v i)) x
  rw [hsum,PiLp.inner_apply]
  refine Finset.sum_congr rfl fun i _ => ?_
  rw [hadjoint,LinearMap.adjoint_inner_left]
  rfl

theorem normalMap_eq (hadjoint : ∀ i, (T i).adjoint = (T i).forward.adjoint) :
    normalMap T A rho = A + rho • ((forwards T).adjoint ∘ₗ forwards T) := by
  rw [normalMap,adjoints_eq hadjoint]

/-- The inner solve of an iteration for the image from `x` on, with right-hand side `r`. The system
is positive semi-definite and has a solution, and step lengths and weights of all steps that are
taken are quotients by positive numbers. -/
structure InnerSolve (B : Space n →ₗ[ℝ] Space n) (op : Operator ℝ) (maxIter : Nat)
    (x r : Space n) : Prop where
  actsAs : op.ActsAs B
  isPositive : B.IsPositive
  mem_range : r ∈ LinearMap.range B
  steps_pos : ∃ (status : Status) (k : Nat) (y : Space n) (t : ConjugateGradient.State ℝ),
    ConjugateGradient.solve maxIter 0 0 op (coords x) (coords r) = .ok (⟨status,k⟩,coords y) ∧
      ConjugateGradient.start (op.shifted 0) (coords x) (coords r) = .ok t ∧
      ∀ j < k, ∃ u v, ConjugateGradient.steps (op.shifted 0) j t = .ok u ∧
        (op.shifted 0).apply u.direction = .ok v ∧ 0 < Vec.dot u.direction v ∧ 0 < u.square

/-- What an iteration from state `s` divides by: the penalty, the factor it changes by, the new
momentum, and the denominators of the inner solve, if there is one. -/
structure WellPosed (T : Fin D → LinearTerm n) (A : Space n →ₗ[ℝ] Space n) (p : Plan ℝ)
    (op : Option (Operator ℝ)) (b : Option (List ℝ)) (s : State ℝ) : Prop where
  rho_pos : 0 < s.rho
  change_pos : ∀ bal, 0 < change p.settings bal s.schedule
  momentum_pos : 0 < Momentum.next s.momentum
  solve : p.xUpdate = none → (op.isSome || !p.terms.isEmpty) = true →
    ∃ (v : List ℝ) (x r : Space n), s.image = coords x ∧
      sumAdjoint s.image.length ((List.zipWith (begin p.settings.fast) p.terms s.splits).map
        fun m => (m.term.transform,Vec.sub m.zFrom m.uFrom)) = .ok v ∧
      rightHandSide s.rho b v = coords r ∧
      InnerSolve (normalMap T A s.rho) (augmented op s.rho p.terms) p.settings.maxIterInner x r

theorem next_pos (t : ℝ) : 0 < Momentum.next t := by
  rw [Momentum.next_eq]
  positivity

theorem Linear.innerSolve (h : Linear T A c p op b)
    (hadjoint : ∀ i, (T i).adjoint = (T i).forward.adjoint) (hA : A.IsPositive)
    (hc : c ∈ LinearMap.range A) (hrho : 0 < rho) (x : Space n) (y : Stack T) :
    InnerSolve (normalMap T A rho) (augmented op rho p.terms) p.settings.maxIterInner x
      (c + rho • adjoints T y) := by
  have hB : (normalMap T A rho).IsPositive := by
    rw [normalMap_eq hadjoint]
    exact isPositive_add_normal hA hrho.le _
  have hr : c + rho • adjoints T y ∈ LinearMap.range (normalMap T A rho) := by
    rw [normalMap_eq hadjoint,adjoints_eq hadjoint]
    exact mem_range_add_normal hA hrho hc y
  have hr' : c + rho • adjoints T y ∈
      LinearMap.range (normalMap T A rho + (0 : ℝ) • LinearMap.id) := by
    rwa [zero_smul,add_zero]
  obtain ⟨status,k,z,t,m,hsolve,hstart,hk,_,hsteps,_⟩ := ConjugateGradient.solve_of_positive
    (h.actsAs rho) hB le_rfl le_rfl hr' x p.settings.maxIterInner
  exact ⟨h.actsAs rho,hB,hr,status,k,z,t,hsolve,hstart,fun j hj => hsteps j (hj.trans_le hk)⟩

theorem wellPosed_of_fits (hterms : p.terms = List.ofFn fun i => (T i).term)
    (hop : ∀ x, applyNormal op (coords x) = .ok (coords (A x)))
    (hb : b.getD (coords (0 : Space n)) = coords c)
    (hadjoint : ∀ i, (T i).adjoint = (T i).forward.adjoint) (hA : A.IsPositive)
    (hc : c ∈ LinearMap.range A) (htau : 0 < p.settings.tau) (hs : Fits T s) (hrho : 0 < s.rho) :
    WellPosed T A p op b s := by
  refine ⟨hrho,fun bal => change_pos htau bal s.schedule,next_pos s.momentum,fun hupdate _ => ?_⟩
  have h : Linear T A c p op b := ⟨hterms,hupdate,hop,hb⟩
  obtain ⟨split,zFrom,uFrom,_,_,_,_,hbegin⟩ := h.exists_begin hs
  obtain ⟨x,hx⟩ := exists_coords hs.image
  refine ⟨coords (adjoints T (zFrom - uFrom)),x,_,hx.symm,?_,h.rightHandSide_eq s.rho _,
    h.innerSolve hadjoint hA hc hrho x _⟩
  rw [hbegin,List.map_ofFn,hs.image]
  exact sumAdjoint_sub zFrom uFrom

/-- For positive semi-definite operators, data in their range, and linear transforms with their
adjoints, every iteration is well posed, in runs that return and in those that a proximal map ends
with a failure. -/
theorem trace_wellPosed (hterms : p.terms = List.ofFn fun i => (T i).term)
    (hop : ∀ x, applyNormal op (coords x) = .ok (coords (A x)))
    (hb : b.getD (coords (0 : Space n)) = coords c)
    (hadjoint : ∀ i, (T i).adjoint = (T i).forward.adjoint) (hA : A.IsPositive)
    (hc : c ∈ LinearMap.range A) (hrho : 0 < p.settings.rho) (htau : 0 < p.settings.tau)
    (hx : image.length = n) (hs : start p image = .ok s)
    (ht : Trace (pass p op b monitor) 0 s ps) :
    ∀ t ∈ states s ps, WellPosed T A p op b t := by
  have hstates : ∀ t ∈ states s ps, Fits T t ∧ 0 < t.rho := by
    refine ht.forall_states ⟨?_,(start_eq_ok hs).2 ▸ hrho⟩
      fun k t q ⟨hfits,hrho⟩ hq => ⟨hfits.next hterms hq,rho_pos_of_pass htau hrho hq⟩
    exact ⟨(congrArg List.length (start_eq_ok hs).1).trans hx,
      exists_split_start hterms (fun i => (T i).codomainLength_eq) hs⟩
  intro t hmem
  obtain ⟨hfits,hrho⟩ := hstates t hmem
  exact wellPosed_of_fits hterms hop hb hadjoint hA hc htau hfits hrho

/-- The second entry is not measured. -/
theorem trace_firstEntry : ∃ (o : Outcome ℝ) (s : State ℝ) (ps : List (Pass ℝ (State ℝ))),
    run identityPlan (some (.diagonal [1,0])) [0,0] (some [3,0]) (.silent "admm") = .ok o ∧
      Traced identityPlan (some (.diagonal [1,0])) (some [3,0]) (.silent "admm") [0,0] o s ps ∧
      ∀ t ∈ states s ps,
        WellPosed (fun _ : Fin 1 => identityTerm (.ridge 1)) ConjugateGradient.firstEntry
          identityPlan (some (.diagonal [1,0])) (some [3,0]) t := by
  have h : Linear (fun _ : Fin 1 => identityTerm (.ridge 1)) ConjugateGradient.firstEntry !₂[3,0]
      identityPlan (some (.diagonal [1,0])) (some [3,0]) :=
    ⟨rfl,rfl,ConjugateGradient.actsAs_firstEntry,rfl⟩
  obtain ⟨o,ho⟩ : ∃ o,
      run identityPlan (some (.diagonal [1,0])) [0,0] (some [3,0]) (.silent "admm") = .ok o :=
    h.exists_run (fun _ _ _ _ _ _ => ⟨_,rfl⟩) Nat.one_pos rfl rfl nofun
  obtain ⟨s,ps,ht⟩ := exists_traced ho
  exact ⟨o,s,ps,ho,ht,trace_wellPosed h.terms h.operator h.data
    (fun _ => LinearMap.adjoint_id.symm) ConjugateGradient.isPositive_firstEntry
    (ConjugateGradient.mem_range_firstEntry 3) one_pos
    (by norm_num [identityPlan,AdmmSettings.default]) rfl ht.start_eq ht.trace⟩

end Admm

end LinearInverse
