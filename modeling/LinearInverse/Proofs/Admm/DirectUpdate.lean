import LinearInverse.Proofs.Admm.ImageUpdate
import LinearInverse.Proofs.Admm.Optimality
import LinearInverse.Proofs.Admm.Penalty

namespace LinearInverse.Admm
variable {n D : Nat} {T : Fin D → LinearTerm n} {A : Space n →ₗ[ℝ] Space n} {c : Space n}
  {p : Plan ℝ} {op op' : Option (Operator ℝ)} {b b' : Option (List ℝ)} {monitor : Monitor ℝ}
  {update : ProxOperator ℝ} {rho : ℝ} {s : State ℝ} {q : Pass ℝ (State ℝ)} {image : List ℝ}

/-- Symmetric and positive definite. -/
structure Definite (B : Space n →ₗ[ℝ] Space n) : Prop where
  isSymmetric : B.IsSymmetric
  inner_pos : ∀ x, x ≠ 0 → 0 < inner ℝ (B x) x

namespace Definite
variable {B : Space n →ₗ[ℝ] Space n}

theorem isPositive (h : Definite B) : B.IsPositive := by
  refine ⟨h.isSymmetric,fun x => ?_⟩
  by_cases hx : x = 0
  · simp [hx]
  · exact (h.inner_pos x hx).le

theorem injective (h : Definite B) : Function.Injective B := by
  refine (injective_iff_map_eq_zero B).mpr fun x hx => Classical.byContradiction fun hne => ?_
  have hpos := h.inner_pos x hne
  rw [hx,inner_zero_left] at hpos
  exact lt_irrefl 0 hpos

theorem mem_range (h : Definite B) (x : Space n) : x ∈ LinearMap.range B :=
  LinearMap.mem_range.mpr (LinearMap.surjective_of_injective h.injective x)

end Definite

/-- The update returns the solution of the system of the image. -/
def Direct (update : ProxOperator ℝ) (T : Fin D → LinearTerm n) (A : Space n →ₗ[ℝ] Space n)
    (c : Space n) : Prop :=
  ∀ rho, 0 < rho → ∀ x v : Space n, ∃ y : Space n,
    update.apply rho (coords x) (coords v) = .ok (coords y) ∧ normalMap T A rho y = c + rho • v

/-- The plan with an image update of its own, and another cap on the inner solve it does without. -/
def Plan.withUpdate (p : Plan ℝ) (update : ProxOperator ℝ) (m : Nat) : Plan ℝ :=
  { p with xUpdate := some update, settings := { p.settings with maxIterInner := m } }

/-- Without operator and terms the system is definite for an image without entries only. -/
theorem Linear.eq_zero_of_definite (h : Linear T A c p none b) (hterms : p.terms = [])
    (hB : Definite (normalMap T A rho)) (x : Space n) : x = 0 := by
  have hA : A x = 0 := by
    have hx : coords (A x) = coords (0 : Space n) :=
      (Except.ok.inj (h.operator x)).symm.trans (map_coords _ x)
    exact coords_injective hx
  have hD : D = 0 := by
    rw [h.terms,List.ofFn_eq_nil_iff] at hterms
    exact hterms
  have hmap : normalMap T A rho x = 0 := by
    subst hD
    have hsum : adjoints T (forwards T x) = 0 := 
      Fin.sum_univ_zero fun i => (T i).adjoint ((T i).forward x)
    rw [normalMap_apply,hA,hsum,smul_zero,add_zero]
  exact hB.injective (hmap.trans (map_zero _).symm)

/-- Both solutions are the only one. -/
theorem Linear.updateImage_eq_direct (h : Linear T A c p op b) (hupdate : Direct update T A c)
    (hB : Definite (normalMap T A rho)) (hn : n ≤ p.settings.maxIterInner) (hrho : 0 < rho)
    (x v : Space n) :
    update.apply rho (coords x) (coords v) = updateImage p op b rho (coords x) (coords v) := by
  obtain ⟨y,hy,hsolves⟩ := hupdate rho hrho x v
  rw [hy]
  have hsystem : (op.isSome || !p.terms.isEmpty) = true ∨ op = none ∧ p.terms = [] := by
    cases op <;> cases p.terms <;> simp
  obtain hsystem | ⟨rfl,hterms⟩ := hsystem
  · obtain ⟨report,z,hsolve,hz⟩ := ConjugateGradient.exists_exact_solve (h.actsAs rho)
      hB.isPositive (hB.mem_range (c + rho • v)) hn x
    obtain rfl : y = z := hB.injective (hsolves.trans hz.symm)
    rw [h.updateImage_eq hsystem,hsolve]
    rfl
  · rw [updateImage,h.xUpdate,hterms,h.eq_zero_of_definite hterms hB x,
      h.eq_zero_of_definite hterms hB y]
    rfl

/-- An iteration is the same with both, from any state with a positive penalty. -/
theorem Linear.pass_direct (h : Linear T A c p op b) (hupdate : Direct update T A c)
    (hB : Definite (normalMap T A s.rho)) (hn : n ≤ p.settings.maxIterInner) (hs : Fits T s)
    (hrho : 0 < s.rho) (m k : Nat) :
    pass (p.withUpdate update m) op' b' monitor k s = pass p op b monitor k s := by
  have hstep : Admm.update (p.withUpdate update m) op' b' s = Admm.update p op b s := by
    obtain ⟨split,zFrom,uFrom,_,_,_,_,hbegin⟩ := h.exists_begin hs
    obtain ⟨x,hx⟩ := exists_coords hs.image
    have hsum : sumAdjoint s.image.length
        ((List.zipWith (begin p.settings.fast) p.terms s.splits).map
          fun m => (m.term.transform,Vec.sub m.zFrom m.uFrom)) =
            .ok (coords (adjoints T (zFrom - uFrom))) := by
      rw [hbegin,List.map_ofFn,hs.image]
      exact sumAdjoint_sub zFrom uFrom
    have himage := h.updateImage_eq_direct hupdate hB hn hrho x (adjoints T (zFrom - uFrom))
    change (sumAdjoint s.image.length ((List.zipWith (begin p.settings.fast) p.terms s.splits).map
        fun m => (m.term.transform,Vec.sub m.zFrom m.uFrom)) >>= fun v =>
          update.apply s.rho s.image v >>= _) = _
    rw [Admm.update,hsum]
    change (update.apply _ _ _ >>= _) = (updateImage _ _ _ _ _ _ >>= _)
    rw [← hx,himage]
    rfl
  rw [pass,hstep]
  rfl

/-- With an image update of its own that solves the system, a run is the same as with the inner
solve, be it a failure or an outcome with image, report, penalty and log. Operator, data and cap
of the inner solve play no part in it then. -/
theorem run_direct (h : Linear T A c p op b) (hupdate : Direct update T A c)
    (hB : ∀ rho, 0 < rho → Definite (normalMap T A rho)) (hn : n ≤ p.settings.maxIterInner)
    (hrho : 0 < p.settings.rho) (htau : 0 < p.settings.tau) (hx : image.length = n)
    (op' : Option (Operator ℝ)) (hb' : ∀ v, b' = some v → v.length = n) (m : Nat)
    (monitor : Monitor ℝ) :
    run (p.withUpdate update m) op' image b' monitor = run p op image b monitor := by
  have hterms : (p.withUpdate update m).terms = List.ofFn fun i => (T i).term := h.terms
  rw [run_eq hterms hx hb',run_eq h.terms hx h.length_data]
  change (start p image >>= _) = _
  cases hs : start p image with
  | error d => rfl
  | ok s =>
    have hpass (k : Nat) (u : State ℝ) (hu : Fits T u ∧ 0 < u.rho) :
        pass (p.withUpdate update m) op' b' monitor k u = pass p op b monitor k u :=
      h.pass_direct hupdate (hB u.rho hu.2) hn hu.1 hu.2 m k
    have hiterate := iterate_congr (k := 0) hpass
      (fun k u q hu hq => ⟨hu.1.next h.terms hq,rho_pos_of_pass htau hu.2 hq⟩)
      ⟨h.fits_start hx hs,(start_eq_ok hs).2 ▸ hrho⟩ p.settings.maxIter
    change (iterate _ p.settings.maxIter 0 s).map _ = (iterate _ p.settings.maxIter 0 s).map _
    rw [hiterate]

theorem normalMap_identity (rho : ℝ) (x : Space 2) :
    normalMap (fun _ : Fin 1 => identityTerm (.ridge 1)) .id rho x = (1 + rho) • x := by
  have hsum : adjoints (fun _ : Fin 1 => identityTerm (.ridge 1)) (forwards _ x) = x :=
    Fin.sum_univ_one fun _ => x
  rw [normalMap_apply,hsum,LinearMap.id_apply,add_smul,one_smul]

theorem definite_identity {rho : ℝ} (hrho : 0 < rho) :
    Definite (normalMap (fun _ : Fin 1 => identityTerm (.ridge 1)) .id rho) := by
  refine ⟨fun x y => ?_,fun x hx => ?_⟩
  · rw [normalMap_identity,normalMap_identity,real_inner_smul_left,real_inner_smul_right]
  · rw [normalMap_identity,real_inner_smul_left]
    exact mul_pos (by positivity) (real_inner_self_pos.mpr hx)

/-- With the identity for operator and transform the solution is an average. -/
theorem direct_average :
    Direct (.average [1,0]) (fun _ : Fin 1 => identityTerm (.ridge 1)) .id !₂[1,0] := by
  intro rho hrho x v
  have hne : 1 + rho ≠ 0 := by positivity
  refine ⟨(1 + rho)⁻¹ • (!₂[1,0] + rho • v),?_,?_⟩
  · have hdata : [1,0] = coords (!₂[1,0] : Space 2) := rfl
    rw [ProxOperator.average,ProxOperator.apply_ofMap (by simp),hdata,zipWith_coords]
    exact congrArg (Except.ok ∘ List.ofFn) (funext fun i => div_eq_inv_mul _ _)
  · rw [normalMap_identity,smul_inv_smul₀ hne]

theorem run_average :
    run (identityPlan.withUpdate (.average [1,0]) 0) none [0,0] none (.silent "admm") =
      run identityPlan (some .identity) [0,0] (some [1,0]) (.silent "admm") :=
  run_direct (linear_identity rfl rfl 1 0) direct_average (fun _ => definite_identity) (by decide)
    one_pos (by norm_num [identityPlan,AdmmSettings.default]) rfl none (by nofun) 0 _

end LinearInverse.Admm
