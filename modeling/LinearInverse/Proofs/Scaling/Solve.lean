import LinearInverse.Proofs.Admm.Optimality
import LinearInverse.Proofs.Scaling.Admm
import LinearInverse.Proofs.Scaling.Thresholding
import LinearInverse.Solve

namespace LinearInverse
variable {c : ℝ} {n : Nat}

/-- A problem for multiples: the data are multiplied, the proximal maps replaced, and operator and
transforms stay. Linear ones meet the conditions (`Operator.ActsAs.scaledBy`,
`Transform.scales_of_linear`). -/
structure Problem.ScaledBy (c : ℝ) (n : Nat) (p p' : Problem ℝ) : Prop where
  normal : p'.normal = p.normal
  scales_normal : ∀ A, p.normal = some A → Operator.ScaledBy c n A A
  proxes : Option.Rel (List.Forall₂ (ProxOperator.ScaledBy c)) p.proxes p'.proxes
  transforms : p'.transforms = p.transforms
  scales_transforms : ∀ ts, p.transforms = some ts → ∀ t ∈ ts, t.Scales
  data : p'.data = p.data.map (Vec.scale c)
  truth : p'.truth.map List.length = p.truth.map List.length

/-- Tolerances are relative to the data but for one. -/
noncomputable def Settings.scaled (c : ℝ) : Settings ℝ → Settings ℝ
  | admm a => admm (a.scaled c)
  | s => s

/-- The same result and `c` times the image, and `c` times the residuals with their bounds, if the
log has any. -/
structure Outcome.ScaledBy (c : ℝ) (o o' : Outcome ℝ) : Prop where
  image_eq : o'.image = Vec.scale c o.image
  result_eq : o'.result = o.result
  history_eq : o'.log.filterMap Admm.balance? =
    (o.log.filterMap Admm.balance?).map (Balance.scaled c)

theorem Solution.ScaledBy.outcome {s s' : Solution ℝ} (h : s.ScaledBy c s') :
    (Outcome.ofSolution s).ScaledBy c (Outcome.ofSolution s') :=
  ⟨h.image_eq,congrArg Except.ok h.report_eq,h.history_eq⟩

namespace Problem.ScaledBy
variable {p p' : Problem ℝ}

theorem numTerms_eq (h : p.ScaledBy c n p') : p'.numTerms = p.numTerms := by
  have hproxes := h.proxes
  rw [numTerms,numTerms,h.transforms]
  generalize p.proxes = ps, p'.proxes = ps' at hproxes
  cases hproxes with
  | none => rfl
  | some hps =>
    cases p.transforms with
    | none => exact congrArg Except.ok hps.length_eq.symm
    | some ts => simp only [hps.length_eq]

theorem isNone_proxes (h : p.ScaledBy c n p') : p'.proxes.isNone = p.proxes.isNone := by
  have hproxes := h.proxes
  generalize p.proxes = ps, p'.proxes = ps' at hproxes
  cases hproxes <;> rfl

theorem normalOf_eq (h : p.ScaledBy c n p') (a : Algorithm) :
    Solve.normalOf a p' = Solve.normalOf a p := by
  rw [Solve.normalOf,Solve.normalOf,h.normal]

theorem dataOf_eq (h : p.ScaledBy c n p') (a : Algorithm) :
    Solve.dataOf a p' = (Solve.dataOf a p).map (Vec.scale c) := by
  rw [Solve.dataOf,Solve.dataOf,h.data]
  cases p.data <;> rfl

theorem scales_of_normalOf (h : p.ScaledBy c n p') {a : Algorithm} {A : Operator ℝ}
    (hA : Solve.normalOf a p = .ok A) : Operator.ScaledBy c n A A := by
  rw [Solve.normalOf] at hA
  cases hnormal : p.normal with
  | none => rw [hnormal] at hA; cases hA
  | some A' =>
    rw [hnormal] at hA
    cases hA
    exact h.scales_normal A hnormal

end Problem.ScaledBy

namespace Solve
variable {p p' : Problem ℝ} {image : List ℝ} {objective objective' : Option (List ℝ → ℝ)}

theorem classify_real (x : List ℝ) :
    DataState.classify x = if Vec.norm x = 0 then .empty else .usable (Vec.norm x) := by
  rw [DataState.classify]
  by_cases h : Vec.norm x = 0
  · simp [h]
  · have hnormal : Scalar.isNormal (Vec.norm x) = true := decide_eq_true h
    simp [h,hnormal]

/-- Data are of use if their multiples are. -/
theorem both_guarded (hc : 0 < c) {run run' : ℝ → Checked ℝ (Outcome ℝ)}
    (h : ∀ size, Checked.Both (Outcome.ScaledBy c) (run size) (run' (c * size)))
    (data image : List ℝ) :
    Checked.Both (Outcome.ScaledBy c) (guarded data image run)
      (guarded (Vec.scale c data) (Vec.scale c image) run') := by
  rw [guarded,guarded,classify_real,classify_real,Vec.norm_scale hc.le]
  by_cases h0 : Vec.norm data = 0
  · rw [if_pos h0,if_pos (mul_eq_zero_of_right c h0)]
    exact .ok ⟨rfl,rfl,rfl⟩
  · rw [if_neg h0,if_neg (mul_ne_zero hc.ne' h0)]
    exact h _

theorem both_conjGrad (hc : 0 < c) (h : p.ScaledBy c image.length p') (s : ConjGradSettings ℝ) :
    Checked.Both (Outcome.ScaledBy c) (conjGrad (.conjGrad s) p image objective)
      (conjGrad (.conjGrad s) p' (Vec.scale c image) objective') := by
  simp only [conjGrad,h.numTerms_eq,h.isNone_proxes,h.transforms,h.normalOf_eq]
  refine .bind_same _ fun n _ => .bind_same _ fun _ _ => .bind_same _ fun _ _ => .bind_same _
    fun _ _ => .bind_same _ fun A hA => ?_
  refine (Checked.Both.of_eq_map (h.dataOf_eq .conjGrad)).bind fun b b' _ hb => ?_
  subst hb
  refine both_guarded hc (fun size => ?_) b image
  rw [mul_left_comm s.tol]
  refine (ConjugateGradient.both_run (h.scales_of_normalOf hA) hc rfl ?_ _ _ _ b).map
    fun o o' ho => ho.outcome
  exact h.truth

theorem both_threshold (hc : 0 < c) (h : p.ScaledBy c image.length p') (a : Algorithm)
    (s : ThresholdSettings ℝ)
    {run : Thresholding.Task ℝ → List ℝ → Checked ℝ (Solution ℝ)}
    (hrun : ∀ t t', t.ScaledBy c image.length t' →
      Checked.Both (Solution.ScaledBy c) (run t image) (run t' (Vec.scale c image))) :
    Checked.Both (Outcome.ScaledBy c) (threshold a s run p image objective)
      (threshold a s run p' (Vec.scale c image) objective') := by
  have hproxes := h.proxes
  rw [threshold,threshold,h.numTerms_eq]
  refine .bind_same _ fun n _ => ?_
  generalize p.proxes = ps, p'.proxes = ps' at hproxes
  match n, ps, ps', hproxes with
  | 1, some [prox], some [prox'], .some (.cons hprox .nil) =>
    simp only [h.normalOf_eq]
    refine .bind_same _ fun A hA => ?_
    refine (Checked.Both.of_eq_map (h.dataOf_eq a)).bind fun b b' _ hb => ?_
    subst hb
    refine both_guarded hc (fun size => .bind_same _ fun _ _ => ?_) b image
    refine (hrun _ _ ?_).map fun o o' ho => ho.outcome
    refine ⟨?_,h.scales_of_normalOf hA,hprox,rfl,h.truth⟩
    simp only [mul_left_comm s.tol]
  | 0, _, _, _ => exact .error _
  | _ + 2, _, _, _ => exact .error _
  | 1, none, none, .none => exact .error _
  | 1, some [], some [], .some .nil => exact .error _
  | 1, some (_ :: _ :: _), some (_ :: _ :: _), .some (.cons _ (.cons _ _)) => exact .error _

/-- The plan for multiples, from the lists of terms. -/
theorem both_new {ts : List (Transform ℝ)} {ps ps' : List (ProxOperator ℝ)}
    (hts : ∀ t ∈ ts, t.Scales) (hps : List.Forall₂ (ProxOperator.ScaledBy c) ps ps')
    (s : AdmmSettings ℝ) :
    Checked.Both (Admm.Plan.ScaledBy c) (Admm.Plan.new s ts ps none)
      (Admm.Plan.new (s.scaled c) ts ps' none) := by
  rw [Admm.Plan.new,Admm.Plan.new,hps.length_eq]
  split
  · have hsame : List.Forall₂ (fun t t' => t' = t ∧ t.Scales) ts ts :=
      List.forall₂_same.mpr fun t ht => ⟨rfl,hts t ht⟩
    refine .ok ⟨rfl,forall₂_zipWith hsame hps fun t t' q q' ht hq => ?_,rfl,rfl⟩
    exact ⟨ht.1,ht.2,hq⟩
  · exact .error _

theorem both_admm (hc : 0 < c) (h : p.ScaledBy c image.length p') (hp : p.xUpdate = none)
    (hp' : p'.xUpdate = none) (s : AdmmSettings ℝ) :
    Checked.Both (Outcome.ScaledBy c) (admm (.admm s) p image objective)
      (admm (.admm (s.scaled c)) p' (Vec.scale c image) objective') := by
  have hproxes : List.Forall₂ (ProxOperator.ScaledBy c) (p.proxes.getD []) (p'.proxes.getD []) := by
    have hproxes := h.proxes
    generalize p.proxes = ps, p'.proxes = ps' at hproxes
    cases hproxes with
    | none => exact .nil
    | some hps => exact hps
  have htransforms : ∀ t ∈ p.transforms.getD [], t.Scales := by
    cases hts : p.transforms with
    | none => exact nofun
    | some ts => exact h.scales_transforms ts hts
  simp only [admm,h.numTerms_eq,h.transforms,hp,hp',h.normal,h.data]
  refine .bind_same _ fun n _ => .bind_same _ fun _ _ => ?_
  have hrun : Checked.Both (Outcome.ScaledBy c)
      (Admm.Plan.new s (p.transforms.getD []) (p.proxes.getD []) none >>= fun plan =>
        (Admm.run plan p.normal image p.data ⟨"admm",p.truth,objective⟩).map fun o =>
          .ofSolution o.solution)
      (Admm.Plan.new (s.scaled c) (p.transforms.getD []) (p'.proxes.getD []) none >>= fun plan =>
        (Admm.run plan p.normal (Vec.scale c image) (p.data.map (Vec.scale c))
          ⟨"admm",p'.truth,objective'⟩).map fun o => .ofSolution o.solution) := by
    refine (both_new htransforms hproxes s).bind fun plan plan' _ hplan => ?_
    refine (Admm.both_run hplan hc h.scales_normal ?_ rfl p.data).map fun o o' ho => ho.1.outcome
    exact h.truth
  cases hdata : p.data with
  | none =>
    rw [hdata] at hrun
    exact hrun
  | some b =>
    rw [hdata] at hrun
    exact both_guarded hc (fun _ => hrun) b image

/-- With proximal maps for multiples in the place of its own, a run on `c` times image and data has
the same report and `c` times the image; the residuals it records and their bounds are multiplied
too, and the penalties are the same. Where one run fails for a broken contract, so does the other.
Soft thresholds grow with the vectors, as measured data do, and a support stays. -/
theorem run_scaled (hc : 0 < c) (settings : Settings ℝ) (hpocs : settings.algorithm ≠ .pocs)
    (hcall : settings.algorithm ≠ .call)
    (hupdate : settings.algorithm = .admm → p.xUpdate = none ∧ p'.xUpdate = none)
    (h : p.ScaledBy c image.length p') (objective objective' : Option (List ℝ → ℝ)) :
    Checked.Both (Outcome.ScaledBy c) (run settings p image objective)
        (run (settings.scaled c) p' (Vec.scale c image) objective') ∧
      (∀ w, ProxOperator.ScaledBy c (.softThreshold w) (.softThreshold (c * w))) ∧
      (∀ mask, ProxOperator.ScaledBy c (.support mask) (.support mask)) ∧
      ∀ mask data q q', ProxOperator.measured mask data = .ok q →
        ProxOperator.measured mask (data.map (Cplx.scale · c)) = .ok q' →
          ProxOperator.ScaledBy c q q' := by
  refine ⟨?_,ProxOperator.scaledBy_softThreshold hc,ProxOperator.scaledBy_support c,
    fun mask data q q' => ProxOperator.scaledBy_measured⟩
  cases settings with
  | conjGrad s => exact both_conjGrad hc h s
  | ist s => exact both_threshold hc h .ist s fun t t' ht => Thresholding.Plain.both_run ht hc rfl
  | fista s =>
    exact both_threshold hc h .fista s fun t t' ht => Thresholding.Accelerated.both_run ht hc rfl
  | admm s =>
    obtain ⟨hp,hp'⟩ := hupdate rfl
    exact both_admm hc h hp hp' s
  | pocs => exact absurd rfl hpocs
  | call => exact absurd rfl hcall

/-- One complex number is measured, and its magnitude is penalized. -/
noncomputable def sparseProblem (w : ℝ) (data : List ℝ) : Problem ℝ where
  normal := some .identity
  proxes := some [.softThreshold w]
  transforms := some [.identity [1]]
  xUpdate := none
  data := some data
  truth := none

theorem scaledBy_sparseProblem (hc : 0 < c) (w : ℝ) (data : List ℝ) :
    (sparseProblem w data).ScaledBy c 2 (sparseProblem (c * w) (Vec.scale c data)) where
  normal := rfl
  scales_normal A hA := by
    have hid : (Operator.identity : Operator ℝ).ActsAs (LinearMap.id : Space 2 →ₗ[ℝ] Space 2) :=
      fun _ => Operator.apply_square _ _ _
    cases hA
    exact hid.scaledBy c
  proxes := .some (.cons (ProxOperator.scaledBy_softThreshold hc w) .nil)
  transforms := rfl
  scales_transforms ts hts := by
    cases hts
    exact List.forall_mem_singleton.mpr (Admm.identityTerm (.softThreshold w)).scales
  data := rfl
  truth := rfl

/-- Neither the transform nor the threshold fails. -/
theorem exists_run_sparseProblem {v : ℝ} (hv : v ≠ 0) (w : ℝ) :
    ∃ o, run (.admm .default) (sparseProblem w [v,0]) [0,0] none = .ok o := by
  have hlinear : Admm.Linear (fun _ : Fin 1 => Admm.identityTerm (.softThreshold w)) .id !₂[v,0]
      ⟨.default,[⟨.identity [1],.softThreshold w⟩],none⟩ (some .identity) (some [v,0]) :=
    ⟨rfl,rfl,fun _ => Operator.apply_square _ _ _,rfl⟩
  have htotal : Admm.Total fun _ : Fin 1 => Admm.identityTerm (.softThreshold w) := by
    intro _ mu dst src (hdst : _ = 2) (hsrc : _ = 2)
    have heven : src.length % 2 = 0 := by rw [hsrc]
    refine ⟨Cplx.interleave ((Cplx.pairs src).map (ProxOperator.SoftThreshold.shrink (w * mu))),?_⟩
    change ProxOperator.SoftThreshold.apply w mu dst src = _
    rw [ProxOperator.SoftThreshold.apply,if_neg (not_not.mpr (hdst.trans hsrc.symm)),
      Cplx.ofVector,if_pos heven]
    rfl
  have hsize : Vec.norm [v,0] ≠ 0 := by
    have hdata : [v,0] = coords (!₂[v,0] : Space 2) := rfl
    rw [hdata,Vec.norm_coords,norm_ne_zero_iff]
    exact fun h => hv (congrArg (fun x : Space 2 => x 0) h)
  obtain ⟨o,ho⟩ : ∃ o, Admm.run ⟨.default,[⟨.identity [1],.softThreshold w⟩],none⟩ (some .identity)
      [0,0] (some [v,0]) ⟨"admm",none,none⟩ = .ok o :=
    hlinear.exists_run htotal Nat.one_pos rfl rfl fun t ht => by cases ht
  refine ⟨.ofSolution o.solution,?_⟩
  change guarded [v,0] [0,0] _ = _
  rw [guarded,classify_real,if_neg hsize]
  exact Checked.map_eq_ok.mpr ⟨o,ho,rfl⟩

/-- Twice the data, behind twice the threshold. -/
theorem run_sparseProblem : (sparseProblem 1 [3,0]).ScaledBy 2 2 (sparseProblem 2 [6,0]) ∧
    ∃ o o', run (.admm .default) (sparseProblem 1 [3,0]) [0,0] none = .ok o ∧
      run (.admm (AdmmSettings.default.scaled 2)) (sparseProblem 2 [6,0]) [0,0] none = .ok o' ∧
      o.ScaledBy 2 o' := by
  have hproblem :
      (sparseProblem 1 [3,0]).ScaledBy 2 [(0 : ℝ),0].length (sparseProblem 2 [6,0]) := by
    have hdata : Vec.scale 2 [(3 : ℝ),0] = [6,0] := by norm_num [Vec.scale]
    have h := scaledBy_sparseProblem two_pos 1 [3,0]
    rwa [mul_one,hdata] at h
  have himage : Vec.scale 2 [(0 : ℝ),0] = [0,0] := by norm_num [Vec.scale]
  obtain ⟨o,ho⟩ := exists_run_sparseProblem three_ne_zero 1
  have h := (run_scaled two_pos (.admm .default) (by decide) (by decide) (fun _ => ⟨rfl,rfl⟩)
    hproblem none none).1
  rw [himage,ho] at h
  generalize hrun : run _ (sparseProblem 2 [6,0]) _ none = r at h
  cases h with
  | ok h => exact ⟨hproblem,o,_,ho,hrun,h⟩

end Solve

end LinearInverse
