import Mathlib.Tactic.Module
import LinearInverse.Proofs.Admm.Points
import LinearInverse.Proofs.Admm.History

namespace LinearInverse.Admm
variable {n D : Nat} {T : Fin D → LinearTerm n} {A : Space n →ₗ[ℝ] Space n} {c : Space n}
  {p : Plan ℝ} {op : Option (Operator ℝ)} {b : Option (List ℝ)} {monitor : Monitor ℝ}
  {k : Nat} {s : State ℝ} {q : Pass ℝ (State ℝ)} {image : List ℝ} {bal : Balance ℝ}
  {o : Outcome ℝ}

/-- What the inner solve leaves of the system of the image update. -/
noncomputable def Reach.leftover (v : Reach T) (A : Space n →ₗ[ℝ] Space n) (c : Space n)
    (rho : ℝ) : Space n :=
  c + rho • adjoints T (v.zFrom - v.uFrom) - (A v.x + rho • adjoints T (forwards T v.x))

/-- How far the points of an iteration are from a solution: each split variable comes out of its
proximal map, and the gradient in the image is what the inner solve, the change of the split
variables and their distance from the transforms leave of it. -/
structure Reach.Certified (v : Reach T) (A : Space n →ₗ[ℝ] Space n) (c : Space n) (alpha : ℝ)
    (bal : Balance ℝ) : Prop where
  prox_eq : ∀ i, (T i).term.prox.apply (1 / bal.rho) (v.split i).z (coords (v.z i + v.u i)) =
    .ok (coords (v.z i))
  gradient_eq : A v.x - c + bal.rho • adjoints T v.u =
    -v.leftover A c bal.rho - bal.rho • adjoints T
      ((2 - alpha) • (v.z - v.zFrom) + (1 - alpha) • (forwards T v.x - v.z))
  primal_eq : bal.primal = ‖forwards T v.x - v.z‖
  dual_eq : bal.dual = bal.rho * ‖adjoints T (v.z - v.zFrom)‖

theorem Reach.Made.gradient_eq {v : Reach T} (h : v.Made A c p op s) (rho : ℝ) :
    A v.x - c + rho • adjoints T v.u =
      -v.leftover A c rho - rho • adjoints T ((2 - p.settings.alpha) • (v.z - v.zFrom) +
        (1 - p.settings.alpha) • (forwards T v.x - v.z)) := by
  rw [h.u_eq,Reach.leftover]
  simp only [map_add,map_sub,map_smul]
  module

/-- The recorded residuals are norms. -/
theorem Reach.balance_eq {v : Reach T} {a : AdmmSettings ℝ} {rho : ℝ}
    (h : balance a rho n v.moved = .ok bal) :
    bal.primal = ‖forwards T v.x - v.z‖ ∧ bal.dual = rho * ‖adjoints T (v.z - v.zFrom)‖ := by
  obtain ⟨d,hd,h⟩ := Checked.bind_eq_ok.mp h
  obtain ⟨_,_,rfl⟩ := Checked.map_eq_ok.mp h
  rw [Reach.moved,List.map_ofFn] at hd
  obtain rfl : coords (adjoints T (v.z - v.zFrom)) = d :=
    Except.ok.inj ((sumAdjoint_sub v.z v.zFrom).symm.trans hd)
  refine ⟨?_,?_⟩
  · rw [← stackedDist_eq,Reach.moved,List.map_ofFn]
    rfl
  · exact congrArg (rho * ·) (Vec.norm_coords _)

theorem Reach.Made.certified {v : Reach T} (h : v.Made A c p op s) (hs : Fits T s)
    (hb : balance p.settings s.rho s.image.length v.moved = .ok bal) :
    v.Certified A c p.settings.alpha bal := by
  have hrho := rho_of_balance hb
  rw [hs.image] at hb
  obtain ⟨hprimal,hdual⟩ := Reach.balance_eq hb
  refine ⟨fun i => ?_,h.gradient_eq bal.rho,hprimal,hrho ▸ hdual⟩
  have hsum : v.z i + v.u i = p.settings.alpha • (T i).forward v.x +
      (1 - p.settings.alpha) • v.zFrom i + v.uFrom i := by
    rw [h.u_eq]
    change v.z i + (v.uFrom i + (p.settings.alpha • (T i).forward v.x +
      (1 - p.settings.alpha) • v.zFrom i) - v.z i) = _
    abel
  rw [hsum,hrho]
  exact h.z_eq i

/-- With both residuals below their bounds the gradient is small. -/
theorem Reach.Certified.norm_gradient_le {v : Reach T} {alpha : ℝ}
    (h : v.Certified A c alpha bal) (hrho : 0 < bal.rho) (hd : bal.dual < bal.dualBound) :
    ‖A v.x - c + bal.rho • adjoints T v.u‖ ≤
      ‖v.leftover A c bal.rho‖ + |2 - alpha| * bal.dualBound +
        |1 - alpha| * bal.rho * ‖adjoints T (forwards T v.x - v.z)‖ := by
  have hdual : ‖bal.rho • adjoints T ((2 - alpha) • (v.z - v.zFrom))‖ ≤
      |2 - alpha| * bal.dualBound := by
    rw [map_smul,smul_comm,norm_smul,norm_smul,Real.norm_eq_abs,Real.norm_of_nonneg hrho.le,
      ← h.dual_eq]
    exact mul_le_mul_of_nonneg_left hd.le (abs_nonneg _)
  have hprimal : ‖bal.rho • adjoints T ((1 - alpha) • (forwards T v.x - v.z))‖ =
      |1 - alpha| * bal.rho * ‖adjoints T (forwards T v.x - v.z)‖ := by
    rw [map_smul,smul_comm,norm_smul,norm_smul,Real.norm_eq_abs,Real.norm_of_nonneg hrho.le,
      mul_assoc]
  rw [h.gradient_eq,map_add,smul_add,← hprimal]
  calc _ ≤ ‖-v.leftover A c bal.rho‖ + ‖bal.rho • adjoints T ((2 - alpha) • (v.z - v.zFrom)) +
        bal.rho • adjoints T ((1 - alpha) • (forwards T v.x - v.z))‖ := norm_sub_le _ _
    _ ≤ ‖v.leftover A c bal.rho‖ + (‖bal.rho • adjoints T ((2 - alpha) • (v.z - v.zFrom))‖ +
        ‖bal.rho • adjoints T ((1 - alpha) • (forwards T v.x - v.z))‖) := by
      rw [norm_neg]
      exact add_le_add_right (norm_add_le _ _) _
    _ ≤ _ := by
      rw [← add_assoc]
      gcongr

theorem Linear.length_image (h : Linear T A c p op b) (hD : 0 < D)
    (hrun : run p op image b monitor = .ok o) : image.length = n := by
  obtain ⟨_,_,hdomains,_⟩ := run_eq_ok hrun
  rw [h.terms] at hdomains
  exact checkDomains_eq_ok.mp hdomains hD

/-- The points of the iteration that an entry of the history comes from. -/
theorem Linear.exists_reach (h : Linear T A c p op b) (hD : 0 < D) {s₀ : State ℝ}
    {ps : List (Pass ℝ (State ℝ))} (ht : Traced p op b monitor image o s₀ ps)
    (hx : image.length = n) (hk : o.history[k]? = some bal) :
    ∃ (s : State ℝ) (q : Pass ℝ (State ℝ)) (v : Reach T), (states s₀ ps)[k]? = some s ∧
      ps[k]? = some q ∧ Aligned p k s ∧ Iterated p op b s (coords v.x) v.moved bal q ∧
      v.Made A c p op s ∧ v.Certified A c p.settings.alpha bal := by
  obtain ⟨u,q,x,ms,hq,hu,ha,hi,_⟩ := ht.exists_pass hk
  obtain ⟨s,hs,hfits,_,_⟩ := ht.trace.at (I := fun _ u => Fits T u) (h.fits_start hx ht.start_eq)
    (fun j u q hu hq _ => hu.next h.terms hq) hq
  obtain rfl : u = s := Option.some.inj (hu.symm.trans hs)
  obtain ⟨v,hv,rfl,rfl⟩ := h.exists_made hD hfits hi.update_eq
  exact ⟨u,q,v,hu,hq,ha,hi,hv,hv.certified hfits hi.balance_eq⟩

/-- Every entry of the history comes with a certificate for the points of its iteration, and a run
that has converged ends with a small one. -/
theorem run_certified (h : Linear T A c p op b) (hD : 0 < D)
    (hrun : run p op image b monitor = .ok o) (hk : o.history[k]? = some bal) :
    ∃ s₀ ps s q, ∃ v : Reach T, Traced p op b monitor image o s₀ ps ∧
      (states s₀ ps)[k]? = some s ∧ ps[k]? = some q ∧ bal.rho = s.rho ∧
      Iterated p op b s (coords v.x) v.moved bal q ∧ v.Made A c p op s ∧
      v.Certified A c p.settings.alpha bal ∧
      (0 < bal.rho → o.solution.report.status = .converged →
        k + 1 = o.solution.report.iterations →
          o.solution.image = coords v.x ∧ ‖forwards T v.x - v.z‖ < bal.primalBound ∧
            ‖A v.x - c + bal.rho • adjoints T v.u‖ ≤
              ‖v.leftover A c bal.rho‖ + |2 - p.settings.alpha| * bal.dualBound +
                |1 - p.settings.alpha| * bal.rho * ‖adjoints T (forwards T v.x - v.z)‖) := by
  obtain ⟨s₀,ps,ht⟩ := exists_traced hrun
  obtain ⟨s,q,v,hs,hq,ha,hi,hv,hcert⟩ := h.exists_reach hD ht (h.length_image hD hrun) hk
  refine ⟨s₀,ps,s,q,v,ht,hs,hq,rho_of_balance hi.balance_eq,hi,hv,hcert,
    fun hrho hconv hlast => ?_⟩
  obtain ⟨hstop,himage⟩ := ht.stop_of_last hq hconv hlast
  have hterms : p.terms ≠ [] := by
    rw [h.terms,ne_eq,List.ofFn_eq_nil_iff]
    omega
  obtain ⟨hprimal,hdual⟩ := (hi.stops ha hstop).resolve_right fun hnil => hterms hnil.1
  refine ⟨himage.trans hi.image_eq,?_,hcert.norm_gradient_le hrho hdual⟩
  rw [← hcert.primal_eq]
  exact hprimal

/-- A term behind the identity of one complex number. -/
noncomputable def identityTerm (prox : ProxOperator ℝ) : LinearTerm 2 where
  term := ⟨.identity [1],prox⟩
  size := 2
  forward := .id
  adjoint := .id
  flatForward_eq _ := rfl
  flatAdjoint_eq _ := rfl
  flatNormal_eq _ := rfl

theorem linear_identity {p : Plan ℝ} (hterms : p.terms = [⟨.identity [1],.ridge 1⟩])
    (hupdate : p.xUpdate = none) (x y : ℝ) :
    Linear (fun _ : Fin 1 => identityTerm (.ridge 1)) .id !₂[x,y] p (some .identity)
      (some [x,y]) :=
  ⟨hterms,hupdate,fun _ => Operator.apply_square _ _ _,rfl⟩

/-- Neither the transform nor the proximal map fails. -/
theorem exists_run_identity {p : Plan ℝ} (hterms : p.terms = [⟨.identity [1],.ridge 1⟩])
    (hupdate : p.xUpdate = none) (x y : ℝ) :
    ∃ o, run p (some .identity) [0,0] (some [x,y]) (.silent "admm") = .ok o := by
  have hzeros : p.splitZeros = .ok [[0,0]] := by
    rw [Plan.splitZeros,Plan.splitLengths,hterms]
    rfl
  exact (linear_identity hterms hupdate x y).exists_run (fun _ _ _ _ _ _ => ⟨_,rfl⟩) Nat.one_pos
    rfl hzeros fun t ht => by cases ht

noncomputable def identityPlan : Plan ℝ where
  settings :=
    { AdmmSettings.default with rho := 1, dynamicRho := true, hogwild := true, fast := true }
  terms := [⟨.identity [1],.ridge 1⟩]
  xUpdate := none

theorem run_identityPlan : ∃ (o : Outcome ℝ) (bal : Balance ℝ)
    (v : Reach fun _ : Fin 1 => identityTerm (.ridge 1)),
    run identityPlan (some .identity) [0,0] (some [1,0]) (.silent "admm") = .ok o ∧
      o.history[0]? = some bal ∧ 0 < bal.rho ∧
      v.Certified .id !₂[1,0] identityPlan.settings.alpha bal := by
  have hlinear : Linear (fun _ : Fin 1 => identityTerm (.ridge 1)) .id !₂[1,0] identityPlan
      (some .identity) (some [1,0]) :=
    ⟨rfl,rfl,fun _ => Operator.apply_square _ _ _,rfl⟩
  have htotal : Total fun _ : Fin 1 => identityTerm (.ridge 1) := fun _ _ _ _ _ _ => ⟨_,rfl⟩
  obtain ⟨o,ho⟩ : ∃ o,
      run identityPlan (some .identity) [0,0] (some [1,0]) (.silent "admm") = .ok o :=
    hlinear.exists_run htotal Nat.one_pos rfl rfl nofun
  obtain ⟨s₀,ps,ht⟩ := exists_traced ho
  obtain ⟨bal,hbal,hrho⟩ := ht.exists_first (by decide)
  obtain ⟨_,_,_,_,v,_,_,_,_,_,_,hv,_⟩ := run_certified hlinear Nat.one_pos ho hbal
  exact ⟨o,bal,v,ho,hbal,hrho.symm ▸ one_pos,hv⟩

end LinearInverse.Admm
