import LinearInverse.Proofs.Admm.Optimality
import LinearInverse.Proofs.Reordering

namespace LinearInverse

namespace ConjugateGradient
variable {α : Type} [Scalar α] {A A' : Operator α}

/-- An operator that returns what another one does, where that returns. -/
def Covers (A A' : Operator α) : Prop :=
  ∀ x, Checked.Returns Eq (A.apply x) (A'.apply x)

theorem Covers.shifted (h : Covers A A') (w : α) : Covers (A.shifted w) (A'.shifted w) := by
  intro x
  rw [Operator.shifted,Operator.shifted,Operator.apply_square,Operator.apply_square]
  exact (h x).map fun y z hy => by rw [hy]

theorem Covers.start (h : Covers A A') (x b : List α) :
    Checked.Returns Eq (start A x b) (start A' x b) :=
  (h x).map fun y z hy => by rw [hy]

theorem Covers.residualNorm (h : Covers A A') (x b : List α) :
    Checked.Returns Eq (residualNorm A x b) (residualNorm A' x b) :=
  (h x).map fun y z hy => by rw [hy]

theorem Covers.advance (h : Covers A A') (target : α) (fuel : Nat) (s : State α) :
    Checked.Returns Eq (advance A target fuel s) (advance A' target fuel s) := by
  induction fuel generalizing s with
  | zero => exact .refl _
  | succ fuel ih =>
    rw [ConjugateGradient.advance,ConjugateGradient.advance]
    split
    · exact .refl _
    · refine Checked.Returns.bind (R := Eq) ((h s.direction).map fun y z hy => by rw [hy]) ?_
      rintro t _ rfl
      exact ih t

theorem Covers.solve (h : Covers A A') (maxIter : Nat) (w epsilon : α) (x b : List α) :
    Checked.Returns Eq (solve maxIter w epsilon A x b) (solve maxIter w epsilon A' x b) := by
  rw [ConjugateGradient.solve,ConjugateGradient.solve]
  split
  · exact .refl _
  refine ((h.shifted w).residualNorm x b).bind ?_
  rintro size _ rfl
  split
  · exact .refl _
  refine Checked.Returns.bind (R := Eq) (((h.shifted w).start x b).bind ?_) ?_
  · rintro s _ rfl
    exact (h.shifted w).advance _ maxIter s
  · rintro r _ rfl
    exact .refl _

end ConjugateGradient

theorem Vec.axpy_right_comm (x y z : List ℝ) (a b : ℝ) :
    Vec.axpy (Vec.axpy x a y) b z = Vec.axpy (Vec.axpy x b z) a y := by
  apply List.ext_getElem
  · simp only [Vec.axpy,List.length_zipWith,Nat.min_right_comm]
  · intro i _ _
    simp only [Vec.axpy,List.getElem_zipWith]
    ring

namespace Admm
variable {D n k : Nat} {σ : Equiv.Perm (Fin D)} {ms ms' : List (Moved ℝ)} {ts ts' : List (Term ℝ)}

/-- The steps of a sum of vectors that are computed one by one. -/
theorem axpy_comm {β : Type} (f : β → Checked ℝ (List ℝ)) (a : ℝ) (acc : List ℝ) (x y : β) :
    Checked.Returns Eq ((f x).map (Vec.axpy acc a) >>= fun acc => (f y).map (Vec.axpy acc a))
      ((f y).map (Vec.axpy acc a) >>= fun acc => (f x).map (Vec.axpy acc a)) := by
  intro r hr
  obtain ⟨_,hx,hr⟩ := Checked.bind_eq_ok.mp hr
  obtain ⟨v,hv,rfl⟩ := Checked.map_eq_ok.mp hx
  obtain ⟨w,hw,rfl⟩ := Checked.map_eq_ok.mp hr
  refine ⟨_,Checked.bind_eq_ok.mpr ⟨_,Checked.map_eq_ok.mpr ⟨w,hw,rfl⟩,
    Checked.map_eq_ok.mpr ⟨v,hv,rfl⟩⟩,?_⟩
  exact Vec.axpy_right_comm acc v w a a

theorem sumAdjoint_perm {xs ys : List (Transform ℝ × List ℝ)} (h : xs.Perm ys) (n : Nat) :
    Checked.Returns Eq (sumAdjoint n xs) (sumAdjoint n ys) :=
  foldlM_perm (axpy_comm (fun p : Transform ℝ × List ℝ => p.1.flatAdjoint n p.2) 1) h _

theorem addNormals_eq_foldlM (rho : ℝ) (x : List ℝ) (ts : List (Term ℝ)) (acc : List ℝ) :
    addNormals rho x ts acc = ts.foldlM
      (fun acc t => (t.transform.flatNormal x.length x).map (Vec.axpy acc rho)) acc := by
  induction ts generalizing acc with
  | nil => rfl
  | cons t ts ih =>
    rw [addNormals,List.foldlM_cons,Checked.bind_map]
    exact congrArg _ (funext fun y => ih _)

theorem covers_augmented (op : Option (Operator ℝ)) (rho : ℝ) (h : ts.Perm ts') :
    ConjugateGradient.Covers (augmented op rho ts) (augmented op rho ts') := by
  intro x
  rw [augmented,augmented,Operator.apply_square,Operator.apply_square]
  refine (Checked.Returns.refl (applyNormal op x)).bind ?_
  rintro acc _ rfl
  rw [addNormals_eq_foldlM,addNormals_eq_foldlM]
  exact foldlM_perm (axpy_comm (fun t => t.transform.flatNormal x.length x) rho) h acc

theorem stackedNorm_perm {vs ws : List (List ℝ)} (h : vs.Perm ws) :
    stackedNorm ws = stackedNorm vs := by
  rw [stackedNorm,stackedNorm,Scalar.real_sum,Scalar.real_sum,(h.map _).sum_eq]

theorem stackedDist_perm {vs ws : List (List ℝ × List ℝ)} (h : vs.Perm ws) :
    stackedDist ws = stackedDist vs := by
  rw [stackedDist,stackedDist,Scalar.real_sum,Scalar.real_sum,(h.map _).sum_eq]

theorem checkDomains_eq_ok_iff {n : Nat} :
    checkDomains n ts = .ok () ↔ ∀ t ∈ ts, t.transform.domainLength = .ok n := by
  induction ts with
  | nil => exact ⟨nofun,fun _ => rfl⟩
  | cons t ts ih =>
    rw [checkDomains,Checked.bind_eq_ok,List.forall_mem_cons,← ih]
    constructor
    · rintro ⟨m,hm,h⟩
      obtain ⟨hmn,h⟩ := Checked.unless_eq_ok.mp h
      exact ⟨hm.trans (congrArg _ (Decidable.of_not_not hmn)),h⟩
    · rintro ⟨hn,h⟩
      exact ⟨n,hn,Checked.unless_eq_ok.mpr ⟨not_not_intro rfl,h⟩⟩

/-- The number of all entries is a sum over the terms too. -/
theorem foldl_add_perm {β : Type} (f : β → Nat) {xs ys : List β} (h : xs.Perm ys) :
    ys.foldl (fun n x => n + f x) 0 = xs.foldl (fun n x => n + f x) 0 :=
  (h.foldl_eq' (fun _ _ _ _ _ => Nat.add_right_comm _ _ _) 0).symm

theorem balance_perm (h : ms.Perm ms') (a : AdmmSettings ℝ) (rho : ℝ) (n : Nat) :
    Checked.Returns Eq (balance a rho n ms) (balance a rho n ms') := by
  refine (sumAdjoint_perm (h.map _) n).bind ?_
  rintro d _ rfl
  refine (sumAdjoint_perm (h.map _) n).map ?_
  rintro v _ rfl
  dsimp only
  rw [foldl_add_perm _ h,stackedDist_perm (h.map _),stackedNorm_perm (h.map _),
    stackedNorm_perm (h.map _)]

theorem merit_perm (h : ms.Perm ms') (rho : ℝ) : merit rho ms' = merit rho ms := by
  rw [merit,merit,stackedDist_perm (h.map _),stackedDist_perm (h.map _)]

/-- The terms are those of the first plan, in another order. -/
structure Plan.Reordered (σ : Equiv.Perm (Fin D)) (p p' : Plan ℝ) : Prop where
  settings_eq : p'.settings = p.settings
  terms : LinearInverse.Reordered σ p.terms p'.terms
  xUpdate_eq : p'.xUpdate = p.xUpdate

/-- So are the variables of the terms. -/
structure State.Reordered (σ : Equiv.Perm (Fin D)) (s s' : State ℝ) : Prop where
  image_eq : s'.image = s.image
  splits : LinearInverse.Reordered σ s.splits s'.splits
  rho_eq : s'.rho = s.rho
  momentum_eq : s'.momentum = s.momentum
  merit_eq : s'.merit = s.merit
  schedule_eq : s'.schedule = s.schedule

variable {p p' : Plan ℝ} {op : Option (Operator ℝ)} {b : Option (List ℝ)} {monitor : Monitor ℝ}
  {s s' : State ℝ} {image : List ℝ}

theorem Plan.Reordered.updateImage (h : p.Reordered σ p') (op : Option (Operator ℝ))
    (b : Option (List ℝ)) (rho : ℝ) (x v : List ℝ) :
    Checked.Returns Eq (updateImage p op b rho x v) (updateImage p' op b rho x v) := by
  rw [Admm.updateImage,Admm.updateImage,h.xUpdate_eq,h.settings_eq,h.terms.isEmpty_eq]
  split
  · exact .refl _
  split
  · refine ((covers_augmented op rho h.terms.perm).solve _ 0 0 x _).map ?_
    rintro r _ rfl
    rfl
  · exact .refl _

theorem Plan.Reordered.update (h : p.Reordered σ p') (hs : s.Reordered σ s')
    (op : Option (Operator ℝ)) (b : Option (List ℝ)) :
    Checked.Returns (fun r r' => r'.1 = r.1 ∧ LinearInverse.Reordered σ r.2 r'.2)
      (update p op b s) (update p' op b s') := by
  have hbegin := h.terms.zipWith hs.splits (begin p.settings.fast)
  rw [Admm.update,Admm.update,hs.image_eq,hs.rho_eq,h.settings_eq]
  refine (sumAdjoint_perm (hbegin.map _).perm _).bind ?_
  rintro v _ rfl
  refine (h.updateImage op b s.rho s.image v).bind ?_
  rintro x _ rfl
  exact (hbegin.mapM _).map fun ms ms' hms => ⟨rfl,hms⟩

theorem reordered_accelerate (hs : s.Reordered σ s') (h : Reordered σ ms ms') (fast : Bool)
    (rho : ℝ) : Reordered σ (accelerate fast rho s ms).1 (accelerate fast rho s' ms').1 ∧
      (accelerate fast rho s' ms').2 = (accelerate fast rho s ms).2 := by
  cases fast with
  | false =>
    exact ⟨h.map _,by simp only [accelerate,hs.momentum_eq,hs.merit_eq,Bool.false_eq_true,if_false]⟩
  | true =>
    simp only [accelerate,hs.momentum_eq,hs.merit_eq,merit_perm h.perm,if_true]
    split
    · exact ⟨h.map _,rfl⟩
    · exact ⟨h.map _,rfl⟩

theorem reordered_adapt (hs : s.Reordered σ s') (a : AdmmSettings ℝ) (bal : Balance ℝ) :
    (adapt a bal s).1.Reordered σ (adapt a bal s').1 ∧ (adapt a bal s').2 = (adapt a bal s).2 := by
  rw [adapt_eq,adapt_eq,hs.schedule_eq,hs.rho_eq]
  split
  · exact ⟨{ hs with rho_eq := rfl, schedule_eq := rfl },rfl⟩
  · exact ⟨⟨hs.image_eq,hs.splits.map _,rfl,hs.momentum_eq,hs.merit_eq,rfl⟩,rfl⟩

theorem Plan.Reordered.pass (h : p.Reordered σ p') (hs : s.Reordered σ s') (k : Nat) :
    Checked.Returns (Pass.Matches (State.Reordered σ)) (pass p op b monitor k s)
      (pass p' op b monitor k s') := by
  refine (h.update hs op b).bind ?_
  rintro ⟨_,ms⟩ ⟨x,ms'⟩ ⟨rfl,hms⟩
  dsimp only
  rw [h.settings_eq,hs.image_eq,hs.rho_eq]
  refine (balance_perm hms.perm _ _ _).bind ?_
  rintro bal _ rfl
  refine (Checked.Returns.refl _).map ?_
  rintro e _ rfl
  have hsettled : settled p.settings bal ms' s.image x = settled p.settings bal ms s.image x := by
    rw [settled,settled,hms.isEmpty_eq]
  rw [hsettled]
  split
  · exact ⟨{ hs with image_eq := rfl, splits := hms.map _, rho_eq := rfl },rfl,rfl⟩
  · obtain ⟨hsplits,hrest⟩ := reordered_accelerate hs hms p.settings.fast s.rho
    generalize accelerate _ _ s ms = r, accelerate _ _ s' ms' = r' at hsplits hrest
    obtain ⟨vs,t,c,es⟩ := r
    obtain ⟨vs',_⟩ := r'
    obtain rfl := hrest
    have hstate : State.Reordered σ ⟨x,vs,s.rho,t,c,s.schedule⟩ ⟨x,vs',s.rho,t,c,s'.schedule⟩ :=
      ⟨rfl,hsplits,rfl,rfl,rfl,hs.schedule_eq⟩
    obtain ⟨hadapt,hchanges⟩ := reordered_adapt hstate p.settings bal
    exact ⟨hadapt,rfl,congrArg (_ ++ ·) hchanges⟩

theorem Plan.Reordered.splitZeros (h : p.Reordered σ p') :
    Checked.Returns (LinearInverse.Reordered σ) p.splitZeros p'.splitZeros := by
  refine (h.terms.mapM _).bind fun lengths lengths' hlengths => ?_
  rw [foldl_add_perm (fun n => n) hlengths.perm]
  split
  · exact .error _ _
  · exact hlengths.mapM _

theorem Plan.Reordered.start (h : p.Reordered σ p') (image : List ℝ) :
    Checked.Returns (State.Reordered σ) (start p image) (start p' image) := by
  refine h.splitZeros.bind fun zs zs' hzs => ?_
  rw [h.settings_eq]
  exact ((h.terms.zipWith hzs Prod.mk).mapM _).map fun vs vs' hvs => ⟨rfl,hvs,rfl,rfl,rfl,rfl⟩

theorem Plan.Reordered.run (h : p.Reordered σ p') (op : Option (Operator ℝ)) (image : List ℝ)
    (b : Option (List ℝ)) (monitor : Monitor ℝ) :
    Checked.Returns Eq (run p op image b monitor) (run p' op image b monitor) := by
  have hdomains : Checked.Returns Eq (checkDomains image.length p.terms)
      (checkDomains image.length p'.terms) := by
    rintro ⟨⟩ hp
    rw [checkDomains_eq_ok_iff] at hp
    exact ⟨(),checkDomains_eq_ok_iff.mpr fun t ht => hp t (h.terms.perm.mem_iff.mpr ht),rfl⟩
  rw [Admm.run,Admm.run]
  split
  · exact .error _ _
  refine hdomains.bind ?_
  rintro _ _ rfl
  refine (h.start image).bind fun s s' hs => ?_
  rw [h.settings_eq]
  refine (Checked.Returns.iterate (fun j u v huv => h.pass huv j) hs _).map fun r r' hr => ?_
  rw [Run.report,Run.report,hr.stopped_eq,hr.iterations_eq,hr.log_eq,hr.state.image_eq,
    hr.state.rho_eq]

theorem Plan.Reordered.symm (h : p.Reordered σ p') : p'.Reordered σ⁻¹ p :=
  ⟨h.settings_eq.symm,h.terms.symm,h.xUpdate_eq.symm⟩

/-- The order of the terms does not matter: a plan with the same terms in another order has the same
outcome, with the image, the report, the final penalty and the history of all residuals. The
variables of each term are the same in every iteration, in their new places. -/
theorem run_reordered (σ : Equiv.Perm (Fin D)) (settings : AdmmSettings ℝ)
    (term : Fin D → Term ℝ) (xUpdate : Option (ProxOperator ℝ)) (op : Option (Operator ℝ))
    (image : List ℝ) (b : Option (List ℝ)) (monitor : Monitor ℝ) :
    (∀ o, run ⟨settings,List.ofFn (term ∘ σ),xUpdate⟩ op image b monitor = .ok o ↔
        run ⟨settings,List.ofFn term,xUpdate⟩ op image b monitor = .ok o) ∧
      ∀ s ps, start ⟨settings,List.ofFn term,xUpdate⟩ image = .ok s →
        Trace (pass ⟨settings,List.ofFn term,xUpdate⟩ op b monitor) 0 s ps →
        ∃ s' ps', start ⟨settings,List.ofFn (term ∘ σ),xUpdate⟩ image = .ok s' ∧
          Trace (pass ⟨settings,List.ofFn (term ∘ σ),xUpdate⟩ op b monitor) 0 s' ps' ∧
          List.Forall₂ (State.Reordered σ) (states s ps) (states s' ps') := by
  have h : Plan.Reordered σ ⟨settings,List.ofFn term,xUpdate⟩
      ⟨settings,List.ofFn (term ∘ σ),xUpdate⟩ := ⟨rfl,⟨term,rfl,rfl⟩,rfl⟩
  refine ⟨fun o => ⟨fun ho => ?_,fun ho => ?_⟩,fun s ps hs htrace => ?_⟩
  · obtain ⟨_,ho,rfl⟩ := h.symm.run op image b monitor o ho
    exact ho
  · obtain ⟨_,ho,rfl⟩ := h.run op image b monitor o ho
    exact ho
  · obtain ⟨s',hs',hss⟩ := h.start image s hs
    obtain ⟨ps',htrace',hall⟩ := htrace.exists_matching (fun j u v huv => h.pass huv j) hss
    exact ⟨s',ps',hs',htrace',forall₂_states hss hall⟩

/-- Two terms with the weights one and two. -/
noncomputable def ridgeTerms (i : Fin 2) : Term ℝ :=
  ⟨.identity [1],.ridge ((i : ℕ) + 1)⟩

noncomputable def ridgesPlan : Plan ℝ := ⟨.default,List.ofFn ridgeTerms,none⟩

noncomputable def swappedPlan : Plan ℝ := ⟨.default,List.ofFn (ridgeTerms ∘ Fin.revPerm),none⟩

theorem run_swappedPlan : ∃ (o : Outcome ℝ) (s s' : State ℝ) (ps ps' : List (Pass ℝ (State ℝ))),
    run ridgesPlan (some .identity) [0,0] (some [1,0]) (.silent "admm") = .ok o ∧
      run swappedPlan (some .identity) [0,0] (some [1,0]) (.silent "admm") = .ok o ∧
      Traced ridgesPlan (some .identity) (some [1,0]) (.silent "admm") [0,0] o s ps ∧
      Trace (pass swappedPlan (some .identity) (some [1,0]) (.silent "admm")) 0 s' ps' ∧
      List.Forall₂ (State.Reordered (D := 2) Fin.revPerm) (states s ps) (states s' ps') := by
  have hlinear : Linear (fun i : Fin 2 => identityTerm (.ridge ((i : ℕ) + 1))) .id !₂[1,0]
      ridgesPlan (some .identity) (some [1,0]) :=
    ⟨rfl,rfl,fun _ => Operator.apply_square _ _ _,rfl⟩
  obtain ⟨o,ho⟩ : ∃ o,
      run ridgesPlan (some .identity) [0,0] (some [1,0]) (.silent "admm") = .ok o :=
    hlinear.exists_run (fun _ _ _ _ _ _ => ⟨_,rfl⟩) Nat.two_pos rfl rfl nofun
  obtain ⟨s,ps,ht⟩ := exists_traced ho
  obtain ⟨hrun,hstates⟩ := run_reordered Fin.revPerm .default ridgeTerms none
    (some .identity) [0,0] (some [1,0]) (.silent "admm")
  obtain ⟨s',ps',_,htrace,hall⟩ := hstates s ps ht.start_eq ht.trace
  exact ⟨o,s,s',ps,ps',ho,(hrun o).mpr ho,ht,htrace,hall⟩

end Admm

end LinearInverse
