import LinearInverse.Proofs.Admm.Passes
import LinearInverse.Proofs.Binary64.Order
import LinearInverse.Proofs.ConjugateGradient.Steps
import LinearInverse.Proofs.Entries
import LinearInverse.Proofs.Progress

namespace LinearInverse
variable {α : Type}

/-- The cap on the iterations, where the iteration is not the caller's own. -/
def Settings.maxIter? : Settings α → Option Nat
  | conjGrad s => some s.maxIter
  | ist s => some s.maxIter
  | fista s => some s.maxIter
  | admm s => some s.maxIter
  | pocs s => some s.maxIter
  | call _ => none

/-- The numbers of the reports that a monitor gets from a run that ends so. -/
def Algorithm.numbers (a : Algorithm) (r : Report) : List Nat :=
  match r.status with
  | .skipped _ => []
  | _ => if a = .conjGrad then [r.iterations] else List.range r.iterations

/-- Where a run can converge, and after how many iterations. -/
def Algorithm.Convergent (a : Algorithm) (maxIter iterations : Nat) : Prop :=
  match a with
  | .conjGrad => iterations = 0 ∨ iterations < maxIter
  | .pocs => False
  | _ => 1 ≤ iterations ∧ iterations ≤ maxIter

/-- A bound of zero on the residual, of whichever sign. -/
def Settings.NoTolerance [Scalar α] : Settings α → Prop
  | ist s => (s.tol == 0) = true
  | fista s => (s.tol == 0) = true
  | _ => False

/-- The report, what the monitor was told and the image fit together. -/
structure Outcome.Accounted [Scalar α] (o : Outcome α) (settings : Settings α) (maxIter : Nat)
    (r : Report) : Prop where
  capped : r.status = .maxIterReached → r.iterations = maxIter
  converged : r.status = .converged →
    settings.algorithm.Convergent maxIter r.iterations ∧ ¬settings.NoTolerance
  numbers : (calls o.log).map Progress.iteration = settings.algorithm.numbers r
  /-- A thresholding run that reached its cap has moved on from what it told last. -/
  last : ∀ c, (calls o.log).getLast? = some c →
    r.status = .converged ∨ settings.algorithm ≠ .ist ∧ settings.algorithm ≠ .fista →
      c.image = o.image

theorem calls_singleton {e : Event α} {c : Progress α} (he : Event.progress? e = some c) :
    calls [e] = [c] := by
  rw [calls,List.filterMap_cons_some he,List.filterMap_nil]

/-- One report among events of other kinds. -/
theorem calls_of_notes {n e : Event α} {es : List (Event α)} {c : Progress α}
    (hn : Event.progress? n = none) (he : Event.progress? e = some c)
    (hes : ∀ e ∈ es, Event.progress? e = none) : calls (n :: e :: es) = [c] := by
  rw [calls,List.filterMap_cons_none hn,List.filterMap_cons_some he,
    List.filterMap_eq_nil_iff.mpr hes]

variable [Scalar α]

/-- Runs that look at the data report neither end, and the monitor is told nothing. -/
theorem accounted_skipped {settings : Settings α} {maxIter : Nat} {image b : List α}
    {reason : Degeneracy} (h : DataState.check b = .error reason) :
    (Solve.skipped image (.classify b) reason).Accounted settings maxIter (.skipped reason) where
  capped := nofun
  converged := nofun
  numbers := by
    obtain ⟨hb,_⟩ | ⟨n,hb,_⟩ := Solve.check_eq_error h <;> rw [hb] <;> rfl
  last := by
    obtain ⟨hb,_⟩ | ⟨n,hb,_⟩ := Solve.check_eq_error h <;> rw [hb] <;> exact nofun

/-- A run of passes that make one report each. -/
theorem accounted_iterate {σ : Type} {pass : Nat → σ → Checked α (Pass α σ)}
    {Shows : Progress α → Pass α σ → Prop} {s : σ} {r : Run α σ} {settings : Settings α}
    {maxIter : Nat} {image : List α} (ht : Tells pass Shows)
    (h : iterate pass maxIter 0 s = .ok r) (ha : settings.algorithm ≠ .conjGrad)
    (hstop : ∀ c p, Shows c p → p.stop = true →
      settings.algorithm ≠ .pocs ∧ ¬settings.NoTolerance)
    (hshown : ∀ c p, Shows c p →
      p.stop = true ∨ settings.algorithm ≠ .ist ∧ settings.algorithm ≠ .fista →
        r.state = p.state → r.stopped = p.stop → c.image = image) :
    (⟨image,r.log,.ok r.report⟩ : Outcome α).Accounted settings maxIter r.report := by
  obtain ⟨hfull,hle⟩ := iterations_of_iterate h
  obtain ⟨hnumbers,hlast⟩ := calls_of_iterate ht h
  have hconv : r.report.status = .converged ↔ r.stopped = true := by
    rw [Run.report]
    cases r.stopped <;> simp
  refine ⟨fun hr => hfull (Bool.eq_false_iff.mpr fun hs => ?_),fun hr => ?_,?_,fun c hc hor => ?_⟩
  · rw [hconv.mpr hs] at hr
    cases hr
  · obtain ⟨j,u,p,hp,hpstop⟩ := exists_stop h (hconv.mp hr)
    obtain ⟨c,_,_,hshows⟩ := ht j u p hp
    obtain ⟨hpocs,htol⟩ := hstop c p hshows hpstop
    refine ⟨?_,htol⟩
    have hbounds := hle (hconv.mp hr)
    unfold Algorithm.Convergent
    split
    next he => exact absurd he ha
    next he => exact absurd he hpocs
    next => exact hbounds
  · rw [hnumbers,Algorithm.numbers,if_neg ha]
    obtain hs | hs := r.status_report <;> rw [hs] <;> rfl
  · obtain ⟨p,hshows,hstate,hstopped⟩ := hlast c hc
    rw [hconv,hstopped] at hor
    exact hshown c p hshows hor hstate hstopped

namespace Thresholding
variable {t : Task α}

/-- The pass that stops shows the image it leaves, and has met the bound. -/
def Shows {σ : Type} (image : σ → List α) (t : Task α) (c : Progress α) (p : Pass α σ) : Prop :=
  p.stop = true → c.image = image p.state ∧ ∃ r, Vec.norm r < t.params.epsilon

omit [Scalar α] in
/-- A loop that returns was not refused before it started. -/
theorem exists_of_refusable {β γ : Type} {refused : Prop} [Decidable refused] {d : Defect α}
    {loop : Checked α β} {f : β → γ} {r : γ}
    (h : (if refused then .error d else loop.map f) = .ok r) : ∃ q, loop = .ok q ∧ r = f q := by
  obtain ⟨_,h⟩ := Checked.unless_eq_ok.mp h
  obtain ⟨q,hq,rfl⟩ := Checked.map_eq_ok.mp h
  exact ⟨q,hq,rfl⟩

theorem Plain.run_eq_ok {x : List α} {r : Solution α} (h : run t x = .ok r) :
    ∃ q, iterate (pass t) t.params.maxIter 0 (start t x) = .ok q ∧
      r = ⟨q.report,q.state.image,q.log⟩ :=
  exists_of_refusable h

theorem Accelerated.run_eq_ok {x : List α} {r : Solution α} (h : run t x = .ok r) :
    ∃ q, iterate (pass t) t.params.maxIter 0 (start t x) = .ok q ∧
      r = ⟨q.report,if q.stopped then q.state.image else q.state.point,q.log⟩ :=
  exists_of_refusable h

theorem note_halve (enabled : Bool) (tau : α) (s : Schedule) :
    ∀ e ∈ (halve enabled tau s).2.2, Event.progress? e = none := by
  unfold halve
  dsimp only
  split <;> simp [Event.progress?]

theorem Plain.tells : Tells (pass t) (Shows State.image t) := by
  intro k s p h
  obtain ⟨x,_,h⟩ := Checked.bind_eq_ok.mp h
  obtain ⟨r,_,h⟩ := Checked.bind_eq_ok.mp h
  obtain ⟨e,he,h⟩ := Checked.map_eq_ok.mp h
  obtain ⟨c,hc,hk,hx⟩ := calls_of_report he
  split at h
  next hlt =>
    subst h
    exact ⟨c,calls_of_notes rfl hc (fun _ h => absurd h List.not_mem_nil),hk,
      fun _ => ⟨hx,r,hlt⟩⟩
  next =>
    subst h
    exact ⟨c,calls_of_notes rfl hc (note_halve _ _ _),hk,nofun⟩

theorem Accelerated.tells : Tells (pass t) (Shows State.image t) := by
  intro k s p h
  obtain ⟨r,_,h⟩ := Checked.bind_eq_ok.mp h
  obtain ⟨e,he,h⟩ := Checked.bind_eq_ok.mp h
  obtain ⟨c,hc,hk,hx⟩ := calls_of_report he
  split at h
  next hlt =>
    cases h
    exact ⟨c,calls_of_notes rfl hc (fun _ h => absurd h List.not_mem_nil),hk,
      fun _ => ⟨hx,r,hlt⟩⟩
  next =>
    obtain ⟨x,_,rfl⟩ := Checked.map_eq_ok.mp h
    exact ⟨c,calls_of_notes rfl hc (note_halve _ _ _),hk,nofun⟩

end Thresholding

theorem AlternatingProjections.tells {projections : List (ProxOperator α)} {monitor : Monitor α} :
    Tells (pass projections monitor) fun c p => p.stop = false ∧ c.image = p.state.image := by
  intro k s p h
  obtain ⟨t,_,h⟩ := Checked.bind_eq_ok.mp h
  obtain ⟨e,he,rfl⟩ := Checked.map_eq_ok.mp h
  obtain ⟨c,hc,hk,hx⟩ := calls_of_report he
  exact ⟨c,calls_singleton hc,hk,rfl,hx⟩

namespace Admm
variable {p : Plan α} {op : Option (Operator α)} {b : Option (List α)} {monitor : Monitor α}

omit [Scalar α] in
theorem Plan.settings_of_new {s : AdmmSettings α} {transforms : List (Transform α)}
    {proxes : List (ProxOperator α)} {xUpdate : Option (ProxOperator α)}
    (h : Plan.new s transforms proxes xUpdate = .ok p) : p.settings = s := by
  unfold Plan.new at h
  split at h
  next => cases h; rfl
  next => cases h

omit [Scalar α] in
theorem IsNote.progress?_eq_none {e : Event α} (h : IsNote e) : Event.progress? e = none := by
  obtain ⟨_,h⟩ := h
  cases e <;> first | rfl | cases h

theorem tells : Tells (pass p op b monitor) fun c q => c.image = q.state.image := by
  intro k s q h
  obtain ⟨⟨image,ms⟩,_,h⟩ := Checked.bind_eq_ok.mp h
  obtain ⟨bal,_,h⟩ := Checked.bind_eq_ok.mp h
  obtain ⟨e,he,h⟩ := Checked.map_eq_ok.mp h
  obtain ⟨c,hc,hk,hx⟩ := calls_of_report he
  dsimp only at h
  split at h
  next =>
    subst h
    exact ⟨c,calls_of_notes rfl hc (fun _ h => absurd h List.not_mem_nil),hk,hx⟩
  next =>
    subst h
    refine ⟨c,calls_of_notes rfl hc fun e he => IsNote.progress?_eq_none ?_,hk,
      hx.trans (image_following p.settings s image ms bal).symm⟩
    exact (List.mem_append.mp he).elim (notes_accelerate p.settings.fast s.rho s ms e)
      (notes_adapt p.settings bal (accelerated p.settings s image ms) e)

end Admm

namespace ConjugateGradient
variable {A : Operator α} {target : α} {s t : State α} {status : Status}

/-- The cap is looked at before the target, so a run that converges has a step left. -/
theorem iterations_of_advance {fuel : Nat} (h : advance A target fuel s = .ok (status,t)) :
    status = .maxIterReached ∧ t.iterations = s.iterations + fuel ∨
      status = .converged ∧ t.iterations < s.iterations + fuel := by
  induction fuel generalizing s with
  | zero =>
    cases h
    exact .inl ⟨rfl,rfl⟩
  | succ fuel ih =>
    cases hm : s.meets target with
    | true =>
      rw [advance_of_meets hm] at h
      cases h
      exact .inr ⟨rfl,by omega⟩
    | false =>
      rw [advance,hm] at h
      obtain ⟨u,hu,h⟩ := Checked.bind_eq_ok.mp h
      have hcount := iterations_step hu
      obtain ⟨hs,ht⟩ | ⟨hs,ht⟩ := ih h
      · exact .inl ⟨hs,by omega⟩
      · exact .inr ⟨hs,by omega⟩

theorem report_of_solve {maxIter : Nat} {w epsilon : α} {x b y : List α} {r : Report}
    (h : solve maxIter w epsilon A x b = .ok (r,y)) :
    r.status = .maxIterReached ∧ r.iterations = maxIter ∨
      r.status = .converged ∧ (r.iterations = 0 ∨ r.iterations < maxIter) := by
  obtain ⟨_,h⟩ := Checked.unless_eq_ok.mp h
  obtain ⟨size,_,h⟩ := Checked.bind_eq_ok.mp h
  split at h
  next =>
    cases h
    exact .inr ⟨rfl,.inl rfl⟩
  next =>
    obtain ⟨⟨status,t⟩,ht,h⟩ := Checked.bind_eq_ok.mp h
    obtain ⟨s,hs,ht⟩ := Checked.bind_eq_ok.mp ht
    obtain ⟨z,_,rfl⟩ := Checked.map_eq_ok.mp hs
    cases h
    obtain ⟨rfl,hn⟩ | ⟨rfl,hn⟩ := iterations_of_advance ht
    · exact .inl ⟨rfl,hn.trans (Nat.zero_add maxIter)⟩
    · exact .inr ⟨rfl,.inr (hn.trans_eq (Nat.zero_add maxIter))⟩

theorem run_eq_ok {maxIter : Nat} {w epsilon : α} {x b : List α} {monitor : Monitor α}
    {r : Solution α} (h : run maxIter w epsilon A x b monitor = .ok r) :
    solve maxIter w epsilon A x b = .ok (r.report,r.image) ∧
      ∃ c, calls r.log = [c] ∧ c.iteration = r.report.iterations ∧ c.image = r.image := by
  obtain ⟨⟨report,y⟩,hr,h⟩ := Checked.bind_eq_ok.mp h
  obtain ⟨size,_,h⟩ := Checked.bind_eq_ok.mp h
  obtain ⟨e,he,rfl⟩ := Checked.map_eq_ok.mp h
  obtain ⟨c,hc,hk,hy⟩ := calls_of_report he
  exact ⟨hr,c,calls_singleton hc,hk,hy⟩

theorem accounted_run {c : ConjGradSettings α} {maxIter : Nat} {w epsilon : α} {x b : List α}
    {monitor : Monitor α} {r : Solution α} (h : run maxIter w epsilon A x b monitor = .ok r) :
    (Outcome.ofSolution r).Accounted (.conjGrad c) maxIter r.report := by
  obtain ⟨hsolve,d,hd,hk,hx⟩ := run_eq_ok h
  have hreport := report_of_solve hsolve
  refine ⟨fun hr => ?_,fun hr => ?_,?_,fun d' hd' _ => ?_⟩
  · obtain ⟨_,hn⟩ | ⟨hs,_⟩ := hreport
    · exact hn
    · rw [hs] at hr
      cases hr
  · obtain ⟨hs,_⟩ | ⟨_,hn⟩ := hreport
    · rw [hs] at hr
      cases hr
    · exact ⟨hn,id⟩
  · rw [Outcome.ofSolution,hd,List.map_singleton,hk,Algorithm.numbers]
    obtain ⟨hs,_⟩ | ⟨hs,_⟩ := hreport <;> rw [hs] <;> rfl
  · rw [Outcome.ofSolution,hd] at hd'
    cases hd'
    exact hx

end ConjugateGradient

/-- A bound of zero times the norm of usable data is zero, and no norm is below it. -/
theorem not_noTolerance {s : ThresholdSettings Float} {b r : List Float} {size : Float}
    (hb : DataState.classify b = .usable size) (hr : Vec.norm r < s.tol * size) :
    ¬(s.tol == 0) = true := by
  intro h
  obtain ⟨_,hsize⟩ := DataState.eq_of_classify_usable hb
  exact Binary64.not_norm_lt r
    (Binary64.zero_mul_of_isFinite h (Binary64.isFinite_of_isNormal hsize)) hr

/-- Every run that returns reports as it went. -/
theorem Solve.run_accounted {settings : Settings Float} {p : Problem Float} {image : List Float}
    {objective : Option (List Float → Float)} {o : Outcome Float} {maxIter : Nat}
    (hm : settings.maxIter? = some maxIter) (h : run settings p image objective = .ok o) :
    ∃ r, o.result = .ok r ∧ o.Accounted settings maxIter r := by
  obtain ⟨_,hends⟩ := run_eq_ok_iff.mp h
  clear h
  cases hends with
  | skipped _ _ hr => exact ⟨_,rfl,accounted_skipped hr⟩
  | conjGrad _ _ _ h =>
    cases hm
    exact ⟨_,rfl,ConjugateGradient.accounted_run h⟩
  | ist _ _ _ hb _ h =>
    cases hm
    obtain ⟨r,hr,rfl⟩ := Thresholding.Plain.run_eq_ok h
    refine ⟨_,rfl,accounted_iterate Thresholding.Plain.tells hr nofun (fun c q hq hstop => ?_)
      fun c q hq hor hstate _ => ?_⟩
    · obtain ⟨_,r,hr⟩ := hq hstop
      exact ⟨nofun,not_noTolerance hb hr⟩
    · obtain hstop | ⟨h,_⟩ := hor
      · exact (hq hstop).1.trans (congrArg _ hstate.symm)
      · exact absurd rfl h
  | fista _ _ _ hb _ h =>
    cases hm
    obtain ⟨r,hr,rfl⟩ := Thresholding.Accelerated.run_eq_ok h
    refine ⟨_,rfl,accounted_iterate Thresholding.Accelerated.tells hr nofun
      (fun c q hq hstop => ?_) fun c q hq hor hstate hstopped => ?_⟩
    · obtain ⟨_,r,hr⟩ := hq hstop
      exact ⟨nofun,not_noTolerance hb hr⟩
    · obtain hstop | ⟨_,h⟩ := hor
      · rw [if_pos (hstopped.trans hstop)]
        exact (hq hstop).1.trans (congrArg _ hstate.symm)
      · exact absurd rfl h
  | admm _ hplan h =>
    cases hm
    obtain rfl := Admm.Plan.settings_of_new hplan
    obtain ⟨_,r,_,_,hr,rfl⟩ := Admm.run_eq_ok h
    exact ⟨_,rfl,accounted_iterate Admm.tells hr nofun (fun c q _ _ => ⟨nofun,id⟩)
      fun c q hq _ hstate _ => hq.trans (congrArg _ hstate.symm)⟩
  | pocs h =>
    cases hm
    obtain ⟨r,hr,rfl⟩ := Checked.map_eq_ok.mp h
    exact ⟨_,rfl,accounted_iterate AlternatingProjections.tells hr nofun
      (fun c q hq hstop => by rw [hq.1] at hstop; cases hstop)
      fun c q hq _ hstate _ => hq.2.trans (congrArg _ hstate.symm)⟩
  | call => cases hm

/-- Both bounds are far from the numbers in use. -/
def boxProblem : Problem Float :=
  ⟨some .identity,some [.box (-4) 4],none,none,some [1,-2],none⟩

def boxSettings : ThresholdSettings Float :=
  { ThresholdSettings.default with maxIter := 3, step := 1, tol := 0.5 }

set_option maxRecDepth 100000 in
theorem Solve.run_boxProblem : ∃ o, run (.fista boxSettings) boxProblem [0,0] none = .ok o ∧
    o.result = .ok ⟨.converged,2⟩ ∧
      ∃ r, o.result = .ok r ∧ o.Accounted (.fista boxSettings) 3 r := by
  have hok : (run (.fista boxSettings) boxProblem [0,0] none).toOption.any
      (fun o => o.result.toOption = some ⟨.converged,2⟩) = true := by
    decide +kernel
  cases h : run (.fista boxSettings) boxProblem [0,0] none with
  | error d => rw [h] at hok; cases hok
  | ok o =>
    have haccounted : ∃ r, o.result = .ok r ∧ o.Accounted (.fista boxSettings) 3 r :=
      run_accounted rfl h
    obtain ⟨r,hr,hacc⟩ := haccounted
    refine ⟨o,rfl,?_,r,hr,hacc⟩
    rw [h] at hok
    simpa [Except.toOption,hr] using hok

end LinearInverse
