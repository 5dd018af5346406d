import LinearInverse.Proofs.Observation.Iterations
import LinearInverse.Proofs.Parallel

namespace LinearInverse
variable {α σ : Type}

/-- A report without what the monitor adds to it. -/
def Event.bare : Event α → Event α
  | .progress p => .progress { p with objective := none, truthError := none }
  | e => e

/-- Outcomes that differ in what the monitor adds to the reports alone. -/
structure Outcome.Same (o o' : Outcome α) : Prop where
  image_eq : o'.image = o.image
  result_eq : o'.result = o.result
  log_eq : o'.log.map Event.bare = o.log.map Event.bare

structure Admm.Outcome.Same (o o' : Admm.Outcome α) : Prop where
  image_eq : o'.solution.image = o.solution.image
  report_eq : o'.solution.report = o.solution.report
  history_eq : o'.history = o.history
  rho_eq : o'.rho = o.rho

/-- A run makes a report unless it is skipped. -/
def Settings.Reports : Settings α → Prop
  | conjGrad _ => True
  | ist s => 0 < s.maxIter
  | fista s => 0 < s.maxIter
  | admm s => 0 < s.maxIter
  | pocs s => 0 < s.maxIter
  | call _ => False

/-- A report is due in the run that ends so. -/
def Outcome.Due (settings : Settings α) (o : Outcome α) : Prop :=
  (∃ r, o.result = .ok r ∧ r.ran = true) ∧ settings.Reports

/-- What becomes of a run when the ground truth is replaced by one of another length. -/
structure Outcome.Refused (settings : Settings α) (a b : Checked α (Outcome α)) : Prop where
  due_iff : ∀ o, a = .ok o → (o.Due settings ↔ calls o.log ≠ [])
  /-- The first report that is due ends it. -/
  due : ∀ o, a = .ok o → o.Due settings → b = .error .truthLength
  idle : ∀ o, a = .ok o → ¬o.Due settings → ∃ o', b = .ok o' ∧ o.Same o'
  failed : ∀ d, a = .error d → b = .error d ∨ b = .error .truthLength

variable [Scalar α] {m : Monitor α} {n : Nat} {image : List α}

def Outcome.observed (m : Monitor α) (o : Outcome α) : Outcome α :=
  { o with log := o.log.map m.observed }

namespace Solve
variable {p : Problem α} {truth : Option (List α)} {objective : Option (List α → α)}
  {settings : Settings α} {data : List α}

/-- The data are of use, where they are looked at. -/
def Usable (settings : Settings α) (p : Problem α) : Prop :=
  settings.algorithm.isGuarded = true → ∀ b, p.data = some b →
    ∃ size, DataState.classify b = .usable size

theorem usable_iff (hg : settings.algorithm.isGuarded = true) (hb : p.data = some data) :
    Usable settings p ↔ ∃ size, DataState.classify data = .usable size := by
  refine ⟨fun h => h hg data hb,fun h _ b hb' => ?_⟩
  obtain rfl : data = b := Option.some.inj (hb.symm.trans hb')
  exact h

/-- Whether a run gets to a report. -/
def Due (settings : Settings α) (p : Problem α) : Prop :=
  Usable settings p ∧ settings.Reports

theorem watched_guarded {due : Prop} {run watched : α → Checked α (Outcome α)}
    (h : ∀ size, Watched m n due (Outcome.observed m) (run size) (watched size)) :
    Watched m n ((∃ size, DataState.classify data = .usable size) ∧ due) (Outcome.observed m)
      (guarded data image run) (guarded data image watched) := by
  have hskip {state : DataState α} {reason : Degeneracy} (hnot : ∀ size, state ≠ .usable size) :
      Watched m n ((∃ size, state = .usable size) ∧ due) (Outcome.observed m)
        (.ok (skipped image state reason)) (.ok (skipped image state reason)) := by
    refine ⟨fun _ => ?_,fun _ hd => ?_,fun _ _ => rfl⟩
    · cases state <;> rfl
    · obtain ⟨⟨size,hsize⟩,_⟩ := hd
      exact absurd hsize (hnot size)
  rw [guarded,guarded]
  cases hc : DataState.classify data with
  | empty => exact hskip nofun
  | corrupted => exact hskip nofun
  | usable size => exact (h size).congr ⟨fun hd => ⟨⟨_,rfl⟩,hd⟩,And.right⟩

theorem watched_conjGrad (s : ConjGradSettings α) (p : Problem α) (image : List α)
    (objective : Option (List α → α)) :
    Watched ⟨"conjgrad",p.truth,objective⟩ image.length (Due (.conjGrad s) p)
      (Outcome.observed ⟨"conjgrad",p.truth,objective⟩)
      (conjGrad (.conjGrad s) { p with truth := none } image none)
      (conjGrad (.conjGrad s) p image objective) := by
  refine .bind_same _ fun _ _ => .bind_same _ fun _ _ => .bind_same _ fun _ _ =>
    .bind_same _ fun _ _ => .bind_same _ fun A _ => .bind_same _ fun b hb => ?_
  refine (watched_guarded fun size => ?_).congr
    (and_congr_left' (usable_iff rfl (dataOf_eq_ok.mp hb)).symm)
  exact (ConjugateGradient.watched_run s.maxIter s.l2Weight (s.tol * size) A image b).map
    fun _ => rfl

theorem watched_threshold (a : Algorithm) (s : ThresholdSettings α)
    {run : Thresholding.Task α → List α → Checked α (Solution α)}
    (hm : m = ⟨a.name,p.truth,objective⟩)
    (hrun : ∀ t : Thresholding.Task α, Watched m image.length (0 < t.params.maxIter)
      (Solution.observed m) (run (t.watchedBy (.silent m.name)) image) (run (t.watchedBy m) image))
    (hg : settings.algorithm.isGuarded = true) :
    Watched m image.length (Usable settings p ∧ 0 < s.maxIter) (Outcome.observed m)
      (threshold a s run { p with truth := none } image none)
      (threshold a s run p image objective) := by
  subst hm
  refine .bind_same _ fun n _ => ?_
  dsimp only
  split
  next prox _ _ =>
    refine .bind_same _ fun A _ => .bind_same _ fun b hb => ?_
    refine (watched_guarded fun size => .bind_same _ fun _ _ => ?_).congr
      (and_congr_left' (usable_iff hg (dataOf_eq_ok.mp hb)).symm)
    exact (hrun (task a s p objective A prox b size)).map fun _ => rfl
  next => exact .error _

theorem watched_admm (s : AdmmSettings α) (p : Problem α) (image : List α)
    (objective : Option (List α → α)) :
    Watched ⟨"admm",p.truth,objective⟩ image.length (Due (.admm s) p)
      (Outcome.observed ⟨"admm",p.truth,objective⟩)
      (admm (.admm s) { p with truth := none } image none)
      (admm (.admm s) p image objective) := by
  refine .bind_same _ fun n _ => .bind_same _ fun _ _ => ?_
  have hrun : Watched ⟨"admm",p.truth,objective⟩ image.length (0 < s.maxIter)
      (Outcome.observed ⟨"admm",p.truth,objective⟩)
      (Admm.Plan.new s (p.transforms.getD []) (p.proxes.getD []) p.xUpdate >>= fun plan =>
        (Admm.run plan p.normal image p.data (.silent "admm")).map fun o => .ofSolution o.solution)
      (Admm.Plan.new s (p.transforms.getD []) (p.proxes.getD []) p.xUpdate >>= fun plan =>
        (Admm.run plan p.normal image p.data ⟨"admm",p.truth,objective⟩).map fun o =>
          .ofSolution o.solution) := by
    refine .bind_same _ fun plan hplan => ?_
    rw [← Admm.Plan.settings_of_new hplan]
    exact (Admm.watched_run plan p.normal image p.data).map fun _ => rfl
  dsimp only
  cases hdata : p.data with
  | none =>
    rw [hdata] at hrun
    refine hrun.congr ⟨fun h => ⟨fun _ b hb => ?_,h⟩,And.right⟩
    rw [hdata] at hb
    cases hb
  | some b =>
    rw [hdata] at hrun
    exact (watched_guarded fun _ => hrun).congr (and_congr_left' (usable_iff rfl hdata).symm)

theorem watched_pocs (s : PocsSettings) (p : Problem α) (image : List α)
    (objective : Option (List α → α)) :
    Watched ⟨"pocs",p.truth,objective⟩ image.length (Due (.pocs s) p)
      (Outcome.observed ⟨"pocs",p.truth,objective⟩)
      (pocs (.pocs s) { p with truth := none } image none)
      (pocs (.pocs s) p image objective) := by
  refine .bind_same _ fun _ _ => .bind_same _ fun _ _ => .bind_same _ fun _ _ => ?_
  have hdue : 0 < s.maxIter ↔ Due (.pocs s) p := ⟨fun h => ⟨nofun,h⟩,And.right⟩
  refine Watched.congr ?_ hdue
  exact (AlternatingProjections.watched_run s.maxIter (p.proxes.getD []) image).map fun _ => rfl

/-- A run is that without monitor, with what the monitor adds to its reports. -/
theorem watched_run (settings : Settings α) (hcall : settings.algorithm ≠ .call) (p : Problem α)
    (image : List α) (objective : Option (List α → α)) :
    Watched ⟨settings.algorithm.name,p.truth,objective⟩ image.length (Due settings p)
      (Outcome.observed ⟨settings.algorithm.name,p.truth,objective⟩)
      (run settings { p with truth := none } image none) (run settings p image objective) := by
  cases settings with
  | conjGrad s => exact watched_conjGrad s p image objective
  | ist s => exact watched_threshold .ist s rfl (Thresholding.Plain.watched_run · image) rfl
  | fista s =>
    exact watched_threshold .fista s rfl (Thresholding.Accelerated.watched_run · image) rfl
  | admm s => exact watched_admm s p image objective
  | pocs s => exact watched_pocs s p image objective
  | call => exact absurd rfl hcall

end Solve

theorem bare_observed (m : Monitor α) (e : Event α) : (m.observed e).bare = e.bare := by
  cases e <;> rfl

namespace Outcome
variable {settings : Settings α}

theorem bare_log_observed (m : Monitor α) (o : Outcome α) :
    (o.observed m).log.map Event.bare = o.log.map Event.bare := by
  change (o.log.map m.observed).map Event.bare = _
  rw [List.map_map]
  exact congrArg (List.map · _) (funext (bare_observed m))

theorem same_observed (m m' : Monitor α) (o : Outcome α) :
    (o.observed m).Same (o.observed m') :=
  ⟨rfl,rfl,(o.bare_log_observed m').trans (o.bare_log_observed m).symm⟩

end Outcome

namespace Solve
variable {p : Problem α} {truth truth' : Option (List α)} {objective : Option (List α → α)}
  {settings : Settings α} {o : Outcome α} {report : Report}

theorem due_of_ran (husable : Usable settings p) (hr : o.result = .ok report)
    (hran : report.ran = true) (hcalls : settings.Reports ↔ calls o.log ≠ []) :
    (Due settings p ↔ o.Due settings) ∧ (o.Due settings ↔ calls o.log ≠ []) := by
  have hdue : o.Due settings ↔ settings.Reports := ⟨And.right,fun h => ⟨⟨report,hr,hran⟩,h⟩⟩
  exact ⟨⟨fun h => hdue.mpr h.2,fun h => ⟨husable,h.2⟩⟩,hdue.trans hcalls⟩

/-- A report is due exactly if the run makes one. -/
theorem Ends.due_iff (h : Ends p image objective settings o) (hcall : settings.algorithm ≠ .call) :
    (Due settings p ↔ o.Due settings) ∧ (o.Due settings ↔ calls o.log ≠ []) := by
  have husable (b : List α) (size : α) (hb : p.data = some b)
      (hsize : DataState.classify b = .usable size) : Usable settings p := by
    intro _ b' hb'
    obtain rfl : b = b' := Option.some.inj (hb.symm.trans hb')
    exact ⟨size,hsize⟩
  cases h with
  | @skipped _ b reason hg hb hcheck =>
    have hnot : ¬Usable settings p := fun h => by
      obtain ⟨size,hsize⟩ := h hg _ hb
      rw [DataState.check,hsize] at hcheck
      cases hcheck
    have hskipped : ¬(Solve.skipped image (.classify b) reason).Due settings := by
      rintro ⟨⟨r,hr,hran⟩,_⟩
      cases hr
      cases hran
    refine ⟨iff_of_false (fun h => hnot h.1) hskipped,iff_of_false hskipped (not_not_intro ?_)⟩
    obtain ⟨hb,_⟩ | ⟨n,hb,_⟩ := check_eq_error hcheck <;> rw [hb] <;> rfl
  | conjGrad _ hb hsize h =>
    obtain ⟨hsolve,c,hc,_⟩ := ConjugateGradient.run_eq_ok h
    refine due_of_ran (husable _ _ hb hsize) rfl ?_ (iff_of_true trivial ?_)
    · rw [Report.ran]
      obtain ⟨hs,_⟩ | ⟨hs,_⟩ := ConjugateGradient.report_of_solve hsolve <;> rw [hs]
    · exact hc ▸ List.cons_ne_nil _ _
  | ist _ _ hb hsize _ h =>
    obtain ⟨r,hr,rfl⟩ := Thresholding.Plain.run_eq_ok h
    exact due_of_ran (husable _ _ hb hsize) rfl r.ran_report
      (calls_ne_nil_iff Thresholding.Plain.tells hr)
  | fista _ _ hb hsize _ h =>
    obtain ⟨r,hr,rfl⟩ := Thresholding.Accelerated.run_eq_ok h
    exact due_of_ran (husable _ _ hb hsize) rfl r.ran_report
      (calls_ne_nil_iff Thresholding.Accelerated.tells hr)
  | admm hdata hplan h =>
    obtain rfl := Admm.Plan.settings_of_new hplan
    obtain ⟨_,r,_,_,hr,rfl⟩ := Admm.run_eq_ok h
    exact due_of_ran (fun _ => hdata) rfl r.ran_report
      (calls_ne_nil_iff Admm.tells hr)
  | pocs h =>
    obtain ⟨r,hr,rfl⟩ := Checked.map_eq_ok.mp h
    exact due_of_ran nofun rfl r.ran_report
      (calls_ne_nil_iff AlternatingProjections.tells hr)
  | call => exact absurd rfl hcall

theorem refused_of_watched {a b plain : Checked α (Outcome α)} {m m' : Monitor α} {due : Prop}
    (ha : a = plain.map (Outcome.observed m)) (h : Watched m' n due (Outcome.observed m') plain b)
    (hm : ¬m'.Fits n) (hdue : ∀ o, a = .ok o →
      (due ↔ o.Due settings) ∧ (o.Due settings ↔ calls o.log ≠ [])) :
    Outcome.Refused settings a b where
  due_iff o ho := (hdue o ho).2
  due o ho hd := by
    have hb := h.blocked hm ((hdue o ho).1.mpr hd)
    obtain ⟨o,rfl,_⟩ := Checked.map_eq_ok.mp (ha.symm.trans ho)
    cases hb
    rfl
  idle o ho hd := by
    have hb := h.idle hm fun h => hd ((hdue o ho).1.mp h)
    obtain ⟨o,hplain,rfl⟩ := Checked.map_eq_ok.mp (ha.symm.trans ho)
    exact ⟨o,hb.trans hplain,rfl,rfl,(o.bare_log_observed m).symm⟩
  failed d hd := by
    cases plain with
    | ok o => cases ha.symm.trans hd
    | error e =>
      cases ha.symm.trans hd
      by_cases hd : due
      · cases h.blocked hm hd with
        | before => exact .inl rfl
        | there => exact .inr rfl
      · exact .inl (h.idle hm hd)

/-- Objective and ground truth do not feed back into the run: with other ones, absent or of the
length of the image, it has the same report and image, and for alternating directions the same
history and final penalty. A ground truth of another length ends it, exactly if a report is due. -/
theorem run_unobserved (settings : Settings α) (hcall : settings.algorithm ≠ .call)
    (p : Problem α) (image : List α) (htruth : ∀ t, truth = some t → t.length = image.length)
    (htruth' : ∀ t, truth' = some t → t.length = image.length)
    (objective objective' : Option (List α → α)) :
    Checked.Both Outcome.Same (run settings { p with truth := truth } image objective)
        (run settings { p with truth := truth' } image objective') ∧
      (∀ (plan : Admm.Plan α) (op : Option (Operator α)) (b : Option (List α)) (name : String),
        Checked.Both Admm.Outcome.Same (Admm.run plan op image b ⟨name,truth,objective⟩)
          (Admm.run plan op image b ⟨name,truth',objective'⟩)) ∧
      ∀ wrong : List α, wrong.length ≠ image.length →
        Outcome.Refused settings (run settings { p with truth := truth } image objective)
          (run settings { p with truth := some wrong } image objective') := by
  have hwatched (truth : Option (List α)) (objective : Option (List α → α)) :=
    watched_run settings hcall { p with truth := truth } image objective
  have hrun := (hwatched truth objective).fits htruth
  refine ⟨?_,fun plan op b name => ?_,fun wrong hwrong => ?_⟩
  · rw [hrun,(hwatched truth' objective').fits htruth']
    exact .of_maps (Outcome.same_observed _ _) _
  · rw [(Admm.watched_run (m := ⟨name,truth,objective⟩) plan op image b).fits htruth,
      (Admm.watched_run (m := ⟨name,truth',objective'⟩) plan op image b).fits htruth']
    refine .of_maps (fun o => ⟨rfl,rfl,?_,rfl⟩) _
    rw [Admm.history_observed,Admm.history_observed]
  · exact refused_of_watched hrun (hwatched (some wrong) objective')
      (fun h => hwrong (h wrong rfl)) fun o ho => (run_eq_ok_iff.mp ho).2.due_iff hcall

set_option maxRecDepth 100000 in
theorem run_unobserved_boxProblem : ∃ o o',
    run (.fista boxSettings) { boxProblem with truth := some [1,-2] } [0,0] none = .ok o ∧
      run (.fista boxSettings) { boxProblem with truth := none } [0,0] (some Vec.norm) = .ok o' ∧
      o.Same o' ∧ run (.fista boxSettings) { boxProblem with truth := some [1] } [0,0]
        (some Vec.norm) = .error .truthLength := by
  have hran : (run (.fista boxSettings) { boxProblem with truth := some [1,-2] } [0,0] none
      ).toOption.any (fun o => o.result.toOption.any Report.ran) = true := by
    decide +kernel
  have htruth : ∀ t : List Float, some [1,-2] = some t → t.length = 2 := by
    rintro _ ⟨⟩
    rfl
  have htruth' : ∀ t : List Float, none = some t → t.length = 2 := nofun
  obtain ⟨hboth,_,hrefused⟩ := run_unobserved (.fista boxSettings) nofun boxProblem [0,0] htruth
    htruth' none (some Vec.norm)
  have hwrong := hrefused [1] (by decide)
  generalize hrun : run _ { boxProblem with truth := some [1,-2] } _ _ = a at hboth hwrong hran
  generalize hrun' : run _ { boxProblem with truth := none } _ _ = b at hboth
  cases hboth with
  | error d => cases hran
  | @ok o o' hsame =>
    refine ⟨o,o',rfl,rfl,hsame,hwrong.due o rfl ⟨?_,Nat.succ_pos 2⟩⟩
    cases hr : o.result with
    | error e => simp [Except.toOption,hr] at hran
    | ok r => exact ⟨r,rfl,by simpa [Except.toOption,hr] using hran⟩

end Solve

end LinearInverse
