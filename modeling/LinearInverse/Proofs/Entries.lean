import LinearInverse.Solve

namespace LinearInverse

/-- Runs that look at the data before they start. -/
def Algorithm.isGuarded : Algorithm → Bool
  | pocs | call => false
  | _ => true

namespace Solve
variable {α : Type}

/-- A problem has what the iteration asks for, and nothing that it refuses. Whether the data are
there is not looked at. -/
def Suits (p : Problem α) : Algorithm → Prop
  | .conjGrad => p.proxes = none ∧ p.transforms = none ∧ p.normal.isSome
  | .ist | .fista => (∃ q, p.proxes = some [q]) ∧ (∀ ts, p.transforms = some ts → ts.length = 1) ∧
    p.normal.isSome
  | .admm => (p.transforms.getD []).length = (p.proxes.getD []).length
  | .pocs => p.normal = none ∧ p.transforms = none ∧ p.data = none
  | .call => (p.proxes.getD []).length ≤ 1 ∧ p.transforms = none

section
variable [Scalar α]

/-- The task that a thresholding iteration is given. -/
def task (a : Algorithm) (s : ThresholdSettings α) (p : Problem α)
    (objective : Option (List α → α)) (A : Operator α) (prox : ProxOperator α) (b : List α)
    (size : α) : Thresholding.Task α :=
  ⟨⟨s.maxIter,s.tol * size,s.step,s.continuation,s.hogwild⟩,A,prox,b,⟨a.name,p.truth,objective⟩⟩

/-- How a run on a problem that suits it can end. -/
inductive Ends (p : Problem α) (image : List α) (objective : Option (List α → α)) :
    Settings α → Outcome α → Prop where
  | skipped {settings : Settings α} {b : List α} {reason : Degeneracy} :
      settings.algorithm.isGuarded = true → p.data = some b → DataState.check b = .error reason →
      Ends p image objective settings (Solve.skipped image (.classify b) reason)
  | conjGrad {s : ConjGradSettings α} {A : Operator α} {b : List α} {size : α} {r : Solution α} :
      p.normal = some A → p.data = some b → DataState.classify b = .usable size →
      ConjugateGradient.run s.maxIter s.l2Weight (s.tol * size) A image b
        ⟨"conjgrad",p.truth,objective⟩ = .ok r →
      Ends p image objective (.conjGrad s) (.ofSolution r)
  | ist {s : ThresholdSettings α} {A : Operator α} {prox : ProxOperator α} {b : List α} {size : α}
      {r : Solution α} :
      p.normal = some A → p.proxes = some [prox] → p.data = some b →
      DataState.classify b = .usable size → Settings.continuationInRange s.continuation = true →
      Thresholding.Plain.run (task .ist s p objective A prox b size) image = .ok r →
      Ends p image objective (.ist s) (.ofSolution r)
  | fista {s : ThresholdSettings α} {A : Operator α} {prox : ProxOperator α} {b : List α}
      {size : α} {r : Solution α} :
      p.normal = some A → p.proxes = some [prox] → p.data = some b →
      DataState.classify b = .usable size → Settings.continuationInRange s.continuation = true →
      Thresholding.Accelerated.run (task .fista s p objective A prox b size) image = .ok r →
      Ends p image objective (.fista s) (.ofSolution r)
  | admm {s : AdmmSettings α} {plan : Admm.Plan α} {r : Admm.Outcome α} :
      (∀ b, p.data = some b → ∃ size, DataState.classify b = .usable size) →
      Admm.Plan.new s (p.transforms.getD []) (p.proxes.getD []) p.xUpdate = .ok plan →
      Admm.run plan p.normal image p.data ⟨"admm",p.truth,objective⟩ = .ok r →
      Ends p image objective (.admm s) (.ofSolution r.solution)
  | pocs {s : PocsSettings} {r : Solution α} :
      AlternatingProjections.run s.maxIter (p.proxes.getD []) image
        ⟨"pocs",p.truth,objective⟩ = .ok r →
      Ends p image objective (.pocs s) (.ofSolution r)
  | call {solver : Direct.Solver α} {o : Outcome α} :
      solver ⟨p.normal,p.proxes.bind List.head?,p.data,p.truth,objective⟩ image = .ok o →
      Ends p image objective (.call solver) o

end

theorem demand_eq_ok {c : Bool} {d : Defect α} {u : Unit} : demand c d = .ok u ↔ c = true := by
  cases c <;> simp [demand]

theorem normalOf_eq_ok {a : Algorithm} {p : Problem α} {A : Operator α} :
    normalOf a p = .ok A ↔ p.normal = some A := by
  unfold normalOf
  cases p.normal <;> simp

theorem dataOf_eq_ok {a : Algorithm} {p : Problem α} {b : List α} :
    dataOf a p = .ok b ↔ p.data = some b := by
  unfold dataOf
  cases p.data <;> simp

/-- Lists of different lengths have no common number of terms. -/
theorem numTerms_eq_ok {p : Problem α} {n : Nat} : p.numTerms = .ok n ↔
    (p.proxes.getD []).length = n ∧
      ∀ ps ts, p.proxes = some ps → p.transforms = some ts → ts.length = ps.length := by
  unfold Problem.numTerms
  cases p.proxes with
  | none => cases p.transforms <;> simp
  | some ps =>
    cases p.transforms with
    | none => simp
    | some ts => by_cases h : ts.length = ps.length <;> simp [h]

variable [Scalar α] {p : Problem α} {image b : List α} {objective : Option (List α → α)}
  {o : Outcome α}

theorem check_eq_error {reason : Degeneracy} (h : DataState.check b = .error reason) :
    (DataState.classify b = .empty ∧ reason = .empty) ∨
      ∃ n, DataState.classify b = .corrupted n ∧ reason = .corrupted := by
  unfold DataState.check DataState.scaledTol at h
  split at h
  next he => exact .inl ⟨he,by cases h; rfl⟩
  next n he => exact .inr ⟨n,he,by cases h; rfl⟩
  next => cases h

/-- Unusable data are skipped, and with usable ones the run decides. -/
theorem guarded_eq_ok {run : α → Checked α (Outcome α)} : guarded b image run = .ok o ↔
    (∃ reason, DataState.check b = .error reason ∧ skipped image (.classify b) reason = o) ∨
      ∃ n, DataState.classify b = .usable n ∧ run n = .ok o := by
  unfold guarded DataState.check DataState.scaledTol
  cases DataState.classify b <;> simp

theorem conjGrad_eq_ok {s : ConjGradSettings α} :
    conjGrad (.conjGrad s) p image objective = .ok o ↔
      Suits p .conjGrad ∧ Ends p image objective (.conjGrad s) o := by
  simp only [conjGrad,Checked.bind_eq_ok,numTerms_eq_ok,demand_eq_ok,normalOf_eq_ok,dataOf_eq_ok,
    Suits,Option.isNone_iff_eq_none]
  constructor
  · rintro ⟨n,-,-,-,-,hps,-,hts,A,hA,b,hb,h⟩
    refine ⟨⟨hps,hts,by simp [hA]⟩,?_⟩
    obtain ⟨reason,hr,rfl⟩ | ⟨size,hsize,h⟩ := guarded_eq_ok.mp h
    · exact .skipped rfl hb hr
    · obtain ⟨r,hr,rfl⟩ := Checked.map_eq_ok.mp h
      exact .conjGrad hA hb hsize hr
  · rintro ⟨⟨hps,hts,hA⟩,h⟩
    obtain ⟨A,hA⟩ := Option.isSome_iff_exists.mp hA
    refine ⟨0,by simp [hps],(),rfl,(),hps,(),hts,A,hA,?_⟩
    cases h with
    | skipped _ hb hr => exact ⟨_,hb,guarded_eq_ok.mpr (.inl ⟨_,hr,rfl⟩)⟩
    | conjGrad hA' hb hsize hr =>
      rw [hA] at hA'
      cases hA'
      exact ⟨_,hb,guarded_eq_ok.mpr (.inr ⟨_,hsize,Checked.map_eq_ok.mpr ⟨_,hr,rfl⟩⟩)⟩

/-- The part of a thresholding iteration behind the demands. -/
def thresholdData (a : Algorithm) (s : ThresholdSettings α)
    (run : Thresholding.Task α → List α → Checked α (Solution α)) (p : Problem α)
    (image : List α) (objective : Option (List α → α)) (A : Operator α) (prox : ProxOperator α)
    (b : List α) : Checked α (Outcome α) :=
  guarded b image fun size =>
    demand (Settings.continuationInRange s.continuation) (.continuation a s.continuation) >>=
      fun _ => (run (task a s p objective A prox b size) image).map .ofSolution

theorem thresholdData_eq_ok {a : Algorithm} {s : ThresholdSettings α}
    {run : Thresholding.Task α → List α → Checked α (Solution α)} {A : Operator α}
    {prox : ProxOperator α} : thresholdData a s run p image objective A prox b = .ok o ↔
      (∃ reason, DataState.check b = .error reason ∧ skipped image (.classify b) reason = o) ∨
        ∃ size r, DataState.classify b = .usable size ∧
          Settings.continuationInRange s.continuation = true ∧
            run (task a s p objective A prox b size) image = .ok r ∧ .ofSolution r = o := by
  simp only [thresholdData,guarded_eq_ok,Checked.bind_eq_ok,Checked.map_eq_ok,demand_eq_ok,
    exists_const,exists_and_left]

theorem threshold_eq {a : Algorithm} {s : ThresholdSettings α}
    {run : Thresholding.Task α → List α → Checked α (Solution α)} {prox : ProxOperator α}
    {A : Operator α} (hp : p.proxes = some [prox])
    (ht : ∀ ts, p.transforms = some ts → ts.length = 1) (hA : p.normal = some A)
    (hb : p.data = some b) :
    threshold a s run p image objective = thresholdData a s run p image objective A prox b := by
  have hn : p.numTerms = .ok 1 := numTerms_eq_ok.mpr ⟨by simp [hp],fun ps ts hps hts => by
    rw [hp] at hps
    cases hps
    exact ht ts hts⟩
  simp only [threshold,hn,hp,normalOf,hA,dataOf,hb]
  rfl

theorem threshold_eq_ok {a : Algorithm} {s : ThresholdSettings α}
    {run : Thresholding.Task α → List α → Checked α (Solution α)} :
    threshold a s run p image objective = .ok o ↔ Suits p .ist ∧ ∃ b, p.data = some b ∧
      ((∃ reason, DataState.check b = .error reason ∧ skipped image (.classify b) reason = o) ∨
        ∃ A prox size r, p.normal = some A ∧ p.proxes = some [prox] ∧
          DataState.classify b = .usable size ∧
          Settings.continuationInRange s.continuation = true ∧
          run (task a s p objective A prox b size) image = .ok r ∧ .ofSolution r = o) := by
  constructor
  · intro h
    obtain ⟨n,hn,h⟩ := Checked.bind_eq_ok.mp h
    split at h
    next prox hp =>
      obtain ⟨A,hA,h⟩ := Checked.bind_eq_ok.mp h
      obtain ⟨b,hb,h⟩ := Checked.bind_eq_ok.mp h
      rw [normalOf_eq_ok] at hA
      refine ⟨⟨⟨prox,hp⟩,fun ts => (numTerms_eq_ok.mp hn).2 _ ts hp,by simp [hA]⟩,b,
        dataOf_eq_ok.mp hb,?_⟩
      obtain hskip | ⟨size,r,hr⟩ := thresholdData_eq_ok.mp h
      · exact .inl hskip
      · exact .inr ⟨A,prox,size,r,hA,hp,hr⟩
    next => cases h
  · rintro ⟨⟨⟨prox,hp⟩,ht,hA⟩,b,hb,h⟩
    obtain ⟨A,hA⟩ := Option.isSome_iff_exists.mp hA
    rw [threshold_eq hp ht hA hb,thresholdData_eq_ok]
    refine h.imp_right ?_
    rintro ⟨A',prox',size,r,hA',hp',hr⟩
    rw [hA] at hA'
    rw [hp] at hp'
    cases hA'
    cases hp'
    exact ⟨size,r,hr⟩

theorem ist_eq_ok {s : ThresholdSettings α} :
    ist (.ist s) p image objective = .ok o ↔ Suits p .ist ∧ Ends p image objective (.ist s) o := by
  refine threshold_eq_ok.trans (and_congr_right fun _ => ⟨?_,fun h => ?_⟩)
  · rintro ⟨b,hb,⟨reason,hr,rfl⟩ | ⟨A,prox,size,r,hA,hp,hsize,hc,hr,rfl⟩⟩
    · exact .skipped rfl hb hr
    · exact .ist hA hp hb hsize hc hr
  · cases h with
    | skipped _ hb hr => exact ⟨_,hb,.inl ⟨_,hr,rfl⟩⟩
    | ist hA hp hb hsize hc hr => exact ⟨_,hb,.inr ⟨_,_,_,_,hA,hp,hsize,hc,hr,rfl⟩⟩

theorem fista_eq_ok {s : ThresholdSettings α} :
    fista (.fista s) p image objective = .ok o ↔
      Suits p .fista ∧ Ends p image objective (.fista s) o := by
  refine threshold_eq_ok.trans (and_congr_right fun _ => ⟨?_,fun h => ?_⟩)
  · rintro ⟨b,hb,⟨reason,hr,rfl⟩ | ⟨A,prox,size,r,hA,hp,hsize,hc,hr,rfl⟩⟩
    · exact .skipped rfl hb hr
    · exact .fista hA hp hb hsize hc hr
  · cases h with
    | skipped _ hb hr => exact ⟨_,hb,.inl ⟨_,hr,rfl⟩⟩
    | fista hA hp hb hsize hc hr => exact ⟨_,hb,.inr ⟨_,_,_,_,hA,hp,hsize,hc,hr,rfl⟩⟩

omit [Scalar α] in
theorem suits_admm_iff : Suits p .admm ↔
    ∃ n, p.numTerms = .ok n ∧ (p.transforms.getD []).length = n := by
  simp only [Suits,numTerms_eq_ok]
  constructor
  · intro h
    refine ⟨_,⟨rfl,fun ps ts hps hts => ?_⟩,h⟩
    simpa [hps,hts] using h
  · rintro ⟨n,⟨rfl,-⟩,h⟩
    exact h

theorem planned_eq_ok {s : AdmmSettings α} :
    (Admm.Plan.new s (p.transforms.getD []) (p.proxes.getD []) p.xUpdate >>= fun plan =>
        (Admm.run plan p.normal image p.data ⟨"admm",p.truth,objective⟩).map fun r =>
          .ofSolution r.solution) = .ok o ↔
      ∃ plan r, Admm.Plan.new s (p.transforms.getD []) (p.proxes.getD []) p.xUpdate = .ok plan ∧
        Admm.run plan p.normal image p.data ⟨"admm",p.truth,objective⟩ = .ok r ∧
          .ofSolution r.solution = o := by
  simp only [Checked.bind_eq_ok,Checked.map_eq_ok,exists_and_left]

theorem admm_eq_ok {s : AdmmSettings α} :
    admm (.admm s) p image objective = .ok o ↔
      Suits p .admm ∧ Ends p image objective (.admm s) o := by
  constructor
  · intro h
    obtain ⟨n,hn,h⟩ := Checked.bind_eq_ok.mp h
    obtain ⟨_,hlen,h⟩ := Checked.bind_eq_ok.mp h
    refine ⟨suits_admm_iff.mpr ⟨n,hn,beq_iff_eq.mp (demand_eq_ok.mp hlen)⟩,?_⟩
    split at h
    next b hb =>
      obtain ⟨reason,hr,rfl⟩ | ⟨size,hsize,h⟩ := guarded_eq_ok.mp h
      · exact .skipped rfl hb hr
      · obtain ⟨plan,r,hplan,hr,rfl⟩ := planned_eq_ok.mp h
        refine .admm (fun c hc => ⟨size,?_⟩) hplan hr
        rw [hb] at hc
        cases hc
        exact hsize
    next hb =>
      obtain ⟨plan,r,hplan,hr,rfl⟩ := planned_eq_ok.mp h
      exact .admm (fun b hb' => by rw [hb] at hb'; cases hb') hplan hr
  · rintro ⟨hsuits,h⟩
    obtain ⟨n,hn,hlen⟩ := suits_admm_iff.mp hsuits
    refine Checked.bind_eq_ok.mpr ⟨n,hn,Checked.bind_eq_ok.mpr
      ⟨(),demand_eq_ok.mpr (beq_iff_eq.mpr hlen),?_⟩⟩
    cases h with
    | skipped _ hb hr =>
      rw [hb]
      exact guarded_eq_ok.mpr (.inl ⟨_,hr,rfl⟩)
    | admm husable hplan hr =>
      have h := planned_eq_ok.mpr ⟨_,_,hplan,hr,rfl⟩
      split
      next b hb =>
        obtain ⟨size,hsize⟩ := husable b hb
        exact guarded_eq_ok.mpr (.inr ⟨size,hsize,h⟩)
      next => exact h

theorem pocs_eq_ok {s : PocsSettings} :
    pocs (.pocs s) p image objective = .ok o ↔
      Suits p .pocs ∧ Ends p image objective (.pocs s) o := by
  simp only [pocs,Checked.bind_eq_ok,Checked.map_eq_ok,demand_eq_ok,Suits,
    Option.isNone_iff_eq_none]
  constructor
  · rintro ⟨-,hA,-,hts,-,hb,r,hr,rfl⟩
    exact ⟨⟨hA,hts,hb⟩,.pocs hr⟩
  · rintro ⟨⟨hA,hts,hb⟩,h⟩
    refine ⟨(),hA,(),hts,(),hb,?_⟩
    cases h with
    | skipped hd => exact absurd hd Bool.false_ne_true
    | pocs hr => exact ⟨_,hr,rfl⟩

theorem call_eq_ok {solver : Direct.Solver α} :
    call (.call solver) p image objective = .ok o ↔
      Suits p .call ∧ Ends p image objective (.call solver) o := by
  simp only [call,Checked.bind_eq_ok,demand_eq_ok,numTerms_eq_ok,Suits,Option.isNone_iff_eq_none,
    decide_eq_true_eq]
  constructor
  · rintro ⟨n,⟨rfl,-⟩,-,hn,-,hts,h⟩
    exact ⟨⟨hn,hts⟩,.call h⟩
  · rintro ⟨⟨hn,hts⟩,h⟩
    refine ⟨_,⟨rfl,fun ps ts _ hts' => by rw [hts] at hts'; cases hts'⟩,(),hn,(),hts,?_⟩
    cases h with
    | skipped hd => exact absurd hd Bool.false_ne_true
    | call h => exact h

/-- A run returns exactly if the problem suits it and one of its ends is reached. -/
theorem run_eq_ok_iff {settings : Settings α} : run settings p image objective = .ok o ↔
    Suits p settings.algorithm ∧ Ends p image objective settings o := by
  cases settings with
  | conjGrad s => exact conjGrad_eq_ok
  | ist s => exact ist_eq_ok
  | fista s => exact fista_eq_ok
  | admm s => exact admm_eq_ok
  | pocs s => exact pocs_eq_ok
  | call solver => exact call_eq_ok

end Solve

end LinearInverse
