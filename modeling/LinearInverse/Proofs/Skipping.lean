import LinearInverse.Proofs.Reports

namespace LinearInverse

/-- What a norm is like for the data to be unusable for this reason. -/
def Degeneracy.Marks : Degeneracy → Float → Prop
  | empty, n => (n == 0) = true
  | corrupted, n => n.isNaN = true ∨ n.isInf = true ∨ Binary64.Subnormal n

/-- What is told instead of a run. -/
def Degeneracy.notice {α : Type} : Degeneracy → α → Event α
  | empty, _ => .dataEmpty
  | corrupted, n => .dataCorrupted n

/-- What is left is of full precision. -/
theorem Degeneracy.isNormal_iff {n : Float} :
    Scalar.isNormal n = true ↔ ∀ reason : Degeneracy, ¬reason.Marks n := by
  rw [Binary64.isNormal_iff]
  constructor
  · rintro ⟨h0,hnan,hinf,hsub⟩ reason
    cases reason with
    | empty => exact Bool.eq_false_iff.mp h0
    | corrupted =>
      rintro (h | h | h)
      · exact Bool.false_ne_true (hnan.symm.trans h)
      · exact Bool.false_ne_true (hinf.symm.trans h)
      · exact hsub h
  · intro h
    have h' := h .corrupted
    exact ⟨Bool.eq_false_iff.mpr (h .empty),Bool.eq_false_iff.mpr fun hn => h' (.inl hn),
      Bool.eq_false_iff.mpr fun hi => h' (.inr (.inl hi)),fun hs => h' (.inr (.inr hs))⟩

namespace DataState
variable {b : List Float}

theorem classify_eq (b : List Float) : classify b =
    if Vec.norm b == 0 then .empty
    else if Scalar.isNormal (Vec.norm b) then .usable (Vec.norm b)
    else .corrupted (Vec.norm b) :=
  rfl

/-- A norm that is zero is of no use, nor is one without full precision. -/
theorem check_eq_error_iff {reason : Degeneracy} :
    check b = .error reason ↔ reason.Marks (Vec.norm b) := by
  rw [check,classify_eq]
  by_cases h0 : (Vec.norm b == 0) = true
  · rw [if_pos h0]
    cases reason with
    | empty => exact iff_of_true rfl h0
    | corrupted =>
      exact iff_of_false nofun fun h => Bool.eq_false_iff.mp (Binary64.not_beq_zero h) h0
  · rw [if_neg h0]
    by_cases hn : Scalar.isNormal (Vec.norm b) = true
    · rw [if_pos hn]
      exact iff_of_false nofun (Degeneracy.isNormal_iff.mp hn reason)
    · rw [if_neg hn]
      cases reason with
      | empty => exact iff_of_false nofun h0
      | corrupted =>
        refine iff_of_true rfl (by_contra fun h => hn (Degeneracy.isNormal_iff.mpr fun r => ?_))
        cases r with
        | empty => exact h0
        | corrupted => exact h

/-- Data that nothing marks have a norm to scale by. -/
theorem classify_of_not_marks (h : ∀ reason : Degeneracy, ¬reason.Marks (Vec.norm b)) :
    ∃ size, classify b = .usable size := by
  cases hb : classify b with
  | usable size => exact ⟨size,rfl⟩
  | empty => exact absurd (check_eq_error_iff.mp (by rw [check,hb]; rfl)) (h .empty)
  | corrupted n => exact absurd (check_eq_error_iff.mp (by rw [check,hb]; rfl)) (h .corrupted)

theorem warnings_of_check {reason : Degeneracy} (h : check b = .error reason) :
    (classify b).warnings = [reason.notice (Vec.norm b)] := by
  rw [check,classify_eq] at h
  rw [classify_eq]
  split at h
  next h0 =>
    cases h
    rw [if_pos h0]
    rfl
  next h0 =>
    split at h
    next => cases h
    next hn =>
      cases h
      rw [if_neg h0,if_neg hn]
      rfl

end DataState

variable {α : Type}

/-- A map that fails wherever it is applied. -/
def Operator.broken (d : Defect α) : Operator α where
  fill _ _ := .error d
  length_fill := nofun

def ProxOperator.broken (d : Defect α) : ProxOperator α where
  apply _ _ _ := .error d
  length_apply := nofun

def Transform.broken (d : Defect α) (t : Transform α) : Transform α where
  domain := t.domain
  codomain := t.codomain
  forward _ _ := .error d
  adjoint _ _ := .error d
  normal _ _ := .error d
  shape_forward := nofun
  shape_adjoint := nofun
  shape_normal := nofun

/-- The same data, with maps in all places that fail wherever they are applied. -/
def Problem.broken (d : Defect α) (p : Problem α) : Problem α where
  normal := p.normal.map fun _ => .broken d
  proxes := p.proxes.map fun ps => ps.map fun _ => .broken d
  transforms := p.transforms.map fun ts => ts.map (.broken d)
  xUpdate := p.xUpdate.map fun _ => .broken d
  data := p.data
  truth := p.truth

namespace Solve

/-- A problem with its own maps or with broken ones. -/
def Variant (p q : Problem α) : Prop :=
  q = p ∨ ∃ d, q = p.broken d

theorem suits_broken {p : Problem α} {a : Algorithm} (h : Suits p a) (d : Defect α) :
    Suits (p.broken d) a := by
  cases a with
  | conjGrad => simpa [Suits,Problem.broken] using h
  | ist | fista =>
    obtain ⟨⟨q,hq⟩,ht,hA⟩ := h
    refine ⟨⟨.broken d,by simp [Problem.broken,hq]⟩,fun ts hts => ?_,by simpa [Problem.broken]⟩
    obtain ⟨us,hus,rfl⟩ := Option.map_eq_some_iff.mp hts
    rw [List.length_map,ht us hus]
  | admm =>
    have hlen : ∀ {β γ : Type} (xs : Option (List β)) (f : β → γ),
        ((xs.map (List.map f)).getD []).length = (xs.getD []).length := by
      intro β γ xs f
      cases xs <;> simp
    simp only [Suits,Problem.broken,hlen]
    exact h
  | pocs => simpa [Suits,Problem.broken] using h
  | call =>
    obtain ⟨hn,ht⟩ := h
    refine ⟨?_,by simp [Problem.broken,ht]⟩
    cases hp : p.proxes with
    | none => simp [Problem.broken,hp]
    | some ps => simpa [Problem.broken,hp] using hn

theorem Variant.suits {p q : Problem α} {a : Algorithm} (hq : Variant p q) (h : Suits p a) :
    Suits q a := by
  obtain rfl | ⟨d,rfl⟩ := hq
  · exact h
  · exact suits_broken h d

theorem Variant.data_eq {p q : Problem α} (hq : Variant p q) : q.data = p.data := by
  obtain rfl | ⟨d,rfl⟩ := hq <;> rfl

/-- When and how a run does nothing. -/
structure Skips (settings : Settings Float) (p : Problem Float) (image : List Float)
    (objective : Option (List Float → Float)) : Prop where
  /-- Unusable data leave the image as it is, whatever the maps would do. -/
  skips : settings.algorithm.isGuarded = true → Suits p settings.algorithm →
    ∀ b reason, p.data = some b → reason.Marks (Vec.norm b) → ∀ q, Variant p q →
      run settings q image objective =
        .ok ⟨image,[reason.notice (Vec.norm b)],.ok ⟨.skipped reason,0⟩⟩
  /-- Nothing else is skipped. -/
  only : settings.algorithm ≠ .call → ∀ o reason n, run settings p image objective = .ok o →
    o.result = .ok ⟨.skipped reason,n⟩ →
      settings.algorithm.isGuarded = true ∧ Suits p settings.algorithm ∧
        ∃ b, p.data = some b ∧ reason.Marks (Vec.norm b)
  /-- A continuation that is not a fraction ends a run on usable data before it starts. -/
  continuation : ∀ a s, settings = .ist s ∧ a = .ist ∨ settings = .fista s ∧ a = .fista →
    Suits p a → ∀ b, p.data = some b → (∀ reason : Degeneracy, ¬reason.Marks (Vec.norm b)) →
      ¬(0 ≤ s.continuation ∧ s.continuation ≤ 1) → ∀ q, Variant p q →
        run settings q image objective = .error (.continuation a s.continuation)

variable {settings : Settings Float} {p : Problem Float} {image : List Float}
  {objective : Option (List Float → Float)}

theorem run_skipped (hg : settings.algorithm.isGuarded = true) (hs : Suits p settings.algorithm)
    {b : List Float} (hb : p.data = some b) {reason : Degeneracy}
    (h : reason.Marks (Vec.norm b)) : run settings p image objective =
      .ok ⟨image,[reason.notice (Vec.norm b)],.ok ⟨.skipped reason,0⟩⟩ := by
  have hcheck := DataState.check_eq_error_iff.mpr h
  rw [run_eq_ok_iff.mpr ⟨hs,.skipped hg hb hcheck⟩,skipped,DataState.warnings_of_check hcheck]
  rfl

/-- A run that starts is never reported as skipped. -/
theorem Ends.skipped_or {o : Outcome Float} (h : Ends p image objective settings o)
    (hc : settings.algorithm ≠ .call) :
    (settings.algorithm.isGuarded = true ∧ ∃ b reason, p.data = some b ∧
        reason.Marks (Vec.norm b) ∧ o.result = .ok (.skipped reason)) ∨
      ∃ r, o.result = .ok r ∧ (r.status = .converged ∨ r.status = .maxIterReached) := by
  cases h with
  | skipped hg hb hr => exact .inl ⟨hg,_,_,hb,DataState.check_eq_error_iff.mp hr,rfl⟩
  | conjGrad _ _ _ h =>
    obtain ⟨hs,_⟩ | ⟨hs,_⟩ :=
      ConjugateGradient.report_of_solve (ConjugateGradient.run_eq_ok h).1
    · exact .inr ⟨_,rfl,.inr hs⟩
    · exact .inr ⟨_,rfl,.inl hs⟩
  | ist _ _ _ _ _ h =>
    obtain ⟨r,_,rfl⟩ := Thresholding.Plain.run_eq_ok h
    exact .inr ⟨_,rfl,r.status_report⟩
  | fista _ _ _ _ _ h =>
    obtain ⟨r,_,rfl⟩ := Thresholding.Accelerated.run_eq_ok h
    exact .inr ⟨_,rfl,r.status_report⟩
  | admm _ _ h =>
    obtain ⟨_,r,_,_,_,rfl⟩ := Admm.run_eq_ok h
    exact .inr ⟨_,rfl,r.status_report⟩
  | pocs h =>
    obtain ⟨r,_,rfl⟩ := Checked.map_eq_ok.mp h
    exact .inr ⟨_,rfl,r.status_report⟩
  | call => exact absurd rfl hc

theorem threshold_continuation {a : Algorithm} {s : ThresholdSettings Float}
    {run : Thresholding.Task Float → List Float → Checked Float (Solution Float)}
    (hs : Suits p .ist) {b : List Float} (hb : p.data = some b)
    (h : ∀ reason : Degeneracy, ¬reason.Marks (Vec.norm b))
    (hc : ¬(0 ≤ s.continuation ∧ s.continuation ≤ 1)) :
    threshold a s run p image objective = .error (.continuation a s.continuation) := by
  obtain ⟨⟨prox,hp⟩,ht,hA⟩ := hs
  obtain ⟨A,hA⟩ := Option.isSome_iff_exists.mp hA
  obtain ⟨size,hsize⟩ := DataState.classify_of_not_marks h
  have hrange : Settings.continuationInRange s.continuation = false := by
    rw [Bool.eq_false_iff]
    intro h
    obtain ⟨h0,h1⟩ := Bool.and_eq_true_iff.mp h
    exact hc ⟨of_decide_eq_true h0,of_decide_eq_true h1⟩
  rw [threshold_eq hp ht hA hb,thresholdData,guarded,hsize,hrange]
  rfl

/-- A run does nothing exactly if it looks at its data and these are unusable, whatever else is
wrong with its arguments. -/
theorem run_skips (settings : Settings Float) (p : Problem Float) (image : List Float)
    (objective : Option (List Float → Float)) : Skips settings p image objective where
  skips hg hs b reason hb hr q hq := run_skipped hg (hq.suits hs) (hq.data_eq.trans hb) hr
  only hc o reason n h ho := by
    obtain ⟨hs,hends⟩ := run_eq_ok_iff.mp h
    obtain ⟨hg,b,r,hb,hr,hres⟩ | ⟨r,hres,hstatus⟩ := hends.skipped_or hc
    · rw [hres] at ho
      cases ho
      exact ⟨hg,hs,b,hb,hr⟩
    · rw [hres] at ho
      cases ho
      obtain h | h := hstatus <;> cases h
  continuation a s ha hs b hb h hc q hq := by
    obtain ⟨rfl,rfl⟩ | ⟨rfl,rfl⟩ := ha
    · exact threshold_continuation (hq.suits hs) (hq.data_eq.trans hb) h hc
    · exact threshold_continuation (hq.suits hs) (hq.data_eq.trans hb) h hc

/-- The continuation is not a number. -/
def undefinedWeight : ThresholdSettings Float :=
  { ThresholdSettings.default with continuation := Float.ofBits 0x7FF8000000000000 }

/-- Neither the undefined continuation nor an image of the wrong length is looked at when the data
are zero; and the length is not looked at behind the continuation. -/
theorem run_undefinedWeight :
    run (.ist undefinedWeight) { boxProblem with data := some [0,0] } [3] none =
        .ok ⟨[3],[.dataEmpty],.ok ⟨.skipped .empty,0⟩⟩ ∧
      run (.ist undefinedWeight) boxProblem [3] none =
        .error (.continuation .ist undefinedWeight.continuation) := by
  have hzero : Degeneracy.empty.Marks (Vec.norm [0,0]) := by
    change (Vec.norm [0,0] == (0 : Float)) = true
    decide +kernel
  have hnormal : Scalar.isNormal (Vec.norm [(1 : Float),-2]) = true := by decide +kernel
  exact ⟨(run_skips (.ist undefinedWeight) { boxProblem with data := some [0,0] } [3] none).skips
      rfl ⟨⟨_,rfl⟩,nofun,rfl⟩ [0,0] .empty rfl hzero _ (.inl rfl),
    (run_skips (.ist undefinedWeight) boxProblem [3] none).continuation .ist undefinedWeight
      (.inl ⟨rfl,rfl⟩) ⟨⟨_,rfl⟩,nofun,rfl⟩ [1,-2] rfl
      (Degeneracy.isNormal_iff.mp hnormal) (by decide +kernel) _ (.inl rfl)⟩

end Solve

end LinearInverse
