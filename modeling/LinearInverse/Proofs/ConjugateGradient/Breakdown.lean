import LinearInverse.Proofs.Binary64.Arithmetic
import LinearInverse.Proofs.ConjugateGradient.Stopping
import LinearInverse.Proofs.Sums
import LinearInverse.Solve

namespace LinearInverse

def AllFinite (x : List Float) : Prop := ∀ v ∈ x, v.isFinite = true

namespace Vec

theorem hereditary_isFinite : Hereditary fun v : Float => v.isFinite = true :=
  fun _ _ h => Binary64.isFinite_add h

/-- The root of the range bounds what is added here, and the range has room for that. -/
theorem allFinite_add {x y : List Float} (hx : AllFinite x)
    (hy : ∀ v ∈ y, (v * v).isFinite = true) : AllFinite (add x y) := by
  induction x generalizing y with
  | nil => exact nofun
  | cons w x ih =>
    cases y with
    | nil => exact nofun
    | cons v y =>
      obtain ⟨hw,hx⟩ := List.forall_mem_cons.mp hx
      obtain ⟨hv,hy⟩ := List.forall_mem_cons.mp hy
      exact List.forall_mem_cons.mpr ⟨Binary64.isFinite_add_of_square hw hv,ih hx hy⟩

theorem axpy_one (y x : List Float) : axpy y One.one x = add y x := by
  simp only [axpy,add,Binary64.one_mul]

def AllZero (x : List Float) : Prop := ∀ v ∈ x, v = Zero.zero

theorem zero_add_zero : (Zero.zero : Float) + Zero.zero = Zero.zero := by decide +kernel

theorem zero_mul_zero : (Zero.zero : Float) * Zero.zero = Zero.zero := by decide +kernel

theorem additive_zero : Additive fun v : Float => v = Zero.zero := by
  refine ⟨rfl,?_⟩
  intro v w hv hw
  rw [hv,hw]
  exact zero_add_zero

theorem dot_zeros {x : List Float} (h : AllZero x) : dot x x = Zero.zero := by
  refine additive_zero.dot fun v hv => ?_
  rw [h v hv]
  exact zero_mul_zero

end Vec

namespace ConjugateGradient

theorem negate_negate (x : List Float) : negate (negate x) = x := by
  rw [negate,negate,List.map_map]
  exact List.map_id'' Binary64.neg_neg x

theorem dot_negate (x : List Float) : Vec.dot (negate x) (negate x) = Vec.dot x x := by
  simp only [Vec.dot,negate,List.zipWith_self,List.map_map]
  exact congrArg _ (List.map_congr_left fun v _ => Binary64.neg_mul_neg v v)

theorem allZero_add_negate {x : List Float} (h : AllFinite x) :
    Vec.AllZero (Vec.add (negate x) x) := by
  rw [Vec.add,negate,List.zipWith_map_left,List.zipWith_self]
  exact List.forall_mem_map.mpr fun v hv => Binary64.neg_add_self (h v hv)

variable {A : Operator Float} {n k : Nat} {s t : State Float} {w : Float}
  {b d q x y : List Float}

/-- What is not finite in an image stays so. -/
theorem allFinite_of_step (hs : Sized n s) (h : step A s = .ok t) (ht : AllFinite t.x) :
    AllFinite s.x := by
  obtain ⟨y,_,rfl⟩ := Checked.map_eq_ok.mp h
  exact (Vec.hereditary_isFinite.of_axpy (hs.x.trans hs.direction.symm) ht).1

theorem allFinite_of_steps (hs : Sized n s) (h : steps A k s = .ok t) (ht : AllFinite t.x) :
    ∀ j ≤ k, ∃ u, steps A j s = .ok u ∧ AllFinite u.x :=
  hs.exists_steps_before (Q := fun s => AllFinite s.x) (fun _ _ => allFinite_of_step) h ht

/-- The state that a run goes out from, `d` being the difference of the data and what the operator
makes of the image. -/
def initial (x d : List Float) : State Float :=
  ⟨x,negate d,d,Vec.dot d d,none,0⟩

theorem start_eq (hy : A.apply x = .ok y) : start A x b = .ok (initial x (Vec.sub b y)) := by
  rw [start,hy]
  simp only [Except.map,negate_negate,dot_negate]
  rfl

/-- The first step along `d`, of which the operator makes `q`, has a length: its square is finite,
and its curvature is a number other than zero. -/
structure Measured (d q : List Float) : Prop where
  square : (Vec.dot d d).isFinite = true
  curvature : (Vec.dot d q).isNaN = false ∧ (Vec.dot d q == 0) = false

theorem measured_self_iff : Measured d d ↔
    (Vec.dot d d).isFinite = true ∧ (Vec.dot d d == 0) = false :=
  ⟨fun h => ⟨h.square,h.curvature.2⟩,
    fun ⟨hfin,h0⟩ => ⟨hfin,Binary64.isNaN_of_isFinite hfin,h0⟩⟩

/-- Without a length, nothing of the image is left. -/
theorem measured_of_allFinite (hq : A.apply d = .ok q) (hlen : x.length = d.length) (hx : x ≠ [])
    (h : step A (initial x d) = .ok t) (ht : AllFinite t.x) : Measured d q := by
  obtain ⟨q',hq',rfl⟩ := Checked.map_eq_ok.mp h
  obtain rfl : q = q' := Except.ok.inj (hq.symm.trans hq')
  have hmul := (Vec.hereditary_isFinite.of_axpy hlen ht).2
  have hne : d ≠ [] := by
    rintro rfl
    exact hx (List.eq_nil_of_length_eq_zero hlen)
  obtain ⟨v,hv⟩ := List.exists_mem_of_ne_nil _ hne
  obtain ⟨hsquare,hcurvature⟩ := Binary64.isFinite_div (Binary64.isFinite_mul (hmul v hv)).1
  exact ⟨hsquare,hcurvature⟩

/-- With a square in range, the first step of the identity is exact in its length, and leaves no
residual. -/
theorem step_identity (hA : A.apply d = .ok d) (hmeasured : Measured d d)
    (h : step A (initial x d) = .ok t) :
    t.x = Vec.add x d ∧ t.best = some (Scalar.abs Zero.zero) := by
  have halpha : Vec.dot d d / Vec.dot d d = One.one :=
    Binary64.div_self hmeasured.square hmeasured.curvature.2
  have hd : AllFinite d := fun v hv =>
    (Binary64.isFinite_mul (Vec.hereditary_isFinite.of_dot hmeasured.square v hv)).1
  have hbest := best_step h
  obtain ⟨y,hy,rfl⟩ := Checked.map_eq_ok.mp h
  obtain rfl : d = y := Except.ok.inj (hA.symm.trans hy)
  refine ⟨?_,hbest.trans ?_⟩
  · exact (congrArg (Vec.axpy x · _) halpha).trans (Vec.axpy_one x _)
  · have hr : Vec.axpy (negate d) (Vec.dot d d / Vec.dot d d) d = Vec.add (negate d) d := by
      rw [halpha,Vec.axpy_one]
    have hsq := Vec.dot_zeros (allZero_add_negate hd)
    rw [← hr] at hsq
    refine (congrArg (fun q => improve none (Scalar.abs q)) hsq).trans ?_
    decide +kernel

/-- What the identity with a weight makes of a vector. -/
def weighted (w : Float) (x : List Float) : List Float :=
  if w == 0 then x else Vec.axpy x w x

theorem weighted_zero (hw : (w == 0) = true) (x : List Float) : weighted w x = x :=
  if_pos hw

theorem shifted_identity (hA : A.apply x = .ok x) (w : Float) :
    (A.shifted w).apply x = .ok (weighted w x) := by
  rw [Operator.shifted,Operator.apply_square,hA]
  rfl

/-- The run ends before its first step, the residual `d` of the start being small, or its bound too
large to be squared. -/
def Over (epsilon : Float) (d : List Float) : Prop :=
  Vec.norm d ≤ epsilon ∨ Scalar.isTop (epsilon * epsilon) = true

section Solve
variable {maxIter : Nat} {epsilon : Float} {image : List Float} {r : Report}

/-- A run that is not over at its start takes a step. -/
theorem exists_first_step (hlen : x.length = b.length) (hy : (A.shifted w).apply x = .ok y)
    (hmax : maxIter ≠ 0) (h : solve maxIter w epsilon A x b = .ok (r,image)) :
    Over epsilon (Vec.sub b y) ∧ image = x ∨
      ¬Over epsilon (Vec.sub b y) ∧ ∃ t k u,
        step (A.shifted w) (initial x (Vec.sub b y)) = .ok t ∧
        steps (A.shifted w) k t = .ok u ∧ u.x = image ∧
        Misses (A.shifted w) (epsilon * epsilon) (k + 1) (initial x (Vec.sub b y)) := by
  have hsize : residualNorm (A.shifted w) x b = .ok (Vec.norm (Vec.sub b y)) :=
    Checked.map_eq_ok.mpr ⟨y,hy,rfl⟩
  by_cases hsmall : Vec.norm (Vec.sub b y) ≤ epsilon
  · rw [solve_of_le hlen hsize hsmall] at h
    cases h
    exact .inl ⟨.inl hsmall,rfl⟩
  · have hstarts : Starts A w epsilon x b (initial x (Vec.sub b y)) :=
      ⟨hlen,⟨_,hsize,hsmall⟩,start_eq hy⟩
    obtain ⟨u,hk,rfl,hmiss,hend⟩ := hstarts.solve_eq_ok_iff.mp h
    cases hiterations : r.iterations with
    | zero =>
      rw [hiterations] at hk hend
      cases hk
      obtain ⟨_,_,hmeets⟩ | ⟨_,hfull⟩ := hend
      · exact .inl ⟨.inr hmeets,rfl⟩
      · exact absurd hfull.symm hmax
    | succ k =>
      rw [hiterations] at hk hmiss
      obtain ⟨t,ht,hk⟩ := Checked.bind_eq_ok.mp hk
      have htop : Scalar.isTop (epsilon * epsilon) = false := hmiss 0 _ (Nat.succ_pos k) rfl
      refine .inr ⟨?_,t,k,u,ht,hk,rfl,hmiss⟩
      exact not_or_intro hsmall (Bool.eq_false_iff.mp htop)

variable (hA : ∀ v, v.length = b.length → A.apply v = .ok v) (hx : x.length = b.length)
  (hmax : maxIter ≠ 0) (h : solve maxIter w epsilon A x b = .ok (r,image))
include hA hx hmax h

theorem measured_of_solve (hn : x ≠ []) (hfin : AllFinite image) :
    Over epsilon (Vec.sub b (weighted w x)) ∨
      Measured (Vec.sub b (weighted w x)) (weighted w (Vec.sub b (weighted w x))) := by
  have hy := shifted_identity (hA x hx) w
  obtain ⟨hover,_⟩ | ⟨_,t,k,u,ht,hk,rfl,_⟩ := exists_first_step hx hy hmax h
  · exact .inl hover
  · have hsized := sized_start hx rfl (start_eq (b := b) hy)
    obtain ⟨t',ht',htfin⟩ := allFinite_of_steps (hsized.of_step ht) hk hfin 0 (Nat.zero_le k)
    cases ht'
    exact .inr (measured_of_allFinite (shifted_identity (hA _ hsized.direction) w)
      (hx.trans hsized.direction.symm) hn ht htfin)

/-- Without a weight there is no second step. -/
theorem allFinite_solve (hw : (w == 0) = true) (hfin : AllFinite x)
    (hepsilon : epsilon.isNaN = false)
    (hd : Over epsilon (Vec.sub b x) ∨ Measured (Vec.sub b x) (Vec.sub b x)) :
    AllFinite image := by
  have hB : ∀ v, v.length = b.length → (A.shifted w).apply v = .ok v := by
    intro v hv
    rw [shifted_identity (hA v hv),weighted_zero hw]
  obtain ⟨_,rfl⟩ | ⟨hover,t,k,u,ht,hk,rfl,hmiss⟩ := exists_first_step hx (hB x hx) hmax h
  · exact hfin
  · have hmeasured := hd.resolve_left hover
    have hdirection := (sized_start hx rfl (start_eq (b := b) (hB x hx))).direction
    obtain ⟨htx,htbest⟩ := step_identity (hB _ hdirection) hmeasured ht
    have htmeets : t.meets (epsilon * epsilon) = true := by
      rw [State.meets,htbest]
      exact decide_eq_true (Binary64.zero_le_square hepsilon)
    cases k with
    | zero =>
      cases hk
      rw [htx]
      exact Vec.allFinite_add hfin (Vec.hereditary_isFinite.of_dot hmeasured.square)
    | succ k =>
      have htmisses := hmiss 1 t (by omega) (by rw [steps_succ ht]; rfl)
      rw [htmeets] at htmisses
      cases htmisses

end Solve

/-- With usable data and the identity, a run of conjugate gradient returns, and its image is finite
exactly if the images of all its steps are. Then the run is over at its start or its first step has
a length, whatever the weight on the image. Without a weight it is so exactly if the run is over at
its start, for its residual is small or infinity bounds its square, or else if the square of the
residual has neither under- nor overflowed. -/
theorem conjGrad_isFinite_iff {c : ConjGradSettings Float} {A : Operator Float}
    {update : Option (ProxOperator Float)} {truth : Option (List Float)} {x b : List Float}
    {size : Float} (hc : c.validate = .ok ()) (hA : ∀ v, v.length = b.length → A.apply v = .ok v)
    (hb : DataState.classify b = .usable size) (hx : x.length = b.length) (hfin : AllFinite x)
    (htruth : ∀ t, truth = some t → t.length = x.length)
    (objective : Option (List Float → Float)) :
    ∃ image log status k s,
      Solve.conjGrad (.conjGrad c) ⟨some A,none,none,update,some b,truth⟩ x objective =
        .ok ⟨image,log,.ok ⟨status,k⟩⟩ ∧
      start (A.shifted c.l2Weight) x b = .ok s ∧
      (AllFinite image ↔
        ∀ j ≤ k, ∃ u, steps (A.shifted c.l2Weight) j s = .ok u ∧ AllFinite u.x) ∧
      (AllFinite image → Over (c.tol * size) (Vec.sub b (weighted c.l2Weight x)) ∨
        Measured (Vec.sub b (weighted c.l2Weight x))
          (weighted c.l2Weight (Vec.sub b (weighted c.l2Weight x)))) ∧
      ((c.l2Weight == 0) = true →
        (AllFinite image ↔ Vec.norm (Vec.sub b x) ≤ c.tol * size ∨
          Scalar.isTop (c.tol * size * (c.tol * size)) = true ∨
          (Vec.dot (Vec.sub b x) (Vec.sub b x)).isFinite = true ∧
            (Vec.dot (Vec.sub b x) (Vec.sub b x) == 0) = false)) := by
  obtain ⟨hmax,htol⟩ := ConjGradSettings.validate_eq_ok hc
  obtain ⟨hsize,hnormal⟩ := DataState.eq_of_classify_usable hb
  have hn : x ≠ [] := by
    rintro rfl
    rw [List.eq_nil_of_length_eq_zero hx.symm] at hsize
    rw [hsize] at hnormal
    exact absurd hnormal (by decide +kernel)
  have hB : ∀ v, v.length = b.length → ∃ y, (A.shifted c.l2Weight).apply v = .ok y := fun v hv =>
    ⟨_,shifted_identity (hA v hv) _⟩
  let monitor : Monitor Float := ⟨"conjgrad",truth,objective⟩
  have hmonitor : ∀ u, monitor.truth = some u → u.length = b.length := fun u hu =>
    (htruth u hu).trans hx
  obtain ⟨status,k,s,t,e,hsolve,hrun,hs,hk⟩ := exists_run hx rfl hB c.maxIter (c.tol * size)
    hmonitor
  have hepsilon : (c.tol * size).isNaN = false :=
    Binary64.isNaN_mul (Binary64.isFinite_of_scalar htol) (Binary64.isFinite_of_isNormal hnormal)
  refine ⟨t.x,[e],status,k,s,?_,hs,⟨fun hfin => ?_,fun hall => ?_⟩,
    measured_of_solve hA hx hmax hsolve hn,fun hw => ?_⟩
  · change Solve.guarded b x _ = _
    rw [Solve.guarded,hb]
    exact congrArg (Except.map Outcome.ofSolution) hrun
  · exact allFinite_of_steps (sized_start hx rfl hs) hk hfin
  · obtain ⟨u,hu,hufin⟩ := hall k (Nat.le_refl k)
    rw [hk] at hu
    cases hu
    exact hufin
  · rw [← or_assoc,← measured_self_iff]
    refine ⟨fun himage => ?_,allFinite_solve hA hx hmax hsolve hw hfin hepsilon⟩
    have hd := measured_of_solve hA hx hmax hsolve hn himage
    rwa [weighted_zero hw,weighted_zero hw] at hd

theorem validate_default :
    (ConjGradSettings.default : ConjGradSettings Float).validate = .ok () := by
  have hok : (ConjGradSettings.default : ConjGradSettings Float).validate.isOk = true := by
    decide +kernel
  cases h : (ConjGradSettings.default : ConjGradSettings Float).validate with
  | ok _ => rfl
  | error e => rw [h] at hok; cases hok

theorem classify_usable {b : List Float} (h0 : (Vec.norm b == Zero.zero) = false)
    (hn : Scalar.isNormal (Vec.norm b) = true) :
    DataState.classify b = .usable (Vec.norm b) := by
  unfold DataState.classify
  exact (if_neg (Bool.eq_false_iff.mp h0)).trans (if_pos hn)

theorem conjGrad_one : ∃ image log status k,
    Solve.conjGrad (.conjGrad .default) ⟨some .identity,none,none,none,some [1],none⟩ [0] none =
      .ok ⟨image,log,.ok ⟨status,k⟩⟩ ∧ AllFinite image := by
  have hb : DataState.classify [1] = .usable (Vec.norm [(1 : Float)]) :=
    classify_usable (by decide +kernel) (by decide +kernel)
  have hx : AllFinite [0] := by
    intro v hv
    obtain rfl := List.mem_singleton.mp hv
    decide +kernel
  obtain ⟨image,log,status,k,s,hrun,_,_,_,hiff⟩ :=
    @conjGrad_isFinite_iff .default .identity none none [0] [1] _ validate_default
      (fun v _ => Operator.apply_square _ _ v) hb rfl hx nofun none
  exact ⟨image,log,status,k,hrun,
    (hiff (by decide +kernel)).mpr (.inr (.inr (by decide +kernel)))⟩

set_option maxRecDepth 100000 in
/-- The square of a tiny residual is zero though the norm of the data is normal. -/
theorem conjGrad_tiny :
    (ConjGradSettings.default : ConjGradSettings Float).validate = .ok () ∧
      AllFinite [1e-200] ∧ DataState.classify [1e-200] = .usable (Vec.norm [(1e-200 : Float)]) ∧
      (∀ v ∈ [(0 : Float)], v.isFinite = true ∧ v.abs ≤ Vec.norm [(1e-200 : Float)]) ∧
      ∃ o, Solve.conjGrad (.conjGrad .default)
        ⟨some .identity,none,none,none,some [1e-200],none⟩ [0] none = .ok o ∧
          ¬AllFinite o.image := by
  refine ⟨validate_default,?_,classify_usable (by decide +kernel) (by decide +kernel),?_,?_⟩
  · intro v hv
    obtain rfl := List.mem_singleton.mp hv
    decide +kernel
  · intro v hv
    obtain rfl := List.mem_singleton.mp hv
    decide +kernel
  · have hrun : (Solve.conjGrad (.conjGrad .default)
        ⟨some .identity,none,none,none,some [1e-200],none⟩ [0] none).toOption.any
          (fun o => !o.image.all Float.isFinite) = true := by
      decide +kernel
    cases h : Solve.conjGrad (.conjGrad .default)
        ⟨some .identity,none,none,none,some [1e-200],none⟩ [0] none with
    | error d => rw [h] at hrun; cases hrun
    | ok o =>
      rw [h] at hrun
      refine ⟨o,rfl,fun hfin => ?_⟩
      have hall : o.image.all Float.isFinite = true := List.all_eq_true.mpr hfin
      simp [Except.toOption,hall] at hrun

end ConjugateGradient

end LinearInverse
