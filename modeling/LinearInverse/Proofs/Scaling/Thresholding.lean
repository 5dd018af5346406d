import LinearInverse.Proofs.Parallel
import LinearInverse.Proofs.Scaling.Maps
import LinearInverse.Thresholding.Accelerated
import LinearInverse.Thresholding.Plain

namespace LinearInverse.Thresholding
variable {c : ℝ} {n : Nat} {t t' : Task ℝ} {x y : List ℝ}

/-- The task for `c` times the data, with a proximal map for the multiples and with the bound
multiplied. -/
structure Task.ScaledBy (c : ℝ) (n : Nat) (t t' : Task ℝ) : Prop where
  params : t'.params = { t.params with epsilon := c * t.params.epsilon }
  operator : Operator.ScaledBy c n t.operator t'.operator
  prox : ProxOperator.ScaledBy c t.prox t'.prox
  data : t'.data = Vec.scale c t.data
  truth : t'.monitor.truth.map List.length = t.monitor.truth.map List.length

namespace Task.ScaledBy

theorem maxIter_eq (h : ScaledBy c n t t') : t'.params.maxIter = t.params.maxIter := by
  rw [h.params]

theorem hogwild_eq (h : ScaledBy c n t t') : t'.params.hogwild = t.params.hogwild := by
  rw [h.params]

theorem weight_eq (h : ScaledBy c n t t') (k : Nat) : t'.weight k = t.weight k := by
  rw [weight,weight,h.params]

theorem residual_eq (h : ScaledBy c n t t') (hx : x.length = n) :
    t'.residual (Vec.scale c x) = (t.residual x).map (Vec.scale c) := by
  rw [residual,residual,h.operator x hx,h.data,Checked.map_map,Checked.map_map]
  exact congrArg (Except.map · (t.operator.apply x)) (funext fun y => Vec.sub_scale c t.data y)

/-- The residual is within the bound for both or for neither. -/
theorem norm_lt_iff (h : ScaledBy c n t t') (hc : 0 < c) (r : List ℝ) :
    Vec.norm (Vec.scale c r) < t'.params.epsilon ↔ Vec.norm r < t.params.epsilon := by
  rw [h.params,Vec.norm_scale hc.le,mul_lt_mul_iff_right₀ hc]

theorem both_report (h : ScaledBy c n t t') (k : Nat) (x : List ℝ) (r r' : ℝ) :
    Checked.Both (fun e e' => ∃ p p', e = .progress p ∧ e' = .progress p')
      (t.report k x r) (t'.report k (Vec.scale c x) r') :=
  Monitor.both_report h.truth (Vec.length_scale c x) _ _ _ _

end Task.ScaledBy

theorem filterMap_halve (enabled : Bool) (tau : ℝ) (s : Schedule) :
    (halve enabled tau s).2.2.filterMap Admm.balance? = [] := by
  unfold halve
  dsimp only
  split <;> rfl

namespace Plain

noncomputable def State.scaled (c : ℝ) (s : State ℝ) : State ℝ :=
  { s with image := Vec.scale c s.image, point := Vec.scale c s.point }

/-- The vectors of a state have length `n`. -/
structure Sized (n : Nat) (s : State ℝ) : Prop where
  image : s.image.length = n
  point : s.point.length = n

theorem Sized.of_pass (hdata : t.data.length = n) {k : Nat} {s : State ℝ} {q : Pass ℝ (State ℝ)}
    (hs : Sized n s) (hq : pass t k s = .ok q) : Sized n q.state := by
  obtain ⟨p,hp,hq⟩ := Checked.bind_eq_ok.mp hq
  obtain ⟨r,hr,hq⟩ := Checked.bind_eq_ok.mp hq
  obtain ⟨e,_,rfl⟩ := Checked.map_eq_ok.mp hq
  have hp := (t.prox.length_apply hp).trans hs.point
  have hr := Task.length_residual hdata hr hp
  dsimp only
  split
  · exact ⟨hp,hp⟩
  · exact ⟨Vec.length_axpy hp hr _,hp⟩

theorem both_pass (h : t.ScaledBy c n t') (hc : 0 < c) {s : State ℝ} (hs : Sized n s) (k : Nat)
    (g : Balance ℝ → Balance ℝ) :
    Checked.Both (Pass.Alike (State.scaled c) Admm.balance? g) (pass t k s)
      (pass t' k (s.scaled c)) := by
  have hprox := h.prox (t.weight k * s.tau) s.point s.image (hs.point.trans hs.image.symm)
  rw [pass,pass,h.weight_eq]
  refine (Checked.Both.of_eq_map hprox).bind fun p p' hp hp' => ?_
  subst hp'
  have hlen : p.length = n := (t.prox.length_apply hp).trans hs.point
  refine (Checked.Both.of_eq_map (h.residual_eq hlen)).bind fun r r' _ hr => ?_
  subst hr
  refine (h.both_report k p _ _).map fun e e' => ?_
  rintro ⟨_,_,rfl,rfl⟩
  simp only [h.norm_lt_iff hc,h.hogwild_eq]
  split
  · exact ⟨rfl,rfl,rfl⟩
  · refine ⟨congrArg (State.mk · _ _ _) (Vec.axpy_scale c _ p r),rfl,?_⟩
    exact (filterMap_halve _ _ _).trans (congrArg (List.map g) (filterMap_halve _ _ _)).symm

/-- The report is the same, and the image grows with the data. -/
theorem both_run (h : t.ScaledBy c n t') (hc : 0 < c) (hx : x.length = n) :
    Checked.Both (Solution.ScaledBy c) (run t x) (run t' (Vec.scale c x)) := by
  have hstart : start t' (Vec.scale c x) = (start t x).scaled c := by
    simp only [start,State.scaled,Vec.map_zero_scale,h.params]
  rw [run,run,h.data,Vec.length_scale,Vec.length_scale,hstart,h.maxIter_eq]
  split
  next => exact .error _
  next hlen =>
    have hdata : t.data.length = n := (Decidable.of_not_not hlen).symm.trans hx
    have hsized : Sized n (start t x) := ⟨hx,(List.length_map _).trans hx⟩
    refine (both_iterate (fun k s hs => both_pass h hc hs k (Balance.scaled c))
      (fun k s q hs hq => hs.of_pass hdata hq) hsized t.params.maxIter).map fun r r' hr => ?_
    exact ⟨hr.report_eq,congrArg State.image hr.state_eq,hr.told_eq⟩

end Plain

namespace Accelerated

noncomputable def State.scaled (c : ℝ) (s : State ℝ) : State ℝ :=
  { s with
    image := Vec.scale c s.image
    buffer := Vec.scale c s.buffer
    point := Vec.scale c s.point }

/-- The vectors of a state have length `n`. -/
structure Sized (n : Nat) (s : State ℝ) : Prop where
  image : s.image.length = n
  buffer : s.buffer.length = n
  point : s.point.length = n

theorem Sized.of_pass {k : Nat} {s : State ℝ} {q : Pass ℝ (State ℝ)} (hs : Sized n s)
    (hq : pass t k s = .ok q) : Sized n q.state := by
  obtain ⟨r,_,hq⟩ := Checked.bind_eq_ok.mp hq
  obtain ⟨e,_,hq⟩ := Checked.bind_eq_ok.mp hq
  dsimp only at hq
  split at hq
  · cases hq
    exact hs
  · obtain ⟨p,hp,rfl⟩ := Checked.map_eq_ok.mp hq
    have hp := (t.prox.length_apply hp).trans hs.buffer
    exact ⟨Momentum.length_extrapolate hp hs.point _,hp,hp⟩

theorem both_pass (h : t.ScaledBy c n t') (hc : 0 < c) (hdata : t.data.length = n) {s : State ℝ}
    (hs : Sized n s) (k : Nat) (g : Balance ℝ → Balance ℝ) :
    Checked.Both (Pass.Alike (State.scaled c) Admm.balance? g) (pass t k s)
      (pass t' k (s.scaled c)) := by
  rw [pass,pass,h.weight_eq]
  refine (Checked.Both.of_eq_map (h.residual_eq hs.image)).bind fun r r' hr hr' => ?_
  subst hr'
  refine (h.both_report k s.image _ _).bind fun e e' _ => ?_
  rintro ⟨_,_,rfl,rfl⟩
  simp only [h.norm_lt_iff hc,h.hogwild_eq]
  split
  · exact .ok ⟨rfl,rfl,rfl⟩
  · have hr := Task.length_residual hdata hr hs.image
    have hlen : s.buffer.length = (Vec.axpy s.image
        (halve t.params.hogwild s.tau s.schedule).1 r).length :=
      hs.buffer.trans (Vec.length_axpy hs.image hr _).symm
    have hprox := h.prox (t.weight k * (halve t.params.hogwild s.tau s.schedule).1) s.buffer _ hlen
    rw [← Vec.axpy_scale] at hprox
    refine (Checked.Both.of_eq_map hprox).map fun p p' hp' => ?_
    subst hp'
    refine ⟨congrArg (State.mk · _ _ _ _ _) (Vec.extrapolate_scale c _ p s.point),rfl,?_⟩
    exact (filterMap_halve _ _ _).trans (congrArg (List.map g) (filterMap_halve _ _ _)).symm

theorem both_run (h : t.ScaledBy c n t') (hc : 0 < c) (hx : x.length = n) :
    Checked.Both (Solution.ScaledBy c) (run t x) (run t' (Vec.scale c x)) := by
  have hstart : start t' (Vec.scale c x) = (start t x).scaled c := by
    simp only [start,State.scaled,Vec.map_zero_scale,h.params]
  rw [run,run,h.data,Vec.length_scale,Vec.length_scale,hstart,h.maxIter_eq]
  split
  next => exact .error _
  next hlen =>
    have hdata : t.data.length = n := (Decidable.of_not_not hlen).symm.trans hx
    have hsized : Sized n (start t x) := ⟨hx,(List.length_map _).trans hx,hx⟩
    refine (both_iterate (fun k s hs => both_pass h hc hdata hs k (Balance.scaled c))
      (fun k s q hs hq => hs.of_pass hq) hsized t.params.maxIter).map fun r r' hr => ?_
    refine ⟨hr.report_eq,?_,hr.told_eq⟩
    rw [hr.stopped_eq,hr.state_eq]
    cases r.stopped <;> rfl

end Accelerated

end LinearInverse.Thresholding
