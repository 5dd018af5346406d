import LinearInverse.Proofs.ConjugateGradient.Steps
import LinearInverse.Proofs.Iterations
import LinearInverse.Proofs.Schedule
import LinearInverse.Scalar.Binary64
import LinearInverse.Thresholding.Accelerated
import LinearInverse.Thresholding.Plain
import Mathlib.Logic.Function.Iterate

namespace LinearInverse.Thresholding
variable {α : Type} [Scalar α]

namespace Task

/-- How often the step has been halved after `k` iterations. -/
def halvings (t : Task α) (k : Nat) : Nat :=
  if t.params.hogwild then Schedule.firings k else 0

/-- The step after `k` iterations. -/
def tau (t : Task α) (k : Nat) : α :=
  (fun a => a / ((2 : Nat) : α))^[t.halvings k] t.params.step

/-- The vector is there and its residual is within the bound. -/
def Near (t : Task α) (v : Checked α (List α)) : Prop :=
  ∃ y r, v = .ok y ∧ t.residual y = .ok r ∧ Vec.norm r < t.params.epsilon

/-- The vector is there and its residual is not within the bound. -/
def Far (t : Task α) (v : Checked α (List α)) : Prop :=
  ∃ y r, v = .ok y ∧ t.residual y = .ok r ∧ ¬Vec.norm r < t.params.epsilon

/-- The data, and the ground truth if there is one, have length `n`. -/
structure Fits (t : Task α) (n : Nat) : Prop where
  data : t.data.length = n
  truth : ∀ u, t.monitor.truth = some u → u.length = n

/-- Operator and proximal map fail on no vector of length `n`. -/
structure Total (t : Task α) (n : Nat) : Prop where
  operator : ∀ v, v.length = n → ∃ y, t.operator.apply v = .ok y
  prox : ∀ mu d v, d.length = n → v.length = n → ∃ p, t.prox.apply mu d v = .ok p

end Task

/-- The values of the proximal map. Each is written over the one before, the first over zeros. -/
def Plain.point (t : Task α) (x : List α) : Nat → Checked α (List α)
  | 0 => t.prox.apply (t.weight 0 * t.tau 0) (x.map fun _ => 0) x
  | k + 1 => point t x k >>= fun p => t.residual p >>= fun r =>
    t.prox.apply (t.weight (k + 1) * t.tau (k + 1)) p (Vec.axpy p (t.tau (k + 1)) r)

/-- The gradient step to the next value goes along the data less the image of the last one. -/
theorem Plain.point_succ_eq_ok {t : Task α} {x q : List α} {k : Nat} :
    point t x (k + 1) = .ok q ↔ ∃ p y, point t x k = .ok p ∧ t.operator.apply p = .ok y ∧
      t.prox.apply (t.weight (k + 1) * t.tau (k + 1)) p
        (Vec.axpy p (t.tau (k + 1)) (Vec.sub t.data y)) = .ok q := by
  constructor
  · intro h
    obtain ⟨p,hp,h⟩ := Checked.bind_eq_ok.mp h
    obtain ⟨r,hr,hq⟩ := Checked.bind_eq_ok.mp h
    obtain ⟨y,hy,rfl⟩ := Task.residual_eq_ok.mp hr
    exact ⟨p,y,hp,hy,hq⟩
  · rintro ⟨p,y,hp,hy,hq⟩
    exact Checked.bind_eq_ok.mpr ⟨p,hp,
      Checked.bind_eq_ok.mpr ⟨_,Task.residual_eq_ok.mpr ⟨y,hy,rfl⟩,hq⟩⟩

/-- The gradient step behind the last of `k` values. -/
def Plain.left (t : Task α) (x : List α) : Nat → Checked α (List α)
  | 0 => .ok x
  | k + 1 => point t x k >>= fun p => (t.residual p).map (Vec.axpy p (t.tau (k + 1)))

namespace Accelerated

def momentum : Nat → α
  | 0 => 1
  | k + 1 => Momentum.next (momentum k)

/-- A value of the proximal map, the point extrapolated from it, and the buffer that the next value
is written over. -/
structure Iterate (α : Type) where
  buffer : List α
  point : List α
  look : List α

def iterates (t : Task α) (x : List α) : Nat → Checked α (Iterate α)
  | 0 => .ok ⟨x.map fun _ => 0,x,x⟩
  | k + 1 => iterates t x k >>= fun s => t.residual s.look >>= fun r =>
    (t.prox.apply (t.weight k * t.tau (k + 1)) s.buffer (Vec.axpy s.look (t.tau (k + 1)) r)).map
      fun p => ⟨p,p,Momentum.extrapolate ((momentum k - 1) / momentum (k + 1)) p s.point⟩

/-- The same from an extrapolated point, which lies beyond the new value as seen from the old. -/
theorem iterates_succ_eq_ok {t : Task α} {x : List α} {k : Nat} {u : Iterate α} :
    iterates t x (k + 1) = .ok u ↔ ∃ s y p, iterates t x k = .ok s ∧
      t.operator.apply s.look = .ok y ∧
      t.prox.apply (t.weight k * t.tau (k + 1)) s.buffer
        (Vec.axpy s.look (t.tau (k + 1)) (Vec.sub t.data y)) = .ok p ∧
      ⟨p,p,Vec.axpy p ((momentum k - 1) / momentum (k + 1)) (Vec.sub p s.point)⟩ = u := by
  simp only [← Momentum.extrapolate_eq]
  constructor
  · intro h
    obtain ⟨s,hs,h⟩ := Checked.bind_eq_ok.mp h
    obtain ⟨r,hr,h⟩ := Checked.bind_eq_ok.mp h
    obtain ⟨y,hy,rfl⟩ := Task.residual_eq_ok.mp hr
    obtain ⟨p,hp,hu⟩ := Checked.map_eq_ok.mp h
    exact ⟨s,y,p,hs,hy,hp,hu⟩
  · rintro ⟨s,y,p,hs,hy,hp,hu⟩
    exact Checked.bind_eq_ok.mpr ⟨s,hs,Checked.bind_eq_ok.mpr
      ⟨_,Task.residual_eq_ok.mpr ⟨y,hy,rfl⟩,Checked.map_eq_ok.mpr ⟨p,hp,hu⟩⟩⟩

def point (t : Task α) (x : List α) (k : Nat) : Checked α (List α) :=
  (iterates t x k).map Iterate.point

def look (t : Task α) (x : List α) (k : Nat) : Checked α (List α) :=
  (iterates t x k).map Iterate.look

end Accelerated

/-- A run that looks at vector after vector ends at the first one near enough and leaves it, and
leaves something else at the cap. -/
structure Follows (t : Task α) (n : Nat) (run : Checked α (Solution α))
    (look : Nat → Checked α (List α)) (left : Checked α (List α)) : Prop where
  converged : ∀ k y, (∃ log, run = .ok ⟨⟨.converged,k⟩,y,log⟩) ↔
    1 ≤ k ∧ k ≤ t.params.maxIter ∧ (∀ j, j + 1 < k → t.Far (look j)) ∧ t.Near (look (k - 1)) ∧
      look (k - 1) = .ok y
  capped : ∀ k y, (∃ log, run = .ok ⟨⟨.maxIterReached,k⟩,y,log⟩) ↔
    k = t.params.maxIter ∧ (∀ j < t.params.maxIter, t.Far (look j)) ∧ left = .ok y
  returns : t.Total n → ∃ s, run = .ok s ∧
    (s.report.status = .converged ∨ s.report.status = .maxIterReached)

variable {t : Task α} {x : List α} {k : Nat}

/-- Step and schedule after `k` iterations. -/
structure Task.Elapsed (t : Task α) (k : Nat) (tau : α) (s : Schedule) : Prop where
  tau : tau = t.tau k
  schedule : s = if t.params.hogwild then .after k else .initial

theorem Task.elapsed_zero (t : Task α) : t.Elapsed 0 t.params.step .initial := by
  constructor
  · cases hh : t.params.hogwild <;> simp [tau,halvings,hh,Schedule.elapsed_initial.firings_eq]
  · simp [Schedule.after]

theorem Task.Elapsed.halve {tau : α} {s : Schedule} (h : t.Elapsed k tau s) :
    t.Elapsed (k + 1) (halve t.params.hogwild tau s).1 (halve t.params.hogwild tau s).2.1 := by
  obtain ⟨rfl,rfl⟩ := h
  cases hh : t.params.hogwild with
  | false => constructor <;> simp [Thresholding.halve,Schedule.tickIf,Task.tau,halvings,hh]
  | true =>
    have hk := Schedule.firings_succ k
    by_cases hf : Schedule.Fires (k + 1)
    · rw [if_pos hf] at hk
      constructor
      · simp [Thresholding.halve,Schedule.tickIf,Schedule.tick_after,Task.tau,halvings,hh,hf,hk,
          Function.iterate_succ_apply']
      · simp [Thresholding.halve,Schedule.tickIf,Schedule.tick_after,hh,hf]
    · rw [if_neg hf] at hk
      constructor <;>
        simp [Thresholding.halve,Schedule.tickIf,Schedule.tick_after,Task.tau,halvings,hh,hf,hk]

variable {n : Nat} {p r : List α}

theorem Task.Fits.exists_report (h : t.Fits n) (hp : p.length = n) (k : Nat) (size : α) :
    ∃ e, t.report k p size = .ok e :=
  t.monitor.exists_report (fun u hu => (h.truth u hu).trans hp.symm) k _

theorem Task.Total.exists_residual (h : t.Total n) (hp : p.length = n) :
    ∃ r, t.residual p = .ok r := by
  obtain ⟨y,hy⟩ := h.operator p hp
  exact ⟨_,residual_eq_ok.mpr ⟨y,hy,rfl⟩⟩

namespace Plain
variable {s : State α} {q : Pass α (State α)}

/-- The state that iteration `k` starts from. -/
structure At (t : Task α) (x : List α) (k : Nat) (s : State α) : Prop where
  image : left t x k = .ok s.image
  point : point t x k = t.prox.apply (t.weight k * t.tau k) s.point s.image
  elapsed : t.Elapsed k s.tau s.schedule
  length_image : s.image.length = x.length
  length_point : s.point.length = x.length

theorem at_start (t : Task α) (x : List α) : At t x 0 (start t x) where
  image := rfl
  point := rfl
  elapsed := t.elapsed_zero
  length_image := rfl
  length_point := List.length_map ..

theorem At.pass_eq_ok (h : At t x k s) : pass t k s = .ok q ↔
    ∃ p r e, Plain.point t x k = .ok p ∧ t.residual p = .ok r ∧
      t.report k p (Vec.norm r) = .ok e ∧ q =
        if Vec.norm r < t.params.epsilon then
          ⟨{ s with image := p, point := p },true,[.weight (t.weight k),e]⟩
        else
          let (tau,schedule,events) := halve t.params.hogwild s.tau s.schedule
          ⟨⟨Vec.axpy p tau r,p,tau,schedule⟩,false,.weight (t.weight k) :: e :: events⟩ := by
  rw [h.point,← h.elapsed.tau]
  constructor
  · intro hq
    obtain ⟨p,hp,hq⟩ := Checked.bind_eq_ok.mp hq
    obtain ⟨r,hr,hq⟩ := Checked.bind_eq_ok.mp hq
    obtain ⟨e,he,hq⟩ := Checked.map_eq_ok.mp hq
    exact ⟨p,r,e,hp,hr,he,hq.symm⟩
  · rintro ⟨p,r,e,hp,hr,he,rfl⟩
    exact Checked.bind_eq_ok.mpr ⟨p,hp,Checked.bind_eq_ok.mpr ⟨r,hr,
      Checked.map_eq_ok.mpr ⟨e,he,rfl⟩⟩⟩

theorem At.length (h : At t x k s) (hp : Plain.point t x k = .ok p) : p.length = x.length := by
  rw [h.point] at hp
  exact (t.prox.length_apply hp).trans h.length_point

theorem At.next (h : At t x k s) (ht : t.Fits x.length) (hq : pass t k s = .ok q)
    (hgo : q.stop = false) : At t x (k + 1) q.state := by
  obtain ⟨p,r,e,hp,hr,_,rfl⟩ := h.pass_eq_ok.mp hq
  split at hgo
  next => cases hgo
  next hfar =>
    rw [if_neg hfar]
    have helapsed := h.elapsed.halve
    have hlen := h.length hp
    refine ⟨?_,?_,helapsed,Vec.length_axpy hlen (Task.length_residual ht.data hr hlen) _,hlen⟩
    · exact Checked.bind_eq_ok.mpr ⟨p,hp,
        Checked.map_eq_ok.mpr ⟨r,hr,congrArg (Vec.axpy p · r) helapsed.tau.symm⟩⟩
    · rw [Plain.point,hp]
      change (t.residual p >>= _) = _
      rw [hr]
      exact congrArg (t.prox.apply _ p) (congrArg (Vec.axpy p · r) helapsed.tau.symm)

theorem numbered (t : Task α) {x : List α} (ht : t.Fits x.length) :
    Numbered (pass t) State.image (At t x) (fun k y => t.Near (point t x k) ∧ point t x k = .ok y)
      fun k => t.Far (point t x k) where
  ends_iff k s y h := by
    constructor
    · rintro ⟨q,hq,hstop,rfl⟩
      obtain ⟨p,r,e,hp,hr,_,rfl⟩ := h.pass_eq_ok.mp hq
      split at hstop
      next hnear =>
        rw [if_pos hnear]
        exact ⟨⟨p,r,hp,hr,hnear⟩,hp⟩
      next => cases hstop
    · rintro ⟨⟨p,r,hp,hr,hnear⟩,hy⟩
      obtain rfl : p = y := Except.ok.inj (hp.symm.trans hy)
      obtain ⟨e,he⟩ := ht.exists_report (h.length hp) k (Vec.norm r)
      refine ⟨_,h.pass_eq_ok.mpr ⟨p,r,e,hp,hr,he,rfl⟩,?_⟩
      rw [if_pos hnear]
      exact ⟨rfl,rfl⟩
  goes_iff k s h := by
    constructor
    · rintro ⟨q,hq,hgo⟩
      obtain ⟨p,r,e,hp,hr,_,rfl⟩ := h.pass_eq_ok.mp hq
      split at hgo
      next => cases hgo
      next hfar => exact ⟨p,r,hp,hr,hfar⟩
    · rintro ⟨p,r,hp,hr,hfar⟩
      obtain ⟨e,he⟩ := ht.exists_report (h.length hp) k (Vec.norm r)
      refine ⟨_,h.pass_eq_ok.mpr ⟨p,r,e,hp,hr,he,rfl⟩,?_⟩
      rw [if_neg hfar]
  keep k s q h hq hgo := h.next ht hq hgo

theorem At.exists_pass_of_point (h : At t x k s) (ht : t.Fits x.length)
    (hp : Plain.point t x k = .ok p) (hr : t.residual p = .ok r) : ∃ q, pass t k s = .ok q := by
  obtain ⟨e,he⟩ := ht.exists_report (h.length hp) k (Vec.norm r)
  exact ⟨_,h.pass_eq_ok.mpr ⟨p,r,e,hp,hr,he,rfl⟩⟩

theorem At.exists_pass (h : At t x k s) (ht : t.Fits x.length) (htotal : t.Total x.length) :
    ∃ q, pass t k s = .ok q := by
  obtain ⟨p,hp⟩ := htotal.prox (t.weight k * t.tau k) s.point s.image h.length_point h.length_image
  rw [← h.point] at hp
  obtain ⟨r,hr⟩ := htotal.exists_residual (h.length hp)
  exact h.exists_pass_of_point ht hp hr

theorem run_eq (ht : t.Fits x.length) : run t x =
    (iterate (pass t) t.params.maxIter 0 (start t x)).map fun r =>
      ⟨r.report,r.state.image,r.log⟩ :=
  if_neg (not_not_intro ht.data.symm)

theorem follows (ht : t.Fits x.length) :
    Follows t x.length (run t x) (point t x) (left t x t.params.maxIter) where
  converged k y := by
    rw [run_eq ht]
    refine (exists_solution_iff true).trans (((numbered t ht).stopped_iff (at_start t x)).trans ?_)
    simp only [Nat.zero_le,Nat.zero_add,true_implies,Nat.lt_iff_add_one_le]
  capped k y := by
    rw [run_eq ht]
    have hleft : ∀ u, At t x (0 + t.params.maxIter) u →
        (u.image = y ↔ left t x t.params.maxIter = .ok y) := by
      intro u hu
      rw [Nat.zero_add] at hu
      rw [hu.image,Except.ok.injEq]
    refine (exists_solution_iff false).trans
      (((numbered t ht).capped_iff (at_start t x) hleft).trans ?_)
    simp only [Nat.zero_le,Nat.zero_add,true_implies]
  returns htotal := by
    obtain ⟨r,hr⟩ := exists_iterate (I := At t x) (at_start t x)
      (fun j u h => h.exists_pass ht htotal) (fun j u q h hq hgo => h.next ht hq hgo)
      t.params.maxIter
    exact ⟨_,(run_eq ht).trans (Checked.map_eq_ok.mpr ⟨r,hr,rfl⟩),r.status_report⟩

end Plain

namespace Accelerated
variable {s : State α} {q : Pass α (State α)} {u : Iterate α}

/-- Each iterate is computed from the one before it. -/
theorem exists_iterates {m : Nat} (hu : iterates t x m = .ok u) (hk : k ≤ m) :
    ∃ v, iterates t x k = .ok v := by
  induction m generalizing u with
  | zero => exact ⟨u,Nat.le_zero.mp hk ▸ hu⟩
  | succ m ih =>
    rcases Nat.eq_or_lt_of_le hk with rfl | hk
    · exact ⟨u,hu⟩
    · obtain ⟨v,hv,_⟩ := Checked.bind_eq_ok.mp hu
      exact ih hv (Nat.le_of_lt_succ hk)

/-- The state that iteration `k` starts from. -/
structure At (t : Task α) (x : List α) (k : Nat) (s : State α) : Prop where
  iterate : iterates t x k = .ok ⟨s.buffer,s.point,s.image⟩
  momentum : s.momentum = momentum k
  elapsed : t.Elapsed k s.tau s.schedule
  length_image : s.image.length = x.length
  length_buffer : s.buffer.length = x.length
  length_point : s.point.length = x.length

theorem at_start (t : Task α) (x : List α) : At t x 0 (start t x) where
  iterate := rfl
  momentum := rfl
  elapsed := t.elapsed_zero
  length_image := rfl
  length_buffer := List.length_map ..
  length_point := rfl

theorem At.look_eq (h : At t x k s) : look t x k = .ok s.image := by
  rw [look,h.iterate]
  rfl

theorem At.point_eq (h : At t x k s) : Accelerated.point t x k = .ok s.point := by
  rw [Accelerated.point,h.iterate]
  rfl

/-- The proximal map of a pass is that of the recursion. -/
theorem At.iterates_succ (h : At t x k s) (hr : t.residual s.image = .ok r) :
    iterates t x (k + 1) = (t.prox.apply (t.weight k * t.tau (k + 1)) s.buffer
      (Vec.axpy s.image (t.tau (k + 1)) r)).map fun p =>
        ⟨p,p,Momentum.extrapolate ((Accelerated.momentum k - 1) / Accelerated.momentum (k + 1)) p
          s.point⟩ := by
  rw [iterates,h.iterate]
  change (t.residual s.image >>= _) = _
  rw [hr]
  rfl

/-- The state behind a pass that goes on. -/
def State.next (t : Task α) (s : State α) (p : List α) : State α :=
  let (tau,schedule,_) := halve t.params.hogwild s.tau s.schedule
  let momentum := Momentum.next s.momentum
  ⟨Momentum.extrapolate ((s.momentum - 1) / momentum) p s.point,p,p,tau,momentum,schedule⟩

theorem At.pass_eq_ok (h : At t x k s) : pass t k s = .ok q ↔
    ∃ r e, t.residual s.image = .ok r ∧ t.report k s.image (Vec.norm r) = .ok e ∧
      (Vec.norm r < t.params.epsilon ∧ q = ⟨s,true,[.weight (t.weight k),e]⟩ ∨
        ¬Vec.norm r < t.params.epsilon ∧ ∃ p,
          t.prox.apply (t.weight k * t.tau (k + 1)) s.buffer
            (Vec.axpy s.image (t.tau (k + 1)) r) = .ok p ∧
          q = ⟨s.next t p,false,
            .weight (t.weight k) :: e :: (halve t.params.hogwild s.tau s.schedule).2.2⟩) := by
  rw [← h.elapsed.halve.tau]
  constructor
  · intro hq
    obtain ⟨r,hr,hq⟩ := Checked.bind_eq_ok.mp hq
    obtain ⟨e,he,hq⟩ := Checked.bind_eq_ok.mp hq
    refine ⟨r,e,hr,he,?_⟩
    split at hq
    next hnear => exact .inl ⟨hnear,(Except.ok.inj hq).symm⟩
    next hfar =>
      obtain ⟨p,hp,hq⟩ := Checked.map_eq_ok.mp hq
      exact .inr ⟨hfar,p,hp,hq.symm⟩
  · rintro ⟨r,e,hr,he,hq⟩
    refine Checked.bind_eq_ok.mpr ⟨r,hr,Checked.bind_eq_ok.mpr ⟨e,he,?_⟩⟩
    obtain ⟨hnear,rfl⟩ | ⟨hfar,p,hp,rfl⟩ := hq
    · exact if_pos hnear
    · exact (if_neg hfar).trans (Checked.map_eq_ok.mpr ⟨p,hp,rfl⟩)

theorem At.next (h : At t x k s) (hq : pass t k s = .ok q)
    (hgo : q.stop = false) : At t x (k + 1) q.state := by
  obtain ⟨r,e,hr,_,⟨_,rfl⟩ | ⟨_,p,hp,rfl⟩⟩ := h.pass_eq_ok.mp hq
  · cases hgo
  · have hlen : p.length = x.length := (t.prox.length_apply hp).trans h.length_buffer
    refine ⟨?_,congrArg Momentum.next h.momentum,h.elapsed.halve,
      Momentum.length_extrapolate hlen h.length_point _,hlen,hlen⟩
    rw [h.iterates_succ hr,hp,State.next,h.momentum]
    rfl

theorem numbered (t : Task α) {x : List α} (ht : t.Fits x.length) :
    Numbered (pass t) State.image (At t x) (fun k y => t.Near (look t x k) ∧ look t x k = .ok y)
      fun k => t.Far (look t x k) ∧ ∃ u, iterates t x (k + 1) = .ok u where
  ends_iff k s y h := by
    rw [h.look_eq]
    constructor
    · rintro ⟨q,hq,hstop,rfl⟩
      obtain ⟨r,e,hr,_,⟨hnear,rfl⟩ | ⟨_,p,_,rfl⟩⟩ := h.pass_eq_ok.mp hq
      · exact ⟨⟨s.image,r,rfl,hr,hnear⟩,rfl⟩
      · cases hstop
    · rintro ⟨⟨v,r,hv,hr,hnear⟩,hy⟩
      obtain rfl : s.image = v := Except.ok.inj hv
      obtain ⟨e,he⟩ := ht.exists_report h.length_image k (Vec.norm r)
      exact ⟨_,h.pass_eq_ok.mpr ⟨r,e,hr,he,.inl ⟨hnear,rfl⟩⟩,rfl,Except.ok.inj hy⟩
  goes_iff k s h := by
    rw [h.look_eq]
    constructor
    · rintro ⟨q,hq,hgo⟩
      obtain ⟨r,e,hr,_,⟨_,rfl⟩ | ⟨hfar,p,hp,rfl⟩⟩ := h.pass_eq_ok.mp hq
      · cases hgo
      · exact ⟨⟨s.image,r,rfl,hr,hfar⟩,_,(h.iterates_succ hr).trans
          (Checked.map_eq_ok.mpr ⟨p,hp,rfl⟩)⟩
    · rintro ⟨⟨v,r,hv,hr,hfar⟩,u,hu⟩
      obtain rfl : s.image = v := Except.ok.inj hv
      rw [h.iterates_succ hr] at hu
      obtain ⟨p,hp,_⟩ := Checked.map_eq_ok.mp hu
      obtain ⟨e,he⟩ := ht.exists_report h.length_image k (Vec.norm r)
      exact ⟨_,h.pass_eq_ok.mpr ⟨r,e,hr,he,.inr ⟨hfar,p,hp,rfl⟩⟩,rfl⟩
  keep k s q h hq hgo := h.next hq hgo

theorem At.exists_pass_of_iterates (h : At t x k s) (ht : t.Fits x.length)
    (hr : t.residual s.image = .ok r) (hu : iterates t x (k + 1) = .ok u) :
    ∃ q, pass t k s = .ok q := by
  obtain ⟨e,he⟩ := ht.exists_report h.length_image k (Vec.norm r)
  by_cases hnear : Vec.norm r < t.params.epsilon
  · exact ⟨_,h.pass_eq_ok.mpr ⟨r,e,hr,he,.inl ⟨hnear,rfl⟩⟩⟩
  · rw [h.iterates_succ hr] at hu
    obtain ⟨p,hp,_⟩ := Checked.map_eq_ok.mp hu
    exact ⟨_,h.pass_eq_ok.mpr ⟨r,e,hr,he,.inr ⟨hnear,p,hp,rfl⟩⟩⟩

theorem At.exists_pass (h : At t x k s) (ht : t.Fits x.length) (htotal : t.Total x.length) :
    ∃ q, pass t k s = .ok q := by
  obtain ⟨r,hr⟩ := htotal.exists_residual h.length_image
  obtain ⟨p,hp⟩ := htotal.prox (t.weight k * t.tau (k + 1)) s.buffer
    (Vec.axpy s.image (t.tau (k + 1)) r) h.length_buffer
    (Vec.length_axpy h.length_image (Task.length_residual ht.data hr h.length_image) _)
  exact h.exists_pass_of_iterates ht hr
    ((h.iterates_succ hr).trans (Checked.map_eq_ok.mpr ⟨p,hp,rfl⟩))

theorem run_eq (ht : t.Fits x.length) : run t x =
    (iterate (pass t) t.params.maxIter 0 (start t x)).map fun r =>
      ⟨r.report,if r.stopped then r.state.image else r.state.point,r.log⟩ :=
  if_neg (not_not_intro ht.data.symm)

omit [Scalar α] in
/-- What a run that stopped leaves, and what one that did not. -/
theorem exists_run_iff {stopped : Bool} {run : Checked α (Run α (State α))} {y : List α} :
    (∃ r, run = .ok r ∧ r.stopped = stopped ∧ r.iterations = k ∧
        (if r.stopped then r.state.image else r.state.point) = y) ↔
      ∃ r, run = .ok r ∧ r.stopped = stopped ∧ r.iterations = k ∧
        (if stopped then State.image else State.point) r.state = y := by
  refine exists_congr fun r => and_congr_right fun _ => and_congr_right fun h => ?_
  rw [h,ite_apply]

theorem follows (ht : t.Fits x.length) :
    Follows t x.length (run t x) (look t x) (point t x t.params.maxIter) where
  converged k y := by
    rw [run_eq ht]
    refine (exists_solution_iff true).trans (exists_run_iff.trans
      (((numbered t ht).stopped_iff (at_start t x)).trans ?_))
    simp only [Nat.zero_le,Nat.zero_add,true_implies,Nat.lt_iff_add_one_le]
    refine and_congr_right fun _ => and_congr_right fun _ => ⟨fun ⟨hgo,hend⟩ => ?_,
      fun ⟨hfar,hend⟩ => ?_⟩
    · exact ⟨fun j hj => (hgo j hj).1,hend⟩
    · obtain ⟨u,hu,_⟩ := Checked.map_eq_ok.mp hend.2
      exact ⟨fun j hj => ⟨hfar j hj,exists_iterates hu (by omega)⟩,hend⟩
  capped k y := by
    rw [run_eq ht]
    have hleft : ∀ u, At t x (0 + t.params.maxIter) u →
        (u.point = y ↔ point t x t.params.maxIter = .ok y) := by
      intro u hu
      rw [Nat.zero_add] at hu
      rw [hu.point_eq,Except.ok.injEq]
    refine (exists_solution_iff false).trans (exists_run_iff.trans
      (((numbered t ht).capped_iff (at_start t x) hleft).trans ?_))
    simp only [Nat.zero_le,Nat.zero_add,true_implies]
    refine and_congr_right fun _ => ⟨fun ⟨hgo,hend⟩ => ?_,fun ⟨hfar,hend⟩ => ?_⟩
    · exact ⟨fun j hj => (hgo j hj).1,hend⟩
    · obtain ⟨u,hu,_⟩ := Checked.map_eq_ok.mp hend
      exact ⟨fun j hj => ⟨hfar j hj,exists_iterates hu hj⟩,hend⟩
  returns htotal := by
    obtain ⟨r,hr⟩ := exists_iterate (I := At t x) (at_start t x)
      (fun j u h => h.exists_pass ht htotal) (fun j u q h hq hgo => h.next hq hgo)
      t.params.maxIter
    exact ⟨_,(run_eq ht).trans (Checked.map_eq_ok.mpr ⟨r,hr,rfl⟩),r.status_report⟩

end Accelerated

/-- A step that is halved on the way, and a weight that shrinks. -/
def ridgeTask : Task Float where
  params := ⟨12,0.001,1,0.5,true⟩
  operator := .identity
  prox := .ridge 1
  data := [1,-2]
  monitor := .silent "ist"

end LinearInverse.Thresholding
