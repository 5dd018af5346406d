import LinearInverse.Admm.Basic
import LinearInverse.Proofs.ConjugateGradient.Steps
import LinearInverse.Proofs.Iterations
import LinearInverse.Proofs.Schedule

namespace LinearInverse.Admm
variable {α : Type} {image : List α} {bal : Balance α}

def balance? : Event α → Option (Balance α)
  | .balance b => some b
  | _ => none

def image? : Event α → Option (List α)
  | .progress p => some p.image
  | _ => none

/-- An event that is neither the residuals nor the image of an iteration. -/
def IsNote (e : Event α) : Prop := balance? e = none ∧ image? e = none

theorem report_eq_ok [Scalar α] {monitor : Monitor α} {k : Nat} {x : List α} {r : α}
    {e : Event α} (h : monitor.report k x r = .ok e) :
    balance? e = none ∧ image? e = some x := by
  obtain ⟨t,_,rfl⟩ := Checked.map_eq_ok.mp h
  exact ⟨rfl,rfl⟩

/-- An iteration tells its residuals, its image, and possibly more. -/
theorem filterMap_told {e : Event α} {es : List (Event α)} (hb : balance? e = none)
    (hi : image? e = some image) (h : ∀ e ∈ es, IsNote e) (bal : Balance α) :
    (.balance bal :: e :: es).filterMap balance? = [bal] ∧
      (.balance bal :: e :: es).filterMap image? = [image] := by
  have hbal : es.filterMap balance? = [] := List.filterMap_eq_nil_iff.mpr fun e he => (h e he).1
  have himage : es.filterMap image? = [] := List.filterMap_eq_nil_iff.mpr fun e he => (h e he).2
  rw [List.filterMap_cons_some (f := balance?) rfl,List.filterMap_cons_none hb,hbal,
    List.filterMap_cons_none (f := image?) rfl,List.filterMap_cons_some hi,himage]
  exact ⟨rfl,rfl⟩

/-- The vectors of a term have length `n`. -/
structure Split.Sized (n : Nat) (v : Split α) : Prop where
  z : v.z.length = n
  u : v.u.length = n
  zHat : v.zHat.length = n
  uHat : v.uHat.length = n
  zPrev : v.zPrev.length = n
  uPrev : v.uPrev.length = n

structure Moved.Sized (n : Nat) (m : Moved α) : Prop where
  split : m.split.Sized n
  z : m.z.length = n
  u : m.u.length = n

theorem Moved.Sized.settle {n : Nat} {m : Moved α} (h : m.Sized n) : m.settle.Sized n := by
  obtain ⟨⟨_,_,hz,hu,hz',hu'⟩,h,h'⟩ := h
  constructor <;> simpa [Moved.settle]

theorem Moved.Sized.restarted {n : Nat} {m : Moved α} (h : m.Sized n) : m.restarted.Sized n := by
  obtain ⟨_,h,h'⟩ := h
  constructor <;> simpa [Moved.restarted]

theorem sized_begin {n : Nat} {v : Split α} (h : v.Sized n) (fast : Bool) (t : Term α) :
    (begin fast t v).zFrom.length = n ∧ (begin fast t v).uFrom.length = n := by
  cases fast with
  | false => exact ⟨h.z,h.u⟩
  | true => exact ⟨h.zHat,h.uHat⟩

section
variable [Scalar α]

theorem Moved.Sized.extrapolated {n : Nat} {m : Moved α} (h : m.Sized n) (beta : α) :
    (m.extrapolated beta).Sized n := by
  obtain ⟨⟨_,_,_,_,hz,hu⟩,h,h'⟩ := h
  constructor <;> simp only [Moved.extrapolated,Momentum.extrapolate,List.length_zipWith] <;> omega

theorem Split.sized_initial (z : List α) : (Split.initial z).Sized z.length := by
  constructor <;> simp [Split.initial]

theorem Split.Sized.rescale {n : Nat} {v : Split α} (h : v.Sized n) (a : α) :
    (v.rescale a).Sized n := by
  obtain ⟨hz,hu,hz',hu',hz'',hu''⟩ := h
  constructor <;> simpa [Split.rescale,Vec.scale]

end

variable [Scalar α] {p : Plan α} {op : Option (Operator α)} {b : Option (List α)}
  {monitor : Monitor α} {k : Nat} {s : State α} {q : Pass α (State α)} {ms : List (Moved α)}

theorem update_eq_ok : update p op b s = .ok (image,ms) ↔
    ∃ v, sumAdjoint s.image.length ((List.zipWith (begin p.settings.fast) p.terms s.splits).map
        fun m => (m.term.transform,Vec.sub m.zFrom m.uFrom)) = .ok v ∧
      updateImage p op b s.rho s.image v = .ok image ∧
      (List.zipWith (begin p.settings.fast) p.terms s.splits).mapM
        (move p.settings.alpha s.rho image) = .ok ms := by
  constructor
  · intro h
    obtain ⟨v,hv,h⟩ := Checked.bind_eq_ok.mp h
    obtain ⟨x,hx,h⟩ := Checked.bind_eq_ok.mp h
    obtain ⟨ns,hn,h⟩ := Checked.map_eq_ok.mp h
    cases h
    exact ⟨v,hv,hx,hn⟩
  · rintro ⟨v,hv,hx,hm⟩
    exact Checked.bind_eq_ok.mpr ⟨v,hv,Checked.bind_eq_ok.mpr ⟨image,hx,
      Checked.map_eq_ok.mpr ⟨ms,hm,rfl⟩⟩⟩

/-- However the image is updated, it keeps its length. -/
theorem length_updateImage {rho : α} {x v y : List α} (h : updateImage p op b rho x v = .ok y) :
    y.length = x.length := by
  rw [updateImage] at h
  split at h
  next update _ => exact update.length_apply h
  next =>
    split at h
    next =>
      obtain ⟨⟨report,z⟩,hz,rfl⟩ := Checked.map_eq_ok.mp h
      exact ConjugateGradient.length_solve hz
    next => cases h; rfl

theorem length_update (h : update p op b s = .ok (image,ms))
    (hs : s.splits.length = p.terms.length) : ms.length = p.terms.length := by
  obtain ⟨v,_,_,hm⟩ := update_eq_ok.mp h
  rw [Checked.length_mapM hm,List.length_zipWith,hs,Nat.min_self]

/-- Each term keeps the length of its variables, whatever its transform and its proximal map do. -/
theorem sized_move {n : Nat} {alpha rho : α} {m m' : Moved α} (h : m.split.Sized n)
    (hz : m.zFrom.length = n) (hu : m.uFrom.length = n)
    (hm : move alpha rho image m = .ok m') : m'.Sized n := by
  obtain ⟨gx,hg,hm⟩ := Checked.bind_eq_ok.mp hm
  obtain ⟨z,hprox,rfl⟩ := Checked.map_eq_ok.mp hm
  have hgx := (Transform.length_flatForward hg).trans h.z
  have hz' := (m.term.prox.length_apply hprox).trans h.z
  refine ⟨h,hz',?_⟩
  simp only [Vec.sub,Vec.add,relax,List.length_zipWith]
  omega

theorem rho_of_balance {a : AdmmSettings α} {rho : α} {n : Nat} (h : balance a rho n ms = .ok bal) :
    bal.rho = rho := by
  obtain ⟨d,_,h⟩ := Checked.bind_eq_ok.mp h
  obtain ⟨v,_,rfl⟩ := Checked.map_eq_ok.mp h
  rfl

/-- Which variables the next iteration starts from, term by term. -/
theorem splits_accelerate (fast : Bool) (rho : α) (s : State α) (ms : List (Moved α)) :
    ∃ f : Moved α → Split α, (accelerate fast rho s ms).1 = ms.map f ∧
      (fast = false ∧ f = Moved.settle ∨
        fast = true ∧ (f = Moved.restarted ∨ ∃ beta, f = Moved.extrapolated beta)) := by
  cases fast with
  | false => exact ⟨_,rfl,.inl ⟨rfl,rfl⟩⟩
  | true =>
    cases h : improves (merit rho ms) s.merit with
    | true =>
      exact ⟨Moved.extrapolated ((s.momentum - 1) / Momentum.next s.momentum),
        by simp only [accelerate,h,if_true],.inr ⟨rfl,.inr ⟨_,rfl⟩⟩⟩
    | false =>
      exact ⟨Moved.restarted,by simp only [accelerate,h,if_true,Bool.false_eq_true,if_false],
        .inr ⟨rfl,.inl rfl⟩⟩

theorem exists_splits_accelerate (fast : Bool) (rho : α) (s : State α) (ms : List (Moved α)) :
    ∃ f : Moved α → Split α, (accelerate fast rho s ms).1 = ms.map f ∧
      ∀ n m, m.Sized n → (f m).Sized n := by
  obtain ⟨f,hf,⟨_,rfl⟩ | ⟨_,rfl | ⟨beta,rfl⟩⟩⟩ := splits_accelerate fast rho s ms
  · exact ⟨_,hf,fun n m h => h.settle⟩
  · exact ⟨_,hf,fun n m h => h.restarted⟩
  · exact ⟨_,hf,fun n m h => h.extrapolated beta⟩

theorem notes_accelerate (fast : Bool) (rho : α) (s : State α) (ms : List (Moved α)) :
    ∀ e ∈ (accelerate fast rho s ms).2.2.2, IsNote e := by
  unfold accelerate
  split
  · dsimp only
    split <;> simp [IsNote,balance?,image?]
  · simp

/-- What the penalty is multiplied by, unless that is one. -/
def change (a : AdmmSettings α) (bal : Balance α) (schedule : Schedule) : α :=
  if (schedule.tickIf a.hogwild).1 then balancing a bal * ((2 : Nat) : α) else balancing a bal

/-- A changed penalty rescales the duals, and nothing else in the state depends on it. -/
theorem adapt_eq (a : AdmmSettings α) (bal : Balance α) (s : State α) :
    adapt a bal s =
      if change a bal s.schedule == 1 then
        ({ s with schedule := (s.schedule.tickIf a.hogwild).2 },[])
      else
        ({ s with
            rho := s.rho * change a bal s.schedule
            schedule := (s.schedule.tickIf a.hogwild).2
            splits := s.splits.map (Split.rescale (1 / change a bal s.schedule)) },
          [.penalty (s.rho * change a bal s.schedule)]) :=
  rfl

theorem notes_adapt (a : AdmmSettings α) (bal : Balance α) (s : State α) :
    ∀ e ∈ (adapt a bal s).2, IsNote e := by
  rw [adapt_eq]
  split <;> simp [IsNote,balance?,image?]

/-- The state between momentum and penalty of an iteration. -/
def accelerated (a : AdmmSettings α) (s : State α) (image : List α) (ms : List (Moved α)) :
    State α :=
  let (splits,momentum,merit,_) := accelerate a.fast s.rho s ms
  { s with image, splits, momentum, merit }

/-- The state behind an iteration that is not the last. -/
def following (a : AdmmSettings α) (s : State α) (image : List α) (ms : List (Moved α))
    (bal : Balance α) : State α :=
  (adapt a bal (accelerated a s image ms)).1

theorem schedule_following (a : AdmmSettings α) (s : State α) (image : List α)
    (ms : List (Moved α)) (bal : Balance α) :
    (following a s image ms bal).schedule = (s.schedule.tickIf a.hogwild).2 := by
  rw [following,adapt_eq]
  split <;> rfl

theorem rho_following (a : AdmmSettings α) (s : State α) (image : List α)
    (ms : List (Moved α)) (bal : Balance α) :
    (following a s image ms bal).rho =
      if change a bal s.schedule == 1 then s.rho else s.rho * change a bal s.schedule := by
  rw [following,adapt_eq,apply_ite Prod.fst,apply_ite State.rho]
  rfl

theorem image_following (a : AdmmSettings α) (s : State α) (image : List α)
    (ms : List (Moved α)) (bal : Balance α) : (following a s image ms bal).image = image := by
  rw [following,adapt_eq]
  split <;> rfl

theorem exists_splits_following (a : AdmmSettings α) (s : State α) (image : List α)
    (ms : List (Moved α)) (bal : Balance α) :
    ∃ f : Moved α → Split α, (following a s image ms bal).splits = ms.map f ∧
      ∀ n m, m.Sized n → (f m).Sized n := by
  obtain ⟨f,hf,hsized⟩ := exists_splits_accelerate a.fast s.rho s ms
  rw [following,adapt_eq]
  split
  · exact ⟨f,hf,hsized⟩
  · refine ⟨fun m => (f m).rescale (1 / change a bal s.schedule),?_,
      fun n m h => (hsized n m h).rescale _⟩
    exact (congrArg (List.map _) hf).trans List.map_map

/-- What an iteration has reached and recorded, when it is the last, and how it leaves the
state. -/
structure Iterated (p : Plan α) (op : Option (Operator α)) (b : Option (List α))
    (s : State α) (image : List α) (ms : List (Moved α)) (bal : Balance α)
    (q : Pass α (State α)) : Prop where
  update_eq : update p op b s = .ok (image,ms)
  balance_eq : balance p.settings s.rho s.image.length ms = .ok bal
  balances : q.events.filterMap balance? = [bal]
  images : q.events.filterMap image? = [image]
  stop_eq : q.stop = (Balance.met bal || settled p.settings bal ms s.image image)
  state_eq : q.state =
    if q.stop then { s with image, splits := ms.map Moved.settle }
    else following p.settings s image ms bal

theorem pass_eq_ok (h : pass p op b monitor k s = .ok q) :
    ∃ image ms bal, Iterated p op b s image ms bal q := by
  obtain ⟨⟨image,ms⟩,hu,h⟩ := Checked.bind_eq_ok.mp h
  obtain ⟨bal,hb,h⟩ := Checked.bind_eq_ok.mp h
  obtain ⟨e,he,h⟩ := Checked.map_eq_ok.mp h
  obtain ⟨hbe,hie⟩ := report_eq_ok he
  refine ⟨image,ms,bal,?_⟩
  cases hstop : Balance.met bal || settled p.settings bal ms s.image image with
  | true =>
    simp only [hstop,if_true] at h
    subst h
    have hnone : ∀ e : Event α, e ∈ [] → IsNote e := nofun
    obtain ⟨hbal,himage⟩ := filterMap_told hbe hie hnone bal
    exact ⟨hu,hb,hbal,himage,hstop.symm,rfl⟩
  | false =>
    simp only [hstop,Bool.false_eq_true,if_false] at h
    subst h
    obtain ⟨hbal,himage⟩ := filterMap_told hbe hie (fun e he => (List.mem_append.mp he).elim
      (notes_accelerate p.settings.fast s.rho s ms e)
      (notes_adapt p.settings bal (accelerated p.settings s image ms) e)) bal
    exact ⟨hu,hb,hbal,himage,hstop.symm,rfl⟩

theorem start_eq_ok (h : start p image = .ok s) : s.image = image ∧ s.rho = p.settings.rho := by
  obtain ⟨zs,_,h⟩ := Checked.bind_eq_ok.mp h
  obtain ⟨splits,_,rfl⟩ := Checked.map_eq_ok.mp h
  exact ⟨rfl,rfl⟩

/-- What a run that returns has gone through. -/
theorem run_eq_ok {o : Outcome α} (h : run p op image b monitor = .ok o) :
    ∃ s r, checkDomains image.length p.terms = .ok () ∧ start p image = .ok s ∧
      iterate (pass p op b monitor) p.settings.maxIter 0 s = .ok r ∧
        o = ⟨⟨r.report,r.state.image,r.log⟩,r.state.rho⟩ := by
  obtain ⟨_,h⟩ := Checked.unless_eq_ok.mp h
  obtain ⟨_,hdomains,h⟩ := Checked.bind_eq_ok.mp h
  obtain ⟨s,hs,h⟩ := Checked.bind_eq_ok.mp h
  obtain ⟨r,hr,rfl⟩ := Checked.map_eq_ok.mp h
  exact ⟨s,r,hdomains,hs,hr,rfl⟩

/-- Each term has its variables, and a schedule that is in use has ticked once for each
iteration. -/
structure Aligned (p : Plan α) (k : Nat) (s : State α) : Prop where
  splits : s.splits.length = p.terms.length
  schedule : s.schedule = if p.settings.hogwild then .after k else .initial

theorem aligned_start (h : start p image = .ok s) : Aligned p 0 s := by
  obtain ⟨zs,hz,h⟩ := Checked.bind_eq_ok.mp h
  obtain ⟨splits,hs,rfl⟩ := Checked.map_eq_ok.mp h
  obtain ⟨lengths,hl,hz⟩ := Checked.bind_eq_ok.mp hz
  obtain ⟨_,hz⟩ := Checked.unless_eq_ok.mp hz
  refine ⟨?_,by simp [Schedule.after]⟩
  rw [Checked.length_mapM hs,List.length_zip,Checked.length_mapM hz,Checked.length_mapM hl,
    Nat.min_self]

theorem Aligned.next (h : Aligned p k s) (hq : pass p op b monitor k s = .ok q)
    (hgo : q.stop = false) : Aligned p (k + 1) q.state := by
  obtain ⟨image,ms,bal,hi⟩ := pass_eq_ok hq
  rw [hi.state_eq,hgo,if_neg Bool.false_ne_true]
  refine ⟨?_,?_⟩
  · obtain ⟨f,hf,_⟩ := exists_splits_following p.settings s image ms bal
    rw [hf,List.length_map,length_update hi.update_eq h.splits]
  · rw [schedule_following,h.schedule]
    cases p.settings.hogwild <;> rfl

end LinearInverse.Admm
