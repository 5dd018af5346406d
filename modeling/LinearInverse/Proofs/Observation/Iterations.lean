import LinearInverse.Proofs.AlternatingProjections
import LinearInverse.Proofs.Reports

namespace LinearInverse
variable {α β γ σ : Type}

/-- The second computation ends with the defect `d`, or with the first one before it gets there. -/
inductive Checked.Blocked (d : Defect α) : Checked α β → Checked α β → Prop where
  | before (e : Defect α) : Blocked d (.error e) (.error e)
  | there (x : Checked α β) : Blocked d x (.error d)

theorem Checked.Blocked.bind {d : Defect α} {a b : Checked α β} (h : Blocked d a b)
    (f g : β → Checked α γ) : Blocked d (a >>= f) (b >>= g) := by
  cases h with
  | before e => exact .before e
  | there x => exact .there _

theorem Checked.Blocked.map {d : Defect α} {a b : Checked α β} (h : Blocked d a b) (f : β → γ) :
    Blocked d (a.map f) (b.map f) := by
  cases h with
  | before e => exact .before e
  | there x => exact .there _

namespace Monitor

/-- The ground truth, if there is one, has the length of the image. -/
def Fits (m : Monitor α) (n : Nat) : Prop :=
  ∀ t, m.truth = some t → t.length = n

/-- A report with what the monitor adds to it. -/
def observed [Scalar α] (m : Monitor α) : Event α → Event α
  | .progress p =>
    .progress { p with
      objective := m.objective.map (· p.image)
      truthError := (m.truthError p.image).toOption.join }
  | e => e

theorem observed_of_note [Scalar α] (m : Monitor α) {e : Event α} (h : Event.progress? e = none) :
    m.observed e = e := by
  cases e <;> first | rfl | cases h

theorem map_observed [Scalar α] (m : Monitor α) {es : List (Event α)}
    (h : ∀ e ∈ es, Event.progress? e = none) : es.map m.observed = es :=
  (List.map_congr_left fun e he => m.observed_of_note (h e he)).trans (List.map_id' es)

end Monitor

/-- What a computation without monitor becomes with one. `due` says whether it gets to a report,
and `observed` adds what the monitor has to tell. -/
structure Watched (m : Monitor α) (n : Nat) (due : Prop) (observed : β → β)
    (a b : Checked α β) : Prop where
  fits : m.Fits n → b = a.map observed
  blocked : ¬m.Fits n → due → Checked.Blocked .truthLength a b
  idle : ¬m.Fits n → ¬due → b = a

namespace Watched
variable {m : Monitor α} {n : Nat} {due : Prop} {o : β → β} {o' : γ → γ} {a b : Checked α β}

theorem error (d : Defect α) : Watched m n due o (.error d) (.error d) :=
  ⟨fun _ => rfl,fun _ _ => .before d,fun _ _ => rfl⟩

theorem bind_same (x : Checked α γ) {f g : γ → Checked α β}
    (h : ∀ c, x = .ok c → Watched m n due o (f c) (g c)) :
    Watched m n due o (x >>= f) (x >>= g) := by
  cases x with
  | error d => exact .error d
  | ok c => exact h c rfl

theorem bind (h : Watched m n due o a b) {f : β → Checked α γ}
    (hf : ∀ c, f (o c) = (f c).map o') : Watched m n due o' (a >>= f) (b >>= f) where
  fits hm := by
    rw [h.fits hm,Checked.bind_map,Checked.map_bind]
    exact congrArg _ (funext hf)
  blocked hm hd := (h.blocked hm hd).bind f f
  idle hm hd := by rw [h.idle hm hd]

theorem map (h : Watched m n due o a b) {f : β → γ} (hf : ∀ c, f (o c) = o' (f c)) :
    Watched m n due o' (a.map f) (b.map f) where
  fits hm := by
    rw [h.fits hm,Checked.map_map,Checked.map_map]
    exact congrArg (a.map ·) (funext hf)
  blocked hm hd := (h.blocked hm hd).map f
  idle hm hd := by rw [h.idle hm hd]

theorem congr {due' : Prop} (h : Watched m n due o a b) (hdue : due ↔ due') :
    Watched m n due' o a b :=
  propext hdue ▸ h

end Watched

variable [Scalar α] {m : Monitor α} {n k : Nat} {x image : List α} {r : α} {s : σ}

theorem Monitor.watched_report (hx : x.length = n) :
    Watched m n True m.observed ((silent m.name).report k x r) (m.report k x r) where
  fits hm := by
    have herror : m.truthError x = .ok (m.truthError x).toOption.join := by
      rw [truthError]
      cases ht : m.truth with
      | none => rfl
      | some t =>
        simp only [(hm t ht).trans hx.symm,ne_eq,not_true_eq_false,if_false]
        rfl
    rw [report,herror]
    rfl
  blocked hm _ := by
    obtain ⟨t,ht⟩ := not_forall.mp hm
    obtain ⟨ht,hlen⟩ := Classical.not_imp.mp ht
    have herror : m.report k x r = .error .truthLength := by
      rw [report,truthError,ht]
      simp only [hx,hlen,ne_eq,not_false_eq_true,if_true]
      rfl
    rw [herror]
    exact .there _
  idle _ h := absurd trivial h

def Pass.observed (m : Monitor α) (p : Pass α σ) : Pass α σ :=
  { p with events := p.events.map m.observed }

def Run.observed (m : Monitor α) (r : Run α σ) : Run α σ :=
  { r with log := r.log.map m.observed }

def Solution.observed (m : Monitor α) (s : Solution α) : Solution α :=
  { s with log := s.log.map m.observed }

/-- A run gets to its first report in its first pass. -/
theorem watched_iterate {pass watched : Nat → σ → Checked α (Pass α σ)} {I : σ → Prop}
    (hpass : ∀ j u, I u → Watched m n True (Pass.observed m) (pass j u) (watched j u))
    (keep : ∀ j u p, I u → pass j u = .ok p → I p.state) (hs : I s) (fuel : Nat) :
    Watched m n (0 < fuel) (Run.observed m) (iterate pass fuel k s) (iterate watched fuel k s) where
  fits hm := by
    induction fuel generalizing k s with
    | zero => rfl
    | succ fuel ih =>
      rw [iterate,iterate,(hpass k s hs).fits hm,Checked.bind_map,Checked.map_bind]
      refine Checked.bind_congr fun p hp => ?_
      change (if p.stop then _ else (iterate watched fuel (k + 1) p.state).map _) = _
      rw [ih (keep k s p hs hp)]
      cases p.stop with
      | true => rfl
      | false =>
        change ((iterate pass fuel (k + 1) p.state).map _).map _ =
          ((iterate pass fuel (k + 1) p.state).map _).map _
        rw [Checked.map_map,Checked.map_map]
        refine congrArg (Except.map · _) (funext fun r => ?_)
        simp only [Run.observed,Pass.observed,List.map_append]
  blocked hm hfuel := by
    obtain ⟨fuel,rfl⟩ := Nat.exists_eq_succ_of_ne_zero hfuel.ne'
    exact ((hpass k s hs).blocked hm trivial).bind _ _
  idle _ hfuel := by
    obtain rfl := Nat.eq_zero_of_not_pos hfuel
    rfl

theorem ConjugateGradient.watched_run (maxIter : Nat) (w epsilon : α) (A : Operator α)
    (x b : List α) : Watched m x.length True (Solution.observed m)
      (run maxIter w epsilon A x b (.silent m.name)) (run maxIter w epsilon A x b m) :=
  .bind_same _ fun (_,_) hsolve => .bind_same _ fun _ _ =>
    (m.watched_report (length_solve hsolve)).map fun _ => rfl

theorem AlternatingProjections.watched_run (maxIter : Nat) (ps : List (ProxOperator α))
    (x : List α) : Watched m x.length (0 < maxIter) (Solution.observed m)
      (run maxIter ps x (.silent m.name)) (run maxIter ps x m) := by
  refine (watched_iterate (I := fun s => s.image.length = x.length ∧
    s.buffer.length = s.image.length) (fun j u hu => ?_) (fun j u p hu hp => ?_)
    ⟨rfl,List.length_map _⟩ maxIter).map fun _ => rfl
  · refine .bind_same _ fun t ht => ?_
    exact (m.watched_report ((length_sweep ht hu.2).1.trans hu.1)).map fun _ => rfl
  · obtain ⟨t,ht,hp⟩ := Checked.bind_eq_ok.mp hp
    obtain ⟨e,_,rfl⟩ := Checked.map_eq_ok.mp hp
    obtain ⟨himage,hbuffer⟩ := length_sweep ht hu.2
    exact ⟨himage.trans hu.1,hbuffer⟩

namespace Thresholding

def Task.watchedBy (t : Task α) (m : Monitor α) : Task α :=
  { t with monitor := m }

theorem Plain.watched_run (t : Task α) (x : List α) :
    Watched m x.length (0 < t.params.maxIter) (Solution.observed m)
      (run (t.watchedBy (.silent m.name)) x) (run (t.watchedBy m) x) := by
  rw [run,run]
  change Watched m _ _ _ (if x.length ≠ t.data.length then _ else _)
    (if x.length ≠ t.data.length then _ else _)
  split
  · exact .error _
  refine (watched_iterate (I := fun s => s.point.length = x.length) (fun j u hu => ?_)
    (fun j u q hu hq => ?_) (List.length_map _) t.params.maxIter).map fun _ => rfl
  · refine .bind_same _ fun p hp => .bind_same _ fun r _ => ?_
    refine (m.watched_report ((t.prox.length_apply hp).trans hu)).map fun e => ?_
    dsimp only
    split
    · rfl
    · exact congrArg (Pass.mk _ _ <| _ :: _ :: ·) (m.map_observed (note_halve _ _ _)).symm
  · obtain ⟨p,hp,hq⟩ := Checked.bind_eq_ok.mp hq
    obtain ⟨r,_,hq⟩ := Checked.bind_eq_ok.mp hq
    obtain ⟨e,_,rfl⟩ := Checked.map_eq_ok.mp hq
    have hlen : p.length = x.length := (t.prox.length_apply hp).trans hu
    dsimp only
    split <;> exact hlen

theorem Accelerated.watched_run (t : Task α) (x : List α) :
    Watched m x.length (0 < t.params.maxIter) (Solution.observed m)
      (run (t.watchedBy (.silent m.name)) x) (run (t.watchedBy m) x) := by
  rw [run,run]
  change Watched m _ _ _ (if x.length ≠ t.data.length then _ else _)
    (if x.length ≠ t.data.length then _ else _)
  split
  · exact .error _
  refine (watched_iterate (I := fun s => s.image.length = x.length ∧
    s.buffer.length = x.length ∧ s.point.length = x.length) (fun j u hu => ?_)
    (fun j u q hu hq => ?_) ⟨rfl,List.length_map _,rfl⟩ t.params.maxIter).map fun _ => rfl
  · refine .bind_same _ fun r _ => (m.watched_report hu.1).bind fun e => ?_
    dsimp only
    split
    · rfl
    · refine (congrArg (Except.map · _) (funext fun p => ?_)).trans (Checked.map_map _ _ _).symm
      exact congrArg (Pass.mk _ _ <| _ :: _ :: ·) (m.map_observed (note_halve _ _ _)).symm
  · obtain ⟨r,_,hq⟩ := Checked.bind_eq_ok.mp hq
    obtain ⟨e,_,hq⟩ := Checked.bind_eq_ok.mp hq
    dsimp only at hq
    split at hq
    · cases hq
      exact hu
    · obtain ⟨p,hp,rfl⟩ := Checked.map_eq_ok.mp hq
      have hlen : p.length = x.length := (t.prox.length_apply hp).trans hu.2.1
      exact ⟨Momentum.length_extrapolate hlen hu.2.2 _,hlen,hlen⟩

end Thresholding

namespace Admm
variable {p : Plan α} {op : Option (Operator α)} {b : Option (List α)}

def Outcome.observed (m : Monitor α) (o : Outcome α) : Outcome α :=
  { o with solution := o.solution.observed m }

theorem history_observed (m : Monitor α) (o : Outcome α) : (o.observed m).history = o.history := by
  rw [Outcome.history,Outcome.history]
  change (o.solution.log.map m.observed).filterMap _ = _
  rw [List.filterMap_map]
  refine congrArg (List.filterMap · _) (funext fun e => ?_)
  cases e <;> rfl

theorem watched_run (p : Plan α) (op : Option (Operator α)) (image : List α)
    (b : Option (List α)) : Watched m image.length (0 < p.settings.maxIter) (Outcome.observed m)
      (run p op image b (.silent m.name)) (run p op image b m) := by
  rw [run,run]
  split
  · exact .error _
  refine .bind_same _ fun _ _ => .bind_same _ fun s hs => ?_
  refine (watched_iterate (I := fun s => s.image.length = image.length) (fun j u hu => ?_)
    (fun j u q hu hq => ?_) (congrArg _ (start_eq_ok hs).1) _).map fun _ => rfl
  · refine .bind_same _ fun (y,ms) hy => .bind_same _ fun bal _ => ?_
    obtain ⟨_,_,hy,_⟩ := update_eq_ok.mp hy
    refine (m.watched_report ((length_updateImage hy).trans hu)).map fun e => ?_
    dsimp only
    split
    · rfl
    · have hnotes := m.map_observed fun e he => IsNote.progress?_eq_none <|
        (List.mem_append.mp he).elim (notes_accelerate p.settings.fast u.rho u ms e)
          (notes_adapt p.settings bal (accelerated p.settings u y ms) e)
      exact congrArg (Pass.mk _ _ <| _ :: _ :: ·) hnotes.symm
  · obtain ⟨y,ms,bal,hi⟩ := pass_eq_ok hq
    obtain ⟨_,_,hy,_⟩ := update_eq_ok.mp hi.update_eq
    have hlen : y.length = image.length := (length_updateImage hy).trans hu
    rw [hi.state_eq]
    split
    · exact hlen
    · exact (congrArg _ (image_following p.settings u y ms bal)).trans hlen

end Admm

end LinearInverse
