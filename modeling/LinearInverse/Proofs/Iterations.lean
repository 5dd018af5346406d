import LinearInverse.Progress

namespace LinearInverse
variable {α σ : Type}

/-- The passes of iterations in a row, numbered from `k`. Only the last one may stop. -/
inductive Trace (pass : Nat → σ → Checked α (Pass α σ)) : Nat → σ → List (Pass α σ) → Prop where
  | nil {k : Nat} {s : σ} : Trace pass k s []
  | last {k : Nat} {s : σ} {p : Pass α σ} : pass k s = .ok p → p.stop = true →
      Trace pass k s [p]
  | cons {k : Nat} {s : σ} {p : Pass α σ} {ps : List (Pass α σ)} : pass k s = .ok p →
      p.stop = false → Trace pass (k + 1) p.state ps → Trace pass k s (p :: ps)

/-- The states that the passes start from, and the one behind them. -/
def states (s : σ) (ps : List (Pass α σ)) : List σ :=
  s :: ps.map Pass.state

variable {pass : Nat → σ → Checked α (Pass α σ)} {k i : Nat} {s : σ} {p : Pass α σ}
  {ps : List (Pass α σ)} {β : Type} {f : Event α → Option β}

theorem getElem?_states_succ (s : σ) (ps : List (Pass α σ)) (i : Nat) :
    (states s ps)[i + 1]? = ps[i]?.map Pass.state := by
  rw [states,List.getElem?_cons_succ,List.getElem?_map]

/-- The first pass of a run stops, or the run goes on behind it. -/
theorem iterate_succ_eq_ok {fuel : Nat} {r : Run α σ} :
    iterate pass (fuel + 1) k s = .ok r ↔ ∃ p, pass k s = .ok p ∧
      (p.stop = true ∧ r = ⟨p.state,k + 1,true,p.events⟩ ∨
        p.stop = false ∧ ∃ q, iterate pass fuel (k + 1) p.state = .ok q ∧
          r = { q with log := p.events ++ q.log }) := by
  rw [iterate,Checked.bind_eq_ok]
  refine exists_congr fun p => and_congr_right fun _ => ?_
  cases p.stop with
  | true => simpa using eq_comm
  | false =>
    simp only [Bool.false_eq_true,if_false,false_and,false_or,true_and,Checked.map_eq_ok]
    exact exists_congr fun q => and_congr_right fun _ => eq_comm

/-- What a run reports about its passes. -/
structure Run.Sums (fuel k : Nat) (s : σ) (ps : List (Pass α σ)) (r : Run α σ) : Prop where
  iterations : r.iterations = k + ps.length
  state : (states s ps)[ps.length]? = some r.state
  log : r.log = ps.flatMap Pass.events
  stopped : r.stopped = true ↔ ∃ p, ps.getLast? = some p ∧ p.stop = true
  length_le : ps.length ≤ fuel
  full : r.stopped = false → ps.length = fuel

theorem exists_trace {fuel : Nat} {r : Run α σ} (h : iterate pass fuel k s = .ok r) :
    ∃ ps, Trace pass k s ps ∧ r.Sums fuel k s ps := by
  induction fuel generalizing k s r with
  | zero =>
    cases h
    exact ⟨[],.nil,rfl,rfl,rfl,by simp,Nat.le_refl 0,fun _ => rfl⟩
  | succ fuel ih =>
    obtain ⟨p,hp,⟨hstop,rfl⟩ | ⟨hgo,q,hq,rfl⟩⟩ := iterate_succ_eq_ok.mp h
    · exact ⟨[p],.last hp hstop,rfl,rfl,by simp,by simp [hstop],by simp,by simp⟩
    · obtain ⟨ps,ht,hs⟩ := ih hq
      refine ⟨p :: ps,.cons hp hgo ht,?_,hs.state,by simp [hs.log],?_,
        Nat.succ_le_succ hs.length_le,fun hf => congrArg Nat.succ (hs.full hf)⟩
      · simp only [hs.iterations,List.length_cons]
        omega
      · rw [hs.stopped]
        cases ps with
        | nil => simp [hgo]
        | cons q qs => simp

/-- A run takes as many passes as it may unless one of them stops it. -/
theorem iterations_of_iterate {fuel : Nat} {r : Run α σ} (h : iterate pass fuel 0 s = .ok r) :
    (r.stopped = false → r.iterations = fuel) ∧
      (r.stopped = true → 1 ≤ r.iterations ∧ r.iterations ≤ fuel) := by
  obtain ⟨ps,_,hs⟩ := exists_trace h
  have hlen : r.iterations = ps.length := by rw [hs.iterations,Nat.zero_add]
  rw [hlen]
  refine ⟨hs.full,fun hstop => ⟨?_,hs.length_le⟩⟩
  obtain ⟨p,hp,_⟩ := hs.stopped.mp hstop
  exact List.length_pos_of_mem (List.mem_of_getLast? hp)

/-- A run returns if every pass does from what it may find. -/
theorem exists_iterate {I : Nat → σ → Prop} (hs : I k s)
    (total : ∀ j u, I j u → ∃ p, pass j u = .ok p)
    (keep : ∀ j u p, I j u → pass j u = .ok p → p.stop = false → I (j + 1) p.state)
    (fuel : Nat) : ∃ r, iterate pass fuel k s = .ok r := by
  induction fuel generalizing k s with
  | zero => exact ⟨_,rfl⟩
  | succ fuel ih =>
    obtain ⟨p,hp⟩ := total k s hs
    cases hstop : p.stop with
    | true => exact ⟨_,iterate_succ_eq_ok.mpr ⟨p,hp,.inl ⟨hstop,rfl⟩⟩⟩
    | false =>
      obtain ⟨q,hq⟩ := ih (keep k s p hs hp hstop)
      exact ⟨_,iterate_succ_eq_ok.mpr ⟨p,hp,.inr ⟨hstop,q,hq,rfl⟩⟩⟩

/-- At the start of each pass holds what the start of the run has and every pass that does not
stop hands on. -/
theorem Trace.at {I : Nat → σ → Prop} (h : Trace pass k s ps) (hs : I k s)
    (keep : ∀ j u p, I j u → pass j u = .ok p → p.stop = false → I (j + 1) p.state)
    (hi : ps[i]? = some p) :
    ∃ u, (states s ps)[i]? = some u ∧ I (k + i) u ∧ pass (k + i) u = .ok p ∧
      (p.stop = true → i + 1 = ps.length) := by
  induction h generalizing i with
  | nil => simp at hi
  | @last k s q h hstop =>
    cases i with
    | zero =>
      obtain rfl : q = p := by simpa using hi
      exact ⟨s,rfl,hs,h,fun _ => rfl⟩
    | succ i => simp at hi
  | @cons k s q qs h hgo _ ih =>
    cases i with
    | zero =>
      obtain rfl : q = p := by simpa using hi
      exact ⟨s,rfl,hs,h,by simp [hgo]⟩
    | succ i =>
      obtain ⟨u,hu,hI,hpass,hstop⟩ := ih (keep k s q hs h hgo) hi
      rw [Nat.add_assoc,Nat.add_comm 1] at hI hpass
      exact ⟨u,hu,hI,hpass,fun hp => congrArg (· + 1) (hstop hp)⟩

/-- What the start of a run has and every pass hands on holds of the states by their numbers. -/
theorem Trace.of_getElem? {I : Nat → σ → Prop} {u : σ} (h : Trace pass k s ps) (hs : I k s)
    (keep : ∀ j u p, I j u → pass j u = .ok p → I (j + 1) p.state)
    (hu : (states s ps)[i]? = some u) : I (k + i) u := by
  cases i with
  | zero => exact Option.some.inj hu ▸ hs
  | succ i =>
    rw [getElem?_states_succ] at hu
    obtain ⟨p,hp,rfl⟩ := Option.map_eq_some_iff.mp hu
    obtain ⟨v,_,hI,hpass,_⟩ := h.at hs (fun j u p hI hp _ => keep j u p hI hp) hp
    exact keep (k + i) v p hI hpass

/-- What every pass keeps holds of all states of a run. -/
theorem Trace.forall_states {I : σ → Prop} (h : Trace pass k s ps) (hs : I s)
    (keep : ∀ j u p, I u → pass j u = .ok p → I p.state) : ∀ u ∈ states s ps, I u := by
  intro u hu
  obtain ⟨i,hi⟩ := List.getElem?_of_mem hu
  exact h.of_getElem? (I := fun _ => I) hs keep hi

theorem Trace.exists_pass (h : Trace pass k s ps) (hi : ps[i]? = some p) :
    ∃ u, pass (k + i) u = .ok p := by
  obtain ⟨u,_,_,hpass,_⟩ := h.at (I := fun _ _ => True) trivial (fun _ _ _ _ _ _ => trivial) hi
  exact ⟨u,hpass⟩

section
variable {π : Type} {I : σ → π → Prop} {R : π → π → Prop} {v : π}

/-- A sequence of views, one for each state, of which each leads to the next. -/
structure Views (I : σ → π → Prop) (R : π → π → Prop) (s : σ) (ps : List (Pass α σ))
    (f : Nat → π) : Prop where
  state : ∀ i u, (states s ps)[i]? = some u → I u (f i)
  next : ∀ i, i < ps.length → R (f i) (f (i + 1))

theorem Views.cons {f : Nat → π} (h : Views I R p.state ps f) (hv : I s v) (hR : R v (f 0)) :
    Views I R s (p :: ps) fun i => Nat.casesOn i v f := by
  refine ⟨fun i u hu => ?_,fun i hi => ?_⟩
  · cases i with
    | zero => exact Option.some.inj hu ▸ hv
    | succ i => exact h.state i u hu
  · cases i with
    | zero => exact hR
    | succ i => exact h.next i (Nat.lt_of_succ_lt_succ hi)

/-- Where every pass leads from a view of its state to one of the next, a run has views of all. -/
theorem Trace.exists_views (h : Trace pass k s ps) (hv : I s v)
    (step : ∀ j u q w, I u w → pass j u = .ok q → ∃ w', I q.state w' ∧ R w w') :
    ∃ f, f 0 = v ∧ Views I R s ps f := by
  have hnil (s : σ) (v : π) (hv : I s v) : Views I R s ([] : List (Pass α σ)) fun _ => v := by
    refine ⟨fun i u hu => ?_,nofun⟩
    obtain ⟨hi,rfl⟩ := List.getElem?_eq_some_iff.mp hu
    obtain rfl : i = 0 := Nat.lt_one_iff.mp hi
    exact hv
  induction h generalizing v with
  | nil => exact ⟨_,rfl,hnil _ v hv⟩
  | last h =>
    obtain ⟨w,hw,hR⟩ := step _ _ _ v hv h
    exact ⟨_,rfl,(hnil _ w hw).cons hv hR⟩
  | cons h _ _ ih =>
    obtain ⟨w,hw,hR⟩ := step _ _ _ v hv h
    obtain ⟨f,rfl,hf⟩ := ih hw
    exact ⟨_,rfl,hf.cons hv hR⟩

end

theorem exists_stop {fuel : Nat} {r : Run α σ} (h : iterate pass fuel k s = .ok r)
    (hr : r.stopped = true) : ∃ j u p, pass j u = .ok p ∧ p.stop = true := by
  obtain ⟨ps,htrace,hs⟩ := exists_trace h
  obtain ⟨p,hp,hstop⟩ := hs.stopped.mp hr
  obtain ⟨i,hi⟩ := List.getElem?_of_mem (List.mem_of_getLast? hp)
  obtain ⟨u,hpass⟩ := htrace.exists_pass hi
  exact ⟨_,u,p,hpass,hstop⟩

/-- Where each pass tells one thing of a kind, the log tells them in order. -/
theorem getElem?_told (h : ∀ p ∈ ps, ∃ b, p.events.filterMap f = [b]) (i : Nat) :
    ((ps.flatMap Pass.events).filterMap f)[i]? =
      ps[i]?.bind fun p => (p.events.filterMap f).head? := by
  induction ps generalizing i with
  | nil => simp
  | cons p ps ih =>
    obtain ⟨b,hb⟩ := h p List.mem_cons_self
    rw [List.flatMap_cons,List.filterMap_append,hb]
    cases i with
    | zero =>
      change some b = (p.events.filterMap f).head?
      rw [hb,List.head?_cons]
    | succ i => exact ih (fun q hq => h q (List.mem_cons_of_mem p hq)) i

theorem length_told (h : ∀ p ∈ ps, ∃ b, p.events.filterMap f = [b]) :
    ((ps.flatMap Pass.events).filterMap f).length = ps.length := by
  induction ps with
  | nil => rfl
  | cons p ps ih =>
    obtain ⟨b,hb⟩ := h p List.mem_cons_self
    rw [List.flatMap_cons,List.filterMap_append,hb,List.length_append,
      ih fun q hq => h q (List.mem_cons_of_mem p hq),List.length_cons,Nat.add_comm]
    rfl

theorem Run.status_report (r : Run α σ) :
    r.report.status = .converged ∨ r.report.status = .maxIterReached := by
  rw [report]
  cases r.stopped
  · exact .inr rfl
  · exact .inl rfl

theorem Run.ran_report (r : Run α σ) : r.report.ran = true := by
  rw [report]
  cases r.stopped <;> rfl

/-- A run that stopped is reported as converged, and every other one as capped. -/
theorem exists_solution_iff {run : Checked α (Run α σ)} {image : Run α σ → List α} {n : Nat}
    {y : List α} (stopped : Bool) :
    (∃ log, run.map (fun r => (⟨r.report,image r,r.log⟩ : Solution α)) =
        .ok ⟨⟨if stopped then .converged else .maxIterReached,n⟩,y,log⟩) ↔
      ∃ r, run = .ok r ∧ r.stopped = stopped ∧ r.iterations = n ∧ image r = y := by
  constructor
  · rintro ⟨log,h⟩
    obtain ⟨r,hr,h⟩ := Checked.map_eq_ok.mp h
    simp only [Solution.mk.injEq,Run.report,Report.mk.injEq] at h
    obtain ⟨⟨hstatus,hn⟩,hy,-⟩ := h
    refine ⟨r,hr,?_,hn,hy⟩
    cases hs : r.stopped <;> cases stopped <;> simp [hs] at hstatus ⊢
  · rintro ⟨r,hr,rfl,rfl,rfl⟩
    exact ⟨r.log,Checked.map_eq_ok.mpr ⟨r,hr,rfl⟩⟩

def Pass.mapState {τ : Type} (f : σ → τ) (p : Pass α σ) : Pass α τ :=
  ⟨f p.state,p.stop,p.events⟩

def Run.mapState {τ : Type} (f : σ → τ) (r : Run α σ) : Run α τ :=
  ⟨f r.state,r.iterations,r.stopped,r.log⟩

/-- What a pass does to a state that satisfies `I`, another does to its view by `f`. -/
structure Simulated {τ : Type} (pass : Nat → σ → Checked α (Pass α σ))
    (image : Nat → τ → Checked α (Pass α τ)) (f : σ → τ) (I : σ → Prop) : Prop where
  pass_eq : ∀ j u, I u → image j (f u) = (pass j u).map (Pass.mapState f)
  keep : ∀ j u q, I u → pass j u = .ok q → I q.state

namespace Simulated
variable {τ : Type} {image : Nat → τ → Checked α (Pass α τ)} {g : σ → τ} {I : σ → Prop}

theorem iterate_eq (h : Simulated pass image g I) (hs : I s) (fuel : Nat) :
    iterate image fuel k (g s) = (iterate pass fuel k s).map (Run.mapState g) := by
  induction fuel generalizing k s with
  | zero => rfl
  | succ fuel ih =>
    rw [iterate,iterate,h.pass_eq k s hs]
    cases hp : pass k s with
    | error d => rfl
    | ok p =>
      change (if p.stop then _ else (iterate image fuel (k + 1) (g p.state)).map _) =
        Except.map _ (if p.stop then _ else (iterate pass fuel (k + 1) p.state).map _)
      rw [ih (h.keep k s p hs hp)]
      cases p.stop with
      | true => rfl
      | false => cases iterate pass fuel (k + 1) p.state <;> rfl

theorem trace (h : Simulated pass image g I) (hs : I s) (ht : Trace pass k s ps) :
    Trace image k (g s) (ps.map (Pass.mapState g)) := by
  have hpass {k : Nat} {s : σ} {p : Pass α σ} (hs : I s) (hp : pass k s = .ok p) :
      image k (g s) = .ok (p.mapState g) := by
    rw [h.pass_eq k s hs,hp]
    rfl
  induction ht with
  | nil => exact .nil
  | last hp hstop => exact .last (hpass hs hp) hstop
  | cons hp hgo _ ih => exact .cons (hpass hs hp) hgo (ih (h.keep _ _ _ hs hp))

theorem of_mem_states (h : Simulated pass image g I) (hs : I s) (ht : Trace pass k s ps) :
    ∀ u ∈ states s ps, I u :=
  ht.forall_states hs h.keep

end Simulated

/-- Passes that agree on the states of a run make the same run. -/
theorem iterate_congr {image : Nat → σ → Checked α (Pass α σ)} {I : σ → Prop}
    (heq : ∀ j u, I u → image j u = pass j u)
    (keep : ∀ j u q, I u → pass j u = .ok q → I q.state) (hs : I s) (fuel : Nat) :
    iterate image fuel k s = iterate pass fuel k s := by
  have h : Simulated pass image id I :=
    ⟨fun j u hu => by rw [id,heq j u hu]; cases pass j u <;> rfl,keep⟩
  refine (h.iterate_eq hs fuel).trans ?_
  cases iterate pass fuel k s <;> rfl

/-- What the passes do, said by their numbers alone: `I k` is what pass `k` may start from,
`Ends k v` says that it stops and shows `v`, and `Goes k` that the run goes on behind it. -/
structure Numbered (pass : Nat → σ → Checked α (Pass α σ)) (shown : σ → β) (I : Nat → σ → Prop)
    (Ends : Nat → β → Prop) (Goes : Nat → Prop) : Prop where
  ends_iff : ∀ k s v, I k s →
    ((∃ p, pass k s = .ok p ∧ p.stop = true ∧ shown p.state = v) ↔ Ends k v)
  goes_iff : ∀ k s, I k s → ((∃ p, pass k s = .ok p ∧ p.stop = false) ↔ Goes k)
  keep : ∀ k s p, I k s → pass k s = .ok p → p.stop = false → I (k + 1) p.state

namespace Numbered
variable {I : Nat → σ → Prop} {Ends : Nat → β → Prop} {Goes : Nat → Prop} {shown : σ → β}
  {fuel n : Nat} {v : β}

/-- A run stops at the first pass that does, if all before it go on. -/
theorem stopped_iff (h : Numbered pass shown I Ends Goes) (hs : I k s) :
    (∃ r, iterate pass fuel k s = .ok r ∧ r.stopped = true ∧ r.iterations = n ∧
        shown r.state = v) ↔
      k < n ∧ n ≤ k + fuel ∧ (∀ j, k ≤ j → j + 1 < n → Goes j) ∧ Ends (n - 1) v := by
  induction fuel generalizing k s with
  | zero =>
    constructor
    · rintro ⟨r,hr,hstop,-⟩
      cases hr
      cases hstop
    · rintro ⟨hlt,hle,-⟩
      omega
  | succ fuel ih =>
    constructor
    · rintro ⟨r,hr,hstop,hn,hv⟩
      obtain ⟨p,hp,⟨hlast,rfl⟩ | ⟨hgo,q,hq,rfl⟩⟩ := iterate_succ_eq_ok.mp hr
      · obtain rfl : k + 1 = n := hn
        exact ⟨Nat.lt_succ_self k,by omega,fun j hj hlt => by omega,
          (h.ends_iff k s v hs).mp ⟨p,hp,hlast,hv⟩⟩
      · obtain ⟨hlt,hle,hgoes,hend⟩ := (ih (h.keep k s p hs hp hgo)).mp ⟨q,hq,hstop,hn,hv⟩
        refine ⟨by omega,by omega,fun j hj hlt => ?_,hend⟩
        rcases Nat.eq_or_lt_of_le hj with rfl | hj
        · exact (h.goes_iff k s hs).mp ⟨p,hp,hgo⟩
        · exact hgoes j hj hlt
    · rintro ⟨hlt,hle,hgoes,hend⟩
      rcases Nat.eq_or_lt_of_le hlt with rfl | hlt
      · obtain ⟨p,hp,hlast,hv⟩ := (h.ends_iff k s v hs).mpr hend
        exact ⟨_,iterate_succ_eq_ok.mpr ⟨p,hp,.inl ⟨hlast,rfl⟩⟩,rfl,rfl,hv⟩
      · obtain ⟨p,hp,hgo⟩ := (h.goes_iff k s hs).mpr (hgoes k (Nat.le_refl k) hlt)
        obtain ⟨q,hq,hstop,hn,hv⟩ := (ih (h.keep k s p hs hp hgo)).mpr
          ⟨hlt,by omega,fun j hj => hgoes j (Nat.le_of_succ_le hj),hend⟩
        exact ⟨_,iterate_succ_eq_ok.mpr ⟨p,hp,.inr ⟨hgo,q,hq,rfl⟩⟩,hstop,hn,hv⟩

/-- A run reaches its cap if all of its passes go on. -/
theorem capped_iff (h : Numbered pass shown I Ends Goes) (hs : I k s) {left : σ → β}
    {Left : Prop} (hleft : ∀ u, I (k + fuel) u → (left u = v ↔ Left)) :
    (∃ r, iterate pass fuel k s = .ok r ∧ r.stopped = false ∧ r.iterations = n ∧
        left r.state = v) ↔
      n = k + fuel ∧ (∀ j, k ≤ j → j < k + fuel → Goes j) ∧ Left := by
  induction fuel generalizing k s with
  | zero =>
    constructor
    · rintro ⟨r,hr,-,hn,hv⟩
      cases hr
      exact ⟨hn.symm,fun j hj hlt => by omega,(hleft s hs).mp hv⟩
    · rintro ⟨hn,-,hv⟩
      exact ⟨_,rfl,rfl,hn.symm,(hleft s hs).mpr hv⟩
  | succ fuel ih =>
    have hcount : k + (fuel + 1) = k + 1 + fuel := by omega
    rw [hcount] at hleft ⊢
    constructor
    · rintro ⟨r,hr,hstop,hn,hv⟩
      obtain ⟨p,hp,⟨_,rfl⟩ | ⟨hgo,q,hq,rfl⟩⟩ := iterate_succ_eq_ok.mp hr
      · cases hstop
      · obtain ⟨hn,hgoes,hv⟩ := (ih (h.keep k s p hs hp hgo) hleft).mp ⟨q,hq,hstop,hn,hv⟩
        refine ⟨hn,fun j hj hlt => ?_,hv⟩
        rcases Nat.eq_or_lt_of_le hj with rfl | hj
        · exact (h.goes_iff k s hs).mp ⟨p,hp,hgo⟩
        · exact hgoes j hj hlt
    · rintro ⟨hn,hgoes,hv⟩
      obtain ⟨p,hp,hgo⟩ := (h.goes_iff k s hs).mpr (hgoes k (Nat.le_refl k) (by omega))
      obtain ⟨q,hq,hstop,hn,hv⟩ := (ih (h.keep k s p hs hp hgo) hleft).mpr
        ⟨hn,fun j hj => hgoes j (Nat.le_of_succ_le hj),hv⟩
      exact ⟨_,iterate_succ_eq_ok.mpr ⟨p,hp,.inr ⟨hgo,q,hq,rfl⟩⟩,hstop,hn,hv⟩

end Numbered

end LinearInverse
