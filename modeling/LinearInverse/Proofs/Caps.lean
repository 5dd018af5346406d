import LinearInverse.Proofs.Admm.Monotone
import LinearInverse.Proofs.ConjugateGradient.Stopping
import LinearInverse.Proofs.Reports

namespace LinearInverse
variable {α β γ σ : Type} {m m' : Nat}

/-- What a run with the cap `m` has to do with that with a larger cap `m'`. -/
structure CutOff (run : Nat → Checked α β) (report : β → Report) (Begins : β → β → Prop)
    (m m' : Nat) : Prop where
  converged : ∀ r, run m = .ok r → (report r).status = .converged → run m' = .ok r
  capped : ∀ t, run m' = .ok t → (report t).status = .maxIterReached →
    ∃ r, run m = .ok r ∧ report r = ⟨.maxIterReached,m⟩ ∧ Begins r t

/-- A computation before the run does not look at the cap. -/
theorem CutOff.bind {x : Checked α γ} {run : γ → Nat → Checked α β} {report : β → Report}
    {Begins : β → β → Prop} (h : ∀ a, CutOff (run a) report Begins m m') :
    CutOff (fun n => x >>= fun a => run a n) report Begins m m' := by
  cases x with
  | error d => exact ⟨nofun,nofun⟩
  | ok a => exact h a

section
variable {pass : Nat → σ → Checked α (Pass α σ)} {k n : Nat} {s : σ} {r t : Run α σ}
  {f : Event α → Option γ}

/-- The first `m` passes come before the rest, if none of them stops. -/
theorem iterate_add (m n k : Nat) (s : σ) :
    iterate pass (m + n) k s = iterate pass m k s >>= fun r =>
      if r.stopped then .ok r
      else (iterate pass n (k + m) r.state).map fun q => { q with log := r.log ++ q.log } := by
  induction m generalizing k s with
  | zero =>
    rw [Nat.zero_add]
    change _ = (iterate pass n k s).map _
    cases iterate pass n k s <;> rfl
  | succ m ih =>
    have hcount : k + (m + 1) = k + 1 + m := by omega
    rw [Nat.succ_add,iterate,iterate,bind_assoc,hcount]
    refine Checked.bind_congr fun p _ => ?_
    cases p.stop with
    | true => rfl
    | false =>
      change (iterate pass (m + n) (k + 1) p.state).map _ =
        (iterate pass m (k + 1) p.state).map _ >>= _
      rw [ih,Checked.map_bind,Checked.bind_map]
      refine Checked.bind_congr fun r _ => ?_
      obtain ⟨u,j,stopped,log⟩ := r
      cases stopped with
      | true => rfl
      | false => simp [Checked.map_map,List.append_assoc]

/-- Every pass tells one thing of a kind. -/
def TellsOne (pass : Nat → σ → Checked α (Pass α σ)) (f : Event α → Option γ) : Prop :=
  ∀ k s p, pass k s = .ok p → ∃ b, p.events.filterMap f = [b]

theorem Tells.tellsOne {Shows : Progress α → Pass α σ → Prop} (h : Tells pass Shows) :
    TellsOne pass Event.progress? := by
  intro k s p hp
  obtain ⟨c,hc,_⟩ := h k s p hp
  exact ⟨c,hc⟩

/-- A run that has reached its cap has told one thing of the kind in each pass. -/
theorem TellsOne.length_eq (h : TellsOne pass f) (hr : iterate pass m k s = .ok r)
    (hgo : r.stopped = false) : (r.log.filterMap f).length = m := by
  obtain ⟨ps,htrace,hs⟩ := exists_trace hr
  rw [hs.log,length_told fun p hp => ?_,hs.full hgo]
  obtain ⟨i,hi⟩ := List.getElem?_of_mem hp
  obtain ⟨u,hpass⟩ := htrace.exists_pass hi
  exact h _ _ _ hpass

theorem TellsOne.take_eq (h : TellsOne pass f) (hr : iterate pass m k s = .ok r)
    (hgo : r.stopped = false) (hlog : r.log <+: t.log) :
    r.log.filterMap f = (t.log.filterMap f).take m := by
  obtain ⟨rest,hrest⟩ := hlog
  rw [← hrest,List.filterMap_append,← h.length_eq hr hgo,List.take_left]

/-- A loop is cut off by its cap. -/
theorem cutOff_iterate (hm : m ≤ m') {out : Run α σ → β} {report : β → Report}
    {Begins : β → β → Prop} (hreport : ∀ r, report (out r) = r.report)
    (hbegins : ∀ r t, iterate pass m 0 s = .ok r → r.stopped = false → r.log <+: t.log →
      Begins (out r) (out t)) :
    CutOff (fun n => (iterate pass n 0 s).map out) report Begins m m' := by
  obtain ⟨n,rfl⟩ := Nat.exists_eq_add_of_le hm
  have hstatus (r : Run α σ) :
      r.report.status = if r.stopped then .converged else .maxIterReached := rfl
  constructor
  · intro y hy hconv
    obtain ⟨r,hr,rfl⟩ := Checked.map_eq_ok.mp hy
    rw [hreport,hstatus] at hconv
    have hstop : r.stopped = true := by
      by_contra hgo
      rw [if_neg hgo] at hconv
      cases hconv
    refine Checked.map_eq_ok.mpr ⟨r,?_,rfl⟩
    rw [iterate_add,hr]
    exact if_pos hstop
  · intro y hy hcap
    obtain ⟨t,ht,rfl⟩ := Checked.map_eq_ok.mp hy
    rw [iterate_add] at ht
    obtain ⟨r,hr,ht⟩ := Checked.bind_eq_ok.mp ht
    cases hstop : r.stopped with
    | true =>
      rw [hstop] at ht
      cases ht
      rw [hreport,hstatus,hstop] at hcap
      cases hcap
    | false =>
      rw [hstop] at ht
      obtain ⟨q,_,rfl⟩ := Checked.map_eq_ok.mp ht
      refine ⟨out r,Checked.map_eq_ok.mpr ⟨r,hr,rfl⟩,?_,hbegins r _ hr hstop ⟨_,rfl⟩⟩
      rw [hreport,Run.report,hstop,(iterations_of_iterate hr).1 hstop]
      rfl

end

/-- The reports to the monitor are the first `m` of those of the longer run. -/
def Solution.Begins (m : Nat) (s t : Solution α) : Prop :=
  calls s.log = (calls t.log).take m

/-- A loop that answers with a solution, unless it is refused before it starts. -/
theorem cutOff_refusable {pass : Nat → σ → Checked α (Pass α σ)} {s : σ} {refused : Prop}
    [Decidable refused] {d : Defect α} {run : Nat → Checked α (Solution α)}
    {image : Run α σ → List α} {Shows : Progress α → Pass α σ → Prop} (hm : m ≤ m')
    (ht : Tells pass Shows)
    (hrun : ∀ n, run n = if refused then .error d else (iterate pass n 0 s).map fun r =>
      ⟨r.report,image r,r.log⟩) :
    CutOff run Solution.report (Solution.Begins m) m m' := by
  rw [funext hrun]
  split
  · exact ⟨nofun,nofun⟩
  · exact cutOff_iterate hm (fun _ => rfl) fun _ _ hr hgo hlog => ht.tellsOne.take_eq hr hgo hlog

namespace ConjugateGradient
variable [Scalar α] {A : Operator α} {target w epsilon : α} {s t u : State α} {status : Status}
  {x b y : List α} {k fuel : Nat}

/-- The image after `k` steps. -/
def imageAfter (A : Operator α) (x b : List α) (k : Nat) : Checked α (List α) :=
  (start A x b >>= steps A k).map State.x

theorem Starts.imageAfter_eq (h : Starts A w epsilon x b s)
    (hk : steps (A.shifted w) k s = .ok t) : imageAfter (A.shifted w) x b k = .ok t.x := by
  rw [imageAfter,h.start_eq]
  exact Checked.map_eq_ok.mpr ⟨t,hk,rfl⟩

theorem cutOff_solve (hm : m ≤ m') (w epsilon : α) (A : Operator α) (x b : List α) :
    CutOff (fun n => solve n w epsilon A x b) Prod.fst
      (fun r t => imageAfter (A.shifted w) x b m = .ok r.2 ∧
        imageAfter (A.shifted w) x b m' = .ok t.2) m m' := by
  constructor
  · rintro ⟨r,y⟩ hr hconv
    obtain ⟨_,h⟩ | ⟨s,hs⟩ := solve_cases hr
    · exact h m'
    · obtain ⟨t,hk,hy,hmiss,hend⟩ := hs.solve_eq_ok_iff.mp hr
      obtain ⟨_,hlt,hmeets⟩ := hend.resolve_right fun h => by rw [h.1] at hconv; cases hconv
      exact hs.solve_eq_ok_iff.mpr ⟨t,hk,hy,hmiss,.inl ⟨hconv,by omega,hmeets⟩⟩
  · rintro ⟨r,y⟩ hr hcap
    obtain ⟨rfl,_⟩ | ⟨s,hs⟩ := solve_cases hr
    · cases hcap
    · obtain ⟨t,hk,rfl,hmiss,hend⟩ := hs.solve_eq_ok_iff.mp hr
      obtain ⟨_,hfull⟩ := hend.resolve_left fun h => by rw [h.1] at hcap; cases hcap
      rw [hfull] at hk hmiss
      have hsplit := hk
      rw [← Nat.add_sub_of_le hm,steps_add] at hsplit
      obtain ⟨u,hu,_⟩ := Checked.bind_eq_ok.mp hsplit
      refine ⟨(⟨.maxIterReached,m⟩,u.x),hs.solve_eq_ok_iff.mpr ⟨u,hu,rfl,?_,.inr ⟨rfl,rfl⟩⟩,rfl,
        hs.imageAfter_eq hu,hs.imageAfter_eq hk⟩
      exact fun j v hj => hmiss j v (Nat.lt_of_lt_of_le hj hm)

/-- A cap of just the steps that a run takes to converge leaves no step to notice it. -/
theorem solve_at_cap (hk : 1 ≤ k) (h : solve fuel w epsilon A x b = .ok (⟨.converged,k⟩,y)) :
    solve k w epsilon A x b = .ok (⟨.maxIterReached,k⟩,y) := by
  obtain ⟨h,_⟩ | ⟨s,hs⟩ := solve_cases h
  · cases h
    cases hk
  · obtain ⟨t,hk,hy,hmiss,_⟩ := hs.solve_eq_ok_iff.mp h
    exact hs.solve_eq_ok_iff.mpr ⟨t,hk,hy,hmiss,.inr ⟨rfl,rfl⟩⟩

end ConjugateGradient

namespace Admm
variable [Scalar α]

def Plan.capped (p : Plan α) (n : Nat) : Plan α :=
  { p with settings := { p.settings with maxIter := n } }

theorem tellsOne_balance {p : Plan α} {op : Option (Operator α)} {b : Option (List α)}
    {monitor : Monitor α} : TellsOne (pass p op b monitor) balance? := by
  intro k s q hq
  obtain ⟨_,_,bal,hi⟩ := pass_eq_ok hq
  exact ⟨bal,hi.balances⟩

theorem cutOff_run (hm : m ≤ m') (p : Plan α) (op : Option (Operator α)) (image : List α)
    (b : Option (List α)) (monitor : Monitor α) :
    CutOff (fun n => run (p.capped n) op image b monitor) (fun o => o.solution.report)
      (fun o o' => o.solution.Begins m o'.solution ∧ o.history = o'.history.take m) m m' := by
  have hrun (n : Nat) : run (p.capped n) op image b monitor =
      if b.any fun b => b.length ≠ image.length then .error .systemLengths
      else
        checkDomains image.length p.terms >>= fun _ =>
          start p image >>= fun s => (iterate (pass p op b monitor) n 0 s).map fun r =>
            ⟨⟨r.report,r.state.image,r.log⟩,r.state.rho⟩ :=
    rfl
  simp only [hrun]
  split
  · exact ⟨nofun,nofun⟩
  · refine .bind fun _ => .bind fun s => cutOff_iterate hm (fun _ => rfl) fun r t hr hgo hlog => ?_
    exact ⟨tells.tellsOne.take_eq hr hgo hlog,tellsOne_balance.take_eq hr hgo hlog⟩

end Admm

theorem AlternatingProjections.cutOff_run [Scalar α] (hm : m ≤ m') (ps : List (ProxOperator α))
    (x : List α) (monitor : Monitor α) :
    CutOff (fun n => run n ps x monitor) Solution.report (Solution.Begins m) m m' :=
  cutOff_iterate hm (fun _ => rfl) fun _ _ hr hgo hlog => tells.tellsOne.take_eq hr hgo hlog

namespace Thresholding
variable [Scalar α] {t : Task α}

def Task.capped (t : Task α) (n : Nat) : Task α :=
  { t with params := { t.params with maxIter := n } }

/-- The weight is the one place where the cap enters an iteration. -/
theorem Task.weight_of_one (hpow : ∀ y : α, Scalar.pow 1 y = 1) (h : t.params.continuation = 1)
    (k : Nat) : t.weight k = 1 := by
  rw [weight,continuationScale,h,hpow]

theorem Task.weight_capped (hpow : ∀ y : α, Scalar.pow 1 y = 1) (h : t.params.continuation = 1)
    (n k : Nat) : (t.capped n).weight k = t.weight k :=
  (weight_of_one (t := t.capped n) hpow h k).trans (weight_of_one hpow h k).symm

theorem Plain.cutOff_run (hpow : ∀ y : α, Scalar.pow 1 y = 1) (h : t.params.continuation = 1)
    (hm : m ≤ m') (x : List α) :
    CutOff (fun n => run (t.capped n) x) Solution.report (Solution.Begins m) m m' := by
  have hpass (n : Nat) : pass (t.capped n) = pass t := by
    funext k s
    rw [pass,Task.weight_capped hpow h]
    rfl
  have hrun (n : Nat) : run (t.capped n) x =
      if x.length ≠ t.data.length then .error .systemLengths
      else (iterate (pass t) n 0 (start t x)).map fun r => ⟨r.report,r.state.image,r.log⟩ := by
    rw [run,hpass]
    rfl
  exact cutOff_refusable hm tells hrun

theorem Accelerated.cutOff_run (hpow : ∀ y : α, Scalar.pow 1 y = 1)
    (h : t.params.continuation = 1) (hm : m ≤ m') (x : List α) :
    CutOff (fun n => run (t.capped n) x) Solution.report (Solution.Begins m) m m' := by
  have hpass (n : Nat) : pass (t.capped n) = pass t := by
    funext k s
    rw [pass,Task.weight_capped hpow h]
    rfl
  have hrun (n : Nat) : run (t.capped n) x =
      if x.length ≠ t.data.length then .error .systemLengths
      else (iterate (pass t) n 0 (start t x)).map fun r =>
        ⟨r.report,if r.stopped then r.state.image else r.state.point,r.log⟩ := by
    rw [run,hpass]
    rfl
  exact cutOff_refusable hm tells hrun

end Thresholding

variable [Scalar α]

/-- A larger cap changes nothing about a run that converges, and one that reaches it goes on from
where those with smaller caps end. Thresholding weights that shrink do so in proportion to the cap,
so they have to stay one. A solve by conjugate gradient looks at the cap first, and so takes the
steps to convergence for none at a cap of just their number. -/
theorem runs_cut_off (hpow : ∀ y : α, Scalar.pow 1 y = 1) (hm : m ≤ m') :
    (∀ (w epsilon : α) (A : Operator α) (x b : List α),
      CutOff (fun n => ConjugateGradient.solve n w epsilon A x b) Prod.fst
          (fun r t => ConjugateGradient.imageAfter (A.shifted w) x b m = .ok r.2 ∧
            ConjugateGradient.imageAfter (A.shifted w) x b m' = .ok t.2) m m' ∧
        ∀ k y, 1 ≤ k → ConjugateGradient.solve m' w epsilon A x b = .ok (⟨.converged,k⟩,y) →
          ConjugateGradient.solve k w epsilon A x b = .ok (⟨.maxIterReached,k⟩,y)) ∧
      (∀ (p : Admm.Plan α) (op : Option (Operator α)) (image : List α) (b : Option (List α))
        (monitor : Monitor α),
        CutOff (fun n => Admm.run (p.capped n) op image b monitor) (fun o => o.solution.report)
          (fun o o' => o.solution.Begins m o'.solution ∧ o.history = o'.history.take m) m m') ∧
      (∀ (ps : List (ProxOperator α)) (x : List α) (monitor : Monitor α),
        CutOff (fun n => AlternatingProjections.run n ps x monitor) Solution.report
          (Solution.Begins m) m m') ∧
      ∀ (t : Thresholding.Task α) (x : List α), t.params.continuation = 1 →
        CutOff (fun n => Thresholding.Plain.run (t.capped n) x) Solution.report
            (Solution.Begins m) m m' ∧
          CutOff (fun n => Thresholding.Accelerated.run (t.capped n) x) Solution.report
            (Solution.Begins m) m m' :=
  ⟨fun w epsilon A x b => ⟨ConjugateGradient.cutOff_solve hm w epsilon A x b,
      fun _ _ hk h => ConjugateGradient.solve_at_cap hk h⟩,
    Admm.cutOff_run hm,AlternatingProjections.cutOff_run hm,
    fun _ x h => ⟨Thresholding.Plain.cutOff_run hpow h hm x,
      Thresholding.Accelerated.cutOff_run hpow h hm x⟩⟩

theorem runs_cut_off_plainPlan : ∃ o o' : Admm.Outcome ℝ,
    Admm.run (Admm.plainPlan.capped 3) (some .identity) [0,0] (some [2,0]) (.silent "admm") =
        .ok o' ∧
      o'.solution.report = ⟨.maxIterReached,3⟩ ∧
      Admm.run (Admm.plainPlan.capped 2) (some .identity) [0,0] (some [2,0]) (.silent "admm") =
        .ok o ∧
      o.solution.report = ⟨.maxIterReached,2⟩ ∧ o.history = o'.history.take 2 ∧
      o.history.length = 2 := by
  obtain ⟨o',ho'⟩ := Admm.exists_run_identity (p := Admm.plainPlan.capped 3) rfl rfl 2 0
  obtain ⟨s,ps,ht⟩ := Admm.exists_traced ho'
  obtain ⟨hcap,hlen⟩ := ht.capped_of_exact (List.cons_ne_nil _ _) rfl rfl
  have hcut := (runs_cut_off Real.one_rpow (Nat.le_succ 2)).2.1 Admm.plainPlan
    (some .identity) [0,0] (some [2,0]) (.silent "admm")
  obtain ⟨o,ho,hreport,_,hhistory⟩ := hcut.capped o' ho' hcap
  refine ⟨o,o',ho',?_,ho,hreport,hhistory,?_⟩
  · exact congrArg₂ Report.mk hcap (ht.iterations.trans hlen)
  · rw [hhistory,List.length_take,ht.length_history,hlen]
    rfl

end LinearInverse
