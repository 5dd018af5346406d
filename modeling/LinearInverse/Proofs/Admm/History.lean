import LinearInverse.Proofs.Admm.Passes
import LinearInverse.Proofs.Binary64.Arithmetic

namespace LinearInverse.Admm
variable {α : Type}

/-- The images of all iterations, in order. -/
def Outcome.images (o : Outcome α) : List (List α) :=
  o.solution.log.filterMap image?

variable [Scalar α]

/-- The factor on the penalty behind iteration `k`, counted from zero, as its residuals give it. -/
def penaltyFactor (a : AdmmSettings α) (k : Nat) (bal : Balance α) : α :=
  let f : α :=
    if a.dynamicRho then
      if a.mu * bal.dual < bal.primal then 1 * a.tau
      else if a.mu * bal.primal < bal.dual then 1 / a.tau
      else 1
    else 1
  if a.hogwild ∧ Schedule.Fires (k + 1) then f * ((2 : Nat) : α) else f

/-- The record of a run tells how it ended, and each penalty follows from the residuals before it
by `next a k bal`. -/
structure Outcome.Replays (o : Outcome α) (p : Plan α) (image : List α)
    (next : Nat → Balance α → α) : Prop where
  columns : ∀ column ∈ [Balance.primal,Balance.dual,Balance.primalBound,Balance.dualBound,
    Balance.rho], (o.history.map column).length = o.solution.report.iterations
  images : (image :: o.images)[o.solution.report.iterations]? = some o.solution.image
  /-- The last residuals are small, or without terms the last image update was. -/
  converged : o.solution.report.status = .converged →
    ∃ last, o.history.getLast? = some last ∧
      (last.primal < last.primalBound ∧ last.dual < last.dualBound ∨
        p.terms = [] ∧ ∃ x, (image :: o.images)[o.solution.report.iterations - 1]? = some x ∧
          Vec.dist o.solution.image x ≤
            last.dualBound + p.settings.relTol * Vec.norm o.solution.image)
  earlier : ∀ i bal, o.history[i]? = some bal →
    (o.solution.report.status = .converged → i + 1 < o.solution.report.iterations) →
      ¬(bal.primal < bal.primalBound ∧ bal.dual < bal.dualBound)
  capped : o.solution.report.status ≠ .converged →
    o.solution.report.status = .maxIterReached ∧
      o.solution.report.iterations = p.settings.maxIter
  rho_zero : ∀ bal, o.history[0]? = some bal → bal.rho = p.settings.rho
  rho_succ : ∀ i bal bal', o.history[i]? = some bal → o.history[i + 1]? = some bal' →
    bal'.rho = next i bal
  rho_last : ∀ last, o.history.getLast? = some last →
    o.rho = if o.solution.report.status = .converged then last.rho
      else next (o.solution.report.iterations - 1) last
  rho_nil : o.history = [] → o.rho = p.settings.rho

variable {p : Plan α} {op : Option (Operator α)} {b : Option (List α)} {monitor : Monitor α}
  {k i : Nat} {s u : State α} {q : Pass α (State α)} {ps : List (Pass α (State α))}
  {image x : List α} {ms : List (Moved α)} {bal : Balance α} {o : Outcome α}

/-- A schedule that has ticked once an iteration fires by number. -/
theorem Aligned.change_eq (h : Aligned p k s) (bal : Balance α) :
    change p.settings bal s.schedule = penaltyFactor p.settings k bal := by
  rw [change,penaltyFactor,h.schedule]
  cases hh : p.settings.hogwild with
  | true =>
    rw [if_pos rfl,Schedule.tickIf,if_pos rfl,Schedule.tick_after]
    simp only [decide_eq_true_eq,true_and]
    rfl
  | false =>
    simp only [Schedule.tickIf,Bool.false_eq_true,if_false,false_and]
    rfl

/-- The penalty behind an iteration that is not the last. -/
def nextRho (a : AdmmSettings α) (k : Nat) (bal : Balance α) : α :=
  if penaltyFactor a k bal == 1 then bal.rho else bal.rho * penaltyFactor a k bal

theorem Iterated.rho_eq (h : Iterated p op b s image ms bal q) (hs : Aligned p k s) :
    q.state.rho = if q.stop then bal.rho else nextRho p.settings k bal := by
  rw [h.state_eq,apply_ite State.rho,rho_following,hs.change_eq,nextRho,
    rho_of_balance h.balance_eq]

theorem Iterated.image_eq (h : Iterated p op b s image ms bal q) : q.state.image = image := by
  rw [h.state_eq,apply_ite State.image,image_following,ite_self]

theorem Balance.met_iff : Balance.met bal = true ↔
    bal.primal < bal.primalBound ∧ bal.dual < bal.dualBound := by
  rw [Balance.met,Bool.and_eq_true,decide_eq_true_iff,decide_eq_true_iff]

/-- Why an iteration is the last. -/
theorem Iterated.stops (h : Iterated p op b s image ms bal q) (hs : Aligned p k s)
    (hstop : q.stop = true) :
    bal.primal < bal.primalBound ∧ bal.dual < bal.dualBound ∨
      p.terms = [] ∧
        Vec.dist image s.image ≤ bal.dualBound + p.settings.relTol * Vec.norm image := by
  rw [h.stop_eq,Bool.or_eq_true,Balance.met_iff] at hstop
  refine hstop.imp_right fun hset => ?_
  rw [settled,Bool.and_eq_true,decide_eq_true_iff] at hset
  have hlen := length_update h.update_eq hs.splits
  rw [List.isEmpty_iff.mp hset.1] at hlen
  exact ⟨List.eq_nil_of_length_eq_zero hlen.symm,hset.2⟩

theorem Iterated.not_met (h : Iterated p op b s image ms bal q) (hgo : q.stop = false) :
    ¬(bal.primal < bal.primalBound ∧ bal.dual < bal.dualBound) := by
  rw [← Balance.met_iff]
  intro hmet
  rw [h.stop_eq,hmet] at hgo
  exact Bool.noConfusion hgo

/-- The passes that a run consists of. -/
structure Traced (p : Plan α) (op : Option (Operator α)) (b : Option (List α))
    (monitor : Monitor α) (image : List α) (o : Outcome α) (s : State α)
    (ps : List (Pass α (State α))) : Prop where
  start_eq : start p image = .ok s
  trace : Trace (pass p op b monitor) 0 s ps
  image_eq : s.image = image
  rho_eq : s.rho = p.settings.rho
  passes : ∀ i q, ps[i]? = some q → ∃ u x ms bal, (states s ps)[i]? = some u ∧ Aligned p i u ∧
    Iterated p op b u x ms bal q ∧ (q.stop = true → i + 1 = ps.length)
  iterations : o.solution.report.iterations = ps.length
  log : o.solution.log = ps.flatMap Pass.events
  final : ∃ t, (states s ps)[ps.length]? = some t ∧ o.solution.image = t.image ∧ o.rho = t.rho
  converged : o.solution.report.status = .converged ↔ ∃ q, ps.getLast? = some q ∧ q.stop = true
  capped : o.solution.report.status ≠ .converged →
    o.solution.report.status = .maxIterReached ∧ ps.length = p.settings.maxIter

theorem exists_traced (h : run p op image b monitor = .ok o) :
    ∃ s ps, Traced p op b monitor image o s ps := by
  obtain ⟨s,r,_,hs,hr,rfl⟩ := run_eq_ok h
  obtain ⟨hx,hrho⟩ := start_eq_ok hs
  obtain ⟨ps,htrace,hsums⟩ := exists_trace hr
  have hlen : r.iterations = ps.length := by rw [hsums.iterations,Nat.zero_add]
  refine ⟨s,ps,hs,htrace,hx,hrho,fun i q hq => ?_,hlen,hsums.log,⟨r.state,hsums.state,rfl,rfl⟩,
    ?_,?_⟩
  · obtain ⟨u,hu,ha,hpass,hlast⟩ := htrace.at (aligned_start hs)
      (fun j u q ha hq hgo => ha.next hq hgo) hq
    rw [Nat.zero_add] at ha
    obtain ⟨x,ms,bal,hi⟩ := pass_eq_ok hpass
    exact ⟨u,x,ms,bal,hu,ha,hi,hlast⟩
  · rw [← hsums.stopped]
    simp only [Run.report]
    cases r.stopped <;> simp
  · simp only [Run.report]
    cases hstop : r.stopped with
    | true => exact fun h => absurd rfl h
    | false => exact fun _ => ⟨rfl,hsums.full hstop⟩

namespace Traced

/-- Each pass tells one entry of the history. -/
theorem tells_balance (h : Traced p op b monitor image o s ps) :
    ∀ q ∈ ps, ∃ bal, q.events.filterMap balance? = [bal] := by
  intro q hq
  obtain ⟨i,hi⟩ := List.getElem?_of_mem hq
  obtain ⟨u,x,ms,bal,_,_,hit,_⟩ := h.passes i q hi
  exact ⟨bal,hit.balances⟩

theorem tells_image (h : Traced p op b monitor image o s ps) :
    ∀ q ∈ ps, q.events.filterMap image? = [q.state.image] := by
  intro q hq
  obtain ⟨i,hi⟩ := List.getElem?_of_mem hq
  obtain ⟨u,x,ms,bal,_,_,hit,_⟩ := h.passes i q hi
  rw [hit.images,hit.image_eq]

theorem history_eq (h : Traced p op b monitor image o s ps) :
    o.history = (ps.flatMap Pass.events).filterMap balance? := by
  rw [← h.log]
  rfl

theorem length_history (h : Traced p op b monitor image o s ps) : o.history.length = ps.length := by
  rw [h.history_eq,length_told h.tells_balance]

/-- The pass that an entry of the history comes from. -/
theorem exists_pass (h : Traced p op b monitor image o s ps) (hi : o.history[i]? = some bal) :
    ∃ u q x ms, ps[i]? = some q ∧ (states s ps)[i]? = some u ∧ Aligned p i u ∧
      Iterated p op b u x ms bal q ∧ (q.stop = true → i + 1 = ps.length) := by
  rw [h.history_eq,getElem?_told h.tells_balance] at hi
  obtain ⟨q,hq,hbal⟩ := Option.bind_eq_some_iff.mp hi
  obtain ⟨u,x,ms,bal',hu,ha,hit,hlast⟩ := h.passes i q hq
  rw [hit.balances] at hbal
  obtain rfl : bal' = bal := Option.some.inj hbal
  exact ⟨u,q,x,ms,hq,hu,ha,hit,hlast⟩

/-- The images before, between and behind the passes. -/
theorem images_eq (h : Traced p op b monitor image o s ps) (i : Nat) :
    (image :: o.images)[i]? = (states s ps)[i]?.map State.image := by
  cases i with
  | zero => exact congrArg some h.image_eq.symm
  | succ i =>
    rw [List.getElem?_cons_succ,getElem?_states_succ,Option.map_map,Outcome.images,h.log,
      getElem?_told fun q hq => ⟨_,h.tells_image q hq⟩]
    cases hi : ps[i]? with
    | none => rfl
    | some q =>
      change (q.events.filterMap image?).head? = some q.state.image
      rw [h.tells_image q (List.mem_of_getElem? hi),List.head?_cons]

theorem rho_state (h : Traced p op b monitor image o s ps) (hi : o.history[i]? = some bal)
    (hu : (states s ps)[i]? = some u) : bal.rho = u.rho := by
  obtain ⟨v,q,x,ms,_,hv,_,hit,_⟩ := h.exists_pass hi
  obtain rfl : v = u := Option.some.inj (hv.symm.trans hu)
  exact rho_of_balance hit.balance_eq

/-- A run that may iterate records something, at first the penalty of the plan. -/
theorem exists_first (h : Traced p op b monitor image o s ps) (hmax : 0 < p.settings.maxIter) :
    ∃ bal, o.history[0]? = some bal ∧ bal.rho = p.settings.rho := by
  have hps : 0 < o.history.length := by
    rw [h.length_history,List.length_pos_iff]
    rintro rfl
    by_cases hconv : o.solution.report.status = .converged
    · obtain ⟨q,hq,_⟩ := h.converged.mp hconv
      cases hq
    · have hlen := (h.capped hconv).2
      rw [List.length_nil] at hlen
      omega
  refine ⟨o.history[0],List.getElem?_eq_getElem hps,?_⟩
  rw [h.rho_state (List.getElem?_eq_getElem hps) (u := s) rfl,h.rho_eq]

/-- The entry of the last pass, which stopped if the run converged. -/
theorem exists_last (h : Traced p op b monitor image o s ps)
    (hlast : o.history.getLast? = some bal) :
    ∃ u q x ms, (states s ps)[ps.length - 1]? = some u ∧ Aligned p (ps.length - 1) u ∧
      Iterated p op b u x ms bal q ∧ o.solution.image = q.state.image ∧ o.rho = q.state.rho ∧
      (o.solution.report.status = .converged ↔ q.stop = true) := by
  rw [List.getLast?_eq_getElem?,h.length_history] at hlast
  obtain ⟨u,q,x,ms,hq,hu,ha,hit,_⟩ := h.exists_pass hlast
  obtain ⟨t,ht,himage,hrho⟩ := h.final
  have hlen : ps.length - 1 + 1 = ps.length := by
    have := (List.getElem?_eq_some_iff.mp hq).1
    omega
  rw [← hlen,getElem?_states_succ,hq] at ht
  obtain rfl : q.state = t := Option.some.inj ht
  refine ⟨u,q,x,ms,hu,ha,hit,himage,hrho,h.converged.trans ?_⟩
  rw [List.getLast?_eq_getElem?,hq]
  simp

/-- The last pass of a run that has converged stops at the image of the run. -/
theorem stop_of_last (h : Traced p op b monitor image o s ps) (hq : ps[i]? = some q)
    (hconv : o.solution.report.status = .converged)
    (hlast : i + 1 = o.solution.report.iterations) :
    q.stop = true ∧ o.solution.image = q.state.image := by
  obtain ⟨r,hr,hstop⟩ := h.converged.mp hconv
  obtain ⟨t,ht,himage,_⟩ := h.final
  rw [h.iterations] at hlast
  rw [List.getLast?_eq_getElem?,← hlast,Nat.add_sub_cancel,hq] at hr
  obtain rfl : q = r := Option.some.inj hr
  rw [← hlast,getElem?_states_succ,hq] at ht
  obtain rfl : q.state = t := Option.some.inj ht
  exact ⟨hstop,himage⟩

/-- A pass that stops is the last, and the run has converged. -/
theorem converged_of_stop (h : Traced p op b monitor image o s ps) (hq : ps[i]? = some q)
    (hlen : i + 1 = ps.length) (hstop : q.stop = true) :
    o.solution.report.status = .converged := by
  refine h.converged.mpr ⟨q,?_,hstop⟩
  rw [List.getLast?_eq_getElem?,← hlen,Nat.add_sub_cancel,hq]

theorem replays (h : Traced p op b monitor image o s ps) :
    o.Replays p image (nextRho p.settings) where
  columns column _ := by rw [List.length_map,h.length_history,h.iterations]
  images := by
    obtain ⟨t,ht,himage,_⟩ := h.final
    rw [h.images_eq,h.iterations,ht,himage]
    rfl
  converged hconv := by
    cases hlast : o.history.getLast? with
    | none =>
      obtain ⟨q,hq,_⟩ := h.converged.mp hconv
      have hlen := h.length_history
      rw [List.getLast?_eq_none_iff.mp hlast] at hlen
      rw [List.eq_nil_of_length_eq_zero hlen.symm] at hq
      cases hq
    | some last =>
      obtain ⟨u,q,x,ms,hu,ha,hit,himage,_,hstop⟩ := h.exists_last hlast
      refine ⟨last,rfl,(hit.stops ha (hstop.mp hconv)).imp_right fun ⟨hnil,hdist⟩ => ?_⟩
      refine ⟨hnil,u.image,?_,?_⟩
      · rw [h.images_eq,h.iterations,hu]
        rfl
      · rw [himage,hit.image_eq]
        exact hdist
  earlier i bal hi hbefore := by
    obtain ⟨u,q,x,ms,hq,_,_,hit,hlast⟩ := h.exists_pass hi
    refine hit.not_met (Bool.eq_false_iff.mpr fun hstop => ?_)
    have hlt := hbefore (h.converged_of_stop hq (hlast hstop) hstop)
    rw [h.iterations,← hlast hstop] at hlt
    exact Nat.lt_irrefl _ hlt
  capped hcap := by
    obtain ⟨hstatus,hlen⟩ := h.capped hcap
    exact ⟨hstatus,h.iterations.trans hlen⟩
  rho_zero bal hi := by
    rw [h.rho_state hi (u := s) rfl,h.rho_eq]
  rho_succ i bal bal' hi hi' := by
    obtain ⟨u,q,x,ms,hq,_,ha,hit,hlast⟩ := h.exists_pass hi
    have hgo : q.stop = false := Bool.eq_false_iff.mpr fun hstop => by
      have hlt := (List.getElem?_eq_some_iff.mp hi').1
      rw [h.length_history,← hlast hstop] at hlt
      exact Nat.lt_irrefl _ hlt
    have hstate : (states s ps)[i + 1]? = some q.state := by
      rw [getElem?_states_succ,hq]
      rfl
    rw [h.rho_state hi' hstate,hit.rho_eq ha,hgo,if_neg Bool.false_ne_true]
  rho_last last hlast := by
    obtain ⟨u,q,x,ms,_,ha,hit,_,hrho,hconv⟩ := h.exists_last hlast
    rw [hrho,hit.rho_eq ha,h.iterations]
    simp only [hconv]
  rho_nil hnil := by
    obtain ⟨t,ht,_,hrho⟩ := h.final
    have hlen := h.length_history
    rw [hnil] at hlen
    rw [← hlen] at ht
    obtain rfl : s = t := Option.some.inj ht
    rw [hrho,h.rho_eq]

end Traced

/-- A factor of one leaves a double as it is, so leaving the penalty alone is the same as
multiplying it. -/
theorem nextRho_eq (a : AdmmSettings Float) (k : Nat) (bal : Balance Float) :
    nextRho a k bal = bal.rho * penaltyFactor a k bal := by
  unfold nextRho
  split
  next h =>
    rw [Binary64.eq_one_of_beq h]
    exact (Binary64.mul_one bal.rho).symm
  next => rfl

/-- The record of a run on doubles: its columns have one entry for each iteration, only the last
one can be within its bounds, and the penalties are those that the residuals give. -/
theorem run_replays {p : Plan Float} {op : Option (Operator Float)} {b : Option (List Float)}
    {monitor : Monitor Float} {image : List Float} {o : Outcome Float}
    (h : run p op image b monitor = .ok o) :
    o.Replays p image fun k bal => bal.rho * penaltyFactor p.settings k bal := by
  obtain ⟨s,ps,ht⟩ := exists_traced h
  have hnext : nextRho p.settings = fun k bal => bal.rho * penaltyFactor p.settings k bal :=
    funext fun k => funext fun bal => nextRho_eq p.settings k bal
  rw [← hnext]
  exact ht.replays

/-- One term behind the identity, with every rule for the penalty in use. -/
def ridgePlan : Plan Float where
  settings :=
    { AdmmSettings.default with maxIter := 3, dynamicRho := true, hogwild := true, fast := true }
  terms := [⟨.identity [1],.ridge 1⟩]
  xUpdate := none

set_option maxRecDepth 100000 in
theorem run_ridgePlan : ∃ o,
    run ridgePlan (some .identity) [0,0] (some [1,0]) (.silent "admm") = .ok o ∧
      o.Replays ridgePlan [0,0] fun k bal =>
        bal.rho * penaltyFactor ridgePlan.settings k bal := by
  have hok : (run ridgePlan (some .identity) [0,0] (some [1,0]) (.silent "admm")).isOk = true := by
    decide +kernel
  cases h : run ridgePlan (some .identity) [0,0] (some [1,0]) (.silent "admm") with
  | ok o => exact ⟨o,rfl,run_replays h⟩
  | error d => rw [h] at hok; cases hok

end LinearInverse.Admm
