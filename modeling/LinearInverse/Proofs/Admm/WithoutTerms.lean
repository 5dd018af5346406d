import LinearInverse.Proofs.Admm.History
import LinearInverse.Proofs.Admm.Points
import LinearInverse.Proofs.ConjugateGradient.Termination

namespace LinearInverse

def Operator.zero {α : Type} [Scalar α] : Operator α :=
  square (fun x => .ok (x.map fun _ => 0)) fun x y h => by cases h; exact List.length_map _

theorem Operator.apply_zero {α : Type} [Scalar α] (x : List α) :
    zero.apply x = .ok (x.map fun _ => 0) := by
  rw [zero,apply_square]

namespace ConjugateGradient
variable {α : Type} [Scalar α] {A A' : Operator α}

/-- A solve applies its operator and does nothing else with it. -/
theorem solve_congr (h : ∀ x, A.apply x = A'.apply x) (maxIter : Nat) (w epsilon : α)
    (x b : List α) : solve maxIter w epsilon A x b = solve maxIter w epsilon A' x b := by
  have hshifted : A.shifted w = A'.shifted w := by
    simp only [Operator.shifted,h]
  rw [solve,solve,hshifted]

variable {n k : Nat} {s t : State ℝ}

theorem apply_zero_shifted (x : List ℝ) :
    ((Operator.zero : Operator ℝ).shifted 0).apply x = .ok (x.map fun _ => 0) := by
  rw [Operator.shifted,Operator.apply_square,Operator.apply_zero]
  simp [Except.map]

/-- There is no curvature along any direction, and a quotient by zero is zero. -/
theorem x_step_zero (hs : Sized n s)
    (ht : step ((Operator.zero : Operator ℝ).shifted 0) s = .ok t) : t.x = s.x := by
  obtain ⟨y,hy,rfl⟩ := Checked.map_eq_ok.mp ht
  obtain ⟨x,hx⟩ := exists_coords hs.x
  obtain ⟨p,hp⟩ := exists_coords hs.direction
  rw [apply_zero_shifted,← hp,map_coords] at hy
  obtain rfl : coords (0 : Space n) = y := Except.ok.inj hy
  change Vec.axpy s.x (s.square / Vec.dot s.direction _) s.direction = s.x
  rw [← hx,← hp,Vec.dot_coords,inner_zero_right,div_zero,Vec.axpy_coords,zero_smul,add_zero]

theorem x_steps_zero (hs : Sized n s)
    (ht : steps ((Operator.zero : Operator ℝ).shifted 0) k s = .ok t) : t.x = s.x := by
  induction k generalizing s with
  | zero => exact congrArg State.x (Except.ok.inj ht).symm
  | succ k ih =>
    obtain ⟨u,hu,ht⟩ := Checked.bind_eq_ok.mp ht
    rw [ih (hs.of_step hu) ht,x_step_zero hs hu]

theorem solve_zero (maxIter : Nat) (x b : Space n) : ∃ report,
    solve maxIter 0 0 .zero (coords x) (coords b) = .ok (report,coords x) := by
  obtain ⟨status,k,s,t,hsolve,hs,hk⟩ := exists_solve (length_coords x) (length_coords b)
    (fun v _ => ⟨_,apply_zero_shifted v⟩) maxIter 0
  rw [x_steps_zero (sized_start (length_coords x) (length_coords b) hs) hk] at hsolve
  obtain ⟨_,_,rfl⟩ := Checked.map_eq_ok.mp hs
  exact ⟨_,hsolve⟩

end ConjugateGradient

namespace Admm

/-- The inner solve by itself, from `x` on. An operator and data that are absent are zero. -/
def resolve {α : Type} [Scalar α] (maxIter : Nat) (op : Option (Operator α))
    (b : Option (List α)) (x : List α) : Checked α (List α) :=
  (ConjugateGradient.solve maxIter 0 0 (op.getD .zero) x (b.getD (x.map fun _ => 0))).map (·.2)

variable {n : Nat} {T : Fin 0 → LinearTerm n} {A : Space n →ₗ[ℝ] Space n} {c x y : Space n}
  {p : Plan ℝ} {op : Option (Operator ℝ)} {b : Option (List ℝ)} {monitor : Monitor ℝ}
  {s u : State ℝ} {f : Space n → Space n}

theorem Linear.terms_eq_nil (h : Linear T A c p op b) : p.terms = [] :=
  h.terms.trans List.ofFn_zero

theorem apply_getD_zero {α : Type} [Scalar α] (op : Option (Operator α)) (x : List α) :
    (op.getD .zero).apply x = applyNormal op x := by
  cases op with
  | none => exact Operator.apply_zero x
  | some A => rfl

theorem Linear.resolve_eq (h : Linear T A c p op b) (maxIter : Nat) (x : Space n) :
    resolve maxIter op b (coords x) =
      (ConjugateGradient.solve maxIter 0 0 (op.getD .zero) (coords x) (coords c)).map (·.2) := by
  have hzero : (coords x).map (fun _ => (0 : ℝ)) = coords (0 : Space n) := map_coords _ x
  rw [resolve,hzero,h.data]

/-- A plan without operator does not solve at all. -/
theorem Linear.updateImage_eq_resolve (h : Linear T A c p op b) (rho : ℝ) (x : Space n) :
    updateImage p op b rho (coords x) (coords (0 : Space n)) =
      resolve p.settings.maxIterInner op b (coords x) := by
  rw [h.resolve_eq]
  cases hop : op with
  | none =>
    obtain ⟨_,hsolve⟩ := ConjugateGradient.solve_zero p.settings.maxIterInner x c
    rw [Option.getD_none,hsolve,updateImage,h.xUpdate,h.terms_eq_nil]
    rfl
  | some B =>
    subst hop
    have happly (x : List ℝ) : (augmented (some B) rho p.terms).apply x = B.apply x := by
      rw [augmented,Operator.apply_square,h.terms_eq_nil]
      change (B.apply x >>= fun y => .ok y) = _
      cases B.apply x <;> rfl
    rw [h.updateImage_eq rfl,ConjugateGradient.solve_congr happly,smul_zero,add_zero]
    rfl

theorem Linear.exists_resolve (h : Linear T A c p op b) (maxIter : Nat) (x : Space n) :
    ∃ y : Space n, resolve maxIter op b (coords x) = .ok (coords y) := by
  have happly (x : Space n) : (op.getD .zero).apply (coords x) = .ok (coords (A x)) := by
    rw [apply_getD_zero,h.operator x]
  obtain ⟨_,y,hsolve⟩ := ConjugateGradient.exists_solve_coords happly maxIter x c
  exact ⟨y,by rw [h.resolve_eq,hsolve]; rfl⟩

/-- An iteration takes the image from `x` to `f x`, and there is nothing else to it. -/
def Moves (p : Plan ℝ) (op : Option (Operator ℝ)) (b : Option (List ℝ)) (f : Space n → Space n) :
    Prop :=
  ∀ s x, s.image = coords x → update p op b s = .ok (coords (f x),[])

theorem Linear.moves (h : Linear T A c p op b)
    (hf : ∀ x, resolve p.settings.maxIterInner op b (coords x) = .ok (coords (f x))) :
    Moves p op b f := by
  intro s x hx
  have hbegin : List.zipWith (begin p.settings.fast) p.terms s.splits = [] := by
    rw [h.terms_eq_nil]
    rfl
  rw [update,hbegin,hx,length_coords]
  change (updateImage p op b s.rho (coords x) (List.replicate n 0) >>= _) = _
  rw [replicate_eq_coords,h.updateImage_eq_resolve,hf]
  rfl

theorem balance_nil (a : AdmmSettings ℝ) (rho : ℝ) (n : Nat) :
    balance a rho n [] = .ok ⟨0,0,0,√n * a.absTol,rho⟩ := by
  have hnorm : Vec.norm (List.replicate n (0 : ℝ)) = 0 := by
    rw [replicate_eq_coords,Vec.norm_coords,norm_zero]
  change Except.ok (Balance.mk (α := ℝ) _ (rho * Vec.norm (List.replicate n 0)) _
    (_ + a.relTol * rho * Vec.norm (List.replicate n 0)) rho) = _
  rw [hnorm]
  simp [stackedDist,stackedNorm]

namespace Moves
variable {k : Nat} {image : List ℝ} {ms : List (Moved ℝ)} {bal : Balance ℝ}
  {q : Pass ℝ (State ℝ)} {o : Outcome ℝ}

theorem exists_pass (hf : Moves p op b f) (hs : s.image = coords x)
    (hm : ∀ t, monitor.truth = some t → t.length = n) (k : Nat) :
    ∃ q, pass p op b monitor k s = .ok q := by
  obtain ⟨e,he⟩ := monitor.exists_report (x := coords (f x))
    (fun t ht => (hm t ht).trans (length_coords _).symm) k (0 : ℝ)
  exact ⟨_,Checked.bind_eq_ok.mpr ⟨_,hf s x hs,Checked.bind_eq_ok.mpr ⟨_,balance_nil _ _ _,
    Checked.map_eq_ok.mpr ⟨e,he,rfl⟩⟩⟩⟩

/-- No primal residual is less than zero, so an iteration stops for a settled image only. -/
theorem iterated (hf : Moves p op b f) (hs : s.image = coords x)
    (hi : Iterated p op b s image ms bal q) :
    image = coords (f x) ∧ bal = ⟨0,0,0,√n * p.settings.absTol,s.rho⟩ ∧
      (q.stop = true ↔
        ‖f x - x‖ ≤ √n * p.settings.absTol + p.settings.relTol * ‖f x‖) := by
  cases Except.ok.inj (hi.update_eq.symm.trans (hf s x hs))
  have hbalance := hi.balance_eq
  rw [hs,length_coords,balance_nil] at hbalance
  obtain rfl := Except.ok.inj hbalance
  refine ⟨rfl,rfl,?_⟩
  rw [hi.stop_eq,Bool.or_eq_true,Balance.met_iff,hs,settled,Vec.dist,Vec.sub_coords,
    Vec.norm_coords,Vec.norm_coords]
  simp

end Moves

/-- The last of `k` applications of `f` moves the point by no more than the tolerances. -/
def Settles (absTol relTol : ℝ) (f : Space n → Space n) (x : Space n) (k : Nat) : Prop :=
  ‖f^[k] x - f^[k - 1] x‖ ≤ √n * absTol + relTol * ‖f^[k] x‖

open Classical in
/-- Counts the applications up to the first that settles, or all of them. -/
noncomputable def settledReport (maxIter : Nat) (absTol relTol : ℝ) (f : Space n → Space n)
    (x : Space n) : Report :=
  if h : ∃ k, 1 ≤ k ∧ k ≤ maxIter ∧ Settles absTol relTol f x k then ⟨.converged,Nat.find h⟩
  else ⟨.maxIterReached,maxIter⟩

theorem settledReport_converged {maxIter k : Nat} {absTol relTol : ℝ} (hk : 1 ≤ k)
    (hmax : k ≤ maxIter) (hsettles : Settles absTol relTol f x k)
    (hmoves : ∀ j, 1 ≤ j → j < k → ¬Settles absTol relTol f x j) :
    settledReport maxIter absTol relTol f x = ⟨.converged,k⟩ := by
  have hex : ∃ k, 1 ≤ k ∧ k ≤ maxIter ∧ Settles absTol relTol f x k := ⟨k,hk,hmax,hsettles⟩
  classical
  rw [settledReport,dif_pos hex]
  refine congrArg (Report.mk _) ((Nat.find_eq_iff hex).mpr ⟨⟨hk,hmax,hsettles⟩,?_⟩)
  rintro j hj ⟨hpos,_,hsettled⟩
  exact hmoves j hpos hj hsettled

theorem settledReport_capped {maxIter : Nat} {absTol relTol : ℝ}
    (hmoves : ∀ j, 1 ≤ j → j ≤ maxIter → ¬Settles absTol relTol f x j) :
    settledReport maxIter absTol relTol f x = ⟨.maxIterReached,maxIter⟩ := by
  refine dif_neg ?_
  rintro ⟨k,hk,hmax,hsettles⟩
  exact hmoves k hk hmax hsettles

/-- The residuals and the bounds on them. -/
def Balance.entries (bal : Balance ℝ) : ℝ × ℝ × ℝ × ℝ :=
  (bal.primal,bal.dual,bal.primalBound,bal.dualBound)

/-- The run applies `f` to the start over and over until that does not move the image any more, and
records nothing but the absolute tolerance. -/
structure Outcome.Restarts (o : Outcome ℝ) (maxIter : Nat) (absTol relTol : ℝ)
    (f : Space n → Space n) (x : Space n) : Prop where
  report : o.solution.report = settledReport maxIter absTol relTol f x
  image : o.solution.image = coords (f^[o.solution.report.iterations] x)
  images : o.images = (List.range o.solution.report.iterations).map fun k => coords (f^[k + 1] x)
  entries : o.history.map Balance.entries =
    List.replicate o.solution.report.iterations (0,0,0,√n * absTol)
  unmet : ∀ bal ∈ o.history, ¬bal.primal < bal.primalBound

theorem iterations_le {α : Type} [Scalar α] {p : Plan α} {op : Option (Operator α)}
    {image : List α} {b : Option (List α)} {monitor : Monitor α} {o : Outcome α}
    (h : run p op image b monitor = .ok o) : o.solution.report.iterations ≤ p.settings.maxIter := by
  obtain ⟨s,r,_,_,hr,rfl⟩ := run_eq_ok h
  obtain ⟨hfull,hstop⟩ := iterations_of_iterate hr
  cases hs : r.stopped with
  | true => exact (hstop hs).2
  | false => exact (hfull hs).le

namespace Moves
variable {o : Outcome ℝ} {ps : List (Pass ℝ (State ℝ))} {i : Nat} {q : Pass ℝ (State ℝ)}
  {bal : Balance ℝ}

theorem image_state (hf : Moves p op b f) (ht : Traced p op b monitor (coords x) o s ps)
    (hu : (states s ps)[i]? = some u) : u.image = coords (f^[i] x) := by
  have hindex := ht.trace.of_getElem? (I := fun i u => u.image = coords (f^[i] x)) ht.image_eq
    (fun j v q hv hq => ?_) hu
  · rwa [Nat.zero_add] at hindex
  · obtain ⟨image,ms,bal,hi⟩ := pass_eq_ok hq
    rw [hi.image_eq,(hf.iterated hv hi).1,Function.iterate_succ_apply']

theorem images_eq (hf : Moves p op b f) (ht : Traced p op b monitor (coords x) o s ps) :
    o.images = (List.range ps.length).map fun k => coords (f^[k + 1] x) := by
  refine List.ext_getElem? fun i => ?_
  have hshown := ht.images_eq (i + 1)
  rw [List.getElem?_cons_succ] at hshown
  rw [hshown,List.getElem?_map]
  cases hu : (states s ps)[i + 1]? with
  | none =>
    rw [getElem?_states_succ,Option.map_eq_none_iff,List.getElem?_eq_none_iff] at hu
    rw [List.getElem?_eq_none (by simpa using hu)]
    rfl
  | some u =>
    have himage := hf.image_state ht hu
    rw [getElem?_states_succ] at hu
    obtain ⟨q,hq,rfl⟩ := Option.map_eq_some_iff.mp hu
    rw [List.getElem?_range (List.getElem?_eq_some_iff.mp hq).1]
    exact congrArg some himage

theorem settles_iff (hf : Moves p op b f) (ht : Traced p op b monitor (coords x) o s ps)
    (hq : ps[i]? = some q) :
    q.stop = true ↔ Settles p.settings.absTol p.settings.relTol f x (i + 1) := by
  obtain ⟨u,_,_,_,hu,_,hi,_⟩ := ht.passes i q hq
  rw [(hf.iterated (hf.image_state ht hu) hi).2.2,Settles,Function.iterate_succ_apply',
    Nat.add_sub_cancel]

theorem report_eq (hf : Moves p op b f) (ho : run p op (coords x) b monitor = .ok o)
    (ht : Traced p op b monitor (coords x) o s ps) : o.solution.report =
      settledReport p.settings.maxIter p.settings.absTol p.settings.relTol f x := by
  have hlen := ht.iterations
  have hle := iterations_le ho
  -- Pass `j - 1` is what application `j` is part of.
  have hpass {j : Nat} (hj : 1 ≤ j) (hjp : j ≤ ps.length) : ∃ q, ps[j - 1]? = some q ∧
      (q.stop = true ↔ Settles p.settings.absTol p.settings.relTol f x j) := by
    have hlt : j - 1 < ps.length := by omega
    have hsettles := hf.settles_iff ht (List.getElem?_eq_getElem hlt)
    rw [Nat.sub_add_cancel hj] at hsettles
    exact ⟨_,List.getElem?_eq_getElem hlt,hsettles⟩
  have hlast {j : Nat} {q : Pass ℝ (State ℝ)} (hj : 1 ≤ j) (hq : ps[j - 1]? = some q)
      (hstop : q.stop = true) : j = ps.length := by
    obtain ⟨_,_,_,_,_,_,_,hend⟩ := ht.passes (j - 1) q hq
    rw [← hend hstop,Nat.sub_add_cancel hj]
  by_cases hconv : o.solution.report.status = .converged
  · obtain ⟨q,hq,hstop⟩ := ht.converged.mp hconv
    have hpos : 1 ≤ ps.length := List.length_pos_of_mem (List.mem_of_getLast? hq)
    obtain ⟨q',hq',hsettles⟩ := hpass hpos le_rfl
    rw [List.getLast?_eq_getElem?,hq'] at hq
    obtain rfl : q' = q := Option.some.inj hq
    rw [settledReport_converged hpos (hlen ▸ hle) (hsettles.mp hstop) fun j hj hlt hj' => ?_]
    · exact congrArg₂ Report.mk hconv hlen
    · obtain ⟨v,hv,hsettled⟩ := hpass hj hlt.le
      exact hlt.ne (hlast hj hv (hsettled.mpr hj'))
  · obtain ⟨hcapped,hfull⟩ := ht.capped hconv
    rw [settledReport_capped fun j hj hmax hj' => ?_]
    · exact congrArg₂ Report.mk hcapped (hlen.trans hfull)
    · obtain ⟨v,hv,hsettled⟩ := hpass hj (hfull ▸ hmax)
      have hstop := hsettled.mpr hj'
      refine hconv (ht.converged_of_stop hv ?_ hstop)
      rw [Nat.sub_add_cancel hj,hlast hj hv hstop]

theorem restarts (hf : Moves p op b f) (ho : run p op (coords x) b monitor = .ok o) :
    o.Restarts p.settings.maxIter p.settings.absTol p.settings.relTol f x := by
  obtain ⟨s,ps,ht⟩ := exists_traced ho
  have hbalance : ∀ bal ∈ o.history, bal.primal = 0 ∧ bal.primalBound = 0 ∧
      Balance.entries bal = (0,0,0,√n * p.settings.absTol) := by
    intro bal hbal
    obtain ⟨i,hi⟩ := List.getElem?_of_mem hbal
    obtain ⟨u,_,_,_,_,hu,_,hit,_⟩ := ht.exists_pass hi
    obtain ⟨_,rfl,_⟩ := hf.iterated (hf.image_state ht hu) hit
    exact ⟨rfl,rfl,rfl⟩
  refine ⟨hf.report_eq ho ht,?_,?_,?_,fun bal hbal => ?_⟩
  · obtain ⟨t,hfinal,himage,_⟩ := ht.final
    rw [himage,ht.iterations,hf.image_state ht hfinal]
  · rw [hf.images_eq ht,ht.iterations]
  · refine List.eq_replicate_iff.mpr ⟨?_,?_⟩
    · rw [List.length_map,ht.length_history,ht.iterations]
    · simp only [List.mem_map,forall_exists_index,and_imp]
      rintro _ bal hbal rfl
      exact (hbalance bal hbal).2.2
  · rw [(hbalance bal hbal).1,(hbalance bal hbal).2.1]
    exact lt_irrefl 0

theorem exists_run (hf : Moves p op b f) (h : Linear T A c p op b)
    (hm : ∀ t, monitor.truth = some t → t.length = n) (x : Space n) :
    ∃ o, run p op (coords x) b monitor = .ok o := by
  have hzeros : p.splitZeros = .ok [] := by
    rw [Plan.splitZeros,Plan.splitLengths,h.terms_eq_nil]
    rfl
  obtain ⟨s,hs⟩ := h.exists_start (length_coords x) hzeros
  have htotal (k : Nat) (u : State ℝ) (hu : ∃ y : Space n, u.image = coords y) :
      ∃ q, pass p op b monitor k u = .ok q := by
    obtain ⟨y,hy⟩ := hu
    exact hf.exists_pass hy hm k
  have hkeep (k : Nat) (u : State ℝ) (q : Pass ℝ (State ℝ))
      (hu : ∃ y : Space n, u.image = coords y) (hq : pass p op b monitor k u = .ok q)
      (_ : q.stop = false) : ∃ y : Space n, q.state.image = coords y := by
    obtain ⟨y,hy⟩ := hu
    obtain ⟨image,ms,bal,hi⟩ := pass_eq_ok hq
    exact ⟨f y,hi.image_eq.trans (hf.iterated hy hi).1⟩
  exact h.exists_run_of_invariant (length_coords x) hs ⟨x,(start_eq_ok hs).1⟩ htotal hkeep

end Moves

/-- Without terms a run starts the inner solve over and over from the image it has, and ends with
the first solve that does not move it by more than the tolerances; where there is no operator
either, the image stays. The residuals never meet their bounds. Of the settings the two caps and
the two tolerances matter alone. -/
theorem run_without_terms (h : Linear T A c p op b)
    (hm : ∀ t, monitor.truth = some t → t.length = n) :
    ∃ f : Space n → Space n,
      (∀ x, resolve p.settings.maxIterInner op b (coords x) = .ok (coords (f x))) ∧
      (op = none → f = id) ∧
      ∀ x, ∃ o, run p op (coords x) b monitor = .ok o ∧
        o.Restarts p.settings.maxIter p.settings.absTol p.settings.relTol f x ∧
        ∀ a : AdmmSettings ℝ, a.maxIter = p.settings.maxIter →
          a.maxIterInner = p.settings.maxIterInner → a.absTol = p.settings.absTol →
          a.relTol = p.settings.relTol →
            ∃ o', run { p with settings := a } op (coords x) b monitor = .ok o' ∧
              o'.solution.report = o.solution.report ∧ o'.solution.image = o.solution.image ∧
              o'.images = o.images ∧
              o'.history.map Balance.entries = o.history.map Balance.entries := by
  choose f hf using h.exists_resolve p.settings.maxIterInner
  have hmoves := h.moves hf
  refine ⟨f,hf,fun hop => ?_,fun x => ?_⟩
  · funext x
    obtain ⟨_,hsolve⟩ := ConjugateGradient.solve_zero p.settings.maxIterInner x c
    have hx := hf x
    rw [h.resolve_eq,hop,Option.getD_none,hsolve] at hx
    exact (coords_injective (Except.ok.inj hx)).symm
  · obtain ⟨o,ho⟩ := hmoves.exists_run h hm x
    have hrestarts := hmoves.restarts ho
    refine ⟨o,ho,hrestarts,fun a hmax hinner habs hrel => ?_⟩
    have h' : Linear T A c { p with settings := a } op b :=
      ⟨h.terms,h.xUpdate,h.operator,h.data⟩
    have hmoves' := h'.moves (f := f) fun x => by rw [hinner]; exact hf x
    obtain ⟨o',ho'⟩ := hmoves'.exists_run h' hm x
    have hrestarts' := hmoves'.restarts ho'
    rw [hmax,habs,hrel] at hrestarts'
    have hreport : o'.solution.report = o.solution.report :=
      hrestarts'.report.trans hrestarts.report.symm
    refine ⟨o',ho',hreport,?_,?_,?_⟩
    · rw [hrestarts'.image,hrestarts.image,hreport]
    · rw [hrestarts'.images,hrestarts.images,hreport]
    · rw [hrestarts'.entries,hrestarts.entries,hreport]

/-- No terms and no tolerance. -/
noncomputable def barePlan : Plan ℝ where
  settings := { AdmmSettings.default with maxIter := 3, absTol := 0, relTol := 0 }
  terms := []
  xUpdate := none

/-- The first solve is exact, and the second one leaves its image in place. -/
theorem run_without_terms_barePlan : ∃ o o' : Outcome ℝ,
    run barePlan (some .identity) [0,0] (some [2,0]) (.silent "admm") = .ok o ∧
      o.solution.report = ⟨.converged,2⟩ ∧ o.solution.image = [2,0] ∧
      run { barePlan with settings :=
          { barePlan.settings with rho := 7, dynamicRho := true, hogwild := true, fast := true } }
        (some .identity) [0,0] (some [2,0]) (.silent "admm") = .ok o' ∧
      o'.solution.report = ⟨.converged,2⟩ := by
  have hlinear : Linear (Fin.elim0 : Fin 0 → LinearTerm 2) .id !₂[2,0] barePlan (some .identity)
      (some [2,0]) := ⟨rfl,rfl,Operator.actsAs_identity 2,rfl⟩
  have hsilent : ∀ t, (Monitor.silent "admm" : Monitor ℝ).truth = some t → t.length = 2 := nofun
  obtain ⟨f,hf,_,hrun⟩ := run_without_terms hlinear hsilent
  have hexact (x : Space 2) : f x = !₂[2,0] := by
    obtain ⟨_,y,hsolve,hy⟩ := ConjugateGradient.exists_exact_solve (Operator.actsAs_identity 2)
      LinearMap.isPositive_id (b := !₂[2,0]) ⟨_,rfl⟩ (by decide : 2 ≤ 10) x
    have hx := hf x
    rw [hlinear.resolve_eq] at hx
    change (ConjugateGradient.solve 10 0 0 .identity (coords x) (coords !₂[2,0])).map _ = _ at hx
    rw [hsolve] at hx
    rw [← hy]
    exact (coords_injective (Except.ok.inj hx)).symm
  obtain ⟨o,ho,hrestarts,hother⟩ := hrun !₂[0,0]
  obtain ⟨o',ho',hreport',_⟩ := hother
    { barePlan.settings with rho := 7, dynamicRho := true, hogwild := true, fast := true }
    rfl rfl rfl rfl
  have hreport : o.solution.report = ⟨.converged,2⟩ := by
    rw [hrestarts.report]
    refine settledReport_converged one_le_two (by decide) ?_ fun j hj hlt hsettles => ?_
    · simp [Settles,hexact,barePlan]
    · obtain rfl : j = 1 := by omega
      have hstill : (!₂[2,0] - !₂[0,0] : Space 2) = 0 := by
        simpa only [Settles,Function.iterate_one,Nat.sub_self,Function.iterate_zero_apply,hexact,
          barePlan,mul_zero,zero_mul,add_zero,norm_le_zero_iff] using hsettles
      simpa using congrArg (fun v : Space 2 => v 0) hstill
  have himage := hrestarts.image
  rw [hreport,Function.iterate_succ_apply',hexact] at himage
  exact ⟨o,o',ho,hreport,himage,ho',hreport'.trans hreport⟩

end Admm

end LinearInverse
