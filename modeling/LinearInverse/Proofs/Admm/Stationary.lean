import LinearInverse.Proofs.Admm.ImageUpdate
import LinearInverse.Proofs.Admm.Optimality
import LinearInverse.Proofs.Admm.Penalty

namespace LinearInverse.Admm
variable {n D : Nat} {T : Fin D → LinearTerm n} {A : Space n →ₗ[ℝ] Space n} {c : Space n}
  {p : Plan ℝ} {op : Option (Operator ℝ)} {b : Option (List ℝ)} {monitor : Monitor ℝ}
  {k : Nat} {s : State ℝ} {q : Pass ℝ (State ℝ)} {fast : Bool} {z u : List ℝ} {v : Split ℝ}

/-- Split variable and dual of a term, with those that the fast variant extrapolates from them. -/
structure Split.Rests (fast : Bool) (z u : List ℝ) (v : Split ℝ) : Prop where
  z_eq : v.z = z
  u_eq : v.u = u
  extrapolated : fast = true → v.zHat = z ∧ v.uHat = u ∧ v.zPrev = z ∧ v.uPrev = u

theorem Split.Rests.rescale (h : v.Rests fast z u) (a : ℝ) :
    (v.rescale a).Rests fast z (Vec.scale a u) := by
  refine ⟨h.z_eq,congrArg (Vec.scale a) h.u_eq,fun hfast => ?_⟩
  obtain ⟨hz,hu,hz',hu'⟩ := h.extrapolated hfast
  exact ⟨hz,congrArg (Vec.scale a) hu,hz',congrArg (Vec.scale a) hu'⟩

namespace Moved
variable {m : Moved ℝ}

theorem rests_settle (h : m.split.Rests fast m.z m.u) : m.settle.Rests fast m.z m.u :=
  ⟨rfl,rfl,h.extrapolated⟩

theorem rests_restarted (fast : Bool) (m : Moved ℝ) : m.restarted.Rests fast m.z m.u :=
  ⟨rfl,rfl,fun _ => ⟨rfl,rfl,rfl,rfl⟩⟩

/-- Between equal points there is nothing to extrapolate. -/
theorem rests_extrapolated (h : m.split.Rests true m.z m.u) (beta : ℝ) :
    (m.extrapolated beta).Rests true m.z m.u := by
  have hself (x : List ℝ) : Momentum.extrapolate beta x x = x := by
    rw [Momentum.extrapolate,List.zipWith_self]
    simp
  obtain ⟨_,_,hz,hu⟩ := h.extrapolated rfl
  simp only [extrapolated,hz,hu,hself]
  exact rests_restarted true m

end Moved

/-- Neither momentum nor a restart moves what an iteration has not moved. -/
theorem exists_splits_resting (fast : Bool) (rho : ℝ) (s : State ℝ) (ms : List (Moved ℝ)) :
    ∃ f : Moved ℝ → Split ℝ, (accelerate fast rho s ms).1 = ms.map f ∧
      ∀ m, m.split.Rests fast m.z m.u → (f m).Rests fast m.z m.u := by
  obtain ⟨f,hf,⟨rfl,rfl⟩ | ⟨rfl,rfl | ⟨beta,rfl⟩⟩⟩ := splits_accelerate fast rho s ms
  · exact ⟨_,hf,fun m h => m.rests_settle h⟩
  · exact ⟨_,hf,fun m _ => m.rests_restarted true⟩
  · exact ⟨_,hf,fun m h => m.rests_extrapolated h beta⟩

/-- Residuals that vanish are in balance, so only the schedule changes the penalty. -/
theorem change_of_zero (a : AdmmSettings ℝ) {bal : Balance ℝ} (hprimal : bal.primal = 0)
    (hdual : bal.dual = 0) (schedule : Schedule) :
    change a bal schedule = if (schedule.tickIf a.hogwild).1 then 2 else 1 := by
  have hbalancing : balancing a bal = 1 := by simp [balancing,hprimal,hdual]
  rw [change,hbalancing]
  simp

/-- A state at an optimal point: image `x`, split variables at the transforms of the image, and
scaled duals `u`. The proximal maps keep their values for every penalty, with the duals scaled
along. -/
structure State.Stationary (T : Fin D → LinearTerm n) (A : Space n →ₗ[ℝ] Space n) (c : Space n)
    (fast : Bool) (x : Space n) (u : Stack T) (s : State ℝ) : Prop where
  rho_pos : 0 < s.rho
  image : s.image = coords x
  splits : ∃ split : Fin D → Split ℝ, s.splits = List.ofFn split ∧
    ∀ i, (split i).Rests fast (coords ((T i).forward x)) (coords (u i))
  gradient : A x + s.rho • adjoints T u = c
  proximal : ∀ i rho, 0 < rho →
    (T i).term.prox.apply (1 / rho) (coords ((T i).forward x))
      (coords ((T i).forward x + (s.rho / rho) • u i)) = .ok (coords ((T i).forward x))

/-- An iteration that stays where it is. -/
noncomputable def Reach.still (split : Fin D → Split ℝ) (x : Space n) (u : Stack T) : Reach T :=
  ⟨split,forwards T x,u,x,forwards T x,u⟩

namespace State.Stationary
variable {x : Space n} {w : Stack T}

theorem system_eq (h : s.Stationary T A c fast x w) :
    normalMap T A s.rho x = c + s.rho • adjoints T (forwards T x - w) := by
  rw [normalMap_apply,← h.gradient,map_sub,smul_sub]
  abel

/-- The proximal map of a term at the penalty in effect. Relaxation between equal points makes no
difference. -/
theorem prox_eq (h : s.Stationary T A c fast x w) (alpha : ℝ) (i : Fin D) :
    (T i).term.prox.apply (1 / s.rho) (coords ((T i).forward x))
      (coords (alpha • (T i).forward x + (1 - alpha) • (T i).forward x + w i)) =
        .ok (coords ((T i).forward x)) := by
  have hprox := h.proximal i s.rho h.rho_pos
  rw [div_self h.rho_pos.ne',one_smul] at hprox
  rwa [← add_smul,add_sub_cancel,one_smul]

theorem update_eq (hs : s.Stationary T A c p.settings.fast x w) (h : Linear T A c p op b)
    (hD : 0 < D) :
    ∃ split : Fin D → Split ℝ,
      (∀ i, (split i).Rests p.settings.fast (coords ((T i).forward x)) (coords (w i))) ∧
        update p op b s = .ok (coords x,(Reach.still split x w).moved) := by
  obtain ⟨split,hsplit,hrests⟩ := hs.splits
  have hbegin : List.zipWith (begin p.settings.fast) p.terms s.splits =
      List.ofFn fun i => (T i).begun (split i) (forwards T x i) (w i) := by
    have hfrom (i : Fin D) : begin p.settings.fast (T i).term (split i) =
        (T i).begun (split i) (forwards T x i) (w i) := by
      cases hfast : p.settings.fast with
      | false =>
        rw [begin,(hrests i).z_eq,(hrests i).u_eq]
        rfl
      | true =>
        obtain ⟨hz,hu,_⟩ := (hrests i).extrapolated hfast
        rw [begin,hz,hu]
        rfl
    rw [h.terms,hsplit,zipWith_ofFn]
    exact congrArg List.ofFn (funext hfrom)
  refine ⟨split,hrests,update_eq_ok.mpr ⟨coords (adjoints T (forwards T x - w)),?_,?_,?_⟩⟩
  · rw [hbegin,List.map_ofFn,hs.image,length_coords]
    exact sumAdjoint_sub _ _
  · rw [hs.image]
    exact h.updateImage_of_eq hD hs.system_eq
  · rw [hbegin]
    refine Checked.mapM_ofFn.mpr ⟨(Reach.still split x w).part,rfl,fun i => ?_⟩
    have hlen : (split i).z.length = (T i).size := by rw [(hrests i).z_eq,length_coords]
    have hdual (alpha : ℝ) : Vec.sub (coords (w i + (alpha • (T i).forward x +
        (1 - alpha) • (T i).forward x))) (coords ((T i).forward x)) = coords (w i) := by
      rw [Vec.sub_coords,← add_smul,add_sub_cancel,one_smul,add_sub_cancel_right]
    rw [move_eq hlen ((T i).flatForward_eq x) rfl rfl]
    change ((T i).term.prox.apply _ (split i).z (coords (_ • (T i).forward x +
      _ • (T i).forward x + w i))).map (fun z => Moved.mk _ _ _ _ _ z
        (Vec.sub (coords (w i + (_ • (T i).forward x + _ • (T i).forward x))) z)) = _
    rw [(hrests i).z_eq,hs.prox_eq,Except.map,hdual]
    rfl

/-- A penalty that is multiplied while the duals are divided. -/
theorem rescale (hs : s.Stationary T A c fast x w) {a : ℝ} (ha : 0 < a) {t : State ℝ}
    (hrho : t.rho = s.rho * a) (himage : t.image = coords x) (split : Fin D → Split ℝ)
    (hsplits : t.splits = List.ofFn fun i => (split i).rescale (1 / a))
    (hrests : ∀ i, (split i).Rests fast (coords ((T i).forward x)) (coords (w i))) :
    t.Stationary T A c fast x ((1 / a) • w) := by
  have hpenalty (rho : ℝ) : s.rho * a / rho * (1 / a) = s.rho / rho := by
    field_simp
  refine ⟨hrho ▸ mul_pos hs.rho_pos ha,himage,⟨_,hsplits,fun i => ?_⟩,?_,fun i rho hpos => ?_⟩
  · have hscale := (hrests i).rescale (1 / a)
    rwa [Vec.scale_coords] at hscale
  · rw [hrho,map_smul,smul_smul,mul_assoc,mul_one_div_cancel ha.ne',mul_one]
    exact hs.gradient
  · change (T i).term.prox.apply _ _ (coords (_ + _ • ((1 / a) • w i))) = _
    rw [hrho,smul_smul,hpenalty]
    exact hs.proximal i rho hpos

/-- An iteration records no residuals, and leaves image, split variables and the products of
penalty and duals where they are. -/
theorem next (hs : s.Stationary T A c p.settings.fast x w) (h : Linear T A c p op b) (hD : 0 < D)
    (hq : pass p op b monitor k s = .ok q) :
    ∃ bal w', q.events.filterMap balance? = [bal] ∧ bal.primal = 0 ∧ bal.dual = 0 ∧
      (0 < bal.primalBound → 0 < bal.dualBound → q.stop = true) ∧
      q.state.Stationary T A c p.settings.fast x w' ∧ q.state.rho • w' = s.rho • w := by
  obtain ⟨image,ms,bal,hi⟩ := pass_eq_ok hq
  obtain ⟨split,hrests,hupdate⟩ := hs.update_eq h hD
  cases Except.ok.inj (hi.update_eq.symm.trans hupdate)
  have hbalance := hi.balance_eq
  rw [hs.image,length_coords] at hbalance
  obtain ⟨hprimal,hdual⟩ := Reach.balance_eq hbalance
  rw [Reach.still,sub_self,norm_zero] at hprimal
  rw [Reach.still,sub_self,map_zero,norm_zero,mul_zero] at hdual
  refine ⟨bal,?_⟩
  have hstop : 0 < bal.primalBound → 0 < bal.dualBound → q.stop = true := by
    intro hp hd
    rw [hi.stop_eq,Bool.or_eq_true,Balance.met_iff,hprimal,hdual]
    exact .inl ⟨hp,hd⟩
  cases hlast : q.stop with
  | true =>
    have hstate := hi.state_eq
    rw [hlast,if_pos rfl] at hstate
    refine ⟨w,hi.balances,hprimal,hdual,fun _ _ => rfl,?_,by rw [hstate]⟩
    rw [hstate]
    refine ⟨hs.rho_pos,rfl,⟨Moved.settle ∘ (Reach.still split x w).part,List.map_ofFn,
      fun i => ?_⟩,hs.gradient,hs.proximal⟩
    exact ((Reach.still split x w).part i).rests_settle (hrests i)
  | false =>
    have hstate := hi.state_eq
    rw [hlast,if_neg Bool.false_ne_true,following_eq] at hstate
    have hchange : 0 < change p.settings bal s.schedule := by
      rw [change_of_zero p.settings hprimal hdual]
      split <;> norm_num
    obtain ⟨f,hf,hrest⟩ := exists_splits_resting p.settings.fast s.rho s
      (Reach.still split x w).moved
    refine ⟨(1 / change p.settings bal s.schedule) • w,hi.balances,hprimal,hdual,
      fun hp hd => hlast ▸ hstop hp hd,?_,?_⟩
    · refine hs.rescale hchange (congrArg State.rho hstate) (congrArg State.image hstate)
        (f ∘ (Reach.still split x w).part) ?_
        fun i => hrest ((Reach.still split x w).part i) (hrests i)
      rw [hstate,hf,Reach.moved,List.map_ofFn,List.map_ofFn]
      rfl
    · rw [hstate,smul_smul,mul_assoc,mul_one_div_cancel hchange.ne',mul_one]

theorem exists_pass (hs : s.Stationary T A c p.settings.fast x w) (h : Linear T A c p op b)
    (hD : 0 < D) (hm : ∀ t, monitor.truth = some t → t.length = n) (k : Nat) :
    ∃ q, pass p op b monitor k s = .ok q := by
  obtain ⟨split,_,hupdate⟩ := hs.update_eq h hD
  exact (Reach.still split x w).exists_pass (hs.image ▸ length_coords x) hupdate hm k

end State.Stationary

theorem rests_initial (fast : Bool) {m : Nat} (z : Space m) :
    (Split.initial (coords z)).Rests fast (coords z) (coords (0 : Space m)) := by
  have hzero : (coords z).map (fun _ => (0 : ℝ)) = coords (0 : Space m) := map_coords _ z
  exact ⟨rfl,hzero,fun _ => ⟨rfl,hzero,rfl,hzero⟩⟩

variable {x : Space n} {image : List ℝ} {o : Outcome ℝ} {ps : List (Pass ℝ (State ℝ))}

/-- A warm start from a solution that the proximal maps leave alone is a stationary state. -/
theorem Linear.stationary_start (h : Linear T A c p op b) (hwarm : p.settings.warmStart = true)
    (hrho : 0 < p.settings.rho) (hx : A x = c)
    (hprox : ∀ i mu, 0 < mu → (T i).term.prox.apply mu (coords ((T i).forward x))
      (coords ((T i).forward x)) = .ok (coords ((T i).forward x)))
    (hs : start p (coords x) = .ok s) : s.Stationary T A c p.settings.fast x 0 := by
  obtain ⟨zs,hzs,hs⟩ := Checked.bind_eq_ok.mp hs
  obtain ⟨splits,hsplits,rfl⟩ := Checked.map_eq_ok.mp hs
  obtain ⟨z,rfl,hlen⟩ := exists_zeros h.terms (fun i => (T i).codomainLength_eq) hzs
  rw [h.terms,List.zip,zipWith_ofFn,hwarm] at hsplits
  obtain ⟨split,rfl,hsplit⟩ := Checked.mapM_ofFn.mp hsplits
  refine ⟨hrho,rfl,⟨split,rfl,fun i => ?_⟩,?_,fun i rho hpos => ?_⟩
  · obtain ⟨y,hy,hsplit⟩ := Checked.map_eq_ok.mp (hsplit i)
    rw [hlen i,(T i).flatForward_eq] at hy
    cases hy
    exact hsplit ▸ rests_initial p.settings.fast _
  · rw [map_zero,smul_zero,add_zero,hx]
  · change (T i).term.prox.apply _ _ (coords (_ + _ • (0 : Space (T i).size))) = _
    rw [smul_zero,add_zero]
    exact hprox i (1 / rho) (one_div_pos.mpr hpos)

/-- A run from a stationary state shows its image all the time and records no residuals. If the
bounds are positive, it is over with the first iteration. -/
theorem Traced.stationary (ht : Traced p op b monitor image o s ps) (h : Linear T A c p op b)
    (hD : 0 < D) {w : Stack T} (hs : s.Stationary T A c p.settings.fast x w) :
    o.solution.image = coords x ∧ (∀ y ∈ o.images, y = coords x) ∧
      (∀ bal ∈ o.history, bal.primal = 0 ∧ bal.dual = 0) ∧
      ∀ bal, o.history[0]? = some bal → 0 < bal.primalBound → 0 < bal.dualBound →
        o.solution.report = ⟨.converged,1⟩ := by
  have hstates : ∀ t ∈ states s ps, ∃ w, t.Stationary T A c p.settings.fast x w :=
    ht.trace.forall_states ⟨w,hs⟩ fun _ _ _ ⟨_,hu⟩ hq => by
      obtain ⟨_,w',_,_,_,_,hnext,_⟩ := hu.next h hD hq
      exact ⟨w',hnext⟩
  have hpass {i : Nat} {bal : Balance ℝ} (hi : o.history[i]? = some bal) :
      bal.primal = 0 ∧ bal.dual = 0 ∧ ∃ q, ps[i]? = some q ∧
        (0 < bal.primalBound → 0 < bal.dualBound → q.stop = true) := by
    obtain ⟨u,q,_,_,hq,hu,_,hit,_⟩ := ht.exists_pass hi
    obtain ⟨v,hv,_,hpass,_⟩ := ht.trace.at (I := fun _ _ => True) trivial
      (fun _ _ _ _ _ _ => trivial) hq
    obtain rfl : u = v := Option.some.inj (hu.symm.trans hv)
    obtain ⟨_,hu⟩ := hstates u (List.mem_of_getElem? hu)
    obtain ⟨bal',_,hbal,hprimal,hdual,hstop,_⟩ := hu.next h hD hpass
    obtain rfl : bal = bal' := by simpa using hit.balances.symm.trans hbal
    exact ⟨hprimal,hdual,q,hq,hstop⟩
  refine ⟨?_,fun y hy => ?_,fun bal hbal => ?_,fun bal hbal hp hd => ?_⟩
  · obtain ⟨t,hfinal,himage,_⟩ := ht.final
    obtain ⟨_,ht⟩ := hstates t (List.mem_of_getElem? hfinal)
    rw [himage,ht.image]
  · obtain ⟨i,hi⟩ := List.getElem?_of_mem hy
    have hshown := ht.images_eq (i + 1)
    rw [List.getElem?_cons_succ,hi] at hshown
    obtain ⟨t,hmem,rfl⟩ := Option.map_eq_some_iff.mp hshown.symm
    obtain ⟨_,ht⟩ := hstates t (List.mem_of_getElem? hmem)
    exact ht.image
  · obtain ⟨i,hi⟩ := List.getElem?_of_mem hbal
    obtain ⟨hprimal,hdual,_⟩ := hpass hi
    exact ⟨hprimal,hdual⟩
  · obtain ⟨_,_,q,hq,hstop⟩ := hpass hbal
    obtain ⟨_,_,_,_,_,_,_,hlast⟩ := ht.passes 0 q hq
    have hlen := hlast (hstop hp hd)
    have hconv := ht.converged_of_stop hq hlen (hstop hp hd)
    have hcount := ht.iterations
    rw [← hlen] at hcount
    exact congrArg₂ Report.mk hconv hcount

theorem Linear.exists_run_stationary (h : Linear T A c p op b) (hD : 0 < D)
    (hm : ∀ t, monitor.truth = some t → t.length = n) {w : Stack T}
    (hstart : start p (coords x) = .ok s) (hs : s.Stationary T A c p.settings.fast x w) :
    ∃ o, run p op (coords x) b monitor = .ok o := by
  exact h.exists_run_of_invariant (length_coords x)
    (I := fun _ u => ∃ w, u.Stationary T A c p.settings.fast x w) hstart ⟨w,hs⟩
    (fun j u ⟨_,hu⟩ => hu.exists_pass h hD hm j)
    (fun j u q ⟨_,hu⟩ hq _ => by
      obtain ⟨_,w',_,_,_,_,hnext,_⟩ := hu.next h hD hq
      exact ⟨w',hnext⟩)

/-- Every iteration from an optimal point returns, records no residuals, and leaves the state at
that point: image, split variables and the products of penalty and duals are the same, and what
makes the point optimal holds again. A run with a warm start from a solution that the proximal maps
leave alone returns that image, and is over after one iteration if the bounds are positive. -/
theorem run_stationary (h : Linear T A c p op b) (hD : 0 < D)
    (hm : ∀ t, monitor.truth = some t → t.length = n) :
    (∀ s x u k, s.Stationary T A c p.settings.fast x u →
      ∃ q bal u', pass p op b monitor k s = .ok q ∧ q.events.filterMap balance? = [bal] ∧
        bal.primal = 0 ∧ bal.dual = 0 ∧ q.state.Stationary T A c p.settings.fast x u' ∧
        q.state.rho • u' = s.rho • u) ∧
    ∀ x zs, p.settings.warmStart = true → 0 < p.settings.rho → A x = c →
      (∀ i mu, 0 < mu → (T i).term.prox.apply mu (coords ((T i).forward x))
        (coords ((T i).forward x)) = .ok (coords ((T i).forward x))) →
      p.splitZeros = .ok zs →
        ∃ o, run p op (coords x) b monitor = .ok o ∧ o.solution.image = coords x ∧
          (∀ y ∈ o.images, y = coords x) ∧
          (∀ bal ∈ o.history, bal.primal = 0 ∧ bal.dual = 0) ∧
          (0 < p.settings.maxIter → ∃ bal, o.history[0]? = some bal ∧
            (0 < bal.primalBound → 0 < bal.dualBound →
              o.solution.report = ⟨.converged,1⟩)) := by
  refine ⟨fun s x u k hs => ?_,fun x zs hwarm hrho hx hprox hz => ?_⟩
  · obtain ⟨q,hq⟩ := hs.exists_pass h hD hm k
    obtain ⟨bal,u',hbal,hprimal,hdual,_,hnext,hu⟩ := hs.next h hD hq
    exact ⟨q,bal,u',hq,hbal,hprimal,hdual,hnext,hu⟩
  · obtain ⟨s,hs⟩ := h.exists_start (length_coords x) hz
    have hstationary := h.stationary_start hwarm hrho hx hprox hs
    obtain ⟨o,ho⟩ := h.exists_run_stationary hD hm hs hstationary
    obtain ⟨s',ps,ht⟩ := exists_traced ho
    obtain rfl : s = s' := Except.ok.inj (hs.symm.trans ht.start_eq)
    obtain ⟨himage,himages,hhistory,hreport⟩ := ht.stationary h hD hstationary
    refine ⟨o,ho,himage,himages,hhistory,fun hmax => ?_⟩
    obtain ⟨bal,hbal,_⟩ := ht.exists_first hmax
    exact ⟨bal,hbal,hreport bal hbal⟩

/-- With an absolute tolerance the bounds are positive. -/
theorem bounds_pos {a : AdmmSettings ℝ} {rho : ℝ} {ms : List (Moved ℝ)} {bal : Balance ℝ}
    (habs : 0 < a.absTol) (hrel : 0 ≤ a.relTol) (hrho : 0 ≤ rho) (hn : 0 < n)
    (htotal : 0 < ms.foldl (fun n m => n + m.z.length) 0) (h : balance a rho n ms = .ok bal) :
    0 < bal.primalBound ∧ 0 < bal.dualBound := by
  obtain ⟨d,_,h⟩ := Checked.bind_eq_ok.mp h
  obtain ⟨v,_,rfl⟩ := Checked.map_eq_ok.mp h
  have hroot {m : Nat} (hm : 0 < m) : 0 < Scalar.sqrt (m : ℝ) * a.absTol :=
    mul_pos (Real.sqrt_pos.mpr (Nat.cast_pos.mpr hm)) habs
  have hnorm : 0 ≤ Vec.norm v := by
    obtain ⟨y,hy⟩ := exists_coords (rfl : v.length = v.length)
    rw [← hy,Vec.norm_coords]
    exact norm_nonneg y
  refine ⟨add_pos_of_pos_of_nonneg (hroot htotal) (mul_nonneg hrel ?_),
    add_pos_of_pos_of_nonneg (hroot hn) (mul_nonneg (mul_nonneg hrel hrho) hnorm)⟩
  rw [Scalar.real_max]
  exact le_max_of_le_left (Real.sqrt_nonneg _)

/-- One term behind the identity, with every rule for momentum and penalty in use. -/
noncomputable def boxPlan : Plan ℝ where
  settings :=
    { AdmmSettings.default with
      rho := 1, warmStart := true, dynamicRho := true, hogwild := true, fast := true }
  terms := [⟨.identity [1],.box 0 1⟩]
  xUpdate := none

/-- The term of `boxPlan`. -/
noncomputable def boxTerm (_ : Fin 1) : LinearTerm 2 := identityTerm (.box 0 1)

/-- Outward of the upper bound the projection comes back to it. -/
theorem box_boundary (mu : ℝ) {dst : List ℝ} {t : ℝ} (hdst : dst.length = 2) (ht : 0 ≤ t) :
    (ProxOperator.box 0 1).apply mu dst (coords (!₂[1,0] + t • !₂[1,0])) =
      .ok (coords !₂[1,0]) := by
  rw [ProxOperator.box,ProxOperator.apply_ofMap (by simp [hdst])]
  have hlow : ¬1 + t < 0 := by linarith
  have hhigh : 1 < 1 + t ∨ 1 + t = 1 := by
    rcases ht.lt_or_eq with h | h
    · exact .inl (by linarith)
    · exact .inr (by linarith)
  rcases hhigh with h | h <;> simp [coords,hlow,h]

noncomputable def boxState : State ℝ :=
  ⟨[1,0],[⟨[1,0],[1,0],[1,0],[1,0],[1,0],[1,0]⟩],1,1,none,.initial⟩

theorem stationary_boxState :
    boxState.Stationary boxTerm .id !₂[2,0] true !₂[1,0] (forwards boxTerm !₂[1,0]) := by
  refine ⟨one_pos,rfl,⟨fun _ => _,rfl,fun _ => ⟨rfl,rfl,fun _ => ⟨rfl,rfl,rfl,rfl⟩⟩⟩,?_,
    fun i rho hrho => ?_⟩
  · have hdual : adjoints boxTerm (forwards boxTerm !₂[1,0]) = !₂[1,0] :=
      Fin.sum_univ_one fun i => (boxTerm i).adjoint (forwards boxTerm !₂[1,0] i)
    rw [hdual,boxState,one_smul]
    ext i
    fin_cases i <;> norm_num
  · exact box_boundary _ rfl (by simp [boxState,hrho.le])

/-- A point on the bound, held there by its dual, and a warm start from it. -/
theorem run_boxPlan :
    (∃ q bal u', boxState.Stationary boxTerm .id !₂[2,0] true !₂[1,0] (forwards boxTerm !₂[1,0]) ∧
      pass boxPlan (some .identity) (some [2,0]) (.silent "admm") 0 boxState = .ok q ∧
        q.events.filterMap balance? = [bal] ∧ bal.primal = 0 ∧ bal.dual = 0 ∧
        q.state.Stationary boxTerm .id !₂[2,0] true !₂[1,0] u' ∧
        q.state.rho • u' = boxState.rho • forwards boxTerm !₂[1,0]) ∧
    ∃ o, run boxPlan (some .identity) [1,0] (some [1,0]) (.silent "admm") = .ok o ∧
      o.solution.image = [1,0] ∧ o.solution.report = ⟨.converged,1⟩ := by
  have hlinear (x y : ℝ) :
      Linear boxTerm .id !₂[x,y] boxPlan (some .identity) (some [x,y]) :=
    ⟨rfl,rfl,fun _ => Operator.apply_square _ _ _,rfl⟩
  have hsilent : ∀ t, (Monitor.silent "admm" : Monitor ℝ).truth = some t → t.length = 2 := nofun
  refine ⟨?_,?_⟩
  · obtain ⟨q,bal,u',h⟩ := (run_stationary (hlinear 2 0) Nat.one_pos hsilent).1
      boxState !₂[1,0] (forwards boxTerm !₂[1,0]) 0 stationary_boxState
    exact ⟨q,bal,u',stationary_boxState,h⟩
  · have hprox (mu : ℝ) : (ProxOperator.box 0 1).apply mu [1,0] (coords !₂[1,0]) =
        .ok (coords !₂[1,0]) := by
      simpa using box_boundary mu (rfl : [(1 : ℝ),0].length = 2) le_rfl
    obtain ⟨o,ho,hx,_,_,hfirst⟩ := (run_stationary (hlinear 1 0) Nat.one_pos hsilent).2
      !₂[1,0] [[0,0]] rfl one_pos rfl (fun _ mu _ => hprox mu) rfl
    refine ⟨o,ho,hx,?_⟩
    obtain ⟨bal,hbal,hreport⟩ := hfirst (by decide)
    obtain ⟨s,ps,ht⟩ := exists_traced ho
    obtain ⟨u,_,v,hu,_,_,hi,_⟩ := (hlinear 1 0).exists_reach Nat.one_pos ht rfl hbal
    obtain rfl : s = u := Option.some.inj hu
    obtain ⟨himage,hrho⟩ := start_eq_ok ht.start_eq
    have hbounds := bounds_pos (a := boxPlan.settings) (by norm_num [boxPlan,AdmmSettings.default])
      (by norm_num [boxPlan,AdmmSettings.default]) (hrho ▸ zero_le_one) (by simp [himage])
      (by simp [Reach.moved,Reach.part,boxTerm,identityTerm]) hi.balance_eq
    exact hreport hbounds.1 hbounds.2

end LinearInverse.Admm
