import LinearInverse.Proofs.Admm.Optimality
import LinearInverse.Proofs.Admm.Penalty

namespace LinearInverse

namespace Admm.Unscaled

section
variable {α : Type} [Scalar α]

/-- `b + Σ Gᴴ(rho z - y)` for the sum `w`. -/
def rightHandSide (b : Option (List α)) (w : List α) : List α :=
  match b with
  | some b => Vec.add b w
  | none => w

/-- The image for the sum `w` of the adjoints of `rho z - y`. An update of its own gets the sum in
units of the penalty. -/
def updateImage (p : Plan α) (op : Option (Operator α)) (b : Option (List α)) (rho : α)
    (image w : List α) : Checked α (List α) :=
  match p.xUpdate with
  | some update => update.apply rho image (Vec.scale (1 / rho) w)
  | none =>
    if op.isSome || !p.terms.isEmpty then
      (ConjugateGradient.solve p.settings.maxIterInner 0 0 (augmented op rho p.terms) image
        (rightHandSide b w)).map (·.2)
    else .ok image

/-- Split variable and dual of one term for a new image. Here and in all states below, the fields of
the duals hold `y`. -/
def move (alpha rho : α) (image : List α) (m : Moved α) : Checked α (Moved α) :=
  m.term.transform.flatForward m.split.z.length image >>= fun gx =>
    let xHat := relax alpha gx m.zFrom
    (m.term.prox.apply (1 / rho) m.split.z
      (List.zipWith (fun h y => h + y / rho) xHat m.uFrom)).map fun z =>
        { m with gx, z, u := Vec.axpy m.uFrom rho (Vec.sub xHat z) }

def update (p : Plan α) (op : Option (Operator α)) (b : Option (List α)) (s : State α) :
    Checked α (List α × List (Moved α)) :=
  let ms := List.zipWith (begin p.settings.fast) p.terms s.splits
  sumAdjoint s.image.length
      (ms.map fun m => (m.term.transform,Vec.sub (Vec.scale s.rho m.zFrom) m.uFrom)) >>=
    fun w => updateImage p op b s.rho s.image w >>= fun image =>
      (ms.mapM (move p.settings.alpha s.rho image)).map fun ms => (image,ms)

/-- The residuals, with the bound of the second one in terms of `y`. -/
def balance (s : AdmmSettings α) (rho : α) (n : Nat) (ms : List (Moved α)) :
    Checked α (Balance α) :=
  sumAdjoint n (ms.map fun m => (m.term.transform,Vec.sub m.z m.zFrom)) >>= fun d =>
    (sumAdjoint n (ms.map fun m => (m.term.transform,m.u))).map fun v =>
      let total : Nat := ms.foldl (fun n m => n + m.z.length) 0
      { primal := stackedDist (ms.map fun m => (m.gx,m.z))
        dual := rho * Vec.norm d
        primalBound := Scalar.sqrt (total : α) * s.absTol +
          s.relTol * Scalar.max (stackedNorm (ms.map (·.gx))) (stackedNorm (ms.map (·.z)))
        dualBound := Scalar.sqrt (n : α) * s.absTol + s.relTol * Vec.norm v
        rho }

/-- How far the iteration moved the variables, weighted by the penalty. -/
def merit (rho : α) (ms : List (Moved α)) : α :=
  let dy := stackedDist (ms.map fun m => (m.u,m.uFrom))
  let dz := stackedDist (ms.map fun m => (m.z,m.zFrom))
  dy * dy / rho + rho * (dz * dz)

def accelerate (fast : Bool) (rho : α) (s : State α) (ms : List (Moved α)) :
    List (Split α) × α × Option α × List (Event α) :=
  if fast then
    let c := merit rho ms
    if improves c s.merit then
      let t := Momentum.next s.momentum
      (ms.map (Moved.extrapolated ((s.momentum - 1) / t)),t,some c,[])
    else (ms.map Moved.restarted,1,s.merit.map (· / 0.999),[.restart])
  else (ms.map Moved.settle,s.momentum,s.merit,[])

/-- Changes the penalty and no variable. -/
def adapt (s : AdmmSettings α) (b : Balance α) (st : State α) : State α × List (Event α) :=
  let (fired,schedule) := st.schedule.tickIf s.hogwild
  let f := balancing s b
  let factor := if fired then f * ((2 : Nat) : α) else f
  if factor == 1 then ({ st with schedule },[])
  else ({ st with rho := st.rho * factor, schedule },[.penalty (st.rho * factor)])

def pass (p : Plan α) (op : Option (Operator α)) (b : Option (List α)) (monitor : Monitor α)
    (k : Nat) (s : State α) : Checked α (Pass α (State α)) :=
  update p op b s >>= fun (image,ms) =>
    balance p.settings s.rho s.image.length ms >>= fun bal =>
      (monitor.report k image bal.primal).map fun e =>
        let events := [.balance bal,e]
        if Balance.met bal || settled p.settings bal ms s.image image then
          ⟨{ s with image, splits := ms.map Moved.settle },true,events⟩
        else
          let (splits,momentum,merit,restarts) := accelerate p.settings.fast s.rho s ms
          let (s,changes) := adapt p.settings bal { s with image, splits, momentum, merit }
          ⟨s,false,events ++ restarts ++ changes⟩

/-- The duals start at zero, scaled or not. -/
def run (p : Plan α) (op : Option (Operator α)) (image : List α) (b : Option (List α))
    (monitor : Monitor α) : Checked α (Outcome α) :=
  if b.any fun b => b.length ≠ image.length then .error .systemLengths
  else
    checkDomains image.length p.terms >>= fun _ =>
      start p image >>= fun s =>
        (iterate (pass p op b monitor) p.settings.maxIter 0 s).map fun r =>
          ⟨⟨r.report,r.state.image,r.log⟩,r.state.rho⟩

end

end Admm.Unscaled

namespace Admm

/-- A term within an iteration, with its duals multiplied. -/
noncomputable def Moved.rescale (a : ℝ) (m : Moved ℝ) : Moved ℝ :=
  { m with split := m.split.rescale a, uFrom := Vec.scale a m.uFrom, u := Vec.scale a m.u }

/-- `y = rho u`, for all three copies of the duals. -/
noncomputable def State.unscaled (s : State ℝ) : State ℝ :=
  { s with splits := s.splits.map (Split.rescale s.rho) }

@[simp] theorem State.unscaled_image (s : State ℝ) : s.unscaled.image = s.image := rfl

@[simp] theorem State.unscaled_rho (s : State ℝ) : s.unscaled.rho = s.rho := rfl

@[simp] theorem State.unscaled_momentum (s : State ℝ) : s.unscaled.momentum = s.momentum := rfl

@[simp] theorem State.unscaled_merit (s : State ℝ) : s.unscaled.merit = s.merit := rfl

variable {p : Plan ℝ} {op : Option (Operator ℝ)} {b : Option (List ℝ)} {monitor : Monitor ℝ}
  {image : List ℝ} {ms : List (Moved ℝ)} {bal : Balance ℝ} {s : State ℝ} {m : Moved ℝ}
  {q : Pass ℝ (State ℝ)} {k : Nat} {rho : ℝ}

theorem begin_rescale (fast : Bool) (a : ℝ) (t : Term ℝ) (v : Split ℝ) :
    begin fast t (v.rescale a) = (begin fast t v).rescale a := by
  cases fast <;> rfl

theorem map_settle_rescale (a : ℝ) (ms : List (Moved ℝ)) :
    (ms.map (Moved.rescale a)).map Moved.settle = (ms.map Moved.settle).map (Split.rescale a) := by
  rw [List.map_map,List.map_map]
  rfl

theorem Moved.extrapolated_rescale (a beta : ℝ) (m : Moved ℝ) :
    (m.rescale a).extrapolated beta = (m.extrapolated beta).rescale a := by
  simp only [extrapolated,rescale,Split.rescale,Vec.extrapolate_scale]

theorem rescale_rescale (a c : ℝ) (v : Split ℝ) :
    (v.rescale a).rescale c = v.rescale (a * c) := by
  simp only [Split.rescale,Vec.scale_scale]

theorem rescale_initial (a : ℝ) (z : List ℝ) : (Split.initial z).rescale a = Split.initial z := by
  simp [Split.initial,Split.rescale,Vec.scale]

/-- The duals start at zero. -/
theorem unscaled_of_start (h : start p image = .ok s) : s.unscaled = s := by
  obtain ⟨zs,_,h⟩ := Checked.bind_eq_ok.mp h
  obtain ⟨splits,hsplits,rfl⟩ := Checked.map_eq_ok.mp h
  have hmap : splits.map (Split.rescale p.settings.rho) = splits := by
    refine (List.map_congr_left fun v hv => ?_).trans (List.map_id splits)
    obtain ⟨⟨t,z⟩,_,hinitial⟩ := Checked.exists_of_mem_mapM hsplits hv
    obtain ⟨y,rfl⟩ : ∃ y, v = Split.initial y := by
      cases hw : p.settings.warmStart with
      | false =>
        rw [hw] at hinitial
        exact ⟨z,(Except.ok.inj hinitial).symm⟩
      | true =>
        rw [hw] at hinitial
        obtain ⟨y,_,rfl⟩ := Checked.map_eq_ok.mp hinitial
        exact ⟨y,rfl⟩
    exact rescale_initial _ y
  exact congrArg (State.mk image · _ _ _ _) hmap

theorem mem_terms_of_begin {fast : Bool}
    (h : m ∈ List.zipWith (begin fast) p.terms s.splits) : m.term ∈ p.terms := by
  obtain ⟨i,hi⟩ := List.getElem?_of_mem h
  obtain ⟨t,v,ht,_,rfl⟩ := List.getElem?_zipWith_eq_some.mp hi
  exact List.mem_of_getElem? ht

theorem mem_terms_of_update (h : update p op b s = .ok (image,ms)) (hm : m ∈ ms) :
    m.term ∈ p.terms := by
  obtain ⟨_,_,_,hms⟩ := update_eq_ok.mp h
  obtain ⟨m',hm',hmove⟩ := Checked.exists_of_mem_mapM hms hm
  obtain ⟨_,_,hmove⟩ := Checked.bind_eq_ok.mp hmove
  obtain ⟨_,_,rfl⟩ := Checked.map_eq_ok.mp hmove
  exact mem_terms_of_begin (m := m') hm'

namespace Unscaled

theorem rightHandSide_scale (rho : ℝ) (b : Option (List ℝ)) (v : List ℝ) :
    rightHandSide b (Vec.scale rho v) = Admm.rightHandSide rho b v := by
  cases b with
  | none => rfl
  | some b =>
    change List.zipWith (· + ·) b _ = List.zipWith (fun y x => y + 1 * x) _ b
    rw [List.zipWith_comm]
    simp only [one_mul,add_comm]

theorem updateImage_scale (hrho : rho ≠ 0) (image v : List ℝ) :
    updateImage p op b rho image (Vec.scale rho v) = Admm.updateImage p op b rho image v := by
  have hback : Vec.scale (1 / rho) (Vec.scale rho v) = v := by
    rw [Vec.scale_scale,mul_one_div_cancel hrho,Vec.scale_one]
  cases hupdate : p.xUpdate <;>
    simp only [updateImage,Admm.updateImage,hupdate,hback,rightHandSide_scale]

/-- The argument of the proximal map is the same, and so is the dual up to the penalty. -/
theorem move_rescale (hrho : rho ≠ 0) (alpha : ℝ) (image : List ℝ) (m : Moved ℝ) :
    move alpha rho image (m.rescale rho) =
      (Admm.move alpha rho image m).map (Moved.rescale rho) := by
  have harg (h : List ℝ) : List.zipWith (fun h y => h + y / rho) h (Vec.scale rho m.uFrom) =
      Vec.add h m.uFrom := by
    rw [Vec.scale,List.zipWith_map_right]
    simp only [mul_div_cancel_right₀ _ hrho]
    rfl
  have hdual (h z : List ℝ) : Vec.axpy (Vec.scale rho m.uFrom) rho (Vec.sub h z) =
      Vec.scale rho (Vec.sub (Vec.add m.uFrom h) z) := by
    apply List.ext_getElem
    · simp [Vec.axpy,Vec.scale,Vec.sub,Vec.add,min_assoc]
    · intro i _ _
      simp only [Vec.axpy,Vec.scale,Vec.sub,Vec.add,List.getElem_zipWith,List.getElem_map]
      ring
  rw [move,Admm.move]
  simp only [Moved.rescale,Split.rescale,harg,hdual]
  rw [Checked.map_bind]
  refine Checked.bind_congr fun g _ => ?_
  rw [Checked.map_map]
  rfl

theorem mapM_move_rescale (hrho : rho ≠ 0) (alpha : ℝ) (image : List ℝ) (ms : List (Moved ℝ)) :
    (ms.map (Moved.rescale rho)).mapM (move alpha rho image) =
      (ms.mapM (Admm.move alpha rho image)).map (List.map (Moved.rescale rho)) := by
  induction ms with
  | nil => rfl
  | cons m ms ih =>
    rw [List.map_cons,List.mapM_cons,List.mapM_cons,move_rescale hrho,ih,Checked.bind_map,
      Checked.map_bind]
    refine Checked.bind_congr fun m _ => ?_
    rw [Checked.bind_map,Checked.map_bind]
    rfl

/-- The right-hand side of the image update is the same. -/
theorem sumAdjoint_rescale (hms : ∀ m ∈ ms, m.term.transform.AdjointScales) (n : Nat) (rho : ℝ) :
    sumAdjoint n ((ms.map (Moved.rescale rho)).map fun m =>
        (m.term.transform,Vec.sub (Vec.scale rho m.zFrom) m.uFrom)) =
      (sumAdjoint n (ms.map fun m => (m.term.transform,Vec.sub m.zFrom m.uFrom))).map
        (Vec.scale rho) := by
  have hsub (m : Moved ℝ) : Vec.sub (Vec.scale rho m.zFrom) (Vec.scale rho m.uFrom) =
      Vec.scale rho (Vec.sub m.zFrom m.uFrom) :=
    Vec.zipWith_scale (fun v w => by ring) _ _
  rw [← sumAdjoint_scale hms,List.map_map]
  simp only [← hsub]
  rfl

theorem update_unscaled (hterms : ∀ t ∈ p.terms, t.transform.AdjointScales) (hrho : s.rho ≠ 0) :
    update p op b s.unscaled = (Admm.update p op b s).map fun (image,ms) =>
      (image,ms.map (Moved.rescale s.rho)) := by
  have hbegin : List.zipWith (begin p.settings.fast) p.terms s.unscaled.splits =
      (List.zipWith (begin p.settings.fast) p.terms s.splits).map (Moved.rescale s.rho) := by
    rw [State.unscaled,List.zipWith_map_right,List.map_zipWith]
    simp only [begin_rescale]
  have hms : ∀ m ∈ List.zipWith (begin p.settings.fast) p.terms s.splits,
      m.term.transform.AdjointScales := fun m hm => hterms _ (mem_terms_of_begin hm)
  rw [update,Admm.update,hbegin]
  simp only [State.unscaled_image,State.unscaled_rho]
  rw [sumAdjoint_rescale hms,Checked.bind_map,Checked.map_bind]
  refine Checked.bind_congr fun v _ => ?_
  rw [updateImage_scale hrho,Checked.map_bind]
  refine Checked.bind_congr fun image _ => ?_
  rw [mapM_move_rescale hrho,Checked.map_map,Checked.map_map]

/-- No residual and no bound depends on how the duals are kept. -/
theorem balance_rescale (hrho : 0 ≤ rho) (hms : ∀ m ∈ ms, m.term.transform.AdjointScales)
    (a : AdmmSettings ℝ) (n : Nat) :
    balance a rho n (ms.map (Moved.rescale rho)) = Admm.balance a rho n ms := by
  have hsum : sumAdjoint n ((ms.map (Moved.rescale rho)).map fun m => (m.term.transform,m.u)) =
      (sumAdjoint n (ms.map fun m => (m.term.transform,m.u))).map (Vec.scale rho) := by
    rw [← sumAdjoint_scale hms,List.map_map]
    rfl
  rw [balance,Admm.balance,hsum,List.map_map]
  refine Checked.bind_congr fun d _ => ?_
  rw [Checked.map_map,List.map_map,List.map_map,List.map_map,List.foldl_map]
  simp only [Vec.norm_scale hrho,← mul_assoc]
  rfl

theorem merit_rescale (hrho : 0 < rho) (ms : List (Moved ℝ)) :
    merit rho (ms.map (Moved.rescale rho)) = Admm.merit rho ms := by
  have hdual : stackedDist ((ms.map (Moved.rescale rho)).map fun m => (m.u,m.uFrom)) =
      rho * stackedDist (ms.map fun m => (m.u,m.uFrom)) := by
    rw [← stackedDist_scale hrho.le,List.map_map]
    rfl
  have hsplit : stackedDist ((ms.map (Moved.rescale rho)).map fun m => (m.z,m.zFrom)) =
      stackedDist (ms.map fun m => (m.z,m.zFrom)) := by
    rw [List.map_map]
    rfl
  rw [merit,Admm.merit,hdual,hsplit]
  field_simp

theorem accelerate_rescale (hrho : 0 < rho) (fast : Bool) (s : State ℝ) (ms : List (Moved ℝ)) :
    accelerate fast rho s.unscaled (ms.map (Moved.rescale rho)) =
      (((Admm.accelerate fast rho s ms).1).map (Split.rescale rho),
        (Admm.accelerate fast rho s ms).2) := by
  have hrestarted : (ms.map (Moved.rescale rho)).map Moved.restarted =
      (ms.map Moved.restarted).map (Split.rescale rho) := by
    rw [List.map_map,List.map_map]
    rfl
  have hextrapolated (beta : ℝ) : (ms.map (Moved.rescale rho)).map (Moved.extrapolated beta) =
      (ms.map (Moved.extrapolated beta)).map (Split.rescale rho) := by
    rw [List.map_map,List.map_map]
    exact List.map_congr_left fun m _ => m.extrapolated_rescale rho beta
  simp only [accelerate,Admm.accelerate,merit_rescale hrho,map_settle_rescale,hrestarted,
    hextrapolated,State.unscaled_momentum,State.unscaled_merit]
  split
  · split <;> rfl
  · rfl

/-- Where scaled duals follow the penalty, unscaled ones stay. -/
theorem adapt_unscaled {a : AdmmSettings ℝ} (htau : 0 < a.tau) (bal : Balance ℝ) (s : State ℝ) :
    adapt a bal s.unscaled = ((Admm.adapt a bal s).1.unscaled,(Admm.adapt a bal s).2) := by
  have hchange := (change_pos htau bal s.schedule).ne'
  have hsplits : (s.splits.map (Split.rescale (1 / change a bal s.schedule))).map
      (Split.rescale (s.rho * change a bal s.schedule)) = s.splits.map (Split.rescale s.rho) := by
    rw [List.map_map]
    refine List.map_congr_left fun v _ => ?_
    rw [Function.comp_apply,rescale_rescale,one_div_mul_eq_div,mul_div_cancel_right₀ _ hchange]
  rw [Admm.adapt_eq]
  change (if change a bal s.schedule == 1 then _ else _) = _
  split
  · rfl
  · simp only [State.unscaled,hsplits]
    rfl

/-- One iteration, however the duals are kept. -/
theorem pass_unscaled (hterms : ∀ t ∈ p.terms, t.transform.AdjointScales)
    (htau : 0 < p.settings.tau) (hrho : 0 < s.rho) (k : Nat) :
    pass p op b monitor k s.unscaled =
      (Admm.pass p op b monitor k s).map (Pass.mapState State.unscaled) := by
  rw [pass,Admm.pass,update_unscaled hterms hrho.ne',Checked.bind_map,Checked.map_bind]
  refine Checked.bind_congr fun (image,ms) hu => ?_
  have hms : ∀ m ∈ ms, m.term.transform.AdjointScales :=
    fun m hm => hterms _ (mem_terms_of_update hu hm)
  change balance p.settings s.rho s.image.length (ms.map (Moved.rescale s.rho)) >>= _ = _
  rw [balance_rescale hrho.le hms,Checked.map_bind]
  refine Checked.bind_congr fun bal _ => ?_
  rw [Checked.map_map]
  refine congrArg (Except.map · _) (funext fun e => ?_)
  have hsettled : settled p.settings bal (ms.map (Moved.rescale s.rho)) s.unscaled.image image =
      settled p.settings bal ms s.image image := by
    rw [settled,settled,List.isEmpty_map,State.unscaled_image]
  cases hstop : Balance.met bal || settled p.settings bal ms s.image image with
  | true =>
    simp only [hsettled,hstop,if_true,map_settle_rescale]
    rfl
  | false =>
    simp only [hsettled,hstop,Bool.false_eq_true,if_false,State.unscaled_rho,
      accelerate_rescale hrho]
    change Pass.mk (adapt p.settings bal (accelerated p.settings s image ms).unscaled).1 false
      (_ ++ (adapt p.settings bal (accelerated p.settings s image ms).unscaled).2) = _
    rw [adapt_unscaled htau]
    rfl

theorem simulated (hterms : ∀ t ∈ p.terms, t.transform.AdjointScales)
    (htau : 0 < p.settings.tau) :
    Simulated (Admm.pass p op b monitor) (pass p op b monitor) State.unscaled (0 < ·.rho) where
  pass_eq k _ hrho := pass_unscaled hterms htau hrho k
  keep _ _ _ hrho hq := rho_pos_of_pass htau hrho hq

/-- In exact arithmetic a run with scaled duals is one with unscaled ones, with the same outcome:
image, penalty, report and record. Its states are those of the other with `y = rho u`, and their
penalties are positive, however the penalty is changed on the way. -/
theorem run_unscaled (hrho : 0 < p.settings.rho) (htau : 0 < p.settings.tau)
    (hterms : ∀ t ∈ p.terms, t.transform.AdjointScales) (op : Option (Operator ℝ))
    (image : List ℝ) (b : Option (List ℝ)) (monitor : Monitor ℝ) :
    run p op image b monitor = Admm.run p op image b monitor ∧
      ∀ s ps, start p image = .ok s → Trace (Admm.pass p op b monitor) 0 s ps →
        ∃ qs, Trace (pass p op b monitor) 0 s qs ∧
          states s qs = (states s ps).map State.unscaled ∧
          qs.map Pass.events = ps.map Pass.events ∧ ∀ t ∈ states s ps, 0 < t.rho := by
  have hsim : Simulated (Admm.pass p op b monitor) (pass p op b monitor) State.unscaled
      fun t => 0 < t.rho := simulated hterms htau
  have hpos {s : State ℝ} (hs : start p image = .ok s) : 0 < s.rho := by
    rwa [(start_eq_ok hs).2]
  refine ⟨?_,fun s ps hs ht => ?_⟩
  · rw [run,Admm.run]
    split
    · rfl
    · refine Checked.bind_congr fun _ _ => Checked.bind_congr fun s hs => ?_
      have hiterate := hsim.iterate_eq (k := 0) (hpos hs) p.settings.maxIter
      rw [unscaled_of_start hs] at hiterate
      rw [hiterate,Checked.map_map]
      rfl
  · have htrace := hsim.trace (hpos hs) ht
    rw [unscaled_of_start hs] at htrace
    refine ⟨_,htrace,?_,?_,hsim.of_mem_states (hpos hs) ht⟩
    · rw [states,states,List.map_cons,unscaled_of_start hs,List.map_map,List.map_map]
      rfl
    · rw [List.map_map]
      rfl

/-- With every rule for the penalty in use. -/
theorem run_unscaled_identityPlan : ∃ (o : Outcome ℝ) (s : State ℝ)
    (ps qs : List (Pass ℝ (State ℝ))),
    run identityPlan (some .identity) [0,0] (some [1,0]) (.silent "admm") = .ok o ∧
      Traced identityPlan (some .identity) (some [1,0]) (.silent "admm") [0,0] o s ps ∧
      Trace (pass identityPlan (some .identity) (some [1,0]) (.silent "admm")) 0 s qs ∧
      states s qs = (states s ps).map State.unscaled ∧ ∀ t ∈ states s ps, 0 < t.rho := by
  obtain ⟨o,ho⟩ := exists_run_identity (p := identityPlan) rfl rfl 1 0
  obtain ⟨s,ps,ht⟩ := exists_traced ho
  have hterms : ∀ t ∈ identityPlan.terms, t.transform.AdjointScales :=
    List.forall_mem_singleton.mpr (identityTerm (.ridge 1)).adjointScales
  have htau : identityPlan.settings.tau = 2.0 := rfl
  obtain ⟨hrun,htraces⟩ := run_unscaled (p := identityPlan) one_pos (by rw [htau]; norm_num) hterms
    (some .identity) [0,0] (some [1,0]) (.silent "admm")
  obtain ⟨qs,hqs,hstates,_,hpos⟩ := htraces s ps ht.start_eq ht.trace
  exact ⟨o,s,ps,qs,hrun.trans ho,ht,hqs,hstates,hpos⟩

end Unscaled

end Admm

end LinearInverse
