import LinearInverse.AlternatingProjections
import LinearInverse.Scalar.Binary64
import LinearInverse.Proofs.Progress
import LinearInverse.Proofs.Prox.Projection

namespace LinearInverse.AlternatingProjections
variable {α : Type} [Scalar α] {ps : List (ProxOperator α)} {s t : State α} {x y : List α}
  {monitor : Monitor α} {m n k : Nat}

/-- One projection after the other. A map that does not look at its buffer can be given any. -/
def composed (ps : List (ProxOperator α)) (x : List α) : Checked α (List α) :=
  ps.foldlM (fun y p => p.apply 1 y y) x

/-- The composition, `n` times. -/
def repeated (ps : List (ProxOperator α)) : Nat → List α → Checked α (List α)
  | 0, x => .ok x
  | n + 1, x => composed ps x >>= repeated ps n

theorem repeated_add (m n : Nat) (x : List α) :
    repeated ps (m + n) x = repeated ps m x >>= repeated ps n := by
  induction m generalizing x with
  | zero => rw [Nat.zero_add]; rfl
  | succ m ih =>
    rw [Nat.succ_add,repeated,repeated,bind_assoc]
    exact congrArg _ (funext ih)

theorem length_project {p : ProxOperator α} (h : project s p = .ok t)
    (hs : s.buffer.length = s.image.length) :
    t.image.length = s.image.length ∧ t.buffer.length = t.image.length := by
  obtain ⟨out,hout,rfl⟩ := Checked.map_eq_ok.mp h
  exact ⟨(p.length_apply hout).trans hs,rfl⟩

theorem length_sweep (h : sweep ps s = .ok t) (hs : s.buffer.length = s.image.length) :
    t.image.length = s.image.length ∧ t.buffer.length = t.image.length := by
  induction ps generalizing s with
  | nil => cases h; exact ⟨rfl,hs⟩
  | cons p ps ih =>
    obtain ⟨u,hu,h⟩ := Checked.bind_eq_ok.mp ((List.foldlM_cons ..).symm.trans h)
    obtain ⟨hlen,hbuffer⟩ := length_project hu hs
    obtain ⟨hlen',hbuffer'⟩ := ih h hbuffer
    exact ⟨hlen'.trans hlen,hbuffer'⟩

/-- A sweep puts the composition into the image. -/
theorem sweep_image (hp : ∀ p ∈ ps, p.Pure) (hs : s.buffer.length = s.image.length) :
    (sweep ps s).map State.image = composed ps s.image := by
  induction ps generalizing s with
  | nil => rfl
  | cons p ps ih =>
    obtain ⟨hpure,hps⟩ := List.forall_mem_cons.mp hp
    rw [sweep,composed,List.foldlM_cons,List.foldlM_cons,project,hpure 1 _ s.image _ hs rfl]
    cases p.apply 1 s.image s.image with
    | error d => rfl
    | ok out => exact ih hps rfl

/-- The image that a run leaves, with the number it is reported with. -/
theorem iterate_image (hp : ∀ p ∈ ps, p.Pure) (hs : s.buffer.length = s.image.length)
    (hm : ∀ t, monitor.truth = some t → t.length = s.image.length) (k n : Nat) :
    (iterate (pass ps monitor) n k s).map (fun r => (r.report,r.state.image)) =
      (repeated ps n s.image).map fun y => (⟨.maxIterReached,k + n⟩,y) := by
  induction n generalizing k s with
  | zero => rfl
  | succ n ih =>
    have himage := sweep_image hp hs
    rw [iterate,repeated,← himage,pass]
    cases hsweep : sweep ps s with
    | error d => rfl
    | ok t =>
      obtain ⟨hlen,hbuffer⟩ := length_sweep hsweep hs
      have hm' : ∀ u, monitor.truth = some u → u.length = t.image.length :=
        fun u hu => (hm u hu).trans hlen.symm
      obtain ⟨e,he⟩ := monitor.exists_report hm' k (Vec.dist t.image s.image)
      have hrest := ih hbuffer hm' (k + 1)
      rw [Nat.add_assoc,Nat.add_comm 1] at hrest
      change ((monitor.report k t.image _).map _ >>= _).map _ = _
      rw [he]
      change ((iterate (pass ps monitor) n (k + 1) t).map _).map _ = (repeated ps n t.image).map _
      rw [← hrest]
      cases iterate (pass ps monitor) n (k + 1) t <;> rfl

/-- What a run answers, if the ground truth has the length of the image. -/
theorem run_eq (hp : ∀ p ∈ ps, p.Pure)
    (hm : ∀ t, monitor.truth = some t → t.length = x.length) (n : Nat) :
    (run n ps x monitor).map (fun o => (o.report,o.image)) =
      (repeated ps n x).map fun y => (⟨.maxIterReached,n⟩,y) := by
  have h := iterate_image (s := ⟨x,x.map fun _ => 0⟩) hp (List.length_map _) hm 0 n
  rw [Nat.zero_add] at h
  rw [← h,run]
  cases iterate (pass ps monitor) n 0 ⟨x,x.map fun _ => 0⟩ <;> rfl

theorem run_image (hp : ∀ p ∈ ps, p.Pure)
    (hm : ∀ t, monitor.truth = some t → t.length = x.length) (n : Nat) :
    (run n ps x monitor).map Solution.image = repeated ps n x := by
  have h := congrArg (Except.map Prod.snd) (run_eq hp hm n)
  cases hr : run n ps x monitor <;> cases hy : repeated ps n x <;> rw [hr,hy] at h
  · exact congrArg Except.error (Except.error.inj h)
  · cases h
  · cases h
  · exact congrArg Except.ok (Except.ok.inj h)

theorem length_composed (h : composed ps x = .ok y) : y.length = x.length := by
  induction ps generalizing x with
  | nil => cases h; rfl
  | cons p ps ih =>
    obtain ⟨u,hu,h⟩ := Checked.bind_eq_ok.mp ((List.foldlM_cons ..).symm.trans h)
    exact (ih h).trans (p.length_apply hu)

theorem length_repeated (h : repeated ps n x = .ok y) : y.length = x.length := by
  induction n generalizing x with
  | zero => cases h; rfl
  | succ n ih =>
    obtain ⟨u,hu,h⟩ := Checked.bind_eq_ok.mp h
    exact (ih h).trans (length_composed hu)

/-- Two runs in a row do what one with the iterations of both does. -/
theorem run_append (hp : ∀ p ∈ ps, p.Pure)
    (hm : ∀ t, monitor.truth = some t → t.length = x.length) (m n : Nat) :
    (run m ps x monitor >>= fun o => run n ps o.image monitor).map Solution.image =
      (run (m + n) ps x monitor).map Solution.image := by
  rw [run_image hp hm,repeated_add,← run_image hp hm]
  cases hr : run m ps x monitor with
  | error d => rfl
  | ok o =>
    have hlen : o.image.length = x.length :=
      length_repeated (n := m) (by rw [← run_image hp hm,hr]; rfl)
    exact run_image hp (fun t ht => (hm t ht).trans hlen.symm) n

open ProxOperator (Constraint ofFixed)
open ProxOperator.Projection (Fixed fix fixAll)

theorem composed_ofFixed {gs : List (Defect α × Fixed α)} (hx : x.length = 2 * m)
    (h : ∀ g ∈ gs, g.2.length = m) : composed (gs.map fun g => ofFixed g.1 g.2) x =
      .ok (Cplx.interleave (fixAll (gs.map Prod.snd) (Cplx.pairs x))) := by
  induction gs generalizing x with
  | nil => exact congrArg Except.ok (Cplx.interleave_pairs x (by omega)).symm
  | cons g gs ih =>
    obtain ⟨hg,hgs⟩ := List.forall_mem_cons.mp h
    have happly : (ofFixed g.1 g.2).apply 1 x x =
        .ok (Cplx.interleave (fix g.2 (Cplx.pairs x))) :=
      ProxOperator.apply_ofFixed (hg.symm ▸ hx) rfl
    have hlen := (ofFixed g.1 g.2).length_apply happly
    rw [composed,List.map_cons,List.foldlM_cons,happly]
    have hrest := ih (hlen.trans hx) hgs
    rw [Cplx.pairs_interleave] at hrest
    exact hrest

/-- Where a round of projections of the library leads: an element that none of them overwrites is
as before, and if the sets have a common point, the result is in all of them. -/
structure Settles (cs : List (Constraint α)) (ps : List (ProxOperator α)) (x y : List α) :
    Prop where
  kept : ∀ j, (∀ c ∈ cs, ¬c.Overwrites j) →
    y[2 * j]? = x[2 * j]? ∧ y[2 * j + 1]? = x[2 * j + 1]?
  common : (∃ v, ∀ p ∈ ps, p.Fixes v) → ∀ p ∈ ps, p.Fixes y

variable {cs : List (Constraint α)}

theorem repeated_of_fixed (hx : composed ps x = .ok y) (hy : composed ps y = .ok y) (n : Nat) :
    repeated ps (n + 1) x = .ok y := by
  induction n generalizing x with
  | zero => rw [repeated,hx]; rfl
  | succ n ih => rw [repeated,hx]; exact ih hy

/-- One round of projections of the library, and nothing is left to do for a second. -/
theorem exists_settled (hps : cs.mapM Constraint.projection = .ok ps) (hx : x.length = 2 * m)
    (hcs : ∀ c ∈ cs, c.mask.length = m) : (∀ p ∈ ps, p.Pure) ∧
      ∃ y, composed ps x = .ok y ∧ composed ps y = .ok y ∧ Settles cs ps x y := by
  obtain ⟨gs,rfl,hgs,_⟩ := Constraint.exists_fixed_all hps
  have hlen : ∀ g ∈ gs, g.2.length = m := by
    intro g hg
    obtain ⟨c,hc,hdesc⟩ := hgs g hg
    exact hdesc.length.trans (hcs c hc)
  have hpairs : (Cplx.pairs x).length = m := by
    rw [Cplx.length_pairs]
    omega
  have hfix : ∀ f ∈ gs.map Prod.snd, f.length = (Cplx.pairs x).length := by
    intro f hf
    obtain ⟨g,hg,rfl⟩ := List.mem_map.mp hf
    exact (hlen g hg).trans hpairs.symm
  have hy := length_composed (composed_ofFixed hx hlen)
  have hagain := composed_ofFixed (hy.trans hx) hlen
  rw [Cplx.pairs_interleave,ProxOperator.Projection.fixAll_fixAll hfix] at hagain
  refine ⟨fun p hp => ?_,_,composed_ofFixed hx hlen,hagain,fun j hj => ?_,?_⟩
  · obtain ⟨g,_,rfl⟩ := List.mem_map.mp hp
    exact ProxOperator.pure_ofFixed g.1 g.2
  · have hnone : ProxOperator.Projection.lastValue (gs.map Prod.snd) j = none := by
      refine ProxOperator.Projection.lastValue_eq_none_iff.mpr fun f hf => ?_
      obtain ⟨g,hg,rfl⟩ := List.mem_map.mp hf
      obtain ⟨c,hc,hdesc⟩ := hgs g hg
      exact hdesc.value_eq_none (hj c hc)
    have hsame : (fixAll (gs.map Prod.snd) (Cplx.pairs x))[j]? = (Cplx.pairs x)[j]? := by
      rw [ProxOperator.Projection.getElem?_fixAll hfix,hnone]
      exact Option.map_id'
    obtain ⟨hre,him⟩ := Cplx.getElem?_interleave (fixAll (gs.map Prod.snd) (Cplx.pairs x)) j
    obtain ⟨hre',him'⟩ := Cplx.getElem?_interleave (Cplx.pairs x) j
    rw [Cplx.interleave_pairs x (by omega)] at hre' him'
    exact ⟨by rw [hre,hre',hsame],by rw [him,him',hsame]⟩
  · rintro ⟨v,hv⟩ p hp
    have hfixes : ∀ g ∈ gs, v.length = 2 * g.2.length ∧ fix g.2 (Cplx.pairs v) = Cplx.pairs v :=
      fun g hg => ProxOperator.fixes_ofFixed_iff.mp (hv _ (List.mem_map.mpr ⟨g,hg,rfl⟩))
    obtain ⟨g,hg,rfl⟩ := List.mem_map.mp hp
    have hv' : (Cplx.pairs v).length = (Cplx.pairs x).length := by
      rw [Cplx.length_pairs,hpairs,(hfixes g hg).1,hlen g hg]
      omega
    refine ProxOperator.fixes_ofFixed_iff.mpr ⟨by rw [hy,hx,hlen g hg],?_⟩
    rw [Cplx.pairs_interleave]
    refine ProxOperator.Projection.fix_fixAll hfix hv' (fun f hf => ?_)
      (List.mem_map.mpr ⟨g,hg,rfl⟩)
    obtain ⟨g',hg',rfl⟩ := List.mem_map.mp hf
    exact (hfixes g' hg').2

/-- A run answers with a power of the composition of its projections, whatever these are, and always
reports its cap. With projections of the library the power does not matter unless it is zero. -/
theorem run_projections (x : List α) (monitor : Monitor α)
    (hm : ∀ t, monitor.truth = some t → t.length = x.length) :
    (∀ ps : List (ProxOperator α), (∀ p ∈ ps, p.Pure) →
      (∀ n, (run n ps x monitor).map (fun o => (o.report,o.image)) =
        (repeated ps n x).map fun y => (⟨.maxIterReached,n⟩,y)) ∧
      ∀ m n, (run m ps x monitor >>= fun o => run n ps o.image monitor).map Solution.image =
        (run (m + n) ps x monitor).map Solution.image) ∧
    ∀ cs ps m, cs.mapM Constraint.projection = .ok ps → x.length = 2 * m →
      (∀ c ∈ cs, c.mask.length = m) → (∀ p ∈ ps, p.Pure) ∧
        (∀ v, (∀ p ∈ ps, p.Fixes v) ↔ ∀ c ∈ cs, c.Contains v) ∧ ∃ y, Settles cs ps x y ∧
          ∀ n, 1 ≤ n → ∃ log, run n ps x monitor = .ok ⟨⟨.maxIterReached,n⟩,y,log⟩ := by
  refine ⟨fun ps hp => ⟨run_eq hp hm,run_append hp hm⟩,fun cs ps m hps hx hcs => ?_⟩
  obtain ⟨hp,y,hxy,hyy,hsettles⟩ := exists_settled hps hx hcs
  refine ⟨hp,fun v => Constraint.forall_fixes_iff hps,y,hsettles,fun n hn => ?_⟩
  have hrun := run_eq hp hm n
  obtain ⟨k,rfl⟩ := Nat.exists_eq_add_of_le' hn
  rw [repeated_of_fixed hxy hyy k] at hrun
  obtain ⟨o,ho,heq⟩ := Checked.map_eq_ok.mp hrun
  obtain ⟨report,image,log⟩ := o
  cases heq
  exact ⟨log,ho⟩

/-- Three sets, of which two contradict each other in the second element. -/
def conflictingSets : List (Constraint Float) :=
  [.support [true,false,true],.measured [true,true,false] [⟨5,-1⟩,⟨2,0⟩,⟨0,0⟩],
    .support [true,false,true]]

theorem run_conflictingSets : ∃ (ps : List (ProxOperator Float)) (y : List Float),
    conflictingSets.mapM Constraint.projection = .ok ps ∧
      Settles conflictingSets ps [1,2,3,4,0 / 0,6] y ∧
      (∃ log, run 3 ps [1,2,3,4,0 / 0,6] (.silent "pocs") = .ok ⟨⟨.maxIterReached,3⟩,y,log⟩) ∧
      (run 1 ps [1,2,3,4,0 / 0,6] (.silent "pocs") >>= fun o =>
        run 2 ps o.image (.silent "pocs")).map Solution.image = .ok y := by
  obtain ⟨ps,hps⟩ : ∃ ps, conflictingSets.mapM Constraint.projection = .ok ps := ⟨_,rfl⟩
  obtain ⟨hpowers,hsets⟩ := run_projections [1,2,3,4,(0 / 0 : Float),6] (.silent "pocs") nofun
  obtain ⟨hpure,_,y,hsettles,hruns⟩ := hsets _ ps 3 hps rfl (by decide)
  obtain ⟨log,hlog⟩ := hruns 3 (by decide)
  refine ⟨ps,y,hps,hsettles,⟨log,hlog⟩,?_⟩
  rw [(hpowers ps hpure).2 1 2,hlog]
  rfl

end LinearInverse.AlternatingProjections
