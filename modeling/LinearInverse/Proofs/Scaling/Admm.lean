import LinearInverse.Proofs.Admm.Points
import LinearInverse.Proofs.Scaling.ConjugateGradient

namespace LinearInverse

/-- The absolute tolerance for `c` times the vectors. -/
noncomputable def AdmmSettings.scaled (c : ℝ) (a : AdmmSettings ℝ) : AdmmSettings ℝ :=
  { a with absTol := c * a.absTol }

namespace Admm
variable {c : ℝ} {n k : Nat} {p p' : Plan ℝ} {op : Option (Operator ℝ)} {b : Option (List ℝ)}
  {monitor monitor' : Monitor ℝ} {s : State ℝ} {x image : List ℝ} {m m' : Moved ℝ}
  {ms ms' : List (Moved ℝ)} {ts ts' : List (Term ℝ)} {rho : ℝ}

/-- A term for multiples. -/
structure Term.ScaledBy (c : ℝ) (t t' : Term ℝ) : Prop where
  transform : t'.transform = t.transform
  scales : t.transform.Scales
  prox : ProxOperator.ScaledBy c t.prox t'.prox

/-- A plan for multiples. The image is left to the inner solve. -/
structure Plan.ScaledBy (c : ℝ) (p p' : Plan ℝ) : Prop where
  settings : p'.settings = p.settings.scaled c
  terms : List.Forall₂ (Term.ScaledBy c) p.terms p'.terms
  xUpdate : p.xUpdate = none
  xUpdate' : p'.xUpdate = none

noncomputable def Split.scaled (c : ℝ) (v : Split ℝ) : Split ℝ :=
  ⟨Vec.scale c v.z,Vec.scale c v.u,Vec.scale c v.zHat,Vec.scale c v.uHat,Vec.scale c v.zPrev,
    Vec.scale c v.uPrev⟩

noncomputable def State.scaled (c : ℝ) (s : State ℝ) : State ℝ :=
  { s with
    image := Vec.scale c s.image
    splits := s.splits.map (Split.scaled c)
    merit := s.merit.map (c * c * ·) }

/-- A term within iterations on a vector and on its multiple. -/
structure Moved.ScaledBy (c : ℝ) (m m' : Moved ℝ) : Prop where
  term : m.term.ScaledBy c m'.term
  split : m'.split = m.split.scaled c
  zFrom : m'.zFrom = Vec.scale c m.zFrom
  uFrom : m'.uFrom = Vec.scale c m.uFrom
  gx : m'.gx = Vec.scale c m.gx
  z : m'.z = Vec.scale c m.z
  u : m'.u = Vec.scale c m.u

section
variable {f g : Moved ℝ → List ℝ}

theorem sumAdjoint_scaled (h : List.Forall₂ (Moved.ScaledBy c) ms ms')
    (hf : ∀ m m', m.ScaledBy c m' → f m' = Vec.scale c (f m)) (n : Nat) :
    sumAdjoint n (ms'.map fun m => (m.term.transform,f m)) =
      (sumAdjoint n (ms.map fun m => (m.term.transform,f m))).map (Vec.scale c) := by
  have hmap : ms'.map (fun m => (m.term.transform,f m)) =
      ms.map fun m => (m.term.transform,Vec.scale c (f m)) :=
    map_eq_of_forall₂ h fun m m' hm => by rw [hm.term.transform,hf m m' hm]
  have hadjoint : ∀ m ∈ ms, m.term.transform.AdjointScales :=
    ((List.forall₂_and_left _ _).mp (h.imp fun m m' hm => ⟨hm.term.scales.adjoint,hm⟩)).1
  rw [hmap,sumAdjoint_scale hadjoint]

theorem stackedDist_scaled (hc : 0 < c) (h : List.Forall₂ (Moved.ScaledBy c) ms ms')
    (hf : ∀ m m', m.ScaledBy c m' → f m' = Vec.scale c (f m))
    (hg : ∀ m m', m.ScaledBy c m' → g m' = Vec.scale c (g m)) :
    stackedDist (ms'.map fun m => (f m,g m)) = c * stackedDist (ms.map fun m => (f m,g m)) := by
  have hmap : ms'.map (fun m => (f m,g m)) =
      ms.map fun m => (Vec.scale c (f m),Vec.scale c (g m)) :=
    map_eq_of_forall₂ h fun m m' hm => by rw [hf m m' hm,hg m m' hm]
  rw [hmap,stackedDist_scale hc.le]

theorem stackedNorm_scaled (hc : 0 < c) (h : List.Forall₂ (Moved.ScaledBy c) ms ms')
    (hf : ∀ m m', m.ScaledBy c m' → f m' = Vec.scale c (f m)) :
    stackedNorm (ms'.map f) = c * stackedNorm (ms.map f) := by
  have hmap : (ms'.map f).map (fun v => Vec.norm v * Vec.norm v) =
      (ms.map f).map fun v => Vec.norm v * Vec.norm v * (c * c) := by
    rw [List.map_map,List.map_map]
    refine map_eq_of_forall₂ h fun m m' hm => ?_
    change Vec.norm (f m') * Vec.norm (f m') = _
    rw [hf m m' hm,Vec.norm_scale hc.le]
    exact mul_mul_mul_comm _ _ _ _ |>.trans (mul_comm _ _)
  rw [stackedNorm,stackedNorm,hmap,Scalar.real_sum,Scalar.real_sum,List.sum_map_mul_right,
    Scalar.real_sqrt,Scalar.real_sqrt,Real.sqrt_mul' _ (mul_self_nonneg c),
    Real.sqrt_mul_self hc.le,mul_comm]

end

theorem addNormals_scaled (h : List.Forall₂ (Term.ScaledBy c) ts ts') (rho : ℝ) (x acc : List ℝ) :
    addNormals rho (Vec.scale c x) ts' (Vec.scale c acc) =
      (addNormals rho x ts acc).map (Vec.scale c) := by
  induction h generalizing acc with
  | nil => rfl
  | @cons t t' _ _ ht _ ih =>
    rw [addNormals,addNormals,ht.transform,Vec.length_scale,ht.scales.normal,Checked.bind_map,
      Checked.map_bind]
    refine Checked.bind_congr fun y _ => ?_
    rw [Vec.axpy_scale,ih]

theorem augmented_scaled (hop : ∀ A, op = some A → Operator.ScaledBy c n A A)
    (h : List.Forall₂ (Term.ScaledBy c) ts ts') (rho : ℝ) :
    Operator.ScaledBy c n (augmented op rho ts) (augmented op rho ts') := by
  intro x hx
  have hnormal : applyNormal op (Vec.scale c x) = (applyNormal op x).map (Vec.scale c) := by
    cases op with
    | none => exact congrArg Except.ok (Vec.map_zero_scale c x)
    | some A => exact hop A rfl x hx
  rw [augmented,augmented,Operator.apply_square,Operator.apply_square,hnormal,Checked.bind_map,
    Checked.map_bind]
  exact Checked.bind_congr fun acc _ => addNormals_scaled h rho x acc

theorem rightHandSide_scaled (rho : ℝ) (b : Option (List ℝ)) (v : List ℝ) :
    rightHandSide rho (b.map (Vec.scale c)) (Vec.scale c v) =
      Vec.scale c (rightHandSide rho b v) := by
  cases b with
  | none => exact Vec.scale_comm rho c v
  | some b =>
    change Vec.axpy (Vec.scale rho (Vec.scale c v)) 1 (Vec.scale c b) = _
    rw [Vec.scale_comm,Vec.axpy_scale]
    rfl

theorem updateImage_scaled (h : p.ScaledBy c p') (hc : 0 < c)
    (hop : ∀ A, op = some A → Operator.ScaledBy c n A A) (hx : x.length = n)
    (b : Option (List ℝ)) (rho : ℝ) (v : List ℝ) :
    updateImage p' op (b.map (Vec.scale c)) rho (Vec.scale c x) (Vec.scale c v) =
      (updateImage p op b rho x v).map (Vec.scale c) := by
  have hsolve := ConjugateGradient.solve_scaled (augmented_scaled hop h.terms rho) hc hx
    p.settings.maxIterInner 0 0 (rightHandSide rho b v)
  rw [mul_zero] at hsolve
  rw [updateImage,updateImage,h.xUpdate,h.xUpdate',isEmpty_eq_of_forall₂ h.terms,
    rightHandSide_scaled,h.settings]
  dsimp only
  split
  · change (ConjugateGradient.solve p.settings.maxIterInner _ _ _ _ _).map _ = _
    rw [hsolve,Checked.map_map,Checked.map_map]
  · rfl

theorem scaledBy_begin {t t' : Term ℝ} (h : t.ScaledBy c t') (fast : Bool) (v : Split ℝ) :
    (begin fast t v).ScaledBy c (begin fast t' (v.scaled c)) := by
  cases fast <;> exact ⟨h,rfl,rfl,rfl,rfl,rfl,rfl⟩

theorem relax_scale (alpha c : ℝ) (g z : List ℝ) :
    relax alpha (Vec.scale c g) (Vec.scale c z) = Vec.scale c (relax alpha g z) :=
  Vec.zipWith_scale (fun v w => by ring) g z

/-- The vectors of a term have one length at the start of an iteration. -/
structure Moved.Begun (m : Moved ℝ) : Prop where
  split : m.split.Sized m.split.z.length
  zFrom : m.zFrom.length = m.split.z.length
  uFrom : m.uFrom.length = m.split.z.length

theorem both_move (h : m.ScaledBy c m') (hm : m.Begun) (alpha rho : ℝ) (image : List ℝ) :
    Checked.Both (Moved.ScaledBy c) (move alpha rho image m)
      (move alpha rho (Vec.scale c image) m') := by
  have hforward := h.term.scales.forward m.split.z.length c image
  rw [move,move,h.term.transform,h.split]
  change Checked.Both _ _ (m.term.transform.flatForward (Vec.scale c m.split.z).length _ >>= _)
  rw [Vec.length_scale]
  refine (Checked.Both.of_eq_map hforward).bind fun gx gx' hgx hgx' => ?_
  subst hgx'
  have hlen : m.split.z.length = (Vec.add (relax alpha gx m.zFrom) m.uFrom).length := by
    have hgx := Transform.length_flatForward hgx
    have hz := hm.zFrom
    have hu := hm.uFrom
    simp only [Vec.add,relax,List.length_zipWith]
    omega
  have hprox := h.term.prox (1 / rho) m.split.z _ hlen
  rw [← Vec.add_scale,← relax_scale] at hprox
  simp only [h.zFrom,h.uFrom]
  refine (Checked.Both.of_eq_map hprox).map fun z z' hz => ?_
  subst hz
  refine ⟨h.term,rfl,rfl,rfl,rfl,rfl,?_⟩
  simp only [relax_scale,Vec.add_scale,Vec.sub_scale]

/-- The vectors of a state have the length of the image, or one for each term. -/
structure Sized (n : Nat) (s : State ℝ) : Prop where
  image : s.image.length = n
  splits : ∀ v ∈ s.splits, v.Sized v.z.length

theorem Sized.forall_begun (hs : Sized n s) (p : Plan ℝ) :
    ∀ m ∈ List.zipWith (begin p.settings.fast) p.terms s.splits, m.Begun := by
  intro m hm
  rw [← List.map_uncurry_zip_eq_zipWith] at hm
  obtain ⟨⟨t,v⟩,hmem,rfl⟩ := List.mem_map.mp hm
  have hv := (List.of_mem_zip hmem).2
  obtain ⟨hz,hu⟩ := sized_begin (hs.splits v hv) p.settings.fast t
  exact ⟨hs.splits v hv,hz,hu⟩

theorem both_update (h : p.ScaledBy c p') (hc : 0 < c)
    (hop : ∀ A, op = some A → Operator.ScaledBy c n A A) (hs : Sized n s) (b : Option (List ℝ)) :
    Checked.Both
      (fun (image,ms) (image',ms') =>
        image' = Vec.scale c image ∧ List.Forall₂ (Moved.ScaledBy c) ms ms')
      (update p op b s) (update p' op (b.map (Vec.scale c)) (s.scaled c)) := by
  have hbegin : List.Forall₂ (fun m m' => m.Begun ∧ m.ScaledBy c m')
      (List.zipWith (begin p.settings.fast) p.terms s.splits)
      (List.zipWith (begin p.settings.fast) p'.terms (s.scaled c).splits) := by
    refine (List.forall₂_and_left _ _).mpr ⟨hs.forall_begun p,?_⟩
    have hsplits : List.Forall₂ (fun v v' => v' = v.scaled c) s.splits (s.scaled c).splits :=
      List.forall₂_map_right_iff.mpr (List.forall₂_same.mpr fun v _ => rfl)
    refine forall₂_zipWith h.terms hsplits fun t t' v v' ht hv => ?_
    subst hv
    exact scaledBy_begin ht p.settings.fast v
  have hsum := sumAdjoint_scaled (f := fun m => Vec.sub m.zFrom m.uFrom)
    (hbegin.imp fun m m' hm => hm.2)
    (fun m m' hm => by rw [hm.zFrom,hm.uFrom,Vec.sub_scale]) s.image.length
  have hfast : p'.settings.fast = p.settings.fast := by rw [h.settings]; rfl
  have halpha : p'.settings.alpha = p.settings.alpha := by rw [h.settings]; rfl
  rw [update,update,hfast,halpha]
  change Checked.Both _ _ (sumAdjoint (Vec.scale c s.image).length _ >>= _)
  rw [Vec.length_scale]
  refine (Checked.Both.of_eq_map hsum).bind fun v v' _ hv => ?_
  subst hv
  have hupdate := updateImage_scaled h hc hop hs.image b s.rho v
  refine (Checked.Both.of_eq_map hupdate).bind fun image image' _ himage => ?_
  subst himage
  refine (Checked.Both.mapM hbegin fun m m' hm => ?_).map fun ms ms' hms => ⟨rfl,hms⟩
  exact both_move hm.2 hm.1 p.settings.alpha s.rho image

theorem balance_scaled (hc : 0 < c) (h : List.Forall₂ (Moved.ScaledBy c) ms ms')
    (a : AdmmSettings ℝ) (rho : ℝ) (n : Nat) :
    balance (a.scaled c) rho n ms' = (balance a rho n ms).map (Balance.scaled c) := by
  have htotal : ms'.foldl (fun n m => n + m.z.length) 0 =
      ms.foldl (fun n m => n + m.z.length) 0 := by
    have hlengths : ms'.map (fun m => m.z.length) = ms.map fun m => m.z.length :=
      map_eq_of_forall₂ h fun m m' hm => by rw [hm.z,Vec.length_scale]
    have hfold := congrArg (List.foldl (· + ·) 0) hlengths
    rwa [List.foldl_map,List.foldl_map] at hfold
  rw [balance,balance,
    sumAdjoint_scaled h (fun m m' hm => by rw [hm.z,hm.zFrom,Vec.sub_scale]) n,
    sumAdjoint_scaled h (fun m m' hm => hm.u) n,Checked.bind_map,Checked.map_bind]
  refine Checked.bind_congr fun d _ => ?_
  rw [Checked.map_map,Checked.map_map]
  refine congrArg (Except.map · (sumAdjoint n (ms.map fun m => (m.term.transform,m.u))))
    (funext fun v => ?_)
  simp only [Balance.scaled,AdmmSettings.scaled,htotal,Balance.mk.injEq,Vec.norm_scale hc.le,
    stackedDist_scaled hc h (fun m m' hm => hm.gx) (fun m m' hm => hm.z),
    stackedNorm_scaled hc h (fun m m' hm => hm.gx),stackedNorm_scaled hc h (fun m m' hm => hm.z),
    Scalar.real_max,← mul_max_of_nonneg _ _ hc.le]
  refine ⟨trivial,?_,?_,?_,trivial⟩ <;> ring

theorem met_scaled (hc : 0 < c) (bal : Balance ℝ) :
    Balance.met (bal.scaled c) = Balance.met bal := by
  simp only [Balance.met,Balance.scaled,mul_lt_mul_iff_right₀ hc]

theorem settled_scaled (hc : 0 < c) (h : List.Forall₂ (Moved.ScaledBy c) ms ms')
    (a : AdmmSettings ℝ) (bal : Balance ℝ) (old new : List ℝ) :
    settled (a.scaled c) (bal.scaled c) ms' (Vec.scale c old) (Vec.scale c new) =
      settled a bal ms old new := by
  have hbound : c * bal.dualBound + a.relTol * (c * Vec.norm new) =
      c * (bal.dualBound + a.relTol * Vec.norm new) := by ring
  simp only [settled,Balance.scaled,AdmmSettings.scaled,isEmpty_eq_of_forall₂ h,
    Vec.dist_scale hc.le,Vec.norm_scale hc.le,hbound,mul_le_mul_iff_right₀ hc]

theorem merit_scaled (hc : 0 < c) (h : List.Forall₂ (Moved.ScaledBy c) ms ms') (rho : ℝ) :
    merit rho ms' = c * c * merit rho ms := by
  simp only [merit,stackedDist_scaled hc h (fun m m' hm => hm.u) (fun m m' hm => hm.uFrom),
    stackedDist_scaled hc h (fun m m' hm => hm.z) (fun m m' hm => hm.zFrom)]
  ring

theorem improves_scaled (hc : 0 < c) (v : ℝ) (old : Option ℝ) :
    improves (c * c * v) (old.map (c * c * ·)) = improves v old := by
  cases old with
  | none => simp [improves]
  | some w =>
    have hfactor : 0.999 * (c * c * w) = c * c * (0.999 * w) := by ring
    simp only [improves,Option.map_some,hfactor,mul_lt_mul_iff_right₀ (mul_pos hc hc)]

theorem map_scaled {f : Moved ℝ → Split ℝ} (h : List.Forall₂ (Moved.ScaledBy c) ms ms')
    (hf : ∀ m m', m.ScaledBy c m' → f m' = (f m).scaled c) :
    ms'.map f = (ms.map f).map (Split.scaled c) := by
  rw [List.map_map]
  exact map_eq_of_forall₂ h hf

theorem Moved.ScaledBy.settle (h : m.ScaledBy c m') : m'.settle = m.settle.scaled c := by
  simp only [Moved.settle,Split.scaled,h.split,h.z,h.u]

/-- Momentum and its restarts are the same for both. -/
theorem accelerate_scaled (hc : 0 < c) (h : List.Forall₂ (Moved.ScaledBy c) ms ms')
    (fast : Bool) (rho : ℝ) (s : State ℝ) :
    accelerate fast rho (s.scaled c) ms' =
      ((accelerate fast rho s ms).1.map (Split.scaled c),(accelerate fast rho s ms).2.1,
        (accelerate fast rho s ms).2.2.1.map (c * c * ·),(accelerate fast rho s ms).2.2.2) := by
  have hsettle := map_scaled h fun m m' hm => hm.settle
  have hrestarted := map_scaled (f := Moved.restarted) h fun m m' hm => by
    simp only [Moved.restarted,Split.scaled,hm.z,hm.u]
  have hextrapolated (beta : ℝ) := map_scaled (f := Moved.extrapolated beta) h fun m m' hm => by
    simp only [Moved.extrapolated,Split.scaled,hm.split,hm.z,hm.u,Vec.extrapolate_scale]
  cases fast with
  | false => simp only [accelerate,hsettle,State.scaled,Bool.false_eq_true,if_false]
  | true =>
    simp only [accelerate,State.scaled,merit_scaled hc h,improves_scaled hc,hextrapolated,
      hrestarted,if_true]
    split
    · rfl
    · simp only [Option.map_map,Function.comp_def,mul_div_assoc]

theorem rescale_scaled (a c : ℝ) (v : Split ℝ) :
    (v.scaled c).rescale a = (v.rescale a).scaled c := by
  simp only [Split.rescale,Split.scaled,Vec.scale_comm a c]

/-- The penalty is changed by the same factor for both. -/
theorem adapt_scaled (hc : 0 < c) (a : AdmmSettings ℝ) (bal : Balance ℝ) (s : State ℝ) :
    adapt (a.scaled c) (bal.scaled c) (s.scaled c) =
      ((adapt a bal s).1.scaled c,(adapt a bal s).2) := by
  have hbalancing : balancing (a.scaled c) (bal.scaled c) = balancing a bal := by
    simp only [balancing,AdmmSettings.scaled,Balance.scaled,mul_left_comm _ c,
      mul_lt_mul_iff_right₀ hc]
  have hchange : change (a.scaled c) (bal.scaled c) (s.scaled c).schedule =
      change a bal s.schedule := by
    rw [change,change,hbalancing]
    rfl
  have hsplits (r : ℝ) : (s.scaled c).splits.map (Split.rescale r) =
      (s.splits.map (Split.rescale r)).map (Split.scaled c) := by
    simp only [State.scaled,List.map_map,Function.comp_def,rescale_scaled]
  rw [adapt_eq,adapt_eq,hchange]
  split
  · rfl
  · rw [hsplits]
    rfl

theorem following_scaled (hc : 0 < c) (h : List.Forall₂ (Moved.ScaledBy c) ms ms')
    (a : AdmmSettings ℝ) (s : State ℝ) (image : List ℝ) (bal : Balance ℝ) :
    following (a.scaled c) (s.scaled c) (Vec.scale c image) ms' (bal.scaled c) =
      (following a s image ms bal).scaled c := by
  have haccelerated : accelerated (a.scaled c) (s.scaled c) (Vec.scale c image) ms' =
      (accelerated a s image ms).scaled c := by
    have haccelerate := accelerate_scaled hc h a.fast s.rho s
    change (let (splits,momentum,merit,_) := accelerate a.fast s.rho (s.scaled c) ms'
      State.mk _ splits _ momentum merit _) = _
    rw [haccelerate]
    rfl
  rw [following,following,haccelerated,adapt_scaled hc]

/-- Of what an iteration that goes on tells, the residuals alone are a balance. -/
theorem filterMap_notes (a : AdmmSettings ℝ) (s t : State ℝ) (ms : List (Moved ℝ))
    (bal : Balance ℝ) (e : Progress ℝ) :
    ([Event.balance bal,.progress e] ++ (accelerate a.fast s.rho s ms).2.2.2 ++
      (adapt a bal t).2).filterMap balance? = [bal] := by
  have hnotes : ∀ e ∈ (accelerate a.fast s.rho s ms).2.2.2 ++ (adapt a bal t).2, IsNote e :=
    fun e he => (List.mem_append.mp he).elim (notes_accelerate _ _ _ _ e) (notes_adapt _ _ _ e)
  have himage : image? (Event.progress e) = some e.image := rfl
  rw [List.append_assoc]
  exact (filterMap_told rfl himage hnotes bal).1

theorem both_pass (h : p.ScaledBy c p') (hc : 0 < c)
    (hop : ∀ A, op = some A → Operator.ScaledBy c n A A)
    (htruth : monitor'.truth.map List.length = monitor.truth.map List.length) (hs : Sized n s)
    (b : Option (List ℝ)) (k : Nat) :
    Checked.Both (Pass.Alike (State.scaled c) balance? (Balance.scaled c))
      (pass p op b monitor k s)
      (pass p' op (b.map (Vec.scale c)) monitor' k (s.scaled c)) := by
  rw [pass,pass]
  refine (both_update h hc hop hs b).bind fun (image,ms) (image',ms') _ ⟨himage,hms⟩ => ?_
  subst himage
  have hbalance := balance_scaled hc hms p.settings s.rho s.image.length
  rw [h.settings]
  change Checked.Both _ _ (balance (p.settings.scaled c) s.rho (Vec.scale c s.image).length ms' >>= _)
  rw [Vec.length_scale]
  refine (Checked.Both.of_eq_map hbalance).bind fun bal bal' _ hbal => ?_
  subst hbal
  refine (Monitor.both_report htruth (Vec.length_scale c image) _ _ _ _).map fun e e' => ?_
  rintro ⟨_,_,rfl,rfl⟩
  have hstop : (Balance.met (bal.scaled c) || settled (p.settings.scaled c) (bal.scaled c) ms'
      (s.scaled c).image (Vec.scale c image)) =
        (Balance.met bal || settled p.settings bal ms s.image image) := by
    rw [met_scaled hc]
    exact congrArg (Balance.met bal || ·) (settled_scaled hc hms _ _ _ _)
  rw [hstop]
  cases Balance.met bal || settled p.settings bal ms s.image image with
  | true =>
    have hsettle := map_scaled hms fun m m' hm => hm.settle
    exact ⟨congrArg (State.mk _ · _ _ _ _) hsettle,rfl,rfl⟩
  | false =>
    refine ⟨following_scaled hc hms p.settings s image bal,rfl,?_⟩
    exact (filterMap_notes (p.settings.scaled c) (s.scaled c) _ ms' (bal.scaled c) _).trans
      (congrArg (List.map (Balance.scaled c)) (filterMap_notes p.settings s _ ms bal _)).symm

theorem Sized.of_pass {q : Pass ℝ (State ℝ)} (hs : Sized n s)
    (hq : pass p op b monitor k s = .ok q) : Sized n q.state := by
  obtain ⟨image,ms,bal,hi⟩ := pass_eq_ok hq
  obtain ⟨_,_,hx,hm⟩ := update_eq_ok.mp hi.update_eq
  have himage : image.length = n := (length_updateImage hx).trans hs.image
  have hmoved : ∀ m ∈ ms, m.Sized m.z.length := by
    intro m hmem
    obtain ⟨m₀,hmem₀,hmove⟩ := Checked.exists_of_mem_mapM hm hmem
    have hbegun := hs.forall_begun p m₀ hmem₀
    have hsized := sized_move hbegun.split hbegun.zFrom hbegun.uFrom hmove
    rwa [← hsized.z] at hsized
  rw [hi.state_eq]
  split
  · refine ⟨himage,List.forall_mem_map.mpr fun m hmem => ?_⟩
    exact (hmoved m hmem).settle
  · obtain ⟨f,hf,hsized⟩ := exists_splits_following p.settings s image ms bal
    refine ⟨(congrArg List.length (image_following _ _ _ _ _)).trans himage,?_⟩
    rw [hf]
    refine List.forall_mem_map.mpr fun m hmem => ?_
    have hsplit := hsized _ m (hmoved m hmem)
    rwa [← hsplit.z] at hsplit

theorem initialSplit_scaled {t t' : Term ℝ} (h : t.ScaledBy c t') {z : List ℝ}
    (hz : Vec.scale c z = z) (warm : Bool) (image : List ℝ) :
    initialSplit warm (Vec.scale c image) t' z =
      (initialSplit warm image t z).map (Split.scaled c) := by
  have hinitial (v : List ℝ) : Split.initial (Vec.scale c v) = (Split.initial v).scaled c := by
    simp only [Split.initial,Split.scaled,Vec.map_zero_scale]
  cases warm with
  | false =>
    refine congrArg Except.ok ?_
    rw [← hinitial,hz]
  | true =>
    change (t'.transform.flatForward z.length _).map _ = ((t.transform.flatForward _ _).map _).map _
    rw [h.transform,h.scales.forward,Checked.map_map,Checked.map_map]
    exact congrArg (Except.map · (t.transform.flatForward z.length image)) (funext hinitial)

theorem splitZeros_scaled (h : p.ScaledBy c p') : p'.splitZeros = p.splitZeros := by
  have hlengths : p'.splitLengths = p.splitLengths :=
    mapM_eq_of_forall₂ h.terms fun t t' ht => by rw [ht.transform]
  rw [Plan.splitZeros,Plan.splitZeros,hlengths]

/-- All that is made room for is zero. -/
theorem scale_of_mem_splitZeros {zs : List (List ℝ)} (h : p.splitZeros = .ok zs) :
    ∀ z ∈ zs, Vec.scale c z = z := by
  obtain ⟨lengths,_,h⟩ := Checked.bind_eq_ok.mp h
  obtain ⟨_,h⟩ := Checked.unless_eq_ok.mp h
  intro z hz
  obtain ⟨m,_,hzero⟩ := Checked.exists_of_mem_mapM h hz
  obtain ⟨_,_,rfl⟩ := Checked.map_eq_ok.mp hzero
  exact Vec.scale_zeros c m

theorem both_start (h : p.ScaledBy c p') (image : List ℝ) :
    Checked.Both (fun s s' => s' = s.scaled c) (start p image)
      (start p' (Vec.scale c image)) := by
  have hwarm : p'.settings.warmStart = p.settings.warmStart := by rw [h.settings]; rfl
  have hrho : p'.settings.rho = p.settings.rho := by rw [h.settings]; rfl
  rw [start,start,splitZeros_scaled h,hwarm,hrho]
  refine .bind_same p.splitZeros fun zs hzs => ?_
  have hzeros : List.Forall₂ (fun z z' => z' = z ∧ Vec.scale c z = z) zs zs :=
    List.forall₂_same.mpr fun z hz => ⟨rfl,scale_of_mem_splitZeros hzs z hz⟩
  have hpairs : List.Forall₂ (fun u u' => u.1.ScaledBy c u'.1 ∧ u'.2 = u.2 ∧ Vec.scale c u.2 = u.2)
      (p.terms.zip zs) (p'.terms.zip zs) :=
    forall₂_zipWith h.terms hzeros fun t t' z z' ht hz => ⟨ht,hz⟩
  refine (Checked.Both.mapM (S := fun v v' => v' = Split.scaled c v) hpairs ?_).map
    fun vs vs' hvs => ?_
  · rintro ⟨t,z⟩ ⟨t',z'⟩ ⟨ht,hz',hz⟩
    obtain rfl : z' = z := hz'
    exact .of_eq_map (initialSplit_scaled ht hz p.settings.warmStart image)
  · have hvs := map_eq_of_forall₂ (f := Split.scaled c) (g := id) hvs fun v v' hv => hv
    rw [List.map_id] at hvs
    rw [hvs]
    rfl

theorem checkDomains_scaled (h : List.Forall₂ (Term.ScaledBy c) ts ts') (n : Nat) :
    checkDomains n ts' = checkDomains n ts := by
  induction h with
  | nil => rfl
  | cons ht _ ih => rw [checkDomains,checkDomains,ht.transform,ih]

theorem sized_start (hx : image.length = n) (hs : start p image = .ok s) : Sized n s := by
  refine ⟨(congrArg List.length (start_eq_ok hs).1).trans hx,?_⟩
  obtain ⟨zs,hzs,hs⟩ := Checked.bind_eq_ok.mp hs
  obtain ⟨splits,hsplits,rfl⟩ := Checked.map_eq_ok.mp hs
  intro v hv
  obtain ⟨⟨t,z⟩,_,hinitial⟩ := Checked.exists_of_mem_mapM hsplits hv
  have hsized := sized_initialSplit hinitial
  rwa [← hsized.z] at hsized

/-- Report, penalties and the course of the run are the same, image and residuals grow with the
data. -/
theorem both_run (h : p.ScaledBy c p') (hc : 0 < c)
    (hop : ∀ A, op = some A → Operator.ScaledBy c n A A)
    (htruth : monitor'.truth.map List.length = monitor.truth.map List.length)
    (hx : image.length = n) (b : Option (List ℝ)) :
    Checked.Both (fun o o' => o.solution.ScaledBy c o'.solution ∧ o'.rho = o.rho)
      (run p op image b monitor)
      (run p' op (Vec.scale c image) (b.map (Vec.scale c)) monitor') := by
  have hmax : p'.settings.maxIter = p.settings.maxIter := by rw [h.settings]; rfl
  have hlen : ((b.map (Vec.scale c)).any fun b => b.length ≠ image.length) =
      b.any fun b => b.length ≠ image.length := by
    cases b with
    | none => rfl
    | some b => simp
  rw [run,run,Vec.length_scale,hlen,hmax,checkDomains_scaled h.terms]
  split
  · exact .error _
  · refine .bind_same _ fun _ _ => ?_
    refine (both_start h image).bind fun s s' hs hs' => ?_
    subst hs'
    refine (both_iterate (fun k t ht => both_pass h hc hop htruth ht b k)
      (fun k t q ht hq => ht.of_pass hq) (sized_start hx hs) p.settings.maxIter).map
        fun r r' hr => ?_
    refine ⟨⟨hr.report_eq,congrArg State.image hr.state_eq,hr.told_eq⟩,?_⟩
    rw [hr.state_eq]
    rfl

end Admm

end LinearInverse
