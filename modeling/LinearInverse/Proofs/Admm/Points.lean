import LinearInverse.Proofs.Admm.Linear

namespace LinearInverse.Admm
variable {n D : Nat} {T : Fin D → LinearTerm n} {A : Space n →ₗ[ℝ] Space n} {c : Space n}
  {p : Plan ℝ} {op : Option (Operator ℝ)} {b : Option (List ℝ)} {monitor : Monitor ℝ}
  {k : Nat} {s : State ℝ} {q : Pass ℝ (State ℝ)} {image : List ℝ} {ms : List (Moved ℝ)}
  {bal : Balance ℝ} {zs : List (List ℝ)}

/-- An iteration in the spaces of the terms: the variables it finds, the points it starts from,
and the image and the points it reaches. -/
structure Reach (T : Fin D → LinearTerm n) where
  split : Fin D → Split ℝ
  zFrom : Stack T
  uFrom : Stack T
  x : Space n
  z : Stack T
  u : Stack T

namespace Reach

/-- Term `i` within the iteration. -/
def part (v : Reach T) (i : Fin D) : Moved ℝ :=
  ⟨(T i).term,v.split i,coords (v.zFrom i),coords (v.uFrom i),coords ((T i).forward v.x),
    coords (v.z i),coords (v.u i)⟩

def moved (v : Reach T) : List (Moved ℝ) := List.ofFn v.part

/-- How the points of an iteration from state `s` come about. -/
structure Made (v : Reach T) (A : Space n →ₗ[ℝ] Space n) (c : Space n) (p : Plan ℝ)
    (op : Option (Operator ℝ)) (s : State ℝ) : Prop where
  splits_eq : s.splits = List.ofFn v.split
  sized : ∀ i, (v.split i).Sized (T i).size
  zFrom_eq : ∀ i, coords (v.zFrom i) = if p.settings.fast then (v.split i).zHat else (v.split i).z
  uFrom_eq : ∀ i, coords (v.uFrom i) = if p.settings.fast then (v.split i).uHat else (v.split i).u
  system_eq : ∀ w, (augmented op s.rho p.terms).apply (coords w) =
    .ok (coords (A w + s.rho • adjoints T (forwards T w)))
  solve_eq : ∃ report, ConjugateGradient.solve p.settings.maxIterInner 0 0
    (augmented op s.rho p.terms) s.image
      (coords (c + s.rho • adjoints T (v.zFrom - v.uFrom))) = .ok (report,coords v.x)
  z_eq : ∀ i, (T i).term.prox.apply (1 / s.rho) (v.split i).z
    (coords (p.settings.alpha • (T i).forward v.x + (1 - p.settings.alpha) • v.zFrom i +
      v.uFrom i)) = .ok (coords (v.z i))
  u_eq : v.u =
    v.uFrom + (p.settings.alpha • forwards T v.x + (1 - p.settings.alpha) • v.zFrom) - v.z

end Reach

theorem relax_coords (alpha : ℝ) {m : Nat} (g z : Space m) :
    relax alpha (coords g) (coords z) = coords (alpha • g + (1 - alpha) • z) :=
  zipWith_coords _ g z

/-- A term at the start of an iteration. -/
def LinearTerm.begun (t : LinearTerm n) (v : Split ℝ) (zFrom uFrom : Space t.size) : Moved ℝ :=
  ⟨t.term,v,coords zFrom,coords uFrom,[],coords zFrom,coords uFrom⟩

/-- The updates of one term, which its proximal map alone can refuse once the image has been
transformed. -/
theorem move_eq {m : Moved ℝ} {l : Nat} {g zFrom uFrom : Space l}
    (hlen : m.split.z.length = l)
    (hg : m.term.transform.flatForward l image = .ok (coords g))
    (hz : m.zFrom = coords zFrom) (hu : m.uFrom = coords uFrom) (alpha rho : ℝ) :
    move alpha rho image m =
      (m.term.prox.apply (1 / rho) m.split.z
        (coords (alpha • g + (1 - alpha) • zFrom + uFrom))).map fun z =>
          { m with
            gx := coords g
            z := z
            u := Vec.sub (coords (uFrom + (alpha • g + (1 - alpha) • zFrom))) z } := by
  rw [move,hlen,hg,hz,hu,← Vec.add_coords _ uFrom,← Vec.add_coords uFrom,← relax_coords]
  rfl

theorem exists_move {m m' : Moved ℝ} {l : Nat} {g zFrom uFrom : Space l} {alpha rho : ℝ}
    (hlen : m.split.z.length = l)
    (hg : m.term.transform.flatForward l image = .ok (coords g))
    (hz : m.zFrom = coords zFrom) (hu : m.uFrom = coords uFrom)
    (h : move alpha rho image m = .ok m') :
    ∃ z : Space l,
      m.term.prox.apply (1 / rho) m.split.z
        (coords (alpha • g + (1 - alpha) • zFrom + uFrom)) = .ok (coords z) ∧
      m' = { m with
        gx := coords g
        z := coords z
        u := coords (uFrom + (alpha • g + (1 - alpha) • zFrom) - z) } := by
  rw [move_eq hlen hg hz hu] at h
  obtain ⟨z,hprox,rfl⟩ := Checked.map_eq_ok.mp h
  obtain ⟨z,rfl⟩ := exists_coords ((m.term.prox.length_apply hprox).trans hlen)
  rw [Vec.sub_coords]
  exact ⟨z,hprox,rfl⟩

/-- The vectors of a state have the lengths of the image and of its transforms. -/
structure Fits (T : Fin D → LinearTerm n) (s : State ℝ) : Prop where
  image : s.image.length = n
  splits : ∃ split : Fin D → Split ℝ, s.splits = List.ofFn split ∧
    ∀ i, (split i).Sized (T i).size

/-- The points of a stack with given coordinates. -/
theorem exists_stack {f : Fin D → List ℝ} (h : ∀ i, (f i).length = (T i).size) :
    ∃ v : Stack T, ∀ i, coords (v i) = f i :=
  ⟨WithLp.toLp 2 fun i => (exists_coords (h i)).choose,fun i => (exists_coords (h i)).choose_spec⟩

namespace Linear

/-- What the terms start an iteration from. -/
theorem exists_begin (h : Linear T A c p op b) (hs : Fits T s) :
    ∃ (split : Fin D → Split ℝ) (zFrom uFrom : Stack T), s.splits = List.ofFn split ∧
      (∀ i, (split i).Sized (T i).size) ∧
      (∀ i, coords (zFrom i) = if p.settings.fast then (split i).zHat else (split i).z) ∧
      (∀ i, coords (uFrom i) = if p.settings.fast then (split i).uHat else (split i).u) ∧
      List.zipWith (begin p.settings.fast) p.terms s.splits =
        List.ofFn fun i => (T i).begun (split i) (zFrom i) (uFrom i) := by
  obtain ⟨split,hsplit,hsized⟩ := hs.splits
  obtain ⟨zFrom,hz⟩ := exists_stack (T := T)
    (f := fun i => if p.settings.fast then (split i).zHat else (split i).z)
    fun i => by split <;> [exact (hsized i).zHat; exact (hsized i).z]
  obtain ⟨uFrom,hu⟩ := exists_stack (T := T)
    (f := fun i => if p.settings.fast then (split i).uHat else (split i).u)
    fun i => by split <;> [exact (hsized i).uHat; exact (hsized i).u]
  refine ⟨split,zFrom,uFrom,hsplit,hsized,hz,hu,?_⟩
  rw [h.terms,hsplit,zipWith_ofFn]
  simp only [LinearTerm.begun,hz,hu]
  rfl

theorem exists_made (h : Linear T A c p op b) (hD : 0 < D) (hs : Fits T s)
    (hu : update p op b s = .ok (image,ms)) :
    ∃ v : Reach T, v.Made A c p op s ∧ image = coords v.x ∧ ms = v.moved := by
  obtain ⟨split,zFrom,uFrom,hsplit,hsized,hz,hu',hbegin⟩ := h.exists_begin hs
  obtain ⟨x₀,hx₀⟩ := exists_coords hs.image
  obtain ⟨w,hw,hx,hm⟩ := update_eq_ok.mp hu
  rw [hbegin,List.map_ofFn,hs.image] at hw
  obtain rfl : coords (adjoints T (zFrom - uFrom)) = w :=
    Except.ok.inj ((sumAdjoint_sub zFrom uFrom).symm.trans hw)
  obtain ⟨report,x,hsolve,hx'⟩ := h.exists_updateImage hD s.rho x₀ (adjoints T (zFrom - uFrom))
  rw [hx₀] at hsolve hx'
  obtain rfl : coords x = image := Except.ok.inj (hx'.symm.trans hx)
  rw [hbegin] at hm
  obtain ⟨m,rfl,hmove⟩ := Checked.mapM_ofFn.mp hm
  choose z hprox hmoved using fun i =>
    exists_move (hsized i).z ((T i).flatForward_eq x) rfl rfl (hmove i)
  let xHat := p.settings.alpha • forwards T x + (1 - p.settings.alpha) • zFrom
  refine ⟨⟨split,zFrom,uFrom,x,WithLp.toLp 2 z,uFrom + xHat - WithLp.toLp 2 z⟩,
    ⟨hsplit,hsized,hz,hu',h.augmented_apply s.rho,⟨report,hsolve⟩,hprox,rfl⟩,rfl,?_⟩
  exact congrArg List.ofFn (funext hmoved)

end Linear

/-- Every iteration leaves vectors of the same lengths, however the image is updated. -/
theorem Fits.next (hs : Fits T s) (hterms : p.terms = List.ofFn fun i => (T i).term)
    (hq : pass p op b monitor k s = .ok q) : Fits T q.state := by
  obtain ⟨image,ms,bal,hi⟩ := pass_eq_ok hq
  obtain ⟨split,hsplit,hsized⟩ := hs.splits
  obtain ⟨_,_,hx,hm⟩ := update_eq_ok.mp hi.update_eq
  rw [hterms,hsplit,zipWith_ofFn] at hm
  obtain ⟨m,rfl,hmove⟩ := Checked.mapM_ofFn.mp hm
  have hmoved (i : Fin D) : (m i).Sized (T i).size :=
    have hbegin := sized_begin (hsized i) p.settings.fast (T i).term
    sized_move (hsized i) hbegin.1 hbegin.2 (hmove i)
  have himage : image.length = n := (length_updateImage hx).trans hs.image
  rw [hi.state_eq]
  split
  · exact ⟨himage,_,List.map_ofFn,fun i => (hmoved i).settle⟩
  · obtain ⟨f,hf,hsized⟩ := exists_splits_following p.settings s image (List.ofFn m) bal
    refine ⟨?_,_,hf.trans List.map_ofFn,fun i => hsized _ _ (hmoved i)⟩
    rw [image_following,himage]

theorem length_zeros {m : Nat} {z : List ℝ} (h : (Vec.zeros m : Checked ℝ (List ℝ)) = .ok z) :
    z.length = m := by
  obtain ⟨_,_,rfl⟩ := Checked.map_eq_ok.mp h
  exact List.length_replicate

theorem sized_initialSplit {warm : Bool} {t : Term ℝ} {z : List ℝ} {v : Split ℝ}
    (h : initialSplit warm image t z = .ok v) : v.Sized z.length := by
  cases warm with
  | false =>
    cases h
    exact Split.sized_initial z
  | true =>
    obtain ⟨y,hy,rfl⟩ := Checked.map_eq_ok.mp h
    rw [← Transform.length_flatForward hy]
    exact Split.sized_initial y

section
variable {term : Fin D → Term ℝ} {size : Fin D → Nat}

theorem exists_zeros (hterms : p.terms = List.ofFn term)
    (hsize : ∀ i, (term i).transform.codomainLength = .ok (size i))
    (hz : p.splitZeros = .ok zs) :
    ∃ z : Fin D → List ℝ, zs = List.ofFn z ∧ ∀ i, (z i).length = size i := by
  obtain ⟨lengths,hlengths,hz⟩ := Checked.bind_eq_ok.mp hz
  obtain ⟨_,hmade⟩ := Checked.unless_eq_ok.mp hz
  rw [Plan.splitLengths,hterms] at hlengths
  obtain ⟨l,rfl,hl⟩ := Checked.mapM_ofFn.mp hlengths
  obtain ⟨z,rfl,hzeros⟩ := Checked.mapM_ofFn.mp hmade
  refine ⟨z,rfl,fun i => (length_zeros (hzeros i)).trans ?_⟩
  exact Except.ok.inj ((hl i).symm.trans (hsize i))

/-- The vectors of the terms have the lengths of the transforms from the start. -/
theorem exists_split_start (hterms : p.terms = List.ofFn term)
    (hsize : ∀ i, (term i).transform.codomainLength = .ok (size i))
    (hs : start p image = .ok s) :
    ∃ split : Fin D → Split ℝ, s.splits = List.ofFn split ∧ ∀ i, (split i).Sized (size i) := by
  obtain ⟨zs,hzs,hs⟩ := Checked.bind_eq_ok.mp hs
  obtain ⟨splits,hsplits,rfl⟩ := Checked.map_eq_ok.mp hs
  obtain ⟨z,rfl,hz⟩ := exists_zeros hterms hsize hzs
  rw [hterms,List.zip,zipWith_ofFn] at hsplits
  obtain ⟨split,rfl,hsplit⟩ := Checked.mapM_ofFn.mp hsplits
  exact ⟨split,rfl,fun i => hz i ▸ sized_initialSplit (hsplit i)⟩

end

theorem Linear.fits_start (h : Linear T A c p op b) (hx : image.length = n)
    (hs : start p image = .ok s) : Fits T s := by
  refine ⟨?_,exists_split_start h.terms (fun i => (T i).codomainLength_eq) hs⟩
  rw [(start_eq_ok hs).1,hx]

theorem Linear.length_data (h : Linear T A c p op b) : ∀ v, b = some v → v.length = n := by
  rintro v rfl
  obtain rfl : v = coords c := h.data
  exact length_coords c

/-- Behind its checks of lengths a run consists of its start and its iterations. -/
theorem run_eq (hterms : p.terms = List.ofFn fun i => (T i).term) (hx : image.length = n)
    (hb : ∀ v, b = some v → v.length = n) :
    run p op image b monitor = start p image >>= fun s =>
      (iterate (pass p op b monitor) p.settings.maxIter 0 s).map fun r =>
        ⟨⟨r.report,r.state.image,r.log⟩,r.state.rho⟩ := by
  have hlen : ¬b.any fun b => b.length ≠ image.length := by
    cases b with
    | none => exact Bool.false_ne_true
    | some v => simp [hb v rfl,hx]
  have hdomains : checkDomains image.length p.terms = .ok () := by
    rw [hterms,checkDomains_eq_ok]
    exact fun _ => hx
  rw [run,if_neg hlen,hdomains]
  rfl

/-- No proximal map fails on vectors of its length. -/
def Total (T : Fin D → LinearTerm n) : Prop :=
  ∀ i mu dst src, dst.length = (T i).size → src.length = (T i).size →
    ∃ out, (T i).term.prox.apply mu dst src = .ok out

/-- Behind the updates an iteration fails for a ground truth of another length only. -/
theorem Reach.exists_pass (v : Reach T) (hx : s.image.length = n)
    (hu : update p op b s = .ok (coords v.x,v.moved))
    (hm : ∀ t, monitor.truth = some t → t.length = n) (k : Nat) :
    ∃ q, pass p op b monitor k s = .ok q := by
  have hbalance : ∃ bal, balance p.settings s.rho s.image.length v.moved = .ok bal := by
    have hd := sumAdjoint_sub v.z v.zFrom
    have hu := sumAdjoint_eq v.u
    simp only [balance,Reach.moved,List.map_ofFn,hx]
    exact ⟨_,Checked.bind_eq_ok.mpr ⟨_,hd,Checked.map_eq_ok.mpr ⟨_,hu,rfl⟩⟩⟩
  obtain ⟨bal,hb⟩ := hbalance
  obtain ⟨e,he⟩ := monitor.exists_report (x := coords v.x)
    (fun t ht => (hm t ht).trans (length_coords _).symm) k bal.primal
  exact ⟨_,Checked.bind_eq_ok.mpr ⟨_,hu,Checked.bind_eq_ok.mpr ⟨_,hb,
    Checked.map_eq_ok.mpr ⟨_,he,rfl⟩⟩⟩⟩

namespace Linear

theorem exists_update (h : Linear T A c p op b) (hT : Total T) (hD : 0 < D) (hs : Fits T s) :
    ∃ image ms, update p op b s = .ok (image,ms) := by
  obtain ⟨split,zFrom,uFrom,_,hsized,_,_,hbegin⟩ := h.exists_begin hs
  obtain ⟨x₀,hx₀⟩ := exists_coords hs.image
  obtain ⟨_,x,_,hx⟩ := h.exists_updateImage hD s.rho x₀ (adjoints T (zFrom - uFrom))
  have hmove (i : Fin D) : ∃ m, move p.settings.alpha s.rho (coords x)
      ((T i).begun (split i) (zFrom i) (uFrom i)) = .ok m := by
    obtain ⟨out,hout⟩ := hT i _ (split i).z _ (hsized i).z (length_coords _)
    rw [move_eq (hsized i).z ((T i).flatForward_eq x) rfl rfl]
    change ∃ m, ((T i).term.prox.apply _ (split i).z _).map _ = .ok m
    rw [hout]
    exact ⟨_,rfl⟩
  choose m hm using hmove
  refine ⟨coords x,List.ofFn m,update_eq_ok.mpr ⟨_,?_,hx₀ ▸ hx,?_⟩⟩
  · rw [hbegin,List.map_ofFn,hs.image]
    exact sumAdjoint_sub zFrom uFrom
  · rw [hbegin]
    exact Checked.mapM_ofFn.mpr ⟨m,rfl,hm⟩

theorem exists_pass (h : Linear T A c p op b) (hT : Total T) (hD : 0 < D) (hs : Fits T s)
    (hm : ∀ t, monitor.truth = some t → t.length = n) (k : Nat) :
    ∃ q, pass p op b monitor k s = .ok q := by
  obtain ⟨image,ms,hu⟩ := h.exists_update hT hD hs
  obtain ⟨v,_,rfl,rfl⟩ := h.exists_made hD hs hu
  exact v.exists_pass hs.image hu hm k

theorem exists_start (h : Linear T A c p op b) (hx : image.length = n)
    (hz : p.splitZeros = .ok zs) : ∃ s, start p image = .ok s := by
  obtain ⟨z,rfl,hlen⟩ := exists_zeros h.terms (fun i => (T i).codomainLength_eq) hz
  obtain ⟨x,rfl⟩ := exists_coords hx
  have hsplit (i : Fin D) :
      ∃ v, initialSplit p.settings.warmStart (coords x) (T i).term (z i) = .ok v := by
    cases p.settings.warmStart with
    | false => exact ⟨_,rfl⟩
    | true =>
      have hg : (T i).term.transform.flatForward (z i).length (coords x) =
          .ok (coords ((T i).forward x)) := by
        rw [hlen i]
        exact (T i).flatForward_eq x
      exact ⟨_,Checked.map_eq_ok.mpr ⟨_,hg,rfl⟩⟩
  choose v hv using hsplit
  refine ⟨_,Checked.bind_eq_ok.mpr ⟨_,hz,Checked.map_eq_ok.mpr ⟨List.ofFn v,?_,rfl⟩⟩⟩
  rw [h.terms,List.zip,zipWith_ofFn]
  exact Checked.mapM_ofFn.mpr ⟨v,rfl,hv⟩

/-- Once it has started, a run returns if every iteration does from what it may find. -/
theorem exists_run_of_invariant (h : Linear T A c p op b) (hx : image.length = n)
    {I : Nat → State ℝ → Prop} (hs : start p image = .ok s) (h0 : I 0 s)
    (total : ∀ j u, I j u → ∃ q, pass p op b monitor j u = .ok q)
    (keep : ∀ j u q, I j u → pass p op b monitor j u = .ok q → q.stop = false →
      I (j + 1) q.state) : ∃ o, run p op image b monitor = .ok o := by
  obtain ⟨r,hr⟩ := exists_iterate h0 total keep p.settings.maxIter
  rw [run_eq h.terms hx h.length_data]
  exact ⟨_,Checked.bind_eq_ok.mpr ⟨s,hs,Checked.map_eq_ok.mpr ⟨r,hr,rfl⟩⟩⟩

/-- A run fails in a proximal map or not at all, once there is room for its variables. -/
theorem exists_run (h : Linear T A c p op b) (hT : Total T) (hD : 0 < D) (hx : image.length = n)
    (hz : p.splitZeros = .ok zs) (hm : ∀ t, monitor.truth = some t → t.length = n) :
    ∃ o, run p op image b monitor = .ok o := by
  obtain ⟨s,hs⟩ := h.exists_start hx hz
  exact h.exists_run_of_invariant hx (I := fun _ u => Fits T u) hs (h.fits_start hx hs)
    (fun j u hu => h.exists_pass hT hD hu hm j) (fun j u q hu hq _ => hu.next h.terms hq)

end Linear

end LinearInverse.Admm
