import LinearInverse.Proofs.Euclidean
import LinearInverse.Proofs.Admm.Passes
import LinearInverse.Proofs.ConjugateGradient.Steps

namespace LinearInverse
variable {n : Nat}

theorem replicate_eq_coords (n : Nat) : List.replicate n (0 : ℝ) = coords (0 : Space n) :=
  (List.ofFn_const n (0 : ℝ)).symm

/-- A map on vectors that is linear for the right lengths commutes with multiplication by numbers,
and fails for the lengths alone. -/
theorem Transform.onVectors_scale
    {map : List Nat → Grid (Cplx ℝ) → Checked ℝ (Grid (Cplx ℝ))} {target source : List Nat}
    {n m : Nat} {L : Space m →ₗ[ℝ] Space n}
    (h : ∀ y, onVectors map target source n (coords y) = .ok (coords (L y))) (k : Nat) (a : ℝ)
    (v : List ℝ) :
    onVectors map target source k (Vec.scale a v) =
      (onVectors map target source k v).map (Vec.scale a) := by
  obtain ⟨_,htarget,hgrid⟩ := Checked.bind_eq_ok.mp (h 0)
  obtain ⟨_,hgrid,_⟩ := Checked.bind_eq_ok.mp hgrid
  obtain ⟨_,hsource,_⟩ := Checked.bind_eq_ok.mp hgrid
  rw [length_coords] at hsource
  by_cases hk : k = n
  · subst hk
    by_cases hv : v.length = m
    · obtain ⟨y,rfl⟩ := exists_coords hv
      rw [Vec.scale_coords,h,h,map_smul,← Vec.scale_coords]
      rfl
    · have hlen : (Vec.scale a v).length = v.length := List.length_map _
      rw [onVectors,onVectors,htarget,gridOf,gridOf,hlen,checkBuffer_of_ne hsource hv]
      rfl
  · rw [onVectors,onVectors,checkBuffer_of_ne htarget hk]
    rfl

/-- The adjoint map of a linear transform commutes with multiplication by numbers, and fails for
the lengths alone. -/
def Transform.AdjointScales (t : Transform ℝ) : Prop :=
  ∀ n a v, t.flatAdjoint n (Vec.scale a v) = (t.flatAdjoint n v).map (Vec.scale a)

/-- A linear map on vectors of the right lengths is enough for that. -/
theorem Transform.adjointScales_of_linear {t : Transform ℝ} {n m : Nat}
    {L : Space m →ₗ[ℝ] Space n} (h : ∀ y, t.flatAdjoint n (coords y) = .ok (coords (L y))) :
    t.AdjointScales :=
  onVectors_scale h

/-- A solve for an operator that maps all points to points. -/
theorem ConjugateGradient.exists_solve_coords {A : Operator ℝ} {B : Space n → Space n}
    (hA : ∀ x, A.apply (coords x) = .ok (coords (B x))) (maxIter : Nat) (x b : Space n) :
    ∃ (report : Report) (y : Space n),
      solve maxIter 0 0 A (coords x) (coords b) = .ok (report,coords y) := by
  have htotal : ∀ w : List ℝ, w.length = n → ∃ u, (A.shifted 0).apply w = .ok u := by
    intro w hw
    obtain ⟨w,rfl⟩ := exists_coords hw
    rw [Operator.shifted,Operator.apply_square,hA]
    exact ⟨_,rfl⟩
  obtain ⟨status,k,s,t,hsolve,hs,hk⟩ :=
    exists_solve (length_coords x) (length_coords b) htotal maxIter 0
  obtain ⟨y,hy⟩ := exists_coords
    ((sized_start (length_coords x) (length_coords b) hs).of_steps hk).x
  rw [← hy] at hsolve
  exact ⟨_,y,hsolve⟩

namespace Admm

/-- A term whose transform is linear on vectors and whose normal map is the adjoint after the
forward map. Nothing is asked of its proximal map. -/
structure LinearTerm (n : Nat) where
  term : Term ℝ
  size : Nat
  forward : Space n →ₗ[ℝ] Space size
  adjoint : Space size →ₗ[ℝ] Space n
  flatForward_eq : ∀ x, term.transform.flatForward size (coords x) = .ok (coords (forward x))
  flatAdjoint_eq : ∀ y, term.transform.flatAdjoint n (coords y) = .ok (coords (adjoint y))
  flatNormal_eq : ∀ x,
    term.transform.flatNormal n (coords x) = .ok (coords (adjoint (forward x)))

theorem LinearTerm.domainLength_eq (t : LinearTerm n) : t.term.transform.domainLength = .ok n := by
  rw [Transform.domainLength_of_flatForward (t.flatForward_eq 0),length_coords]

theorem LinearTerm.codomainLength_eq (t : LinearTerm n) :
    t.term.transform.codomainLength = .ok t.size :=
  Transform.codomainLength_of_flatForward (t.flatForward_eq 0)

theorem LinearTerm.adjointScales (t : LinearTerm n) : t.term.transform.AdjointScales :=
  Transform.adjointScales_of_linear t.flatAdjoint_eq

variable {D : Nat}

/-- One vector for each term. -/
abbrev Stack (T : Fin D → LinearTerm n) := PiLp 2 fun i => Space (T i).size

variable {T : Fin D → LinearTerm n}

def Stack.lists (v : Stack T) : List (List ℝ) :=
  List.ofFn fun i => coords (v i)

/-- The transforms of an image. -/
noncomputable def forwards (T : Fin D → LinearTerm n) : Space n →ₗ[ℝ] Stack T where
  toFun x := WithLp.toLp 2 fun i => (T i).forward x
  map_add' x y := PiLp.ext fun i => map_add (T i).forward x y
  map_smul' a x := PiLp.ext fun i => map_smul (T i).forward a x

/-- The sum of the adjoints. -/
noncomputable def adjoints (T : Fin D → LinearTerm n) : Stack T →ₗ[ℝ] Space n where
  toFun v := ∑ i, (T i).adjoint (v i)
  map_add' v w := by simp [Finset.sum_add_distrib]
  map_smul' a v := by simp [Finset.smul_sum]

theorem checkDomains_eq_ok {D m : Nat} {T : Fin D → LinearTerm n} :
    checkDomains m (List.ofFn fun i => (T i).term) = .ok () ↔ (0 < D → m = n) := by
  induction D with
  | zero => exact ⟨fun _ h => absurd h (Nat.lt_irrefl 0),fun _ => rfl⟩
  | succ D ih =>
    rw [List.ofFn_succ,checkDomains,(T 0).domainLength_eq]
    change (if n ≠ m then _ else _) = _ ↔ _
    rw [Checked.unless_eq_ok,ih]
    omega

theorem foldlM_adjoint {D : Nat} (T : Fin D → LinearTerm n) (v : ∀ i, Space (T i).size)
    (a : Space n) :
    (List.ofFn fun i => ((T i).term.transform,coords (v i))).foldlM
        (fun acc (g,w) => (g.flatAdjoint n w).map (Vec.axpy acc 1)) (coords a) =
      .ok (coords (a + ∑ i, (T i).adjoint (v i))) := by
  induction D generalizing a with
  | zero => simp [Pure.pure,Except.pure]
  | succ D ih =>
    have h0 : ((T 0).term.transform.flatAdjoint n (coords (v 0))).map (Vec.axpy (coords a) 1) =
        .ok (coords (a + (T 0).adjoint (v 0))) := by
      rw [(T 0).flatAdjoint_eq,Except.map,Vec.axpy_coords,one_smul]
    rw [List.ofFn_succ,List.foldlM_cons]
    change (Except.map _ _ >>= _) = _
    rw [h0,Fin.sum_univ_succ,← add_assoc]
    exact ih (fun i => T i.succ) (fun i => v i.succ) _

theorem sumAdjoint_eq (v : Stack T) :
    sumAdjoint n (List.ofFn fun i => ((T i).term.transform,coords (v i))) =
      .ok (coords (adjoints T v)) := by
  have h := foldlM_adjoint T v 0
  rw [zero_add,← replicate_eq_coords] at h
  exact h

theorem sumAdjoint_sub (v w : Stack T) :
    sumAdjoint n (List.ofFn fun i =>
      ((T i).term.transform,Vec.sub (coords (v i)) (coords (w i)))) =
        .ok (coords (adjoints T (v - w))) := by
  simp only [Vec.sub_coords]
  exact sumAdjoint_eq (v - w)

theorem addNormals_eq {D : Nat} (T : Fin D → LinearTerm n) (rho : ℝ) (x a : Space n) :
    addNormals rho (coords x) (List.ofFn fun i => (T i).term) (coords a) =
      .ok (coords (a + rho • ∑ i, (T i).adjoint ((T i).forward x))) := by
  induction D generalizing a with
  | zero => simp [addNormals]
  | succ D ih =>
    rw [List.ofFn_succ,addNormals,length_coords,(T 0).flatNormal_eq]
    change addNormals rho (coords x) _ (Vec.axpy _ _ _) = _
    rw [Vec.axpy_coords,ih fun i => T i.succ,Fin.sum_univ_succ,smul_add,add_assoc]

/-- How far apart the vectors of the terms are. -/
theorem stackedDist_eq (v w : Stack T) :
    stackedDist (List.ofFn fun i => (coords (v i),coords (w i))) = ‖v - w‖ := by
  rw [PiLp.norm_eq_of_L2,stackedDist,List.map_ofFn,Scalar.real_sqrt,Scalar.real_sum,List.sum_ofFn]
  congr 1
  refine Finset.sum_congr rfl fun i _ => ?_
  rw [EuclideanSpace.norm_sq_eq]
  change Scalar.sum (List.zipWith _ (coords (v i)) (coords (w i))) = _
  rw [zipWith_coords,Scalar.real_sum,List.sum_ofFn]
  refine Finset.sum_congr rfl fun j _ => ?_
  rw [Real.norm_eq_abs,sq_abs,sq]
  rfl

theorem stackedDist_scale {β : Type} {f g : β → List ℝ} {a : ℝ} (ha : 0 ≤ a) (xs : List β) :
    stackedDist (xs.map fun x => (Vec.scale a (f x),Vec.scale a (g x))) =
      a * stackedDist (xs.map fun x => (f x,g x)) := by
  have hsquare (x : β) : (List.zipWith (fun v w => (v - w) * (v - w)) (Vec.scale a (f x))
      (Vec.scale a (g x))).sum =
        (List.zipWith (fun v w => (v - w) * (v - w)) (f x) (g x)).sum * (a * a) := by
    rw [Vec.zipWith_scale (c := a * a) fun v w => by ring,Vec.scale,List.sum_map_mul_right,
      List.map_id']
  simp only [stackedDist,List.map_map,Scalar.real_sqrt,Scalar.real_sum,Function.comp_def,hsquare]
  rw [List.sum_map_mul_right,Real.sqrt_mul' _ (mul_self_nonneg a),Real.sqrt_mul_self ha,mul_comm]

/-- A sum of adjoints of multiples. -/
theorem sumAdjoint_scale {β : Type} {xs : List β} {t : β → Transform ℝ} {f : β → List ℝ}
    (h : ∀ x ∈ xs, (t x).AdjointScales) (n : Nat) (a : ℝ) :
    sumAdjoint n (xs.map fun x => (t x,Vec.scale a (f x))) =
      (sumAdjoint n (xs.map fun x => (t x,f x))).map (Vec.scale a) := by
  have hfold (acc : List ℝ) :
      xs.foldlM (fun acc x => ((t x).flatAdjoint n (Vec.scale a (f x))).map (Vec.axpy acc 1))
          (Vec.scale a acc) =
        (xs.foldlM (fun acc x => ((t x).flatAdjoint n (f x)).map (Vec.axpy acc 1)) acc).map
          (Vec.scale a) := by
    induction xs generalizing acc with
    | nil => rfl
    | cons x xs ih =>
      obtain ⟨hx,hxs⟩ := List.forall_mem_cons.mp h
      rw [List.foldlM_cons,List.foldlM_cons,hx]
      cases (t x).flatAdjoint n (f x) with
      | error d => rfl
      | ok v =>
        have hadd : Vec.axpy (Vec.scale a acc) 1 (Vec.scale a v) =
            Vec.scale a (Vec.axpy acc 1 v) :=
          Vec.zipWith_scale (fun v w => by ring) acc v
        change xs.foldlM _ (Vec.axpy (Vec.scale a acc) 1 (Vec.scale a v)) = _
        rw [hadd,ih hxs]
        rfl
  have hzeros := hfold (List.replicate n 0)
  rw [Vec.scale_zeros] at hzeros
  rw [sumAdjoint,sumAdjoint,List.foldlM_map,List.foldlM_map]
  exact hzeros

/-- Plan, operator and data of a linear problem, the image being left to the inner solve. What is
absent stands for zero. -/
structure Linear (T : Fin D → LinearTerm n) (A : Space n →ₗ[ℝ] Space n) (c : Space n)
    (p : Plan ℝ) (op : Option (Operator ℝ)) (b : Option (List ℝ)) : Prop where
  terms : p.terms = List.ofFn fun i => (T i).term
  xUpdate : p.xUpdate = none
  operator : ∀ x, applyNormal op (coords x) = .ok (coords (A x))
  data : b.getD (coords (0 : Space n)) = coords c

variable {A : Space n →ₗ[ℝ] Space n} {c : Space n} {p : Plan ℝ} {op : Option (Operator ℝ)}
  {b : Option (List ℝ)}

namespace Linear

theorem augmented_apply (h : Linear T A c p op b) (rho : ℝ) (x : Space n) :
    (augmented op rho p.terms).apply (coords x) =
      .ok (coords (A x + rho • adjoints T (forwards T x))) := by
  rw [augmented,Operator.apply_square,h.operator x,h.terms]
  exact addNormals_eq T rho x (A x)

theorem rightHandSide_eq (h : Linear T A c p op b) (rho : ℝ) (v : Space n) :
    rightHandSide rho b (coords v) = coords (c + rho • v) := by
  have hdata := h.data
  cases b with
  | none =>
    obtain rfl : 0 = c := coords_injective hdata
    rw [rightHandSide,Vec.scale_coords,zero_add]
  | some b =>
    obtain rfl : b = coords c := hdata
    change Vec.axpy (Vec.scale rho (coords v)) 1 (coords c) = _
    rw [Vec.scale_coords,Vec.axpy_coords,one_smul,add_comm]

theorem hasSystem (h : Linear T A c p op b) (hD : 0 < D) :
    (op.isSome || !p.terms.isEmpty) = true := by
  have hterms : p.terms.isEmpty = false := by
    rw [h.terms,List.isEmpty_eq_false_iff,ne_eq,List.ofFn_eq_nil_iff]
    omega
  rw [hterms,Bool.not_false,Bool.or_true]

/-- The image update solves a linear system, from the last image on. -/
theorem updateImage_eq (h : Linear T A c p op b)
    (hsystem : (op.isSome || !p.terms.isEmpty) = true) (rho : ℝ) (x v : Space n) :
    updateImage p op b rho (coords x) (coords v) =
      (ConjugateGradient.solve p.settings.maxIterInner 0 0 (augmented op rho p.terms) (coords x)
        (coords (c + rho • v))).map (·.2) := by
  rw [updateImage,h.xUpdate,h.rightHandSide_eq]
  exact if_pos hsystem

theorem exists_updateImage (h : Linear T A c p op b) (hD : 0 < D) (rho : ℝ) (x v : Space n) :
    ∃ (report : Report) (y : Space n),
      ConjugateGradient.solve p.settings.maxIterInner 0 0 (augmented op rho p.terms) (coords x)
        (coords (c + rho • v)) = .ok (report,coords y) ∧
      updateImage p op b rho (coords x) (coords v) = .ok (coords y) := by
  obtain ⟨report,y,hsolve⟩ := ConjugateGradient.exists_solve_coords (h.augmented_apply rho)
    p.settings.maxIterInner x (c + rho • v)
  refine ⟨report,y,hsolve,?_⟩
  rw [h.updateImage_eq (h.hasSystem hD),hsolve]
  rfl

end Linear

end Admm

end LinearInverse
