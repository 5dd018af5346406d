import LinearInverse.Proofs.ComplexSpace
import LinearInverse.Proofs.ConjugateGradient.Termination
import LinearInverse.Proofs.Transform.Flat
import LinearInverse.Transform.Matrix

namespace LinearInverse.Transform
variable {target source : List Nat} {t : Transform ℝ}

/-- The entries of every array over `source` become those that `f` makes of them, however the array
is stored. -/
def Computes (map : List Nat → Grid (Cplx ℝ) → Checked ℝ (Grid (Cplx ℝ)))
    (target source : List Nat)
    (f : ComplexSpace (Grid.volume source) → ComplexSpace (Grid.volume target)) : Prop :=
  ∀ (g : Grid (Cplx ℝ)) z, g.shape = source → g.entries = complexCoords z →
    ∃ out, map target g = .ok out ∧ out.entries = complexCoords (f z)

/-- Between shapes that arrays can have, the forward map is the linear map `F`, the adjoint one its
Hermitian adjoint, and the normal map is one after the other. -/
structure Realises (t : Transform ℝ)
    (F : ComplexSpace (Grid.volume t.domain) →ₗ[ℂ] ComplexSpace (Grid.volume t.codomain)) :
    Prop where
  domain : Grid.addressable t.domain = true
  codomain : Grid.addressable t.codomain = true
  forward : Computes t.forward t.codomain t.domain F
  adjoint : Computes t.adjoint t.domain t.codomain (LinearMap.adjoint F)
  normal : ∀ g, g.shape = t.domain → (t.normal t.domain g).map Grid.entries =
    (t.forward t.codomain g >>= t.adjoint t.domain).map Grid.entries

variable {map : List Nat → Grid (Cplx ℝ) → Checked ℝ (Grid (Cplx ℝ))}

theorem Computes.onVectors_coords
    {f : ComplexSpace (Grid.volume source) → ComplexSpace (Grid.volume target)}
    (h : Computes map target source f) (ht : Grid.addressable target = true)
    (hs : Grid.addressable source = true) (x : Space (2 * Grid.volume source)) :
    onVectors map target source (2 * Grid.volume target) (coords x) =
      .ok (coords (parts (f (joined x)))) := by
  obtain ⟨g,hg,hshape,hentries⟩ := exists_gridOf hs (length_coords x)
  obtain ⟨out,hout,hout'⟩ := h g (joined x) hshape (hentries.trans (pairs_coords_joined x))
  rw [onVectors_eq (checkBuffer_of_addressable ht) hg hout,hout',coords_parts]

namespace Realises
variable {F : ComplexSpace (Grid.volume t.domain) →ₗ[ℂ] ComplexSpace (Grid.volume t.codomain)}

theorem flatForward_coords (h : t.Realises F) (x : Space (2 * Grid.volume t.domain)) :
    t.flatForward (2 * Grid.volume t.codomain) (coords x) = .ok (coords (onParts F x)) :=
  h.forward.onVectors_coords h.codomain h.domain x

theorem flatAdjoint_coords (h : t.Realises F) (y : Space (2 * Grid.volume t.codomain)) :
    t.flatAdjoint (2 * Grid.volume t.domain) (coords y) =
      .ok (coords (LinearMap.adjoint (onParts F) y)) := by
  rw [adjoint_onParts]
  exact h.adjoint.onVectors_coords h.domain h.codomain y

theorem computes_normal (h : t.Realises F) : Computes t.normal t.domain t.domain
    (LinearMap.adjoint F ∘ₗ F) := by
  intro g z hshape hentries
  obtain ⟨m,hm,hm'⟩ := h.forward g z hshape hentries
  obtain ⟨out,hout,hout'⟩ := h.adjoint m (F z) (t.shape_forward hm) hm'
  have hnormal := h.normal g hshape
  rw [Checked.bind_eq_ok.mpr ⟨m,hm,hout⟩] at hnormal
  obtain ⟨out',h',hentries'⟩ := Checked.map_eq_ok.mp hnormal
  exact ⟨out',h',hentries'.trans hout'⟩

theorem normalOperator_actsAs (h : t.Realises F) : t.normalOperator.ActsAs
    (LinearMap.adjoint (onParts F) ∘ₗ onParts F) := by
  intro x
  rw [adjoint_onParts,LinearMap.comp_apply,onParts_apply (onParts F x),joined_onParts]
  rw [Operator.apply,length_coords]
  exact h.computes_normal.onVectors_coords h.domain h.domain x

end Realises

/-- Two maps that belong together make a transform with the default normal map. -/
theorem realises_ofPair {domain codomain : List Nat}
    {forward adjoint : List Nat → Grid (Cplx ℝ) → Checked ℝ (Grid (Cplx ℝ))}
    {shape_forward : ∀ dst g out, forward dst g = .ok out → out.shape = dst}
    {shape_adjoint : ∀ dst g out, adjoint dst g = .ok out → out.shape = dst}
    {F : ComplexSpace (Grid.volume domain) →ₗ[ℂ] ComplexSpace (Grid.volume codomain)}
    (hd : Grid.addressable domain = true) (hc : Grid.allocatable Cplx.size codomain = true)
    (hF : Computes forward codomain domain F)
    (hA : Computes adjoint domain codomain (LinearMap.adjoint F)) :
    (ofPair domain codomain forward adjoint shape_forward shape_adjoint).Realises F where
  domain := hd
  codomain := (Bool.and_eq_true_iff.mp hc).1
  forward := hF
  adjoint := hA
  normal g _ := by
    have hnormal : viaCodomain codomain forward adjoint domain g =
        forward codomain g >>= adjoint domain := by
      rw [viaCodomain,hc]
      rfl
    exact congrArg (Except.map Grid.entries) hnormal

namespace Matrix
variable {n : Nat}

theorem toComplex_foldl (zs : List (Cplx ℝ)) (z : Cplx ℝ) :
    (zs.foldl Cplx.add z).toComplex = z.toComplex + (zs.map Cplx.toComplex).sum := by
  induction zs generalizing z with
  | nil => simp
  | cons w ws ih => rw [List.foldl_cons,ih,Cplx.toComplex_add,List.map_cons,List.sum_cons,add_assoc]

theorem combine_complexCoords (c : Fin n → ℂ) (z : ComplexSpace n) :
    combine (List.ofFn fun j => Cplx.ofComplex (c j)) (complexCoords z) =
      .ok (Cplx.ofComplex (∑ j, c j * z j)) := by
  rw [combine,if_pos (by simp),complexCoords,zipWith_ofFn]
  refine congrArg Except.ok ?_
  rw [← Cplx.ofComplex_toComplex (List.foldl _ _ _),toComplex_foldl,List.map_ofFn,List.sum_ofFn,
    Cplx.toComplex_zero,zero_add]
  simp only [Function.comp_apply,Cplx.toComplex_mul,Cplx.toComplex_ofComplex]

theorem range_eq_ofFn (n : Nat) : List.range n = List.ofFn fun i : Fin n => (i : Nat) :=
  List.ext_getElem (by simp) (by simp)

/-- Lines with the coefficients of a matrix multiply by it. -/
theorem computes_multiply {line : Nat → Nat → List (Cplx ℝ)}
    {C : Matrix (Fin (Grid.volume target)) (Fin (Grid.volume source)) ℂ}
    (hline : ∀ i : Fin (Grid.volume target),
      line (Grid.volume source) i = List.ofFn fun j => Cplx.ofComplex (C i j))
    (ht : Grid.addressable target = true) :
    Computes (multiply line) target source (Matrix.toEuclideanLin C) := by
  intro g z hshape hentries
  have hlines : (List.range (Grid.volume target)).mapM
      (fun k => combine (line g.entries.length k) g.entries) =
      .ok (complexCoords (Matrix.toEuclideanLin C z)) := by
    rw [range_eq_ofFn,hentries,length_complexCoords]
    refine Checked.mapM_ofFn.mpr ⟨_,rfl,fun i => ?_⟩
    rw [hline i,combine_complexCoords]
    rfl
  obtain ⟨out,hout,_,hout'⟩ := Grid.exists_ofRowMajor_entries (length_complexCoords _) ht
  refine ⟨out,?_,hout'⟩
  rw [multiply,hlines]
  change columnToGrid target _ = _
  rw [columnToGrid,hout]

variable {domain codomain : List Nat} {a : Array (Cplx ℝ)}
  {M : Matrix (Fin (Grid.volume codomain)) (Fin (Grid.volume domain)) ℂ}

/-- The elements of a matrix row by row. -/
def Stores (a : Array (Cplx ℝ))
    (M : Matrix (Fin (Grid.volume codomain)) (Fin (Grid.volume domain)) ℂ) : Prop :=
  ∀ (i : Fin (Grid.volume codomain)) (j : Fin (Grid.volume domain)),
    a[i * Grid.volume domain + j]? = some (Cplx.ofComplex (M i j))

theorem Stores.row_eq (h : Stores a M) (i : Fin (Grid.volume codomain)) :
    row (Grid.volume domain) a (Grid.volume domain) i =
      List.ofFn fun j => Cplx.ofComplex (M i j) := by
  refine List.ext_getElem? fun k => ?_
  rw [row,Array.getElem?_toList,Array.getElem?_extract,List.getElem?_ofFn]
  by_cases hk : k < Grid.volume domain
  · have hget : a[i * Grid.volume domain + k]? = some (Cplx.ofComplex (M i ⟨k,hk⟩)) := h i ⟨k,hk⟩
    obtain ⟨hsize,_⟩ := Array.getElem?_eq_some_iff.mp hget
    rw [if_pos (by omega),dif_pos hk]
    exact hget
  · rw [if_neg (by omega),dif_neg hk]

theorem Stores.conjugateColumn_eq (h : Stores a M) (j : Fin (Grid.volume domain)) :
    conjugateColumn (Grid.volume domain) a (Grid.volume codomain) j =
      List.ofFn fun i => Cplx.ofComplex (M.conjTranspose j i) := by
  have hget (i : Fin (Grid.volume codomain)) :
      (a[i * Grid.volume domain + j]?).map Cplx.conj =
        some (Cplx.ofComplex (M.conjTranspose j i)) := by
    rw [h i j]
    rfl
  rw [conjugateColumn,range_eq_ofFn,List.ofFn_eq_map,List.filterMap_map,List.ofFn_eq_map,
    ← List.filterMap_eq_map]
  exact congrArg (List.filterMap · _) (funext hget)

theorem realises_transform (h : Stores a M) (hd : Grid.addressable domain = true)
    (hc : Grid.allocatable Cplx.size codomain = true) :
    (transform domain codomain a).Realises (Matrix.toEuclideanLin M) := by
  have hadjoint : Computes (multiply (conjugateColumn (Grid.volume domain) a)) domain codomain
      (LinearMap.adjoint (Matrix.toEuclideanLin M)) := by
    rw [← Matrix.toEuclideanLin_conjTranspose_eq_adjoint]
    exact computes_multiply h.conjugateColumn_eq hd
  exact realises_ofPair hd hc (computes_multiply h.row_eq (Bool.and_eq_true_iff.mp hc).1) hadjoint

end Matrix

variable {F : ComplexSpace (Grid.volume t.domain) →ₗ[ℂ] ComplexSpace (Grid.volume t.codomain)}

/-- Vectors of the length of the domain are taken in, and the normal operator is symmetric and
positive semi-definite on them; forward and adjoint map are adjoint to each other. -/
theorem normalOperator_isPositive (h : t.Realises F) :
    t.domainLength = .ok (2 * Grid.volume t.domain) ∧
    t.codomainLength = .ok (2 * Grid.volume t.codomain) ∧
    (∀ x y : List ℝ, x.length = 2 * Grid.volume t.domain → y.length = 2 * Grid.volume t.domain →
      ∃ nx ny fx, t.normalOperator.apply x = .ok nx ∧ t.normalOperator.apply y = .ok ny ∧
        t.flatForward (2 * Grid.volume t.codomain) x = .ok fx ∧
        Vec.dot nx y = Vec.dot x ny ∧ Vec.dot nx x = Vec.norm fx ^ 2 ∧ 0 ≤ Vec.dot nx x) ∧
    (∀ x y : List ℝ, x.length = 2 * Grid.volume t.domain → y.length = 2 * Grid.volume t.codomain →
      ∃ fx ay, t.flatForward (2 * Grid.volume t.codomain) x = .ok fx ∧
        t.flatAdjoint (2 * Grid.volume t.domain) y = .ok ay ∧ Vec.dot fx y = Vec.dot x ay) ∧
    ∃ B : Space (2 * Grid.volume t.domain) →ₗ[ℝ] Space (2 * Grid.volume t.domain),
      t.normalOperator.ActsAs B ∧ B.IsPositive := by
  have hacts := h.normalOperator_actsAs
  refine ⟨flatLength_of_checkBuffer (checkBuffer_of_addressable h.domain),
    flatLength_of_checkBuffer (checkBuffer_of_addressable h.codomain),fun x y hx hy => ?_,
    fun x y hx hy => ?_,_,hacts,LinearMap.isPositive_adjoint_comp_self _⟩
  · obtain ⟨v,rfl⟩ := exists_coords hx
    obtain ⟨w,rfl⟩ := exists_coords hy
    have hsquare : Vec.dot (coords ((LinearMap.adjoint (onParts F) ∘ₗ onParts F) v)) (coords v) =
        Vec.norm (coords (onParts F v)) ^ 2 := by
      rw [Vec.dot_coords,Vec.norm_coords,LinearMap.comp_apply,LinearMap.adjoint_inner_left,
        real_inner_self_eq_norm_sq]
    refine ⟨_,_,_,hacts v,hacts w,h.flatForward_coords v,?_,hsquare,?_⟩
    · rw [Vec.dot_coords,Vec.dot_coords,LinearMap.comp_apply,LinearMap.comp_apply,
        LinearMap.adjoint_inner_left,LinearMap.adjoint_inner_right]
    · rw [hsquare]
      exact sq_nonneg _
  · obtain ⟨v,rfl⟩ := exists_coords hx
    obtain ⟨w,rfl⟩ := exists_coords hy
    refine ⟨_,_,h.flatForward_coords v,h.flatAdjoint_coords w,?_⟩
    rw [Vec.dot_coords,Vec.dot_coords,LinearMap.adjoint_inner_right]

/-- One row of two elements, from arrays of two axes to arrays of one. -/
noncomputable def mixedRow : Transform ℝ :=
  Matrix.transform [1,2] [1] #[⟨0,1⟩,⟨1,0⟩]

theorem realises_mixedRow : mixedRow.Realises
    (Matrix.toEuclideanLin (!![Complex.I,1] : Matrix (Fin 1) (Fin 2) ℂ)) := by
  refine Matrix.realises_transform (fun i j => ?_) (by decide) (by decide)
  fin_cases i
  fin_cases j <;> rfl

/-- The matrix is not real, and the normal map goes through an array over the codomain. -/
theorem normalOperator_mixedRow : ∃ nx fx, mixedRow.normalOperator.apply [1,0,0,1] = .ok nx ∧
    mixedRow.flatForward 2 [1,0,0,1] = .ok fx ∧ Vec.dot nx [1,0,0,1] = Vec.norm fx ^ 2 := by
  obtain ⟨_,_,hsymmetric,_⟩ := normalOperator_isPositive realises_mixedRow
  obtain ⟨nx,_,fx,hnx,_,hfx,_,hsquare,_⟩ := hsymmetric [1,0,0,1] [1,0,0,1] rfl rfl
  exact ⟨nx,fx,hnx,hfx,hsquare⟩

end LinearInverse.Transform
