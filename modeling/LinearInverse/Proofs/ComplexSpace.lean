import Mathlib
import LinearInverse.Proofs.Elements

namespace LinearInverse
variable {m n : Nat}

namespace Cplx

def toComplex (z : Cplx ℝ) : ℂ := ⟨z.re,z.im⟩

def ofComplex (z : ℂ) : Cplx ℝ := ⟨z.re,z.im⟩

theorem toComplex_ofComplex (z : ℂ) : (ofComplex z).toComplex = z := rfl

@[simp] theorem ofComplex_toComplex (z : Cplx ℝ) : ofComplex z.toComplex = z := rfl

theorem toComplex_zero : (zero : Cplx ℝ).toComplex = 0 := rfl

@[simp] theorem toComplex_add (z w : Cplx ℝ) :
    (z.add w).toComplex = z.toComplex + w.toComplex := rfl

theorem toComplex_mul (z w : Cplx ℝ) :
    (z.mul w).toComplex = z.toComplex * w.toComplex := rfl

end Cplx

abbrev ComplexSpace (n : Nat) := EuclideanSpace ℂ (Fin n)

/-- The list of the coordinates. -/
def complexCoords (z : ComplexSpace n) : List (Cplx ℝ) :=
  List.ofFn fun j => Cplx.ofComplex (z j)

@[simp] theorem length_complexCoords (z : ComplexSpace n) : (complexCoords z).length = n := by
  simp [complexCoords]

/-- The complex vector of which a real one has the parts. -/
def joined (x : Space (2 * n)) : ComplexSpace n :=
  WithLp.toLp _ fun j => (element x j).toComplex

/-- The parts of a complex vector. -/
noncomputable def parts (z : ComplexSpace n) : Space (2 * n) :=
  (exists_elements fun j => Cplx.ofComplex (z j)).choose

theorem coords_parts (z : ComplexSpace n) :
    coords (parts z) = Cplx.interleave (complexCoords z) :=
  (exists_elements fun j => Cplx.ofComplex (z j)).choose_spec.1

theorem pairs_coords_joined (x : Space (2 * n)) :
    Cplx.pairs (coords x) = complexCoords (joined x) :=
  pairs_coords x

@[simp] theorem joined_parts (z : ComplexSpace n) : joined (parts z) = z := by
  ext j
  exact congrArg Cplx.toComplex
    ((exists_elements fun j => Cplx.ofComplex (z j)).choose_spec.2 j)

theorem joined_injective : Function.Injective (joined : Space (2 * n) → ComplexSpace n) := by
  intro x y h
  have hpairs : Cplx.pairs (coords x) = Cplx.pairs (coords y) := by
    rw [pairs_coords_joined,pairs_coords_joined,h]
  have heven (z : Space (2 * n)) : (coords z).length % 2 = 0 := by simp
  apply coords_injective
  rw [← Cplx.interleave_pairs _ (heven x),hpairs,Cplx.interleave_pairs _ (heven y)]

theorem joined_add (x y : Space (2 * n)) : joined (x + y) = joined x + joined y := rfl

theorem joined_smul (a : ℝ) (x : Space (2 * n)) : joined (a • x) = (a : ℂ) • joined x := by
  ext j
  exact Complex.ext (by simp [joined,element,Cplx.toComplex])
    (by simp [joined,element,Cplx.toComplex])

/-- The inner product of the parts. -/
theorem inner_eq_re (x y : Space (2 * n)) :
    inner ℝ x y = (inner ℂ (joined x) (joined y)).re := by
  rw [PiLp.inner_apply,PiLp.inner_apply,Complex.re_sum,sum_elements]
  refine Finset.sum_congr rfl fun j _ => ?_
  simp [joined,element,Cplx.toComplex]

/-- A map of complex vectors on their parts. -/
noncomputable def onParts (F : ComplexSpace n →ₗ[ℂ] ComplexSpace m) :
    Space (2 * n) →ₗ[ℝ] Space (2 * m) where
  toFun x := parts (F (joined x))
  map_add' x y := joined_injective (by simp [joined_add])
  map_smul' a x := joined_injective (by simp [joined_smul])

variable {F : ComplexSpace n →ₗ[ℂ] ComplexSpace m}

theorem onParts_apply (x : Space (2 * n)) : onParts F x = parts (F (joined x)) := rfl

theorem joined_onParts (x : Space (2 * n)) : joined (onParts F x) = F (joined x) :=
  joined_parts _

theorem adjoint_onParts :
    LinearMap.adjoint (onParts F) = onParts (LinearMap.adjoint F) := by
  refine ((LinearMap.eq_adjoint_iff _ _).mpr fun y x => ?_).symm
  rw [inner_eq_re,inner_eq_re,joined_onParts,joined_onParts,LinearMap.adjoint_inner_left]

end LinearInverse
