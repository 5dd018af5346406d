import LinearInverse.Proofs.Admm.Linear
import LinearInverse.Proofs.ConjugateGradient.Termination

namespace LinearInverse.Admm
variable {n D : Nat} {T : Fin D → LinearTerm n} {A : Space n →ₗ[ℝ] Space n} {c : Space n}
  {p : Plan ℝ} {op : Option (Operator ℝ)} {b : Option (List ℝ)} {rho : ℝ}

/-- `A + rho Σ GᴴG`. -/
noncomputable def normalMap (T : Fin D → LinearTerm n) (A : Space n →ₗ[ℝ] Space n) (rho : ℝ) :
    Space n →ₗ[ℝ] Space n :=
  A + rho • (adjoints T ∘ₗ forwards T)

theorem normalMap_apply (x : Space n) :
    normalMap T A rho x = A x + rho • adjoints T (forwards T x) := rfl

namespace Linear

theorem actsAs (h : Linear T A c p op b) (rho : ℝ) :
    (augmented op rho p.terms).ActsAs (normalMap T A rho) :=
  h.augmented_apply rho

/-- An image that solves the system already is left alone. -/
theorem updateImage_of_eq (h : Linear T A c p op b) (hD : 0 < D) {x v : Space n}
    (hx : normalMap T A rho x = c + rho • v) :
    updateImage p op b rho (coords x) (coords v) = .ok (coords x) := by
  rw [h.updateImage_eq (h.hasSystem hD),ConjugateGradient.solve_of_eq (h.actsAs rho) hx]
  rfl

end Linear

end LinearInverse.Admm
