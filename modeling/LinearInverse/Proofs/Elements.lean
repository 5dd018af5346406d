import LinearInverse.Proofs.Euclidean
import LinearInverse.Cplx

namespace LinearInverse
variable {m n : Nat}

/-- Element `j` of a complex vector. -/
def element (x : Space (2 * n)) (j : Fin n) : Cplx ℝ :=
  ⟨x ⟨2 * j,by omega⟩,x ⟨2 * j + 1,by omega⟩⟩

theorem getElem?_coords (x : Space m) {i : Nat} (h : i < m) :
    (coords x)[i]? = some (x ⟨i,h⟩) := by
  rw [coords,List.getElem?_ofFn,dif_pos h]

theorem pairs_coords (x : Space (2 * n)) : Cplx.pairs (coords x) = List.ofFn (element x) := by
  have hlen : (Cplx.pairs (coords x)).length = n := by
    rw [Cplx.length_pairs,length_coords]
    omega
  refine List.ext_getElem (by rw [hlen,List.length_ofFn]) fun j hj hj' => ?_
  obtain ⟨hre,him⟩ := Cplx.getElem?_interleave (Cplx.pairs (coords x)) j
  rw [List.length_ofFn] at hj'
  rw [Cplx.interleave_pairs _ (by simp),List.getElem?_eq_getElem hj,
    getElem?_coords x (by omega)] at hre him
  rw [List.getElem_ofFn]
  exact (congrArg₂ Cplx.mk (Option.some.inj hre) (Option.some.inj him)).symm

/-- Every list of elements makes a vector. -/
theorem exists_elements (z : Fin n → Cplx ℝ) :
    ∃ y : Space (2 * n), coords y = Cplx.interleave (List.ofFn z) ∧ ∀ j, element y j = z j := by
  have hlen : (Cplx.interleave (List.ofFn z)).length = 2 * n := by
    rw [Cplx.length_interleave,List.length_ofFn]
  obtain ⟨y,hy⟩ := exists_coords hlen
  have hpairs := pairs_coords y
  rw [hy,Cplx.pairs_interleave] at hpairs
  exact ⟨y,hy,fun j => (congrFun (List.ofFn_injective hpairs) j).symm⟩

/-- Where the parts of the elements are among the entries. -/
def partIndex (n : Nat) : Fin n × Fin 2 ≃ Fin (2 * n) :=
  finProdFinEquiv.trans (finCongr (Nat.mul_comm n 2))

theorem partIndex_eq (j : Fin n) (b : Fin 2) : partIndex n (j,b) = ⟨2 * j + b,by omega⟩ :=
  Fin.ext (Nat.add_comm _ _)

theorem sum_elements (f : Fin (2 * n) → ℝ) :
    ∑ i, f i = ∑ j : Fin n, (f ⟨2 * j,by omega⟩ + f ⟨2 * j + 1,by omega⟩) := by
  calc ∑ i, f i
      = ∑ p, f (partIndex n p) := ((partIndex n).sum_comp f).symm
    _ = ∑ j, ∑ b, f (partIndex n (j,b)) := Fintype.sum_prod_type _
    _ = _ := by
        refine Finset.sum_congr rfl fun j _ => ?_
        rw [Fin.sum_univ_two,partIndex_eq,partIndex_eq]
        rfl

namespace Cplx

/-- The inner product of `z - s` and `c - s` as vectors of the plane. -/
def turn (z s c : Cplx ℝ) : ℝ :=
  (z.re - s.re) * (c.re - s.re) + (z.im - s.im) * (c.im - s.im)

theorem magnitude_eq (z : Cplx ℝ) : z.magnitude = √(z.re ^ 2 + z.im ^ 2) := rfl

theorem magnitude_nonneg (z : Cplx ℝ) : 0 ≤ z.magnitude := Real.sqrt_nonneg _

theorem magnitude_sq (z : Cplx ℝ) : z.magnitude ^ 2 = z.re ^ 2 + z.im ^ 2 :=
  Real.sq_sqrt (by positivity)

theorem magnitude_zero : (zero : Cplx ℝ).magnitude = 0 := by
  simp [magnitude_eq,zero]

theorem magnitude_scale {c : ℝ} (hc : 0 ≤ c) (z : Cplx ℝ) :
    (z.scale c).magnitude = c * z.magnitude := by
  have hsquare : (z.re * c) ^ 2 + (z.im * c) ^ 2 = c ^ 2 * (z.re ^ 2 + z.im ^ 2) := by ring
  change √((z.re * c) ^ 2 + (z.im * c) ^ 2) = _
  rw [hsquare,Real.sqrt_mul (sq_nonneg c),Real.sqrt_sq hc,magnitude_eq]

/-- Cauchy–Schwarz in the plane. -/
theorem mul_add_mul_le (z c : Cplx ℝ) :
    z.re * c.re + z.im * c.im ≤ z.magnitude * c.magnitude := by
  rw [magnitude_eq,magnitude_eq,← Real.sqrt_mul (by positivity)]
  refine (le_abs_self _).trans (Real.abs_le_sqrt ?_)
  nlinarith [sq_nonneg (z.re * c.im - z.im * c.re)]

end Cplx

theorem inner_eq_sum (v x y : Space (2 * n)) : inner ℝ (v - y) (x - y) =
    ∑ j, Cplx.turn (element v j) (element y j) (element x j) := by
  rw [PiLp.inner_apply,sum_elements]
  refine Finset.sum_congr rfl fun j _ => ?_
  exact congrArg₂ (· + ·) (mul_comm _ _) (mul_comm _ _)

end LinearInverse
