import LinearInverse.Prox.Projection
import LinearInverse.Prox.SoftThreshold
import LinearInverse.Proofs.Admm.Linear
import LinearInverse.Proofs.Admm.Passes
import LinearInverse.Proofs.ConjugateGradient.Termination
import LinearInverse.Proofs.Elements

namespace LinearInverse
variable {c : ℝ} {n : Nat}

namespace Vec

@[simp] theorem length_scale (c : ℝ) (x : List ℝ) : (scale c x).length = x.length :=
  List.length_map _

theorem map_zero_scale (c : ℝ) (x : List ℝ) :
    (scale c x).map (fun _ => 0) = scale c (x.map fun _ => 0) := by
  rw [scale,scale,List.map_map,List.map_map]
  exact List.map_congr_left fun v _ => (zero_mul c).symm

end Vec

/-- `A'` does to the multiples of the vectors of length `n` what `A` does to the vectors. -/
def Operator.ScaledBy (c : ℝ) (n : Nat) (A A' : Operator ℝ) : Prop :=
  ∀ x, x.length = n → A'.apply (Vec.scale c x) = (A.apply x).map (Vec.scale c)

theorem Operator.ActsAs.scaledBy {A : Operator ℝ} {L : Space n →ₗ[ℝ] Space n} (h : A.ActsAs L)
    (c : ℝ) : Operator.ScaledBy c n A A := by
  intro x hx
  obtain ⟨x,rfl⟩ := exists_coords hx
  rw [Vec.scale_coords,h,h,map_smul,← Vec.scale_coords]
  rfl

theorem Operator.ScaledBy.shifted {A A' : Operator ℝ} (h : ScaledBy c n A A') (w : ℝ) :
    ScaledBy c n (A.shifted w) (A'.shifted w) := by
  intro x hx
  rw [Operator.shifted,Operator.shifted,apply_square,apply_square,h x hx,Checked.map_map,
    Checked.map_map]
  refine congrArg (Except.map · (A.apply x)) (funext fun y => ?_)
  split
  · rfl
  · exact Vec.axpy_scale c w y x

/-- The maps of a transform commute with multiplication by numbers, and fail for the lengths
alone. -/
structure Transform.Scales (t : Transform ℝ) : Prop where
  forward : ∀ n a v, t.flatForward n (Vec.scale a v) = (t.flatForward n v).map (Vec.scale a)
  adjoint : t.AdjointScales
  normal : ∀ n a v, t.flatNormal n (Vec.scale a v) = (t.flatNormal n v).map (Vec.scale a)

/-- Linear transforms do. -/
theorem Transform.scales_of_linear {t : Transform ℝ} {m : Nat} {F : Space n →ₗ[ℝ] Space m}
    {G : Space m →ₗ[ℝ] Space n} {N : Space n →ₗ[ℝ] Space n}
    (hF : ∀ x, t.flatForward m (coords x) = .ok (coords (F x)))
    (hG : ∀ y, t.flatAdjoint n (coords y) = .ok (coords (G y)))
    (hN : ∀ x, t.flatNormal n (coords x) = .ok (coords (N x))) : t.Scales :=
  ⟨onVectors_scale hF,adjointScales_of_linear hG,onVectors_scale hN⟩

theorem Admm.LinearTerm.scales (t : LinearTerm n) : t.term.transform.Scales :=
  Transform.scales_of_linear (N := t.adjoint ∘ₗ t.forward) t.flatForward_eq t.flatAdjoint_eq
    t.flatNormal_eq

namespace Cplx

theorem pairs_scale (c : ℝ) : (x : List ℝ) → pairs (Vec.scale c x) = (pairs x).map (scale · c)
  | [] => rfl
  | [_] => rfl
  | re::im::rest => congrArg (Cplx.mk (re * c) (im * c) :: ·) (pairs_scale c rest)

theorem interleave_scale (c : ℝ) (zs : List (Cplx ℝ)) :
    interleave (zs.map (scale · c)) = Vec.scale c (interleave zs) := by
  induction zs with
  | nil => rfl
  | cons z zs ih => exact congrArg (z.re * c :: z.im * c :: ·) ih

theorem ofVector_scale (c : ℝ) (x : List ℝ) :
    ofVector (α := ℝ) (Vec.scale c x) = (ofVector x).map (List.map (scale · c)) := by
  rw [ofVector,ofVector,Vec.length_scale,pairs_scale]
  split <;> rfl

theorem zero_scale (c : ℝ) : (zero : Cplx ℝ).scale c = zero :=
  congrArg₂ Cplx.mk (zero_mul c) (zero_mul c)

end Cplx

namespace ProxOperator

/-- `p'` does to the multiples of vectors what `p` does to the vectors. -/
def ScaledBy (c : ℝ) (p p' : ProxOperator ℝ) : Prop :=
  ∀ mu dst src, dst.length = src.length →
    p'.apply mu (Vec.scale c dst) (Vec.scale c src) = (p.apply mu dst src).map (Vec.scale c)

theorem shrink_scale (hc : 0 < c) (t : ℝ) (z : Cplx ℝ) :
    SoftThreshold.shrink (c * t) (z.scale c) = (SoftThreshold.shrink t z).scale c := by
  have hratio : (c * z.magnitude - c * t) / (c * z.magnitude) =
      (z.magnitude - t) / z.magnitude := by
    rw [← mul_sub,mul_div_mul_left _ _ hc.ne']
  simp only [SoftThreshold.shrink,Cplx.magnitude_scale hc.le,mul_lt_mul_iff_right₀ hc,hratio]
  split
  · exact congrArg₂ Cplx.mk (mul_right_comm _ _ _) (mul_right_comm _ _ _)
  · exact (Cplx.zero_scale c).symm

/-- A threshold grows with the vectors. -/
theorem scaledBy_softThreshold (hc : 0 < c) (w : ℝ) :
    ScaledBy c (softThreshold w) (softThreshold (c * w)) := by
  intro mu dst src hlen
  have hshrink (zs : List (Cplx ℝ)) :
      Cplx.interleave ((zs.map (Cplx.scale · c)).map (SoftThreshold.shrink (c * w * mu))) =
        Vec.scale c (Cplx.interleave (zs.map (SoftThreshold.shrink (w * mu)))) := by
    rw [← Cplx.interleave_scale,List.map_map,List.map_map,mul_assoc]
    exact congrArg Cplx.interleave (List.map_congr_left fun z _ => shrink_scale hc _ z)
  have hlen' : (Vec.scale c dst).length = (Vec.scale c src).length := by simpa
  change SoftThreshold.apply _ _ _ _ = (SoftThreshold.apply _ _ _ _).map _
  rw [SoftThreshold.apply,SoftThreshold.apply,if_neg (not_not.mpr hlen),
    if_neg (not_not.mpr hlen'),Cplx.ofVector_scale,Checked.map_map,Checked.map_map]
  exact congrArg (Except.map · (Cplx.ofVector src)) (funext hshrink)

theorem fix_scale (c : ℝ) (fixed : Projection.Fixed ℝ) (zs : List (Cplx ℝ)) :
    Projection.fix (fixed.map (Option.map (Cplx.scale · c))) (zs.map (Cplx.scale · c)) =
      (Projection.fix fixed zs).map (Cplx.scale · c) := by
  rw [Projection.fix,Projection.fix,List.zipWith_map,List.map_zipWith]
  refine congrArg (fun f => List.zipWith f fixed zs) (funext fun f => funext fun z => ?_)
  cases f <;> rfl

/-- The fixed elements grow with the vectors. -/
theorem scaledBy_ofFixed (c : ℝ) (mismatch : Defect ℝ) (fixed : Projection.Fixed ℝ) :
    ScaledBy c (ofFixed mismatch fixed)
      (ofFixed mismatch (fixed.map (Option.map (Cplx.scale · c)))) := by
  intro mu dst src _
  change Projection.apply _ _ _ _ = (Projection.apply _ _ _ _).map _
  rw [Projection.apply,Projection.apply,Cplx.ofVector_scale,Cplx.ofVector_scale,
    Checked.bind_map,Checked.map_bind]
  refine Checked.bind_congr fun zs _ => ?_
  rw [Checked.bind_map,Checked.map_bind]
  refine Checked.bind_congr fun old _ => ?_
  rw [List.length_map,List.length_map,List.length_map,fix_scale,Cplx.interleave_scale]
  split
  · rfl
  · split <;> rfl

theorem scaledBy_support (c : ℝ) (mask : List Bool) : ScaledBy c (support mask) (support mask) := by
  have hzero : (mask.map fun keep => if keep then none else some Cplx.zero).map
      (Option.map (Cplx.scale · c)) =
        mask.map fun keep => if keep then none else some (Cplx.zero : Cplx ℝ) := by
    rw [List.map_map]
    refine List.map_congr_left fun keep _ => ?_
    cases keep
    · exact congrArg some (Cplx.zero_scale c)
    · rfl
  have h := scaledBy_ofFixed c .supportMask
    (mask.map fun keep => if keep then none else some Cplx.zero)
  rwa [hzero] at h

/-- Measured data grow with the vectors. -/
theorem scaledBy_measured {mask : List Bool} {data : List (Cplx ℝ)} {p p' : ProxOperator ℝ}
    (h : measured mask data = .ok p) (h' : measured mask (data.map (Cplx.scale · c)) = .ok p') :
    ScaledBy c p p' := by
  have hfixed : (List.zipWith (fun m z => if m then some z else none) mask data).map
      (Option.map (Cplx.scale · c)) =
        List.zipWith (fun m z => if m then some z else none) mask
          (data.map (Cplx.scale · c)) := by
    rw [List.map_zipWith,List.zipWith_map_right]
    refine congrArg (fun f => List.zipWith f mask data) (funext fun m => funext fun z => ?_)
    cases m <;> rfl
  have hscaled := scaledBy_ofFixed c .dataMask
    (List.zipWith (fun m z => if m then some z else none) mask data)
  rw [hfixed] at hscaled
  rw [measured] at h h'
  split at h
  next hlen =>
    rw [List.length_map,if_pos hlen] at h'
    cases h
    cases h'
    exact hscaled
  next => cases h

end ProxOperator

/-- Residuals and their bounds for `c` times image and data, with the same penalty. -/
noncomputable def Balance.scaled (c : ℝ) (b : Balance ℝ) : Balance ℝ :=
  ⟨c * b.primal,c * b.dual,c * b.primalBound,c * b.dualBound,b.rho⟩

/-- The same report and `c` times the image, and `c` times the residuals with their bounds, if the
log has any. -/
structure Solution.ScaledBy (c : ℝ) (s s' : Solution ℝ) : Prop where
  report_eq : s'.report = s.report
  image_eq : s'.image = Vec.scale c s.image
  history_eq : s'.log.filterMap Admm.balance? =
    (s.log.filterMap Admm.balance?).map (Balance.scaled c)

end LinearInverse
