import LinearInverse.Prox.Basic

namespace LinearInverse.ProxOperator.SoftThreshold
variable {α : Type} [Scalar α]

/-- An element that does not exceed the threshold becomes zero, and so does an undefined one. -/
def shrink (t : α) (z : Cplx α) : Cplx α :=
  let m := z.magnitude
  if t < m then z.scale ((m - t) / m) else Cplx.zero

def apply (weight mu : α) (dst src : List α) : Checked α (List α) :=
  if dst.length ≠ src.length then .error .thresholdLengths
  else (Cplx.ofVector src).map fun zs => Cplx.interleave (zs.map (shrink (weight * mu)))

theorem apply_eq {weight : α} (hdst : dst.length = src.length) (heven : src.length % 2 = 0) :
    apply weight mu dst src =
      .ok (Cplx.interleave ((Cplx.pairs src).map (shrink (weight * mu)))) := by
  rw [apply,if_neg (not_not_intro hdst),Cplx.ofVector,if_pos heven]
  rfl

theorem length_apply {weight : α} (h : apply weight mu dst src = .ok out) :
    out.length = dst.length := by
  obtain ⟨hl,h⟩ := Checked.unless_eq_ok.mp h
  obtain ⟨zs,hs,rfl⟩ := Checked.map_eq_ok.mp h
  rw [Cplx.length_interleave,List.length_map,← Cplx.length_of_ofVector hs]
  exact (Decidable.of_not_not hl).symm

end LinearInverse.ProxOperator.SoftThreshold

namespace LinearInverse.ProxOperator

/-- `g(x) = weight * Σ |x_j|`. -/
def softThreshold {α : Type} [Scalar α] (weight : α) : ProxOperator α where
  apply := SoftThreshold.apply weight
  length_apply := SoftThreshold.length_apply

end LinearInverse.ProxOperator
