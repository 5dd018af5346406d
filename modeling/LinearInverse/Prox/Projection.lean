import LinearInverse.Prox.Basic

namespace LinearInverse.ProxOperator.Projection
variable {α : Type}

/-- For each element of the vector the value it is fixed to, if any. -/
abbrev Fixed (α : Type) := List (Option (Cplx α))

def fix (fixed : Fixed α) (zs : List (Cplx α)) : List (Cplx α) :=
  List.zipWith (fun f z => f.getD z) fixed zs

/-- `mismatch` is the defect of a source with another number of elements than are described. -/
def apply (mismatch : Defect α) (fixed : Fixed α) (dst src : List α) : Checked α (List α) :=
  Cplx.ofVector src >>= fun zs => Cplx.ofVector dst >>= fun old =>
    if zs.length ≠ fixed.length then .error mismatch
    else if old.length ≠ zs.length then .error .projectionLengths
    else .ok (Cplx.interleave (fix fixed zs))

theorem length_apply {fixed : Fixed α} (h : apply mismatch fixed dst src = .ok out) :
    out.length = dst.length := by
  obtain ⟨zs,_,h⟩ := Checked.bind_eq_ok.mp h
  obtain ⟨old,hd,h⟩ := Checked.bind_eq_ok.mp h
  obtain ⟨hz,h⟩ := Checked.unless_eq_ok.mp h
  obtain ⟨ho,h⟩ := Checked.unless_eq_ok.mp h
  have hl := Cplx.length_of_ofVector hd
  cases h
  rw [Cplx.length_interleave,fix,List.length_zipWith]
  omega

end LinearInverse.ProxOperator.Projection

namespace LinearInverse.ProxOperator
variable {α : Type}

def ofFixed (mismatch : Defect α) (fixed : Projection.Fixed α) : ProxOperator α where
  apply _ := Projection.apply mismatch fixed
  length_apply := Projection.length_apply

/-- Elements outside the mask are zero. -/
def support [Scalar α] (mask : List Bool) : ProxOperator α :=
  ofFixed .supportMask (mask.map fun keep => if keep then none else some Cplx.zero)

/-- Elements in the mask have the measured value. -/
def measured (mask : List Bool) (data : List (Cplx α)) : Checked α (ProxOperator α) :=
  if mask.length = data.length then
    .ok (ofFixed .dataMask (List.zipWith (fun m z => if m then some z else none) mask data))
  else .error .maskAndData

end LinearInverse.ProxOperator
