import LinearInverse.Cplx
import LinearInverse.Grid.Basic

namespace LinearInverse

/-- Each map fills a destination of the given shape. A destination or source of a shape that the
transform does not know is a defect or is treated by the transform's own rule. -/
structure Transform (α : Type) where
  domain : List Nat
  codomain : List Nat
  forward : List Nat → Grid (Cplx α) → Checked α (Grid (Cplx α))
  adjoint : List Nat → Grid (Cplx α) → Checked α (Grid (Cplx α))
  normal : List Nat → Grid (Cplx α) → Checked α (Grid (Cplx α))
  shape_forward : forward dst g = .ok out → out.shape = dst
  shape_adjoint : adjoint dst g = .ok out → out.shape = dst
  shape_normal : normal dst g = .ok out → out.shape = dst

namespace Transform
variable {α : Type}

/-- The normal map that goes through an array over the codomain, which has to be made first. -/
def viaCodomain (codomain : List Nat)
    (forward adjoint : List Nat → Grid (Cplx α) → Checked α (Grid (Cplx α)))
    (dst : List Nat) (g : Grid (Cplx α)) : Checked α (Grid (Cplx α)) :=
  if !Grid.allocatable Cplx.size codomain then .error .sizeOverflow
  else forward codomain g >>= adjoint dst

/-- A transform whose normal map is the default one. -/
def ofPair (domain codomain : List Nat)
    (forward adjoint : List Nat → Grid (Cplx α) → Checked α (Grid (Cplx α)))
    (shape_forward : ∀ dst g out, forward dst g = .ok out → out.shape = dst)
    (shape_adjoint : ∀ dst g out, adjoint dst g = .ok out → out.shape = dst) : Transform α where
  domain := domain
  codomain := codomain
  forward := forward
  adjoint := adjoint
  normal := viaCodomain codomain forward adjoint
  shape_forward := shape_forward _ _ _
  shape_adjoint := shape_adjoint _ _ _
  shape_normal h := by
    obtain ⟨_,h⟩ := Checked.unless_eq_ok.mp h
    obtain ⟨m,_,h⟩ := Checked.bind_eq_ok.mp h
    exact shape_adjoint _ m _ h

/-- A transform of which all three maps are the same. -/
def ofMap (dims : List Nat) (map : List Nat → Grid (Cplx α) → Checked α (Grid (Cplx α)))
    (shape_map : ∀ dst g out, map dst g = .ok out → out.shape = dst) : Transform α where
  domain := dims
  codomain := dims
  forward := map
  adjoint := map
  normal := map
  shape_forward := shape_map _ _ _
  shape_adjoint := shape_map _ _ _
  shape_normal := shape_map _ _ _

/-- Copies, repeating the source where it is smaller than the destination. -/
def copy (dst : List Nat) (g : Grid (Cplx α)) : Checked α (Grid (Cplx α)) :=
  match g.broadcast? dst with
  | some out => .ok out
  | none => .error .notBroadcastable

def identity (dims : List Nat) : Transform α :=
  ofMap dims copy fun dst g out h => by
    simp only [copy,Grid.broadcast?] at h
    split at h
    next out' hb =>
      split at hb
      next => cases hb; cases h; exact Grid.shape_generate dst _
      next => simp at hb
    next => simp at h

end Transform

end LinearInverse
