import LinearInverse.Operator.Basic
import LinearInverse.Transform.Basic

namespace LinearInverse.Transform
variable {α : Type}

/-- Length of the vector of an array over `dims`. -/
def flatLength (dims : List Nat) : Checked α Nat :=
  match Grid.size? dims with
  | some n => if 2 * n < Grid.wordBound then .ok (2 * n) else .error .sizeOverflow
  | none => .error .sizeOverflow

def domainLength (t : Transform α) : Checked α Nat := flatLength t.domain

def codomainLength (t : Transform α) : Checked α Nat := flatLength t.codomain

/-- Whether a buffer of `length` numbers is a vector over `dims`. -/
def checkBuffer (dims : List Nat) (length : Nat) : Checked α Unit :=
  flatLength dims >>= fun n =>
    if length ≠ n then .error (.bufferLength dims)
    else if !Grid.addressable dims then .error (.operatorDimensions dims)
    else .ok ()

/-- The array that a vector stands for. -/
def gridOf (dims : List Nat) (x : List α) : Checked α (Grid (Cplx α)) :=
  checkBuffer dims x.length >>= fun _ =>
    match Grid.ofRowMajor? dims (Cplx.pairs x) with
    | some g => .ok g
    | none => .error (.operatorDimensions dims)

/-- Looks at the destination before the source. -/
def onVectors (map : List Nat → Grid (Cplx α) → Checked α (Grid (Cplx α)))
    (target source : List Nat) (dstLength : Nat) (x : List α) : Checked α (List α) :=
  checkBuffer target dstLength >>= fun _ => gridOf source x >>= fun g =>
    (map target g).map fun out => Cplx.interleave out.entries

def flatForward (t : Transform α) (dstLength : Nat) (x : List α) : Checked α (List α) :=
  onVectors t.forward t.codomain t.domain dstLength x

def flatAdjoint (t : Transform α) (dstLength : Nat) (x : List α) : Checked α (List α) :=
  onVectors t.adjoint t.domain t.codomain dstLength x

def flatNormal (t : Transform α) (dstLength : Nat) (x : List α) : Checked α (List α) :=
  onVectors t.normal t.domain t.domain dstLength x

theorem volume_of_flatLength (h : flatLength (α := α) dims = .ok n) :
    n = 2 * Grid.volume dims := by
  simp only [flatLength] at h
  split at h
  next m hm =>
    split at h
    next => cases h; rw [Grid.volume_of_size? hm]
    next => simp at h
  next => simp at h

theorem flatLength_of_checkBuffer (h : checkBuffer (α := α) dims n = .ok ()) :
    flatLength (α := α) dims = .ok n := by
  obtain ⟨m,hm,h⟩ := Checked.bind_eq_ok.mp h
  obtain ⟨hn,_⟩ := Checked.unless_eq_ok.mp h
  rwa [Decidable.of_not_not hn]

theorem checkBuffer_of_ne (h : checkBuffer (α := α) dims n = .ok ()) (hm : m ≠ n) :
    checkBuffer (α := α) dims m = .error (.bufferLength dims) := by
  rw [checkBuffer,flatLength_of_checkBuffer h]
  exact if_pos hm

theorem length_of_checkBuffer (h : checkBuffer (α := α) dims n = .ok ()) :
    n = 2 * Grid.volume dims :=
  volume_of_flatLength (flatLength_of_checkBuffer h)

theorem length_onVectors {map : List Nat → Grid (Cplx α) → Checked α (Grid (Cplx α))}
    (shape_map : ∀ dst g out, map dst g = .ok out → out.shape = dst)
    (h : onVectors map target source n x = .ok y) : y.length = n := by
  obtain ⟨_,hc,h⟩ := Checked.bind_eq_ok.mp h
  obtain ⟨g,_,h⟩ := Checked.bind_eq_ok.mp h
  obtain ⟨out,hm,rfl⟩ := Checked.map_eq_ok.mp h
  rw [Cplx.length_interleave,Grid.length_entries,shape_map target g out hm,length_of_checkBuffer hc]

theorem length_flatForward {t : Transform α} (h : t.flatForward n x = .ok y) : y.length = n :=
  length_onVectors (fun _ _ _ => t.shape_forward) h

theorem length_flatNormal {t : Transform α} (h : t.flatNormal n x = .ok y) : y.length = n :=
  length_onVectors (fun _ _ _ => t.shape_normal) h

/-- A transform that takes a vector in has its length. -/
theorem domainLength_of_flatForward {t : Transform α} (h : t.flatForward n x = .ok y) :
    t.domainLength = .ok x.length := by
  obtain ⟨_,_,h⟩ := Checked.bind_eq_ok.mp h
  obtain ⟨_,hg,_⟩ := Checked.bind_eq_ok.mp h
  obtain ⟨_,hc,_⟩ := Checked.bind_eq_ok.mp hg
  exact flatLength_of_checkBuffer hc

theorem codomainLength_of_flatForward {t : Transform α} (h : t.flatForward n x = .ok y) :
    t.codomainLength = .ok n := by
  obtain ⟨_,hc,_⟩ := Checked.bind_eq_ok.mp h
  exact flatLength_of_checkBuffer hc

/-- The normal map of a transform as an operator. -/
def normalOperator (t : Transform α) : Operator α where
  fill := t.flatNormal
  length_fill := length_flatNormal

end LinearInverse.Transform
