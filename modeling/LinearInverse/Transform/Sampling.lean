import LinearInverse.Transform.Basic

namespace LinearInverse

inductive SamplingError where
  | rankMismatch (expected found : Nat)
  | patternShapeMismatch (expected found : List Nat)
  | notBroadcastable (axis dim patternDim : Nat)
  | emptyDimension (axis : Nat)
  deriving DecidableEq, Repr

def SamplingError.message : SamplingError → String
  | rankMismatch e f =>
    "Rank mismatch: expected " ++ toString e ++ " dimensions, found " ++ toString f
  | patternShapeMismatch e f =>
    "Pattern shape mismatch: expected " ++ Text.sizes e ++ ", found " ++ Text.sizes f
  | notBroadcastable a d p =>
    "Pattern dimension " ++ toString p ++ " at axis " ++ toString a ++
      " cannot be broadcast to " ++ toString d
  | emptyDimension a => "Dimension at axis " ++ toString a ++ " must be non-zero"

namespace Sampling

/-- The axis that counts coil sensitivity maps; measurements do not have it. -/
def mapsAxis : Nat := 4

def kspaceDims (dims : List Nat) : List Nat :=
  dims.set mapsAxis 1

/-- Reports the first axis that is empty or that the pattern does not stretch over. -/
def checkAxes (axis : Nat) : List Nat → List Nat → Except SamplingError Unit
  | d::ds, p::ps =>
    if d = 0 then .error (.emptyDimension axis)
    else if p ≠ 1 ∧ p ≠ d then .error (.notBroadcastable axis d p)
    else checkAxes (axis + 1) ds ps
  | _, _ => .ok ()

def checkBroadcast (dims patternDims : List Nat) : Except SamplingError Unit :=
  if dims.length ≠ patternDims.length then .error (.rankMismatch dims.length patternDims.length)
  else checkAxes 0 dims patternDims

theorem stretches_of_checkAxes (h : checkAxes axis dims patternDims = .ok ())
    (hl : dims.length = patternDims.length) : Grid.Stretches patternDims dims := by
  induction dims generalizing axis patternDims with
  | nil => cases patternDims with
    | nil => trivial
    | cons => simp at hl
  | cons d ds ih => cases patternDims with
    | nil => simp at hl
    | cons p ps =>
      simp only [checkAxes] at h
      split at h
      next => simp at h
      next =>
        split at h
        next => simp at h
        next hp => exact ⟨by omega,ih h (by simpa using hl)⟩

theorem stretches_of_checkBroadcast (h : checkBroadcast dims patternDims = .ok ()) :
    Grid.Stretches patternDims dims := by
  simp only [checkBroadcast] at h
  split at h
  next => simp at h
  next hl => exact stretches_of_checkAxes h (by omega)

end Sampling

/-- Dimensions and pattern that go together. -/
structure Sampling (α : Type) where
  dims : List Nat
  pattern : Grid (Cplx α)
  stretches : Grid.Stretches pattern.shape dims

namespace Sampling
variable {α : Type}

def new (dims patternDims : List Nat) (pattern : Grid (Cplx α)) :
    Except SamplingError (Sampling α) :=
  if hs : pattern.shape = patternDims then
    match hc : checkBroadcast (kspaceDims dims) patternDims with
    | .ok () => .ok ⟨kspaceDims dims,pattern,by rw [hs]; exact stretches_of_checkBroadcast hc⟩
    | .error e => .error e
  else .error (.patternShapeMismatch patternDims pattern.shape)

variable [Scalar α]

def apply (s : Sampling α) (dst : List Nat) (g : Grid (Cplx α)) : Checked α (Grid (Cplx α)) :=
  if hg : g.shape = s.dims then
    if dst = s.dims then
      .ok (Grid.generate s.dims fun idx hi =>
        (g.entry idx (hg ▸ hi)).mul (s.pattern.entry _ (Grid.Inside.pin s.stretches hi)))
    else .error .samplingOutput
  else .error .samplingInput

/-- The pattern stands for measured or unmeasured, so one map serves as adjoint and normal map
too. -/
def transform (s : Sampling α) : Transform α :=
  Transform.ofMap s.dims s.apply fun dst g out h => by
    simp only [apply] at h
    split at h
    next =>
      split at h
      next hd => cases h; rw [hd]; exact Grid.shape_generate s.dims _
      next => simp at h
    next => simp at h

end Sampling

end LinearInverse
