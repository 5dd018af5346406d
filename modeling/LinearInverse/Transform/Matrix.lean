import LinearInverse.Transform.Basic

namespace LinearInverse.Transform.Matrix
variable {α : Type}

def columnToGrid (shape : List Nat) (zs : List (Cplx α)) : Checked α (Grid (Cplx α)) :=
  match Grid.ofRowMajor? shape zs with
  | some g => .ok g
  | none => .error .outOfRange

theorem shape_columnToGrid (h : columnToGrid shape zs = .ok out) :
    (out : Grid (Cplx α)).shape = shape := by
  simp only [columnToGrid,Grid.ofRowMajor?] at h
  split at h
  next g hg =>
    split at hg
    next => cases hg; cases h; exact Axis.sizes_rowMajor shape
    next => simp at hg
  next => simp at h

variable [Scalar α]

/-- Starts at zero and adds the products in order. Each element of `x` needs its coefficient. -/
def combine (a x : List (Cplx α)) : Checked α (Cplx α) :=
  if x.length ≤ a.length then .ok ((List.zipWith Cplx.mul a x).foldl Cplx.add Cplx.zero)
  else .error .outOfRange

/-- The `n` elements from the start of row `i`, as far as they are stored. -/
def row (width : Nat) (a : Array (Cplx α)) (n i : Nat) : List (Cplx α) :=
  (a.extract (i * width) (i * width + n)).toList

/-- The first `n` elements of column `j`, as far as they are stored, each conjugated. -/
def conjugateColumn (width : Nat) (a : Array (Cplx α)) (n j : Nat) : List (Cplx α) :=
  (List.range n).filterMap fun i => (a[i * width + j]?).map Cplx.conj

/-- One element of the destination for each line of coefficients. How many lines there are, and how
many coefficients each has, is up to destination and source. -/
def multiply (line : Nat → Nat → List (Cplx α)) (dst : List Nat) (g : Grid (Cplx α)) :
    Checked α (Grid (Cplx α)) :=
  let x := g.entries
  (List.range (Grid.volume dst)).mapM (fun k => combine (line x.length k) x) >>= columnToGrid dst

theorem shape_multiply (h : multiply line dst g = .ok out) :
    (out : Grid (Cplx α)).shape = dst := by
  obtain ⟨zs,_,h⟩ := Checked.bind_eq_ok.mp h
  exact shape_columnToGrid h

/-- One row for each element of the codomain, one column for each element of the domain. Arrays are
taken as columns in row-major order. -/
def transform (domain codomain : List Nat) (a : Array (Cplx α)) : Transform α :=
  let width := Grid.volume domain
  ofPair domain codomain (multiply (row width a)) (multiply (conjugateColumn width a))
    (fun _ _ _ => shape_multiply) (fun _ _ _ => shape_multiply)

end LinearInverse.Transform.Matrix
