import LinearInverse.Vec

namespace LinearInverse

/-- `fill n x` is the image of `x` as a vector of length `n`. -/
structure Operator (α : Type) where
  fill : Nat → List α → Checked α (List α)
  length_fill : fill n x = .ok y → y.length = n

namespace Operator
variable {α : Type}

def apply (A : Operator α) (x : List α) : Checked α (List α) :=
  A.fill x.length x

theorem length_apply {A : Operator α} (h : A.apply x = .ok y) : y.length = x.length :=
  A.length_fill h

/-- A map that is square only, and refuses destinations of another length. -/
def square (f : List α → Checked α (List α))
    (length_f : ∀ x y, f x = .ok y → y.length = x.length) : Operator α where
  fill n x := if n ≠ x.length then .error .lengthMismatch else f x
  length_fill {n x y} h := by
    obtain ⟨hn,h⟩ := Checked.unless_eq_ok.mp h
    exact (length_f x y h).trans (Decidable.of_not_not hn).symm

@[simp] theorem apply_square (f : List α → Checked α (List α))
    (length_f : ∀ x y, f x = .ok y → y.length = x.length) (x : List α) :
    (square f length_f).apply x = f x := by
  simp [apply,square]

def identity : Operator α :=
  square .ok fun x y h => by cases h; rfl

/-- The first `n` of the given rows, and empty ones where there are fewer. -/
def padded (rows : List (List α)) (n : Nat) : List (List α) :=
  rows.take n ++ List.replicate (n - rows.length) []

theorem length_padded (rows : List (List α)) (n : Nat) : (padded rows n).length = n := by
  simp only [padded,List.length_append,List.length_take,List.length_replicate]
  omega

variable [Scalar α]

/-- Multiplies entry by entry. What lies beyond the destination is not looked at. -/
def diagonal (d : List α) : Operator α where
  fill n x :=
    if n ≤ d.length ∧ n ≤ x.length then .ok ((List.zipWith (· * ·) d x).take n)
    else .error .outOfRange
  length_fill {n x y} h := by
    split at h
    next hl => cases h; simp only [List.length_take,List.length_zipWith]; omega
    next => simp at h

/-- Starts at zero and adds the products in order. Each entry of `x` needs its coefficient. -/
def row (a x : List α) : Checked α α :=
  if x.length ≤ a.length then .ok ((List.zipWith (· * ·) a x).foldl (· + ·) 0)
  else .error .outOfRange

/-- A matrix given by its rows. -/
def dense (rows : List (List α)) : Operator α where
  fill n x := (padded rows n).mapM fun a => row a x
  length_fill h := (Checked.length_mapM h).trans (length_padded rows _)

end Operator

end LinearInverse
