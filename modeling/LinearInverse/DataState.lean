import LinearInverse.Progress

namespace LinearInverse
variable {α : Type} [Scalar α]

/-- Whether the norm of reference data can scale a tolerance. -/
inductive DataState (α : Type) where
  | empty
  | corrupted (norm : α)
  | usable (norm : α)

namespace DataState

def classify (reference : List α) : DataState α :=
  let n := Vec.norm reference
  if n == 0 then empty else if Scalar.isNormal n then usable n else corrupted n

theorem eq_of_classify_usable {reference : List α} {n : α} (h : classify reference = usable n) :
    n = Vec.norm reference ∧ Scalar.isNormal n = true := by
  unfold classify at h
  dsimp only at h
  split at h
  next => cases h
  next =>
    split at h
    next hn => cases h; exact ⟨rfl,hn⟩
    next => cases h

/-- A relative tolerance made absolute, or the reason not to run. -/
def scaledTol (tol : α) : DataState α → Except Degeneracy α
  | empty => .error .empty
  | corrupted _ => .error .corrupted
  | usable n => .ok (tol * n)

/-- What a log tells about data that cannot be used. -/
def warnings : DataState α → List (Event α)
  | empty => [.dataEmpty]
  | corrupted n => [.dataCorrupted n]
  | usable _ => []

/-- The norm itself, where no tolerance is to be scaled. -/
def check (reference : List α) : Except Degeneracy α :=
  (classify reference).scaledTol 1

end DataState

end LinearInverse
