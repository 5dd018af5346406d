import LinearInverse.Scalar

namespace LinearInverse.Objective
variable {α : Type} [Scalar α]

def total (x : List α) : α :=
  x.foldl (· + ·) 0

def squares (x : List α) : α :=
  x.foldl (fun acc v => acc + v * v) 0

end LinearInverse.Objective
