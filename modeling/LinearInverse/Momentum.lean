import LinearInverse.Vec

namespace LinearInverse.Momentum
variable {α : Type} [Scalar α]

/-- The positive solution of `t² - t = (previous t)²`. -/
def next (t : α) : α :=
  (1 + Scalar.sqrt (1 + ((4 : Nat) : α) * t * t)) / ((2 : Nat) : α)

/-- `new + beta * (new - old)`. -/
def extrapolate (beta : α) (new old : List α) : List α :=
  List.zipWith (fun n o => n + beta * (n - o)) new old

theorem extrapolate_eq (beta : α) (new old : List α) :
    extrapolate beta new old = Vec.axpy new beta (Vec.sub new old) := by
  rw [extrapolate,Vec.axpy,Vec.sub]
  induction new generalizing old with
  | nil => rfl
  | cons n new ih =>
    cases old with
    | nil => rfl
    | cons o old => exact congrArg (List.cons _) (ih old)

theorem length_extrapolate {n : Nat} {new old : List α} (hnew : new.length = n)
    (hold : old.length = n) (beta : α) : (extrapolate beta new old).length = n := by
  rw [extrapolate_eq]
  exact Vec.length_axpy hnew (Vec.length_sub hnew hold) beta

end LinearInverse.Momentum
