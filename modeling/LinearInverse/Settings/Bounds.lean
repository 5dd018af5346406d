import LinearInverse.SolverError
import LinearInverse.Scalar

namespace LinearInverse.Settings
variable {α : Type} [Scalar α]

def checkMaxIter (n : Nat) : Except (SolverError α) Unit :=
  if n = 0 then .error (.invalidMaxIter n "Maximum iterations must be greater than zero.")
  else .ok ()

def checkTolerance (name : String) (v : α) : Except (SolverError α) Unit :=
  if !Scalar.isFinite v then .error (.invalidTolerance name v "Tolerance must be finite.")
  else if v < 0 then .error (.invalidTolerance name v "Tolerance must be non-negative.")
  else .ok ()

def checkPositive (name : String) (v : α) : Except (SolverError α) Unit :=
  if !Scalar.isFinite v || decide (v ≤ 0) then
    .error (.invalidParameter name v "Value must be finite and strictly positive.")
  else .ok ()

def checkNonNegative (name : String) (v : α) : Except (SolverError α) Unit :=
  if !Scalar.isFinite v || decide (v < 0) then
    .error (.invalidParameter name v "Value must be finite and non-negative.")
  else .ok ()

/-- Continuation shrinks a weight, so it is a fraction. -/
def continuationInRange (v : α) : Bool :=
  decide (0 ≤ v) && decide (v ≤ 1)

def checkContinuation (v : α) : Except (SolverError α) Unit :=
  if continuationInRange v then .ok ()
  else .error (.invalidContinuation v "Continuation must lie in [0, 1].")

end LinearInverse.Settings
