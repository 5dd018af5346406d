import LinearInverse.Algorithm
import LinearInverse.Decimal.Text

namespace LinearInverse

inductive SolverError (α : Type) where
  | invalidMaxIter (maxIter : Nat) (reason : String)
  | invalidTolerance (name : String) (value : α) (reason : String)
  | invalidContinuation (value : α) (reason : String)
  | invalidParameter (name : String) (value : α) (reason : String)
  | invalidAlgorithm (name : String) (reason : String)
  | solverInvalidParameter (text : String)
  | notImplemented (text : String)
  | notInitialized (text : String)
  | conditionViolated (text : String)
  | potentialBug (text : String)
  | backend (text : String)
  | missingSolution
  | unknown
  deriving DecidableEq

/-- How a linear solver that is supplied from outside says that it failed. -/
inductive SolverFailure where
  | invalidParameter (text : String)
  | notImplemented (text : String)
  | notInitialized (text : String)
  | conditionViolated (text : String)
  | potentialBug (text : String)
  | checkpointNotFound
  | impossible
  | foreign (text : String)

namespace SolverError

/-- Failures that cannot occur without checkpoints carry nothing worth keeping. -/
def ofFailure {α : Type} : SolverFailure → SolverError α
  | .invalidParameter t => solverInvalidParameter t
  | .notImplemented t => notImplemented t
  | .notInitialized t => notInitialized t
  | .conditionViolated t => conditionViolated t
  | .potentialBug t => potentialBug t
  | .checkpointNotFound => unknown
  | .impossible => unknown
  | .foreign t => backend t

def message : SolverError Float → String
  | invalidMaxIter n r => "Invalid maximum iterations " ++ toString n ++ ": " ++ r
  | invalidTolerance n v r =>
    "Invalid tolerance " ++ n ++ " = " ++ Decimal.write Decimal.message v ++ ": " ++ r
  | invalidContinuation v r =>
    "Invalid continuation " ++ Decimal.write Decimal.message v ++ ": " ++ r
  | invalidParameter n v r =>
    "Invalid parameter " ++ n ++ " = " ++ Decimal.write Decimal.message v ++ ": " ++ r
  | invalidAlgorithm n r => "Invalid algorithm '" ++ n ++ "': " ++ r
  | solverInvalidParameter t => "Invalid solver parameter: " ++ t
  | notImplemented t => "Not implemented: " ++ t
  | notInitialized t => "Not initialized: " ++ t
  | conditionViolated t => "Condition violated: " ++ t
  | potentialBug t => "Potential bug: " ++ t
  | backend t => "Backend error: " ++ t
  | missingSolution => "Solver finished without a solution vector"
  | unknown => "Unknown error"

end SolverError

/-- The algorithm a name stands for. -/
def Algorithm.ofName {α : Type} (text : String) : Except (SolverError α) Algorithm :=
  match ofName? text with
  | some a => .ok a
  | none => .error <| .invalidAlgorithm text
      "Valid options are 'cg', 'ist', 'fista', 'admm', 'pocs' or 'call'."

end LinearInverse
