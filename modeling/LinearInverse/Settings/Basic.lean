import LinearInverse.Problem
import LinearInverse.Settings.Records

namespace LinearInverse

inductive Settings (α : Type) where
  | conjGrad (s : ConjGradSettings α)
  | ist (s : ThresholdSettings α)
  | fista (s : ThresholdSettings α)
  | admm (s : AdmmSettings α)
  | pocs (s : PocsSettings)
  | call (solver : Direct.Solver α)

namespace Settings
variable {α : Type}

def algorithm : Settings α → Algorithm
  | conjGrad _ => .conjGrad
  | ist _ => .ist
  | fista _ => .fista
  | admm _ => .admm
  | pocs _ => .pocs
  | call _ => .call

variable [Scalar α]

/-- A caller's own solver has no default. -/
def default? : Algorithm → Option (Settings α)
  | .conjGrad => some (conjGrad .default)
  | .ist => some (ist .default)
  | .fista => some (fista .default)
  | .admm => some (admm .default)
  | .pocs => some (pocs .default)
  | .call => none

def validate : Settings α → Except (SolverError α) Unit
  | conjGrad s => s.validate
  | ist s => s.validate
  | fista s => s.validate
  | admm s => s.validate
  | pocs s => s.validate
  | call _ => .ok ()

/-- Settings made through a constructor are validated. One for alternating directions takes only
the caps and the penalty. -/
def checked (s : Settings α) : Except (SolverError α) (Settings α) :=
  let made := match s with
    | admm a => admm (.ofPenalty a.maxIter a.maxIterInner a.rho)
    | s => s
  made.validate.map fun _ => made

end Settings

end LinearInverse
