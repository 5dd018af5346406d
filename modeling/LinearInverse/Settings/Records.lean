import LinearInverse.Settings.Bounds

namespace LinearInverse
variable {α : Type} [Scalar α]

/-- Conjugate gradient on `A + l2Weight`. -/
structure ConjGradSettings (α : Type) where
  maxIter : Nat
  l2Weight : α
  tol : α

/-- Shared by the plain and the accelerated thresholding iteration. `hogwild` halves the step
on a schedule of doubling periods. -/
structure ThresholdSettings (α : Type) where
  maxIter : Nat
  step : α
  continuation : α
  hogwild : Bool
  tol : α

/-- Here `hogwild` doubles the penalty on its schedule. -/
structure AdmmSettings (α : Type) where
  maxIter : Nat
  maxIterInner : Nat
  rho : α
  warmStart : Bool
  dynamicRho : Bool
  hogwild : Bool
  absTol : α
  relTol : α
  alpha : α
  tau : α
  mu : α
  fast : Bool

structure PocsSettings where
  maxIter : Nat

namespace ConjGradSettings

def default : ConjGradSettings α where
  maxIter := 50
  l2Weight := 0
  tol := 0

def validate (s : ConjGradSettings α) : Except (SolverError α) Unit := do
  Settings.checkMaxIter s.maxIter
  Settings.checkNonNegative "l2lambda" s.l2Weight
  Settings.checkTolerance "tol" s.tol

theorem validate_eq_ok {s : ConjGradSettings α} (h : s.validate = .ok ()) :
    s.maxIter ≠ 0 ∧ Scalar.isFinite s.tol = true := by
  refine ⟨fun h0 => ?_,Bool.of_not_eq_false fun hf => ?_⟩
  · rw [validate,Settings.checkMaxIter,if_pos h0] at h
    cases h
  · rw [validate] at h
    cases hm : Settings.checkMaxIter (α := α) s.maxIter with
    | error e => rw [hm] at h; cases h
    | ok _ =>
      cases hw : Settings.checkNonNegative "l2lambda" s.l2Weight with
      | error e => rw [hm,hw] at h; cases h
      | ok _ =>
        rw [hm,hw,Settings.checkTolerance,if_pos (by simp [hf])] at h
        cases h

end ConjGradSettings

namespace ThresholdSettings

def default : ThresholdSettings α where
  maxIter := 50
  step := 0.95
  continuation := 1
  hogwild := false
  tol := 0

def validate (s : ThresholdSettings α) : Except (SolverError α) Unit := do
  Settings.checkMaxIter s.maxIter
  Settings.checkPositive "step" s.step
  Settings.checkContinuation s.continuation
  Settings.checkTolerance "tol" s.tol

end ThresholdSettings

namespace AdmmSettings

def default : AdmmSettings α where
  maxIter := 50
  maxIterInner := 10
  rho := 0.5
  warmStart := false
  dynamicRho := false
  hogwild := false
  absTol := 1e-4
  relTol := 1e-3
  alpha := 1.6
  tau := 2.0
  mu := 100.0
  fast := false

def validate (s : AdmmSettings α) : Except (SolverError α) Unit := do
  Settings.checkMaxIter s.maxIter
  Settings.checkMaxIter s.maxIterInner
  Settings.checkPositive "rho" s.rho
  Settings.checkTolerance "abstol" s.absTol
  Settings.checkTolerance "reltol" s.relTol
  Settings.checkPositive "alpha" s.alpha
  Settings.checkPositive "tau" s.tau
  Settings.checkPositive "mu" s.mu

/-- Only the caps and the penalty are chosen, all else is left at its default. -/
def ofPenalty (maxIter maxIterInner : Nat) (rho : α) : AdmmSettings α :=
  { default with maxIter, maxIterInner, rho }

end AdmmSettings

namespace PocsSettings

def default : PocsSettings where
  maxIter := 50

def validate (s : PocsSettings) : Except (SolverError α) Unit :=
  Settings.checkMaxIter s.maxIter

end PocsSettings

end LinearInverse
