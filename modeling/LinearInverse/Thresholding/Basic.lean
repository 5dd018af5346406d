import LinearInverse.Operator.Basic
import LinearInverse.Progress
import LinearInverse.Prox.Basic
import LinearInverse.Schedule

namespace LinearInverse.Thresholding
variable {α : Type} [Scalar α]

structure Params (α : Type) where
  maxIter : Nat
  /-- Bound on the residual norm. -/
  epsilon : α
  step : α
  continuation : α
  hogwild : Bool

structure Task (α : Type) where
  params : Params α
  operator : Operator α
  prox : ProxOperator α
  data : List α
  monitor : Monitor α

/-- Falls from one at the first iteration towards the continuation value at the cap. -/
def continuationScale (continuation : α) (iteration maxIter : Nat) : α :=
  Scalar.pow continuation ((iteration : α) / (maxIter : α))

namespace Task

def weight (t : Task α) (k : Nat) : α :=
  continuationScale t.params.continuation k t.params.maxIter

def residual (t : Task α) (x : List α) : Checked α (List α) :=
  (t.operator.apply x).map (Vec.sub t.data)

/-- The residual is the data less the image under the operator. -/
theorem residual_eq_ok {t : Task α} {x r : List α} :
    t.residual x = .ok r ↔ ∃ y, t.operator.apply x = .ok y ∧ Vec.sub t.data y = r :=
  Checked.map_eq_ok

theorem length_residual {t : Task α} {x r : List α} {n : Nat} (hdata : t.data.length = n)
    (hr : t.residual x = .ok r) (hx : x.length = n) : r.length = n := by
  obtain ⟨y,hy,rfl⟩ := residual_eq_ok.mp hr
  exact Vec.length_sub hdata ((Operator.length_apply hy).trans hx)

/-- Progress is told relative to the norm of the data. -/
def report (t : Task α) (k : Nat) (x : List α) (size : α) : Checked α (Event α) :=
  t.monitor.report k x (size / Vec.norm t.data)

end Task

/-- Step size and schedule, halved when the schedule fires. -/
def halve (enabled : Bool) (tau : α) (s : Schedule) : α × Schedule × List (Event α) :=
  let (fired,s) := s.tickIf enabled
  if fired then
    let tau := tau / ((2 : Nat) : α)
    (tau,s,[.step tau])
  else (tau,s,[])

end LinearInverse.Thresholding
