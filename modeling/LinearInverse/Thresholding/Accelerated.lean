import LinearInverse.Momentum
import LinearInverse.Thresholding.Basic

namespace LinearInverse.Thresholding.Accelerated
variable {α : Type} [Scalar α]

structure State (α : Type) where
  /-- The extrapolated point. -/
  image : List α
  /-- The buffer of the proximal map. -/
  buffer : List α
  /-- The start, then the last value of the proximal map. -/
  point : List α
  tau : α
  momentum : α
  schedule : Schedule

def start (t : Task α) (x : List α) : State α :=
  ⟨x,x.map fun _ => 0,x,t.params.step,1,.initial⟩

def pass (t : Task α) (k : Nat) (s : State α) : Checked α (Pass α (State α)) :=
  let w := t.weight k
  t.residual s.image >>= fun r =>
    let size := Vec.norm r
    t.report k s.image size >>= fun e =>
      if size < t.params.epsilon then .ok ⟨s,true,[.weight w,e]⟩
      else
        let (tau,schedule,events) := halve t.params.hogwild s.tau s.schedule
        (t.prox.apply (w * tau) s.buffer (Vec.axpy s.image tau r)).map fun p =>
          let momentum := Momentum.next s.momentum
          let beta := (s.momentum - 1) / momentum
          ⟨⟨Momentum.extrapolate beta p s.point,p,p,tau,momentum,schedule⟩,false,
            .weight w :: e :: events⟩

/-- A run that meets the bound leaves the extrapolated point it looked at; one that reaches the cap
leaves the last value of the proximal map. -/
def run (t : Task α) (x : List α) : Checked α (Solution α) :=
  if x.length ≠ t.data.length then .error .systemLengths
  else (iterate (pass t) t.params.maxIter 0 (start t x)).map fun r =>
    ⟨r.report,if r.stopped then r.state.image else r.state.point,r.log⟩

end LinearInverse.Thresholding.Accelerated
