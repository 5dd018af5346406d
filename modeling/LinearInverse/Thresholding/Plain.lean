import LinearInverse.Thresholding.Basic

namespace LinearInverse.Thresholding.Plain
variable {α : Type} [Scalar α]

structure State (α : Type) where
  image : List α
  /-- The last value of the proximal map. -/
  point : List α
  tau : α
  schedule : Schedule

def start (t : Task α) (x : List α) : State α :=
  ⟨x,x.map fun _ => 0,t.params.step,.initial⟩

def pass (t : Task α) (k : Nat) (s : State α) : Checked α (Pass α (State α)) :=
  let w := t.weight k
  t.prox.apply (w * s.tau) s.point s.image >>= fun p =>
    t.residual p >>= fun r =>
      let size := Vec.norm r
      (t.report k p size).map fun e =>
        if size < t.params.epsilon then ⟨{ s with image := p, point := p },true,[.weight w,e]⟩
        else
          let (tau,schedule,events) := halve t.params.hogwild s.tau s.schedule
          ⟨⟨Vec.axpy p tau r,p,tau,schedule⟩,false,.weight w :: e :: events⟩

/-- A run that meets the bound leaves the last value of the proximal map; one that reaches the cap
has taken one more gradient step. -/
def run (t : Task α) (x : List α) : Checked α (Solution α) :=
  if x.length ≠ t.data.length then .error .systemLengths
  else (iterate (pass t) t.params.maxIter 0 (start t x)).map fun r =>
    ⟨r.report,r.state.image,r.log⟩

end LinearInverse.Thresholding.Plain
