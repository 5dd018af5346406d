import LinearInverse.Progress
import LinearInverse.Prox.Basic

namespace LinearInverse.AlternatingProjections
variable {α : Type} [Scalar α]

structure State (α : Type) where
  image : List α
  buffer : List α

/-- Projections do not depend on the step, which is set to one. -/
def project (s : State α) (p : ProxOperator α) : Checked α (State α) :=
  (p.apply 1 s.buffer s.image).map fun out => ⟨out,out⟩

def sweep (projections : List (ProxOperator α)) (s : State α) : Checked α (State α) :=
  projections.foldlM project s

def pass (projections : List (ProxOperator α)) (monitor : Monitor α) (k : Nat) (s : State α) :
    Checked α (Pass α (State α)) :=
  sweep projections s >>= fun t =>
    (monitor.report k t.image (Vec.dist t.image s.image)).map fun e => ⟨t,false,[e]⟩

/-- There is no stopping rule but the cap. -/
def run (maxIter : Nat) (projections : List (ProxOperator α)) (x : List α)
    (monitor : Monitor α) : Checked α (Solution α) :=
  (iterate (pass projections monitor) maxIter 0 ⟨x,x.map fun _ => 0⟩).map fun r =>
    ⟨r.report,r.state.image,r.log⟩

end LinearInverse.AlternatingProjections
