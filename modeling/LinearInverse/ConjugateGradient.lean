import LinearInverse.Operator.Basic
import LinearInverse.Progress

namespace LinearInverse
variable {α : Type} [Scalar α]

/-- `A + w`. A weight of zero adds nothing. -/
def Operator.shifted (A : Operator α) (w : α) : Operator α :=
  square (fun x => (A.apply x).map fun y => if w == 0 then y else Vec.axpy y w x) fun x y h => by
    obtain ⟨z,ha,rfl⟩ := Checked.map_eq_ok.mp h
    have hz := Operator.length_apply ha
    split
    · exact hz
    · exact Vec.length_axpy hz rfl w

namespace ConjugateGradient

def negate (x : List α) : List α := x.map (- ·)

/-- The residual has the sign of `A x - b` and is updated by recursion. -/
structure State (α : Type) where
  x : List α
  residual : List α
  direction : List α
  /-- Squared residual. -/
  square : α
  /-- The least squared residual of all iterations; none stands for infinity. -/
  best : Option α
  iterations : Nat

def start (A : Operator α) (x b : List α) : Checked α (State α) :=
  (A.apply x).map fun y =>
    let r := negate (Vec.sub b y)
    ⟨x,r,negate r,Vec.dot r r,none,0⟩

/-- The smaller of the best value and a new one; an undefined value never replaces the best. -/
def improve (best : Option α) (cost : α) : Option α :=
  match best with
  | none => if Scalar.isTop cost || Scalar.isNaN cost then none else some cost
  | some c => if cost < c then some cost else some c

def step (A : Operator α) (s : State α) : Checked α (State α) :=
  (A.apply s.direction).map fun y =>
    let alpha := s.square / Vec.dot s.direction y
    let r := Vec.axpy s.residual alpha y
    let square := Vec.dot r r
    ⟨Vec.axpy s.x alpha s.direction,r,Vec.axpy (negate r) (square / s.square) s.direction,square,
      improve s.best (Scalar.abs square),s.iterations + 1⟩

/-- Infinity is small enough for an infinite target only. -/
def State.meets (s : State α) (target : α) : Bool :=
  match s.best with
  | none => Scalar.isTop target
  | some c => decide (c ≤ target)

/-- At most `fuel` steps. The cap is looked at before the target. -/
def advance (A : Operator α) (target : α) : Nat → State α → Checked α (Status × State α)
  | 0, s => .ok (.maxIterReached,s)
  | fuel + 1, s =>
    if s.meets target then .ok (.converged,s) else step A s >>= advance A target fuel

def residualNorm (A : Operator α) (x b : List α) : Checked α α :=
  (A.apply x).map fun y => Vec.norm (Vec.sub b y)

/-- `epsilon` bounds the residual norm. A start that is good enough is left alone, and a run ends
with the current iterate once the least squared residual so far is small enough. -/
def solve (maxIter : Nat) (l2Weight epsilon : α) (op : Operator α) (x b : List α) :
    Checked α (Report × List α) :=
  if x.length ≠ b.length then .error .systemLengths
  else
    let A := op.shifted l2Weight
    residualNorm A x b >>= fun size =>
      if size ≤ epsilon then .ok (⟨.converged,0⟩,x)
      else start A x b >>= advance A (epsilon * epsilon) maxIter >>= fun (status,s) =>
        .ok (⟨status,s.iterations⟩,s.x)

/-- Solves and then reports once. -/
def run (maxIter : Nat) (l2Weight epsilon : α) (op : Operator α) (x b : List α)
    (monitor : Monitor α) : Checked α (Solution α) :=
  solve maxIter l2Weight epsilon op x b >>= fun (report,x) =>
    residualNorm (op.shifted l2Weight) x b >>= fun size =>
      (monitor.report report.iterations x size).map fun e => ⟨report,x,[e]⟩

end ConjugateGradient

end LinearInverse
