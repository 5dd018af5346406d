import LinearInverse.Decimal.Text
import LinearInverse.Report
import LinearInverse.Vec

namespace LinearInverse
variable {α : Type}

structure Progress (α : Type) where
  name : String
  iteration : Nat
  image : List α
  residual : α
  objective : Option α
  truthError : Option α

/-- Residuals of split variables and image, the bounds below which they count as small, and the
penalty they were reached with. -/
structure Balance (α : Type) where
  primal : α
  dual : α
  primalBound : α
  dualBound : α
  rho : α

/-- What a caller's own iteration was given. -/
structure Handover where
  hasNormal : Bool
  hasProx : Bool
  dataLength : Option Nat
  truthLength : Option Nat
  hasObjective : Bool

/-- What a run tells about itself while it goes on. Nothing told is read back by a run. -/
inductive Event (α : Type) where
  | progress (p : Progress α)
  | balance (b : Balance α)
  /-- The factor on the weight of the regularization. -/
  | weight (factor : α)
  | step (size : α)
  | restart
  | penalty (rho : α)
  | dataEmpty
  | dataCorrupted (norm : α)
  | handover (h : Handover)
  /-- The objective was asked for outside a progress report. -/
  | evaluated (image : List α)

/-- The text of an event that a caller should be warned about. -/
def Event.warning? : Event Float → Option String
  | dataEmpty => some "data empty"
  | dataCorrupted n =>
    some ("data corrupted (reference norm " ++ Decimal.write Decimal.message n ++ ")")
  | _ => none

structure Monitor (α : Type) where
  name : String
  truth : Option (List α)
  objective : Option (List α → α)

namespace Monitor

/-- Watches without truth and objective. -/
def silent (name : String) : Monitor α := ⟨name,none,none⟩

variable [Scalar α]

/-- Distance from the truth, relative to its norm unless that is zero. -/
def truthError (m : Monitor α) (x : List α) : Checked α (Option α) :=
  match m.truth with
  | none => .ok none
  | some t =>
    if t.length ≠ x.length then .error .truthLength
    else
      let size := Vec.norm t
      let error := Vec.norm (Vec.sub x t)
      .ok (some (if 0 < size then error / size else error))

def report (m : Monitor α) (iteration : Nat) (x : List α) (residual : α) :
    Checked α (Event α) :=
  (m.truthError x).map fun e =>
    .progress ⟨m.name,iteration,x,residual,m.objective.map (· x),e⟩

end Monitor

/-- A vector that the objective was evaluated at. -/
def Event.evaluation? : Event α → Option (List α)
  | progress p => p.objective.map fun _ => p.image
  | evaluated x => some x
  | _ => none

/-- A finished run. -/
structure Solution (α : Type) where
  report : Report
  image : List α
  log : List (Event α)

/-- One iteration: the state it leaves, whether it is the last, and what it told. -/
structure Pass (α σ : Type) where
  state : σ
  stop : Bool
  events : List (Event α)

structure Run (α σ : Type) where
  state : σ
  iterations : Nat
  stopped : Bool
  log : List (Event α)

def Run.report {σ : Type} (r : Run α σ) : Report :=
  ⟨if r.stopped then .converged else .maxIterReached,r.iterations⟩

/-- At most `fuel` iterations, numbered from `k`. -/
def iterate {σ : Type} (pass : Nat → σ → Checked α (Pass α σ)) :
    (fuel k : Nat) → σ → Checked α (Run α σ)
  | 0, k, s => .ok ⟨s,k,false,[]⟩
  | fuel + 1, k, s =>
    pass k s >>= fun p =>
      if p.stop then .ok ⟨p.state,k + 1,true,p.events⟩
      else (iterate pass fuel (k + 1) p.state).map fun r => { r with log := p.events ++ r.log }

end LinearInverse
