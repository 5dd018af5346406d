import LinearInverse.Progress
import LinearInverse.Prox.Basic
import LinearInverse.SolverError
import LinearInverse.Transform.Flat

namespace LinearInverse
variable {α : Type}

/-- An absent list and an empty one are told apart. -/
structure Problem (α : Type) where
  normal : Option (Operator α)
  proxes : Option (List (ProxOperator α))
  transforms : Option (List (Transform α))
  xUpdate : Option (ProxOperator α)
  data : Option (List α)
  truth : Option (List α)

/-- The number of regularization terms. -/
def Problem.numTerms (p : Problem α) : Checked α Nat :=
  match p.proxes, p.transforms with
  | some ps, some ts => if ts.length = ps.length then .ok ps.length else .error .termLists
  | some ps, none => .ok ps.length
  | none, _ => .ok 0

/-- What a run leaves behind. -/
structure Outcome (α : Type) where
  image : List α
  log : List (Event α)
  result : Except (SolverError α) Report

def Outcome.ofSolution (s : Solution α) : Outcome α := ⟨s.image,s.log,.ok s.report⟩

namespace Direct

structure Input (α : Type) where
  normal : Option (Operator α)
  prox : Option (ProxOperator α)
  data : Option (List α)
  truth : Option (List α)
  objective : Option (List α → α)

abbrev Solver (α : Type) := Input α → List α → Checked α (Outcome α)

/-- A single use of what is given. -/
inductive Action (α : Type) where
  | idle
  /-- The proximal map of the data, or the data themselves. -/
  | denoise (mu : α)
  /-- The normal map of the data. -/
  | backproject
  /-- An image that has the value of the objective everywhere. -/
  | fill
  | fail (e : SolverError α)

def handover (i : Input α) : Handover :=
  ⟨i.normal.isSome,i.prox.isSome,i.data.map List.length,i.truth.map List.length,
    i.objective.isSome⟩

/-- Image and log after an action. -/
def Action.perform (a : Action α) (i : Input α) (image : List α) :
    Checked α (List α × List (Event α)) :=
  match a with
  | idle => .ok (image,[])
  | fail _ => .ok (image,[])
  | denoise mu =>
    match i.data, i.prox with
    | some d, some p => (p.apply mu image d).map (·,[])
    | some d, none => if d.length = image.length then .ok (d,[]) else .error .lengthMismatch
    | none, _ => .ok (image,[])
  | backproject =>
    match i.normal, i.data with
    | some A, some d => (A.fill image.length d).map (·,[])
    | _, _ => .ok (image,[])
  | fill =>
    match i.objective with
    | some f => .ok (image.map fun _ => f image,[.evaluated image])
    | none => .ok (image,[])

/-- Performs the action and answers with the report, unless the action is to fail. -/
def Action.solver (a : Action α) (report : Report) : Solver α := fun i image =>
  (a.perform i image).map fun (image,events) =>
    ⟨image,.handover (handover i) :: events,
      match a with
      | fail e => .error e
      | _ => .ok report⟩

end Direct

end LinearInverse
