import LinearInverse.Admm.Basic
import LinearInverse.AlternatingProjections
import LinearInverse.ConjugateGradient
import LinearInverse.DataState
import LinearInverse.Settings.Basic
import LinearInverse.Thresholding.Accelerated
import LinearInverse.Thresholding.Plain

namespace LinearInverse.Solve
variable {α : Type} [Scalar α]

/-- Entry points take settings, problem, image and objective. -/
abbrev Entry (α : Type) :=
  Settings α → Problem α → List α → Option (List α → α) → Checked α (Outcome α)

def demand (ok : Bool) (d : Defect α) : Checked α Unit :=
  if ok then .ok () else .error d

def normalOf (a : Algorithm) (p : Problem α) : Checked α (Operator α) :=
  match p.normal with
  | some A => .ok A
  | none => .error (.needsNormal a)

def dataOf (a : Algorithm) (p : Problem α) : Checked α (List α) :=
  match p.data with
  | some b => .ok b
  | none => .error (.needsData a)

/-- Nothing is done to the image. -/
def skipped (image : List α) (state : DataState α) (reason : Degeneracy) : Outcome α :=
  ⟨image,state.warnings,.ok (.skipped reason)⟩

/-- Runs with the norm of the data, unless that is of no use. -/
def guarded (data image : List α) (run : α → Checked α (Outcome α)) : Checked α (Outcome α) :=
  match DataState.classify data with
  | .empty => .ok (skipped image .empty .empty)
  | .corrupted n => .ok (skipped image (.corrupted n) .corrupted)
  | .usable n => run n

def conjGrad : Entry α := fun settings p image objective =>
  match settings with
  | .conjGrad s =>
    p.numTerms >>= fun n => demand (n == 0) (.takesNoTerms .conjGrad) >>= fun _ =>
      demand p.proxes.isNone (.takesNoProx .conjGrad) >>= fun _ =>
        demand p.transforms.isNone (.takesNoTransforms .conjGrad) >>= fun _ =>
          normalOf .conjGrad p >>= fun A => dataOf .conjGrad p >>= fun b =>
            guarded b image fun size =>
              (ConjugateGradient.run s.maxIter s.l2Weight (s.tol * size) A image b
                ⟨"conjgrad",p.truth,objective⟩).map .ofSolution
  | s => .error (.wrongSettings .conjGrad s.algorithm)

/-- The part in common to both thresholding iterations. -/
def threshold (a : Algorithm) (s : ThresholdSettings α)
    (run : Thresholding.Task α → List α → Checked α (Solution α)) (p : Problem α)
    (image : List α) (objective : Option (List α → α)) : Checked α (Outcome α) :=
  p.numTerms >>= fun n =>
    match n, p.proxes with
    | 1, some [prox] =>
      normalOf a p >>= fun A => dataOf a p >>= fun b =>
        guarded b image fun size =>
          demand (Settings.continuationInRange s.continuation) (.continuation a s.continuation) >>=
            fun _ =>
              (run ⟨⟨s.maxIter,s.tol * size,s.step,s.continuation,s.hogwild⟩,A,prox,b,
                ⟨a.name,p.truth,objective⟩⟩ image).map .ofSolution
    | _, _ => .error (.takesOneTerm a)

def ist : Entry α := fun settings p image objective =>
  match settings with
  | .ist s => threshold .ist s Thresholding.Plain.run p image objective
  | s => .error (.wrongSettings .ist s.algorithm)

def fista : Entry α := fun settings p image objective =>
  match settings with
  | .fista s => threshold .fista s Thresholding.Accelerated.run p image objective
  | s => .error (.wrongSettings .fista s.algorithm)

/-- Only data that are there can be unusable. -/
def admm : Entry α := fun settings p image objective =>
  match settings with
  | .admm s =>
    p.numTerms >>= fun n =>
      let transforms := p.transforms.getD []
      demand (transforms.length == n) (.transformPerTerm .admm) >>= fun _ =>
        let run : Checked α (Outcome α) :=
          Admm.Plan.new s transforms (p.proxes.getD []) p.xUpdate >>= fun plan =>
            (Admm.run plan p.normal image p.data ⟨"admm",p.truth,objective⟩).map fun o =>
              .ofSolution o.solution
        match p.data with
        | some b => guarded b image fun _ => run
        | none => run
  | s => .error (.wrongSettings .admm s.algorithm)

def pocs : Entry α := fun settings p image objective =>
  match settings with
  | .pocs s =>
    demand p.normal.isNone (.takesNoNormal .pocs) >>= fun _ =>
      demand p.transforms.isNone (.takesNoTransforms .pocs) >>= fun _ =>
        demand p.data.isNone (.takesNoData .pocs) >>= fun _ =>
          (AlternatingProjections.run s.maxIter (p.proxes.getD []) image
            ⟨"pocs",p.truth,objective⟩).map .ofSolution
  | s => .error (.wrongSettings .pocs s.algorithm)

def call : Entry α := fun settings p image objective =>
  match settings with
  | .call solver =>
    p.numTerms >>= fun n => demand (n ≤ 1) (.takesAtMostOneTerm .call) >>= fun _ =>
      demand p.transforms.isNone (.takesNoTransforms .call) >>= fun _ =>
        solver ⟨p.normal,p.proxes.bind List.head?,p.data,p.truth,objective⟩ image
  | s => .error (.wrongSettings .call s.algorithm)

def entry : Algorithm → Entry α
  | .conjGrad => conjGrad
  | .ist => ist
  | .fista => fista
  | .admm => admm
  | .pocs => pocs
  | .call => call

/-- Runs the iteration that the settings are for. -/
def run : Entry α := fun settings => entry settings.algorithm settings

end LinearInverse.Solve
