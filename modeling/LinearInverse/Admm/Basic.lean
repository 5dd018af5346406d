import LinearInverse.Admm.Plan
import LinearInverse.ConjugateGradient
import LinearInverse.Momentum
import LinearInverse.Progress
import LinearInverse.Schedule

namespace LinearInverse.Admm
variable {α : Type} [Scalar α]

/-- The variables of one term. -/
structure Split (α : Type) where
  z : List α
  u : List α
  /-- Extrapolated variables, which the fast variant starts from. -/
  zHat : List α
  uHat : List α
  zPrev : List α
  uPrev : List α

structure State (α : Type) where
  image : List α
  splits : List (Split α)
  rho : α
  momentum : α
  /-- The merit of the last accepted extrapolation; none stands for infinity. -/
  merit : Option α
  schedule : Schedule

/-- A term within an iteration: where the iteration starts from, and later what it reached. -/
structure Moved (α : Type) where
  term : Term α
  split : Split α
  /-- Split variable and dual that the iteration starts from. -/
  zFrom : List α
  uFrom : List α
  /-- The transform of the image. -/
  gx : List α
  z : List α
  u : List α

/-- The sum of the adjoints of one vector for each term, as a vector of length `n`. -/
def sumAdjoint (n : Nat) (parts : List (Transform α × List α)) : Checked α (List α) :=
  parts.foldlM (fun acc (g,v) => (g.flatAdjoint n v).map (Vec.axpy acc 1))
    (List.replicate n 0)

def stackedNorm (vs : List (List α)) : α :=
  Scalar.sqrt (Scalar.sum (vs.map fun v => Vec.norm v * Vec.norm v))

def stackedDist (vs : List (List α × List α)) : α :=
  Scalar.sqrt (Scalar.sum (vs.map fun (v,w) =>
    Scalar.sum (List.zipWith (fun a b => (a - b) * (a - b)) v w)))

/-- `A x`, or zero where there is no `A`. -/
def applyNormal (op : Option (Operator α)) (x : List α) : Checked α (List α) :=
  match op with
  | some A => A.apply x
  | none => .ok (x.map fun _ => 0)

def addNormals (rho : α) (x : List α) : List (Term α) → List α → Checked α (List α)
  | [], acc => .ok acc
  | t::ts, acc =>
    t.transform.flatNormal x.length x >>= fun y => addNormals rho x ts (Vec.axpy acc rho y)

theorem length_applyNormal {op : Option (Operator α)} (h : applyNormal op x = .ok y) :
    y.length = x.length := by
  cases op with
  | none => cases h; simp
  | some A => exact Operator.length_apply h

theorem length_addNormals {ts : List (Term α)} (h : addNormals rho x ts acc = .ok y)
    (hacc : acc.length = x.length) : y.length = x.length := by
  induction ts generalizing acc with
  | nil => cases h; exact hacc
  | cons t ts ih =>
    obtain ⟨v,hn,h⟩ := Checked.bind_eq_ok.mp h
    exact ih h (Vec.length_axpy hacc (Transform.length_flatNormal hn) rho)

/-- `A + rho Σ GᴴG`. -/
def augmented (op : Option (Operator α)) (rho : α) (terms : List (Term α)) : Operator α :=
  .square (fun x => applyNormal op x >>= addNormals rho x terms) fun x y h => by
    obtain ⟨v,ha,h⟩ := Checked.bind_eq_ok.mp h
    exact length_addNormals h (length_applyNormal ha)

/-- The right-hand side of the image update: `b` and the split variables with their duals taken
off. -/
def rightHandSide (rho : α) (b : Option (List α)) (s : List α) : List α :=
  match b with
  | some b => Vec.axpy (Vec.scale rho s) 1 b
  | none => Vec.scale rho s

/-- Without operator, terms and update of its own the image has nothing to move it. -/
def updateImage (p : Plan α) (op : Option (Operator α)) (b : Option (List α)) (rho : α)
    (image s : List α) : Checked α (List α) :=
  match p.xUpdate with
  | some update => update.apply rho image s
  | none =>
    if op.isSome || !p.terms.isEmpty then
      (ConjugateGradient.solve p.settings.maxIterInner 0 0 (augmented op rho p.terms) image
        (rightHandSide rho b s)).map (·.2)
    else .ok image

/-- `alpha * g + (1 - alpha) * z`. -/
def relax (alpha : α) (g z : List α) : List α :=
  List.zipWith (fun g z => alpha * g + (1 - alpha) * z) g z

def begin (fast : Bool) (t : Term α) (s : Split α) : Moved α :=
  let z := if fast then s.zHat else s.z
  let u := if fast then s.uHat else s.u
  ⟨t,s,z,u,[],z,u⟩

/-- Split variable and dual of one term for a new image. -/
def move (alpha rho : α) (image : List α) (m : Moved α) : Checked α (Moved α) :=
  m.term.transform.flatForward m.split.z.length image >>= fun gx =>
    let xHat := relax alpha gx m.zFrom
    (m.term.prox.apply (1 / rho) m.split.z (Vec.add xHat m.uFrom)).map fun z =>
      { m with gx, z, u := Vec.sub (Vec.add m.uFrom xHat) z }

/-- How well image and split variables agree, and the bounds for that. -/
def balance (s : AdmmSettings α) (rho : α) (n : Nat) (ms : List (Moved α)) :
    Checked α (Balance α) :=
  sumAdjoint n (ms.map fun m => (m.term.transform,Vec.sub m.z m.zFrom)) >>= fun d =>
    (sumAdjoint n (ms.map fun m => (m.term.transform,m.u))).map fun v =>
      let total : Nat := ms.foldl (fun n m => n + m.z.length) 0
      { primal := stackedDist (ms.map fun m => (m.gx,m.z))
        dual := rho * Vec.norm d
        primalBound := Scalar.sqrt (total : α) * s.absTol +
          s.relTol * Scalar.max (stackedNorm (ms.map (·.gx))) (stackedNorm (ms.map (·.z)))
        dualBound := Scalar.sqrt (n : α) * s.absTol + s.relTol * rho * Vec.norm v
        rho }

/-- Both residuals are below their bounds. -/
def Balance.met (b : Balance α) : Bool :=
  decide (b.primal < b.primalBound) && decide (b.dual < b.dualBound)

/-- Without terms the image update is the whole problem, and the run is over once it leaves the
image in place. -/
def settled (s : AdmmSettings α) (b : Balance α) (ms : List (Moved α)) (old new : List α) : Bool :=
  ms.isEmpty && decide (Vec.dist new old ≤ b.dualBound + s.relTol * Vec.norm new)

/-- Variables after an iteration without momentum; the extrapolated ones are left alone. -/
def Moved.settle (m : Moved α) : Split α :=
  { m.split with z := m.z, u := m.u }

def Moved.extrapolated (beta : α) (m : Moved α) : Split α :=
  ⟨m.z,m.u,Momentum.extrapolate beta m.z m.split.zPrev,
    Momentum.extrapolate beta m.u m.split.uPrev,m.z,m.u⟩

def Moved.restarted (m : Moved α) : Split α :=
  ⟨m.z,m.u,m.z,m.u,m.z,m.u⟩

/-- How far the iteration moved the variables, weighted by the penalty. -/
def merit (rho : α) (ms : List (Moved α)) : α :=
  let du := stackedDist (ms.map fun m => (m.u,m.uFrom))
  let dz := stackedDist (ms.map fun m => (m.z,m.zFrom))
  rho * (du * du + dz * dz)

/-- A merit has to fall by a thousandth for the momentum to go on. -/
def improves (c : α) : Option α → Bool
  | none => !(Scalar.isTop c || Scalar.isNaN c)
  | some old => decide (c < 0.999 * old)

/-- Momentum after an iteration: splits, parameter, merit and events. -/
def accelerate (fast : Bool) (rho : α) (s : State α) (ms : List (Moved α)) :
    List (Split α) × α × Option α × List (Event α) :=
  if fast then
    let c := merit rho ms
    if improves c s.merit then
      let t := Momentum.next s.momentum
      (ms.map (Moved.extrapolated ((s.momentum - 1) / t)),t,some c,[])
    else (ms.map Moved.restarted,1,s.merit.map (· / 0.999),[.restart])
  else (ms.map Moved.settle,s.momentum,s.merit,[])

/-- The factor by which residuals out of balance change the penalty. -/
def balancing (s : AdmmSettings α) (b : Balance α) : α :=
  if s.dynamicRho then
    if s.mu * b.dual < b.primal then 1 * s.tau
    else if s.mu * b.primal < b.dual then 1 / s.tau
    else 1
  else 1

/-- Scaled duals times penalty stay the same. -/
def Split.rescale (a : α) (s : Split α) : Split α :=
  { s with u := Vec.scale a s.u, uHat := Vec.scale a s.uHat, uPrev := Vec.scale a s.uPrev }

/-- Changes the penalty by the balancing factor and on schedule. -/
def adapt (s : AdmmSettings α) (b : Balance α) (st : State α) : State α × List (Event α) :=
  let (fired,schedule) := st.schedule.tickIf s.hogwild
  let f := balancing s b
  let factor := if fired then f * ((2 : Nat) : α) else f
  if factor == 1 then ({ st with schedule },[])
  else
    let rho := st.rho * factor
    ({ st with rho, schedule, splits := st.splits.map (Split.rescale (1 / factor)) },[.penalty rho])

/-- Image and terms after the updates of an iteration. -/
def update (p : Plan α) (op : Option (Operator α)) (b : Option (List α)) (s : State α) :
    Checked α (List α × List (Moved α)) :=
  let ms := List.zipWith (begin p.settings.fast) p.terms s.splits
  sumAdjoint s.image.length (ms.map fun m => (m.term.transform,Vec.sub m.zFrom m.uFrom)) >>=
    fun v => updateImage p op b s.rho s.image v >>= fun image =>
      (ms.mapM (move p.settings.alpha s.rho image)).map fun ms => (image,ms)

/-- The fast variant starts from extrapolated variables and falls back when that does not pay. -/
def pass (p : Plan α) (op : Option (Operator α)) (b : Option (List α)) (monitor : Monitor α)
    (k : Nat) (s : State α) : Checked α (Pass α (State α)) :=
  update p op b s >>= fun (image,ms) =>
    balance p.settings s.rho s.image.length ms >>= fun bal =>
      (monitor.report k image bal.primal).map fun e =>
        let events := [.balance bal,e]
        if Balance.met bal || settled p.settings bal ms s.image image then
          ⟨{ s with image, splits := ms.map Moved.settle },true,events⟩
        else
          let (splits,momentum,merit,restarts) := accelerate p.settings.fast s.rho s ms
          let (s,changes) := adapt p.settings bal { s with image, splits, momentum, merit }
          ⟨s,false,events ++ restarts ++ changes⟩

/-- All variables start at `z` and zero. -/
def Split.initial (z : List α) : Split α :=
  let u := z.map fun _ => 0
  ⟨z,u,z,u,z,u⟩

/-- A warm start takes the split variables from the image. -/
def initialSplit (warm : Bool) (image : List α) (t : Term α) (z : List α) : Checked α (Split α) :=
  if warm then (t.transform.flatForward z.length image).map Split.initial
  else .ok (Split.initial z)

/-- Room for all split variables is made before the first of them is computed. -/
def start (p : Plan α) (image : List α) : Checked α (State α) :=
  p.splitZeros >>= fun zs =>
    ((p.terms.zip zs).mapM fun (t,z) => initialSplit p.settings.warmStart image t z).map
      fun splits => ⟨image,splits,p.settings.rho,1,none,.initial⟩

/-- Every transform has the image for its domain. -/
def checkDomains (n : Nat) : List (Term α) → Checked α Unit
  | [] => .ok ()
  | t::ts => t.transform.domainLength >>= fun m =>
    if m ≠ n then .error .transformDomain else checkDomains n ts

/-- A solution with the penalty it ended at. -/
structure Outcome (α : Type) where
  solution : Solution α
  rho : α

/-- The plan for a further run, which goes on with the penalty. -/
def Outcome.resume (o : Outcome α) (p : Plan α) : Plan α :=
  { p with settings := { p.settings with rho := o.rho } }

/-- The residuals of all iterations, in order. -/
def Outcome.history (o : Outcome α) : List (Balance α) :=
  o.solution.log.filterMap fun
    | .balance b => some b
    | _ => none

def run (p : Plan α) (op : Option (Operator α)) (image : List α) (b : Option (List α))
    (monitor : Monitor α) : Checked α (Outcome α) :=
  if b.any fun b => b.length ≠ image.length then .error .systemLengths
  else
    checkDomains image.length p.terms >>= fun _ =>
      start p image >>= fun s =>
        (iterate (pass p op b monitor) p.settings.maxIter 0 s).map fun r =>
          ⟨⟨r.report,r.state.image,r.log⟩,r.state.rho⟩

end LinearInverse.Admm
