namespace LinearInverse

inductive Degeneracy where
  | empty
  | corrupted
  deriving DecidableEq, Repr

inductive Status where
  /-- The data were unusable and nothing was done. -/
  | skipped (reason : Degeneracy)
  | converged
  | maxIterReached
  deriving DecidableEq, Repr

structure Report where
  status : Status
  iterations : Nat
  deriving DecidableEq, Repr

def Report.ran (r : Report) : Bool :=
  match r.status with
  | .skipped _ => false
  | _ => true

def Report.skipped (reason : Degeneracy) : Report := ⟨.skipped reason,0⟩

/-- A skipped run has no iterations to count. -/
def Report.ofStatus : Status → Nat → Report
  | .skipped reason, _ => skipped reason
  | status, n => ⟨status,n⟩

end LinearInverse
