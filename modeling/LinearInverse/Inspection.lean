import LinearInverse.Admm.Plan
import LinearInverse.Settings.Basic

namespace LinearInverse

namespace Inspection

def number (x : Float) : String := Decimal.write Decimal.inspection x

def size (n : Nat) : String := toString n

def conjGrad (s : ConjGradSettings Float) : String :=
  Text.record "ConjGradConf" [("maxiter",size s.maxIter),("l2lambda",number s.l2Weight),
    ("tol",number s.tol)]

def threshold (name : String) (s : ThresholdSettings Float) : String :=
  Text.record name [("maxiter",size s.maxIter),("step",number s.step),
    ("continuation",number s.continuation),("hogwild",Text.bool s.hogwild),("tol",number s.tol)]

def admm (s : AdmmSettings Float) : String :=
  Text.record "AdmmConf" [("maxiter",size s.maxIter),("maxitercg",size s.maxIterInner),
    ("rho",number s.rho),("do_warmstart",Text.bool s.warmStart),
    ("dynamic_rho",Text.bool s.dynamicRho),("hogwild",Text.bool s.hogwild),
    ("abstol",number s.absTol),("reltol",number s.relTol),("alpha",number s.alpha),
    ("tau",number s.tau),("mu",number s.mu),("fast",Text.bool s.fast)]

def pocs (s : PocsSettings) : String :=
  Text.record "PocsConf" [("maxiter",size s.maxIter)]

end Inspection

open Inspection

def Settings.inspect : Settings Float → String
  | conjGrad s => "ConjGrad(" ++ Inspection.conjGrad s ++ ")"
  | ist s => "Ist(" ++ threshold "IstConf" s ++ ")"
  | fista s => "Fista(" ++ threshold "FistaConf" s ++ ")"
  | admm s => "Admm(" ++ Inspection.admm s ++ ")"
  | pocs s => "Pocs(" ++ Inspection.pocs s ++ ")"
  | call _ => "Call(" ++ Text.openRecord "IterCallConf" [] ++ ")"

variable {α : Type}

def Transform.inspect (t : Transform α) : String :=
  Text.record "LinopIter" [("domain",Text.sizes t.domain),("codomain",Text.sizes t.codomain)]

def Monitor.inspect (m : Monitor α) : String :=
  Text.record "IterMonitor" [("name",Text.quoted m.name),("has_truth",Text.bool m.truth.isSome),
    ("has_objective",Text.bool m.objective.isSome)]

def Problem.inspect (p : Problem α) : String :=
  Text.record "Iter2Args" [("normaleq_op",Text.bool p.normal.isSome),
    ("prox_ops",Text.optional size (p.proxes.map List.length)),
    ("ops",Text.optional size (p.transforms.map List.length)),
    ("xupdate_op",Text.bool p.xUpdate.isSome),
    ("image_adj",Text.optional size (p.data.map List.length)),
    ("image_truth",Text.optional size (p.truth.map List.length))]

def Admm.Plan.inspect (p : Plan Float) : String :=
  Text.openRecord "AdmmPlan" [("num_funs",size p.numTerms),("maxiter",size p.settings.maxIter),
    ("maxitercg",size p.settings.maxIterInner),("rho",number p.settings.rho),
    ("ops",Text.list (p.terms.map fun t => t.transform.inspect)),
    ("has_xupdate",Text.bool p.xUpdate.isSome)]

end LinearInverse
