import LinearInverse.Prox.Basic
import LinearInverse.Settings.Records
import LinearInverse.Transform.Flat

namespace LinearInverse.Admm
variable {α : Type}

/-- A regularization term: the transform of the image and the proximal map behind it. -/
structure Term (α : Type) where
  transform : Transform α
  prox : ProxOperator α

/-- A run minimises `½⟨x, A x⟩ - ⟨b, x⟩` plus the terms, each a function behind a transform. -/
structure Plan (α : Type) where
  settings : AdmmSettings α
  terms : List (Term α)
  /-- Replaces the inner solve for the image; it gets the penalty as its step. -/
  xUpdate : Option (ProxOperator α)

namespace Plan

def new (settings : AdmmSettings α) (transforms : List (Transform α))
    (proxes : List (ProxOperator α)) (xUpdate : Option (ProxOperator α)) : Checked α (Plan α) :=
  if transforms.length = proxes.length then
    .ok ⟨settings,List.zipWith Term.mk transforms proxes,xUpdate⟩
  else .error .termLists

def numTerms (p : Plan α) : Nat := p.terms.length

/-- The length of each split variable. -/
def splitLengths (p : Plan α) : Checked α (List Nat) :=
  p.terms.mapM fun t => t.transform.codomainLength

/-- Zeros for each split variable; their numbers are counted together first. -/
def splitZeros [Scalar α] (p : Plan α) : Checked α (List (List α)) :=
  p.splitLengths >>= fun lengths =>
    if Grid.wordBound ≤ lengths.foldl (· + ·) 0 then .error .sizeOverflow
    else lengths.mapM Vec.zeros

end Plan

end LinearInverse.Admm
