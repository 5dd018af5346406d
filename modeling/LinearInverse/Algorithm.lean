namespace LinearInverse

inductive Algorithm where
  | conjGrad
  | ist
  | fista
  | admm
  | pocs
  /-- An iteration the caller brings along. -/
  | call
  deriving DecidableEq, Repr

namespace Algorithm

def name : Algorithm → String
  | conjGrad => "conjgrad"
  | ist => "ist"
  | fista => "fista"
  | admm => "admm"
  | pocs => "pocs"
  | call => "call"

/-- Letters of any case are accepted. No letter outside ASCII has a lower-case form that occurs
in a name, so folding ASCII decides. -/
def ofName? (text : String) : Option Algorithm :=
  match text.map Char.toLower with
  | "cg" => some conjGrad
  | "conjgrad" => some conjGrad
  | "ist" => some ist
  | "fista" => some fista
  | "admm" => some admm
  | "pocs" => some pocs
  | "call" => some call
  | _ => none

end Algorithm

end LinearInverse
