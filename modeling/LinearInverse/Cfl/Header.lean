import LinearInverse.Grid.Index
import LinearInverse.Text.Blank

namespace LinearInverse.Cfl

namespace Header

/-- What is wrong with a header. -/
inductive Fault where
  | noSizes
  | notDecimal (token : String)
  | tooLarge (token : String)
  deriving DecidableEq, Repr

def Fault.message : Fault → String
  | noSizes => "no dimension line"
  | notDecimal t => "bad dimension '" ++ t ++ "': invalid digit found in string"
  | tooLarge t => "bad dimension '" ++ t ++ "': number too large to fit in target type"

/-- The value with one more digit. -/
def push (token : String) (n : Nat) (c : Char) : Except Fault Nat :=
  if !c.isDigit then .error (.notDecimal token)
  else
    let m := n * 10 + (c.toNat - '0'.toNat)
    if m < Grid.wordBound then .ok m else .error (.tooLarge token)

/-- Decimal digits, which a plus sign may precede. The first fault from the left is reported. -/
def size (token : List Char) : Except Fault Nat :=
  let digits := match token with
    | '+'::cs => cs
    | cs => cs
  if digits.isEmpty then .error (.notDecimal (String.ofList token))
  else digits.foldlM (push (String.ofList token)) 0

/-- Sizes of one at the end say nothing. The first size is kept. -/
def trim : List Nat → List Nat
  | [] => []
  | d::ds => d :: (ds.reverse.dropWhile (· == 1)).reverse

def isSizes : List (List Char) → Bool
  | (c::_)::_ => c != '#'
  | _ => false

/-- One line of sizes. Lines before it that are blank or begin with `#` are passed over, and so is
everything behind it. -/
def read (text : List Char) : Except Fault (List Nat) :=
  match ((Text.lines text).map Text.words).find? isSizes with
  | some tokens => (tokens.mapM size).map trim
  | none => .error .noSizes

/-- The sizes, separated by spaces. An array without axes has one element. -/
def sizesLine (shape : List Nat) : List Char :=
  [' '].intercalate ((if shape.isEmpty then [1] else shape).map (Nat.toDigits 10))

def write (shape : List Nat) : List Char :=
  "# Dimensions\n".toList ++ sizesLine shape ++ ['\n']

end Header

end LinearInverse.Cfl
