namespace LinearInverse

/-- Operations without laws, so that one definition of an algorithm serves the machine numbers it
runs on and the real numbers it is reasoned about in. Comparisons are the program's own: a value
that differs from itself is not a number, and every comparison with it fails. -/
class Scalar (α : Type) extends Add α, Sub α, Mul α, Div α, Neg α, Zero α, One α, NatCast α,
    OfScientific α, LT α, LE α, BEq α where
  decLt : DecidableLT α
  decLe : DecidableLE α
  abs : α → α
  sqrt : α → α
  /-- Length of the plane vector with these two coordinates. -/
  hypot : α → α → α
  pow : α → α → α
  /-- Positive infinity, where the number system has one. -/
  isTop : α → Bool
  /-- Neither zero, nor too small for full precision, nor infinite, nor undefined. -/
  isNormal : α → Bool

attribute [reducible, instance] Scalar.decLt Scalar.decLe

namespace Scalar
variable {α : Type} [Scalar α]

def isNaN (x : α) : Bool := !(x == x)

def isInfinite (x : α) : Bool := isTop (abs x)

def isFinite (x : α) : Bool := !isNaN x && !isInfinite x

/-- The larger of two numbers. An undefined operand is ignored. -/
def max (x y : α) : α :=
  if isNaN x then y else if isNaN y then x else if x < y then y else x

/-- Sums over lists start at negative zero, the neutral element of addition also where zero
carries a sign. -/
def sum (xs : List α) : α :=
  xs.foldl (· + ·) (-0)

end Scalar

end LinearInverse
