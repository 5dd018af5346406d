import LinearInverse.Scalar

namespace LinearInverse.Scalar.Binary64

/-- The exponent field of a double, without sign and fraction. -/
def exponentField (x : Float) : UInt64 :=
  (x.toBits >>> 52) &&& 0x7FF

def isNormal (x : Float) : Bool :=
  exponentField x != 0 && exponentField x != 0x7FF

/-- The long side of a right triangle with the legs `0 ≤ b ≤ a`: the root of the rounded sum of
squares, corrected by its own error `h² - a² - b²` over `2h`. The error is written in the distance
of `h` to the leg that is nearer, so that the squares cancel before anything is rounded. -/
def correctedRoot (a b : Float) : Float :=
  let h := (a * a + b * b).sqrt
  let error :=
    if h ≤ 2.0 * b then
      let d := h - b
      a * (2.0 * d - a) + (d - 2.0 * (a - b)) * d
    else
      let d := h - a
      2.0 * d * (a - 2.0 * b) + ((4.0 * d - b) * b + d * d)
  h - error / (2.0 * h)

/-- Legs are scaled by powers of two where a square would over- or underflow, and a leg that
reaches only below the last place of the other is added to it. An infinite leg wins over an
undefined one. -/
def hypot (x y : Float) : Float :=
  let a := if x.abs < y.abs then y.abs else x.abs
  let b := if x.abs < y.abs then x.abs else y.abs
  let up := Float.ofBits 0x6570000000000000
  let down := Float.ofBits 0x1A70000000000000
  if x.isInf || y.isInf then Float.ofBits 0x7FF0000000000000
  else if x.isNaN || y.isNaN then x + y
  else if b * Float.ofBits 0x4350000000000000 ≤ a then a + b
  else if Float.ofBits 0x5FE0000000000000 < a then correctedRoot (a * down) (b * down) * up
  else if b < Float.ofBits 0x2340000000000000 then correctedRoot (a * up) (b * up) * down
  else correctedRoot a b

instance : Scalar Float where
  zero := 0.0
  one := 1.0
  natCast := Float.ofNat
  decLt := fun x y => inferInstanceAs (Decidable (x < y))
  decLe := fun x y => inferInstanceAs (Decidable (x ≤ y))
  abs := Float.abs
  sqrt := Float.sqrt
  hypot := hypot
  pow := Float.pow
  isTop x := x == Float.ofBits 0x7FF0000000000000
  isNormal := isNormal

end LinearInverse.Scalar.Binary64
