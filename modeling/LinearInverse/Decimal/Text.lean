import LinearInverse.Decimal.Shortest

namespace LinearInverse.Decimal

/-- Inside `positional` (bounds on the point of `Digits`) a number is written without exponent;
`keepPoint` writes `.0` behind a whole number. -/
structure Format where
  keepPoint : Bool
  positional : Option (Int × Int)

/-- Messages write every number without exponent and a whole number without point. -/
def message : Format := ⟨false,none⟩

/-- Inspection keeps the point, and leaves positional notation below 1e-4 and from 1e16 on. -/
def inspection : Format := ⟨true,some (-3,16)⟩

def zeros (n : Nat) : List Char := List.replicate n '0'

def Digits.positional (d : Digits) (keepPoint : Bool) : List Char :=
  if d.point ≤ 0 then '0' :: '.' :: zeros (-d.point).toNat ++ d.digits
  else
    let whole := d.point.toNat
    if d.digits.length ≤ whole then
      d.digits ++ zeros (whole - d.digits.length) ++ (if keepPoint then ['.','0'] else [])
    else d.digits.take whole ++ '.' :: d.digits.drop whole

/-- One digit before the point; no point behind a single digit. -/
def Digits.mantissa (d : Digits) : List Char :=
  match d.digits with
  | c :: e :: rest => c :: '.' :: e :: rest
  | cs => cs

def Digits.write (d : Digits) (f : Format) : String :=
  match f.positional with
  | none => String.ofList (d.positional f.keepPoint)
  | some (low,high) =>
    if low ≤ d.point && d.point ≤ high then String.ofList (d.positional f.keepPoint)
    else String.ofList d.mantissa ++ "e" ++ toString (d.point - 1)

def sign (negative : Bool) (text : String) : String :=
  if negative then "-" ++ text else text

def write (f : Format) (x : Float) : String :=
  match Double.ofBits x.toBits with
  | .undefined => "NaN"
  | .infinite negative => sign negative "inf"
  | .finite negative m q narrowBelow =>
    sign negative <|
      if m = 0 then (if f.keepPoint then "0.0" else "0") else (shortest m q narrowBelow).write f

/-- Nearest multiple of `10 ^ (p - count)`, halves to the even neighbour, where `p` is the
decade of the value. -/
def Ratio.rounded (r : Ratio) (count : Nat) : Digits :=
  let k := r.decade - count
  let s := r.shift k
  let n := s.num / s.den
  let rest := 2 * (s.num % s.den)
  let up := s.den < rest || (rest == s.den && n % 2 == 1)
  let ds := Nat.toDigits 10 (if up then n + 1 else n)
  ⟨ds.take count,k + ds.length⟩

/-- `count` significant digits, one of them before the point, and a signed exponent. The zero
has as many digits as any other number; neither it nor an undefined value has a sign. -/
def scientific (count : Nat) (x : Float) : String :=
  match Double.ofBits x.toBits with
  | .undefined => "nan"
  | .infinite negative => sign negative "inf"
  | .finite negative m q _ =>
    if m = 0 then String.ofList (Digits.mantissa ⟨zeros count,1⟩) ++ "e+0"
    else
      let d := (Ratio.ofDyadic m q).rounded count
      let e := d.point - 1
      sign negative <| String.ofList d.mantissa ++ (if e < 0 then "e" else "e+") ++ toString e

end LinearInverse.Decimal
