namespace LinearInverse.Decimal

/-- `finite` stands for `significand * 2 ^ exponent`. The gap to the double below is half as
wide where the significand is the least of its binade. -/
inductive Double where
  | undefined
  | infinite (negative : Bool)
  | finite (negative : Bool) (significand : Nat) (exponent : Int) (narrowBelow : Bool)

def Double.ofBits (bits : UInt64) : Double :=
  let word := bits.toNat
  let negative := word >>> 63 == 1
  let field : Nat := word >>> 52 % 0x800
  let fraction : Nat := word % 0x10000000000000
  if field = 0x7FF then if fraction = 0 then .infinite negative else .undefined
  else if field = 0 then .finite negative fraction (-1074) false
  else .finite negative (fraction + 0x10000000000000) (field - 1075) (fraction == 0 && field != 1)

/-- A positive fraction. -/
structure Ratio where
  num : Nat
  den : Nat

def Ratio.ofDyadic (m : Nat) (q : Int) : Ratio :=
  ⟨m <<< q.toNat,1 <<< (-q).toNat⟩

/-- Division by a power of ten. -/
def Ratio.shift (r : Ratio) (k : Int) : Ratio :=
  ⟨r.num * Nat.pow 10 (-k).toNat,r.den * Nat.pow 10 k.toNat⟩

def Ratio.below (r : Ratio) (p : Int) : Bool :=
  let s := r.shift p
  s.num < s.den

/-- Looks upwards from `p` for the first power of ten above the value. -/
def Ratio.decadeFrom (r : Ratio) : Nat → Int → Int
  | 0, p => p
  | fuel + 1, p => if r.below p then p else r.decadeFrom fuel (p + 1)

/-- The `p` with `10 ^ (p - 1) ≤ r < 10 ^ p`. The binary size bounds it from below within
three steps, as three decimal digits are just under ten binary ones. -/
def Ratio.decade (r : Ratio) : Int :=
  let e : Int := (r.num.log2 : Int) - (r.den.log2 : Int)
  r.decadeFrom 4 ((e - 1) * 30102 / 100000)

/-- The digits stand behind the point, which is then moved right by `point` places. -/
structure Digits where
  digits : List Char
  point : Int

end LinearInverse.Decimal
