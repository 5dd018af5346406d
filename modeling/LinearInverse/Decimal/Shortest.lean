import LinearInverse.Decimal.Double

namespace LinearInverse.Decimal

/-- The reals that round to one double, in units of a quarter of its last place; the ends
belong to it exactly when its significand is even. -/
structure Cell where
  unit : Ratio
  low : Nat
  value : Nat
  high : Nat
  closed : Bool

def Cell.ofDyadic (m : Nat) (q : Int) (narrowBelow : Bool) : Cell :=
  ⟨.ofDyadic 1 (q - 2), 4 * m - (if narrowBelow then 1 else 2), 4 * m, 4 * m + 2, m % 2 == 0⟩

/-- Of the two neighbours of the value among the multiples of `10 ^ k`, the nearer one that
lies in the cell. The upper one wins a tie. -/
def Cell.gridPoint? (c : Cell) (k : Int) : Option Nat :=
  let u := c.unit.shift k
  let v := c.value * u.num
  let inside (n : Nat) : Bool :=
    let x := n * u.den
    if c.closed then c.low * u.num ≤ x && x ≤ c.high * u.num
    else c.low * u.num < x && x < c.high * u.num
  let n := v / u.den
  let lowerIsNearer := v - n * u.den < (n + 1) * u.den - v
  if inside n && (lowerIsNearer || !inside (n + 1)) then some n
  else if inside (n + 1) then some (n + 1)
  else none

/-- Tries `count`, `count + 1`, … digits. Seventeen always suffice. -/
def Cell.digitsFrom (c : Cell) (p : Int) : Nat → Nat → Digits
  | 0, count => ⟨Nat.toDigits 10 ((c.gridPoint? (p - count)).getD 0),p⟩
  | fuel + 1, count =>
    match c.gridPoint? (p - count) with
    | some n =>
      let ds := Nat.toDigits 10 n
      ⟨(ds.reverse.dropWhile (· == '0')).reverse,p - count + ds.length⟩
    | none => c.digitsFrom p fuel (count + 1)

/-- Shortest digits of a positive `m * 2 ^ q`. -/
def shortest (m : Nat) (q : Int) (narrowBelow : Bool) : Digits :=
  (Cell.ofDyadic m q narrowBelow).digitsFrom (Ratio.ofDyadic m q).decade 17 1

end LinearInverse.Decimal
