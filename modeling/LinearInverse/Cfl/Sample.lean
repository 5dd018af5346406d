import LinearInverse.Cplx

namespace LinearInverse.Cfl.Sample

/-- `n / 2 ^ k`, rounded to the nearest; halves go to the even neighbour. -/
def roundShift (n k : Nat) : Nat :=
  let q := n >>> k
  let unit := 1 <<< k
  let rest := 2 * (n % unit)
  if unit < rest || (rest == unit && q % 2 == 1) then q + 1 else q

/-- A double as a single. The exponent fields differ by 896; one below that shifts the significand
into the subnormal singles, and a carry out of the significand goes to the exponent field as it
should. What is not a number stays so, with its leading bits. -/
def narrow (w : UInt64) : UInt32 :=
  let field := w.toNat >>> 52 % 0x800
  let fraction := w.toNat % 0x10000000000000
  let magnitude :=
    if field = 0x7FF then
      if fraction = 0 then 0x7F800000 else (0x7F800000 + fraction >>> 29) ||| 0x400000
    else
      let significand := if field = 0 then fraction else 0x10000000000000 + fraction
      min 0x7F800000 ((field - 897) <<< 23 + roundShift significand (29 + (897 - max field 1)))
  .ofNat ((w.toNat >>> 63) <<< 31 + magnitude)

/-- A single as a double, which is exact. Subnormal singles are normal doubles. -/
def widen (w : UInt32) : UInt64 :=
  let field := w.toNat >>> 23 % 0x100
  let fraction := w.toNat % 0x800000
  let magnitude :=
    if field = 0xFF then
      0x7FF <<< 52 + (if fraction = 0 then 0 else fraction <<< 29 ||| 0x8000000000000)
    else if field ≠ 0 then (field + 896) <<< 52 + fraction <<< 29
    else if fraction = 0 then 0
    else (fraction.log2 + 873) <<< 52 + fraction <<< (52 - fraction.log2)
  .ofNat ((w.toNat >>> 31) <<< 63 + magnitude)

/-- Lowest byte first. -/
def bytes (w : UInt32) : List UInt8 :=
  [w.toUInt8,(w >>> 8).toUInt8,(w >>> 16).toUInt8,(w >>> 24).toUInt8]

def ofBytes (a b c d : UInt8) : UInt32 :=
  a.toUInt32 ||| (b.toUInt32 <<< 8) ||| (c.toUInt32 <<< 16) ||| (d.toUInt32 <<< 24)

/-- Bytes of a complex number. -/
def size : Nat := 8

def encode : List (Cplx UInt64) → List UInt8
  | [] => []
  | z::zs => bytes (narrow z.re) ++ bytes (narrow z.im) ++ encode zs

/-- Bytes that do not make up a whole number are dropped. -/
def decode : List UInt8 → List (Cplx UInt64)
  | a::b::c::d::e::f::g::h::rest =>
    ⟨widen (ofBytes a b c d),widen (ofBytes e f g h)⟩ :: decode rest
  | _ => []

theorem length_encode (zs : List (Cplx UInt64)) : (encode zs).length = size * zs.length := by
  induction zs with
  | nil => rfl
  | cons z zs ih =>
    simp only [encode,bytes,List.cons_append,List.nil_append,List.length_cons,ih,size]
    omega

/-- Too short to hold a number. -/
theorem decode_of_short (h : bs.length < size) : decode bs = [] := by
  unfold decode
  split
  next => simp only [List.length_cons,size] at h; omega
  next => rfl

end LinearInverse.Cfl.Sample
