import LinearInverse.Defect
import LinearInverse.Grid.Index
import LinearInverse.Scalar

namespace LinearInverse.Vec
variable {α : Type} [Scalar α]

/-- Bytes of a double. -/
def entrySize : Nat := 8

/-- A vector that takes more bytes than can be addressed is not made. -/
def checkRoom (n : Nat) : Checked β Unit :=
  if (Grid.bytes? entrySize n).isSome then .ok () else .error .sizeOverflow

def zeros (n : Nat) : Checked β (List α) :=
  (checkRoom n).map fun _ => List.replicate n 0

def sub (x y : List α) : List α :=
  List.zipWith (· - ·) x y

def add (x y : List α) : List α :=
  List.zipWith (· + ·) x y

def scale (a : α) (x : List α) : List α :=
  x.map (· * a)

/-- `y + a * x`. -/
def axpy (y : List α) (a : α) (x : List α) : List α :=
  List.zipWith (fun yi xi => yi + a * xi) y x

theorem length_sub {n : Nat} {x y : List α} (hx : x.length = n) (hy : y.length = n) :
    (sub x y).length = n := by
  rw [sub,List.length_zipWith,hx,hy,Nat.min_self]

theorem length_axpy {n : Nat} {x y : List α} (hy : y.length = n) (hx : x.length = n) (a : α) :
    (axpy y a x).length = n := by
  rw [axpy,List.length_zipWith,hy,hx,Nat.min_self]

/-- `x + a * y`. -/
def xpay (y : List α) (a : α) (x : List α) : List α :=
  List.zipWith (fun yi xi => xi + a * yi) y x

/-- Eight partial sums. -/
structure Lanes (α : Type) where
  p0 : α
  p1 : α
  p2 : α
  p3 : α
  p4 : α
  p5 : α
  p6 : α
  p7 : α

def Lanes.zero : Lanes α := ⟨0,0,0,0,0,0,0,0⟩

def Lanes.total (l : Lanes α) : α :=
  0 + (l.p0 + l.p4) + (l.p1 + l.p5) + (l.p2 + l.p6) + (l.p3 + l.p7)

/-- Whole blocks of eight go to the lanes, the rest is added to their total in order. -/
def Lanes.sum (l : Lanes α) : List α → α
  | a0::a1::a2::a3::a4::a5::a6::a7::rest =>
    Lanes.sum ⟨l.p0 + a0,l.p1 + a1,l.p2 + a2,l.p3 + a3,l.p4 + a4,l.p5 + a5,l.p6 + a6,l.p7 + a7⟩ rest
  | rest => rest.foldl (· + ·) l.total

/-- Induction over the blocks of a sum. -/
theorem Lanes.sum_induction {P : Lanes α → List α → α → Prop}
    (block : ∀ (l : Lanes α) a0 a1 a2 a3 a4 a5 a6 a7 rest r,
      P ⟨l.p0 + a0,l.p1 + a1,l.p2 + a2,l.p3 + a3,l.p4 + a4,l.p5 + a5,l.p6 + a6,l.p7 + a7⟩ rest r →
        P l (a0::a1::a2::a3::a4::a5::a6::a7::rest) r)
    (rest : ∀ l xs, P l xs (xs.foldl (· + ·) l.total)) (l : Lanes α) (xs : List α) :
    P l xs (l.sum xs) := by
  fun_induction Lanes.sum l xs with
  | case1 l a0 a1 a2 a3 a4 a5 a6 a7 xs ih => exact block l a0 a1 a2 a3 a4 a5 a6 a7 xs _ ih
  | case2 l xs _ => exact rest l xs

def dot (x y : List α) : α :=
  Lanes.zero.sum (List.zipWith (· * ·) x y)

/-- The largest magnitude. -/
def peak (x : List α) : α :=
  x.foldl (fun s v => Scalar.max s (Scalar.abs v)) 0

/-- Euclidean norm. Entries are divided by the largest magnitude first, so that tiny ones do not
vanish and huge ones do not overflow; an undefined entry is the answer, then an infinite one. -/
def norm (x : List α) : α :=
  match x.find? Scalar.isNaN with
  | some v => v
  | none =>
    let s := peak x
    if s == 0 || Scalar.isInfinite s then s
    else s * Scalar.sqrt (Scalar.sum (x.map fun v => v / s * (v / s)))

def dist (x y : List α) : α :=
  norm (sub x y)

def dot? (x y : List α) : Checked α α :=
  if x.length = y.length then .ok (dot x y) else .error .lengthMismatch

/-- A single `x` serves every entry of `y`. -/
def axpy? (y : List α) (a : α) (x : List α) : Checked α (List α) :=
  if y.length = x.length then .ok (axpy y a x)
  else match x with
    | [v] => .ok (axpy y a (List.replicate y.length v))
    | _ => .error .lengthMismatch

def xpay? (y : List α) (a : α) (x : List α) : Checked α (List α) :=
  if y.length = x.length then .ok (xpay y a x) else .error .lengthMismatch

/-- The destination must have the common length already. -/
def sub? (dst x y : List α) : Checked α (List α) :=
  if dst.length = x.length ∧ x.length = y.length then .ok (sub x y) else .error .lengthMismatch

def dist? (x y : List α) : Checked α α :=
  if x.length = y.length then .ok (dist x y) else .error .lengthMismatch

end LinearInverse.Vec
