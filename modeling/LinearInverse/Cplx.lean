import LinearInverse.Defect
import LinearInverse.Scalar

namespace LinearInverse

structure Cplx (α : Type) where
  re : α
  im : α
  deriving DecidableEq

namespace Cplx

/-- Bytes of two doubles. -/
def size : Nat := 16

section
variable {α : Type} [Scalar α]

def zero : Cplx α := ⟨0,0⟩

def add (z w : Cplx α) : Cplx α := ⟨z.re + w.re,z.im + w.im⟩

def mul (z w : Cplx α) : Cplx α := ⟨z.re * w.re - z.im * w.im,z.re * w.im + z.im * w.re⟩

def conj (z : Cplx α) : Cplx α := ⟨z.re,-z.im⟩

def scale (z : Cplx α) (a : α) : Cplx α := ⟨z.re * a,z.im * a⟩

def magnitude (z : Cplx α) : α := Scalar.hypot z.re z.im

end

/-- A last number without partner is dropped. -/
def pairs : List β → List (Cplx β)
  | re::im::rest => ⟨re,im⟩ :: pairs rest
  | _ => []

/-- A complex vector is stored as real and imaginary parts in turn. -/
def interleave : List (Cplx β) → List β
  | [] => []
  | z::zs => z.re :: z.im :: interleave zs

theorem length_interleave (zs : List (Cplx β)) : (interleave zs).length = 2 * zs.length := by
  induction zs with
  | nil => rfl
  | cons z zs ih => simp only [interleave,List.length_cons,ih]; omega

theorem length_pairs : (xs : List β) → (pairs xs).length = xs.length / 2
  | [] => by simp [pairs]
  | [_] => by simp [pairs]
  | _::_::rest => by simp only [pairs,List.length_cons,length_pairs rest]; omega

theorem pairs_interleave (zs : List (Cplx β)) : pairs (interleave zs) = zs := by
  induction zs with
  | nil => rfl
  | cons z zs ih => simp [interleave,pairs,ih]

theorem interleave_pairs : (xs : List β) → xs.length % 2 = 0 → interleave (pairs xs) = xs
  | [], _ => rfl
  | [_], h => absurd h Nat.one_ne_zero
  | a::b::rest, h => by
    have hrest : rest.length % 2 = 0 := by
      simp only [List.length_cons] at h
      omega
    rw [pairs,interleave,interleave_pairs rest hrest]

theorem getElem?_interleave (zs : List (Cplx β)) (j : Nat) :
    (interleave zs)[2 * j]? = zs[j]?.map re ∧ (interleave zs)[2 * j + 1]? = zs[j]?.map im := by
  induction zs generalizing j with
  | nil => exact ⟨rfl,rfl⟩
  | cons z zs ih =>
    cases j with
    | zero => exact ⟨rfl,rfl⟩
    | succ j => exact ih j

theorem getElem?_pairs_eq_some {x : List β} (h : x.length % 2 = 0) {j : Nat} {z : Cplx β} :
    (pairs x)[j]? = some z ↔ x[2 * j]? = some z.re ∧ x[2 * j + 1]? = some z.im := by
  obtain ⟨hre,him⟩ := getElem?_interleave (pairs x) j
  rw [interleave_pairs x h] at hre him
  rw [hre,him]
  cases (pairs x)[j]? with
  | none => exact iff_of_false nofun nofun
  | some w =>
    obtain ⟨re,im⟩ := w
    obtain ⟨re',im'⟩ := z
    simp

/-- Only a vector of even length is a complex one. -/
def ofVector {α β : Type} (x : List β) : Checked α (List (Cplx β)) :=
  if x.length % 2 = 0 then .ok (pairs x) else .error .oddLength

theorem length_of_ofVector {x : List β} (h : ofVector (α := α) x = .ok zs) :
    x.length = 2 * zs.length := by
  simp only [ofVector] at h
  split at h
  · cases h
    rw [length_pairs]
    omega
  · contradiction

end Cplx

end LinearInverse
