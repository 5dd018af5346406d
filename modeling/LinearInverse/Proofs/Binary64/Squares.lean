import LinearInverse.Proofs.Binary64.Order
import LinearInverse.Proofs.Sums

namespace LinearInverse

namespace Binary64
open Float.Model Float.Model.UnpackedFloat

variable {x y : Float} {u v : Unpacked}

/-- Neither undefined nor of negative sign. -/
def Positive : Unpacked → Prop
  | .notANumber => False
  | .infinity s | .zero s | .finite s _ _ _ => s = .positive

theorem isNaN_of_positive (h : Positive (decode x)) : x.isNaN = false := by
  rw [isNaN_eq]
  cases hd : decode x with
  | notANumber => rw [hd] at h; exact h.elim
  | infinity s => rfl
  | zero s => rfl
  | finite s m e hm => rfl

theorem abs_of_positive (h : Positive (decode x)) : x.abs = x := by
  apply decode_injective
  rw [decode_abs]
  cases hd : decode x with
  | notANumber => rfl
  | infinity s => rw [hd] at h; simp [UnpackedFloat.abs,show s = .positive from h]
  | zero s => rw [hd] at h; simp [UnpackedFloat.abs,show s = .positive from h]
  | finite s m e hm => rw [hd] at h; simp [UnpackedFloat.abs,show s = .positive from h]

theorem isNaN_abs (x : Float) : x.abs.isNaN = x.isNaN := by
  rw [isNaN_eq,isNaN_eq,decode_abs]
  cases decode x <;> rfl

theorem positive_encode (h : Canonical u) (hu : Positive u) : Positive (decode (encode u)) := by
  rwa [decode_encode h]

theorem positive_ofFields {e : BitVec 11} {f : BitVec 52} (h : e = -1#11 → f = 0#52) :
    Positive (ofFields .positive e f) := by
  cases shape e f with
  | notANumber he hf _ => exact absurd (h he) hf
  | infinity _ hu | zero _ hu | finite _ _ _ _ hu => rw [hu]; rfl

theorem positive_round (m : Nat) (e : Int) (a : Accuracy) :
    Positive (decode (encode (roundWithAccuracy .binary64 .positive m e a))) := by
  obtain ⟨e',f,h,hf⟩ := exists_decode_round .positive m e a
  rw [h]
  exact positive_ofFields hf

/-- A sum of positive mantissas is rounded with a positive sign. -/
theorem positive_normalize {m : Int} (hm : 0 ≤ m) (e : Int) :
    Positive (decode (encode (UnpackedFloat.normalize .binary64 m e .positive))) := by
  unfold UnpackedFloat.normalize
  split
  next hlt => exact absurd (Int.compare_eq_lt.mp hlt) (by omega)
  next => exact positive_encode (u := .zero .positive) trivial rfl
  next => exact positive_round _ _ _

theorem positive_add (hx : Positive (decode x)) (hy : Positive (decode y)) :
    Positive (decode (x + y)) := by
  have hcx := canonical_decode x
  have hcy := canonical_decode y
  rw [add_eq]
  generalize decode x = u at hx hcx
  generalize decode y = v at hy hcy
  cases u with
  | notANumber => exact hx.elim
  | infinity s =>
    obtain rfl : s = .positive := hx
    cases v with
    | notANumber => exact hy.elim
    | infinity t =>
      obtain rfl : t = .positive := hy
      exact positive_encode (u := .infinity .positive) trivial rfl
    | zero t => exact positive_encode (u := .infinity .positive) trivial rfl
    | finite t n i hn => exact positive_encode (u := .infinity .positive) trivial rfl
  | zero s =>
    obtain rfl : s = .positive := hx
    cases v with
    | notANumber => exact hy.elim
    | infinity t => exact positive_encode (u := .infinity t) trivial hy
    | zero t =>
      obtain rfl : t = .positive := hy
      exact positive_encode (u := .zero .positive) trivial rfl
    | finite t n i hn => exact positive_encode hcy hy
  | finite s m e hm =>
    cases v with
    | notANumber => exact hy.elim
    | infinity t => exact positive_encode (u := .infinity t) trivial hy
    | zero t => exact positive_encode hcx hx
    | finite t n i hn =>
      obtain rfl : s = .positive := hx
      obtain rfl : t = .positive := hy
      exact positive_normalize (Int.add_nonneg (Int.natCast_nonneg _) (Int.natCast_nonneg _)) _

theorem positive_square (h : x.isNaN = false) : Positive (decode (x * x)) := by
  rw [mul_eq]
  cases hd : decode x with
  | notANumber => rw [isNaN_eq,hd] at h; cases h
  | infinity s => cases s <;> exact positive_encode (u := .infinity .positive) trivial rfl
  | zero s => cases s <;> exact positive_encode (u := .zero .positive) trivial rfl
  | finite s m e hm => cases s <;> exact positive_round _ _ _

theorem additive_positive : Vec.Additive fun x : Float => Positive (decode x) := by
  refine ⟨?_,fun _ _ => positive_add⟩
  change Positive (decode Zero.zero)
  rw [decode_zero]
  rfl

theorem isNaN_encode_notANumber : (encode .notANumber).isNaN = true := by
  decide +kernel

theorem isNaN_add_of_isNaN (h : x.isNaN = true ∨ y.isNaN = true) : (x + y).isNaN = true := by
  have hadd : UnpackedFloat.add .binary64 (decode x) (decode y) = .notANumber := by
    rcases h with hx | hy
    · rw [decode_of_isNaN hx]
      cases decode y <;> rfl
    · rw [decode_of_isNaN hy]
      cases decode x <;> rfl
  rw [add_eq,hadd]
  exact isNaN_encode_notANumber

theorem isNaN_square_of_isNaN (h : x.isNaN = true) : (x * x).isNaN = true := by
  rw [mul_eq,decode_of_isNaN h]
  exact isNaN_encode_notANumber

theorem hereditary_isNaN : Vec.Hereditary fun x : Float => x.isNaN = false := by
  intro x y h
  constructor
  · exact Bool.eq_false_iff.mpr fun hx => by
      rw [isNaN_add_of_isNaN (.inl hx)] at h
      cases h
  · exact Bool.eq_false_iff.mpr fun hy => by
      rw [isNaN_add_of_isNaN (.inr hy)] at h
      cases h

end Binary64

/-- No entry is the undefined number. -/
def Defined (x : List Float) : Prop := ∀ v ∈ x, v.isNaN = false

namespace Vec
variable {x : List Float}

theorem defined_of_dot (h : (dot x x).isNaN = false) : Defined x := by
  intro v hv
  have hsquare := Binary64.hereditary_isNaN.of_dot h v hv
  refine Bool.eq_false_iff.mpr fun hnan => ?_
  rw [Binary64.isNaN_square_of_isNaN hnan] at hsquare
  cases hsquare

theorem positive_dot (h : Defined x) : Binary64.Positive (Binary64.decode (dot x x)) :=
  Binary64.additive_positive.dot fun v hv => Binary64.positive_square (h v hv)

theorem isNaN_dot (h : Defined x) : (dot x x).isNaN = false :=
  Binary64.isNaN_of_positive (positive_dot h)

theorem abs_dot (h : Defined x) : Scalar.abs (dot x x) = dot x x :=
  Binary64.abs_of_positive (positive_dot h)

end Vec

end LinearInverse
