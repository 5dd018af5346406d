import LinearInverse.Cfl.Sample
import Mathlib.Algebra.Group.Nat.Defs

namespace LinearInverse.Cfl.Sample

/-- Bits that lie below all others are added to them. -/
theorem or_mul_two_pow {a k : Nat} (h : a < 2 ^ k) (b : Nat) : a ||| b * 2 ^ k = a + b * 2 ^ k := by
  rw [← Nat.shiftLeft_eq,Nat.or_comm,← Nat.shiftLeft_add_eq_or_of_lt h,Nat.add_comm]

theorem toNat_ofBytes (a b c d : UInt8) : (ofBytes a b c d).toNat =
    a.toNat + b.toNat * 2 ^ 8 + c.toNat * 2 ^ 16 + d.toNat * 2 ^ 24 := by
  have ha := a.toNat_lt
  have hb := b.toNat_lt
  have hc := c.toNat_lt
  have hd := d.toNat_lt
  have hbits : (ofBytes a b c d).toNat =
      a.toNat ||| b.toNat * 2 ^ 8 % 2 ^ 32 ||| c.toNat * 2 ^ 16 % 2 ^ 32 |||
        d.toNat * 2 ^ 24 % 2 ^ 32 := by
    simp only [ofBytes,UInt32.toNat_or,UInt32.toNat_shiftLeft,UInt8.toNat_toUInt32,
      Nat.shiftLeft_eq,UInt32.reduceToNat,Nat.reduceMod]
  have hab : a.toNat + b.toNat * 2 ^ 8 < 2 ^ 16 := by omega
  have habc : a.toNat + b.toNat * 2 ^ 8 + c.toNat * 2 ^ 16 < 2 ^ 24 := by omega
  rw [hbits,Nat.mod_eq_of_lt (by omega),Nat.mod_eq_of_lt (by omega),Nat.mod_eq_of_lt (by omega),
    or_mul_two_pow ha,or_mul_two_pow hab,or_mul_two_pow habc]

theorem ofBytes_bytes (w : UInt32) :
    ofBytes w.toUInt8 (w >>> 8).toUInt8 (w >>> 16).toUInt8 (w >>> 24).toUInt8 = w := by
  have hw := w.toNat_lt
  apply UInt32.toNat_inj.mp
  rw [toNat_ofBytes]
  simp only [UInt32.toNat_toUInt8,UInt32.toNat_shiftRight,Nat.shiftRight_eq_div_pow,
    UInt32.reduceToNat,Nat.reduceMod,Nat.reducePow]
  omega

/-- A number as it comes back from a file. -/
def kept (v : UInt64) : UInt64 := widen (narrow v)

def keptParts (z : Cplx UInt64) : Cplx UInt64 := ⟨kept z.re,kept z.im⟩

theorem decode_encode (zs : List (Cplx UInt64)) : decode (encode zs) = zs.map keptParts := by
  induction zs with
  | nil => rfl
  | cons z zs ih =>
    have hcons : decode (encode (z :: zs)) =
        ⟨widen (ofBytes _ _ _ _),widen (ofBytes _ _ _ _)⟩ :: decode (encode zs) := rfl
    rw [hcons,ofBytes_bytes,ofBytes_bytes,ih]
    rfl

theorem exists_of_mem_decode {bs : List UInt8} {z : Cplx UInt64} (h : z ∈ decode bs) :
    ∃ a b, z = ⟨widen a,widen b⟩ := by
  induction bs using decode.induct with
  | case1 a b c d e f g i rest ih =>
    rcases List.mem_cons.mp h with rfl | h
    · exact ⟨_,_,rfl⟩
    · exact ih h
  | case2 bs hshort =>
    rw [decode] at h
    · cases h
    · exact hshort

/-- The exponent field is full, and the fraction is not zero. -/
def IsNaN (v : UInt64) : Prop :=
  v.toNat / 2 ^ 52 % 2 ^ 11 = 2047 ∧ v.toNat % 2 ^ 52 ≠ 0

/-- Exponent and fraction of a double as those of a single. -/
def narrowed (field fraction : Nat) : Nat :=
  if field = 0x7FF then
    if fraction = 0 then 0x7F800000 else (0x7F800000 + fraction >>> 29) ||| 0x400000
  else
    let significand := if field = 0 then fraction else 0x10000000000000 + fraction
    min 0x7F800000 ((field - 897) <<< 23 + roundShift significand (29 + (897 - max field 1)))

def widened (field fraction : Nat) : Nat :=
  if field = 0xFF then
    0x7FF <<< 52 + (if fraction = 0 then 0 else fraction <<< 29 ||| 0x8000000000000)
  else if field ≠ 0 then (field + 896) <<< 52 + fraction <<< 29
  else if fraction = 0 then 0
  else (fraction.log2 + 873) <<< 52 + fraction <<< (52 - fraction.log2)

theorem narrow_eq (v : UInt64) : narrow v =
    .ofNat ((v.toNat >>> 63) <<< 31 +
      narrowed (v.toNat >>> 52 % 0x800) (v.toNat % 0x10000000000000)) :=
  rfl

theorem widen_eq (w : UInt32) : widen w =
    .ofNat ((w.toNat >>> 31) <<< 63 + widened (w.toNat >>> 23 % 0x100) (w.toNat % 0x800000)) :=
  rfl

theorem roundShift_mul (m k : Nat) : roundShift (m * 2 ^ k) k = m := by
  have hpos := Nat.two_pow_pos k
  have hrest : 2 * (m * 2 ^ k % 2 ^ k) = 0 := by rw [Nat.mul_mod_left]
  have hunit : (0 == 2 ^ k) = false := beq_eq_false_iff_ne.mpr (Nat.ne_of_lt hpos)
  simp only [roundShift,Nat.shiftRight_eq_div_pow,Nat.shiftLeft_eq,Nat.one_mul,hrest,hunit,
    Nat.not_lt_zero,Nat.mul_div_cancel m hpos,Bool.false_and,decide_false,Bool.or_false,
    Bool.false_eq_true,if_false]

theorem narrowed_normal {e f : Nat} (h0 : e ≠ 0) (h : e < 255) (hf : f < 2 ^ 23) :
    narrowed (e + 896) (f * 2 ^ 29) = e * 2 ^ 23 + f := by
  have hk : 29 + (897 - max (e + 896) 1) = 29 := by omega
  have hm : 0x10000000000000 + f * 2 ^ 29 = (2 ^ 23 + f) * 2 ^ 29 := by omega
  rw [narrowed,if_neg (by omega)]
  dsimp only
  rw [if_neg (by omega),hk,hm,roundShift_mul,Nat.shiftLeft_eq]
  omega

/-- The leading bit of a subnormal significand is shifted to the hidden place. -/
theorem leading_bit {f : Nat} (h0 : f ≠ 0) (hf : f < 2 ^ 23) :
    f.log2 < 23 ∧ 2 ^ 52 ≤ f * 2 ^ (52 - f.log2) ∧ f * 2 ^ (52 - f.log2) < 2 ^ 53 := by
  have hlog : f.log2 < 23 := (Nat.log2_lt h0).mpr hf
  have hpos := Nat.two_pow_pos (52 - f.log2)
  have hlo := Nat.mul_le_mul_right (2 ^ (52 - f.log2)) (Nat.log2_self_le h0)
  have hhi := Nat.mul_lt_mul_of_pos_right (Nat.lt_log2_self (n := f)) hpos
  rw [← Nat.pow_add] at hlo hhi
  have h1 : f.log2 + (52 - f.log2) = 52 := by omega
  have h2 : f.log2 + 1 + (52 - f.log2) = 53 := by omega
  rw [h1] at hlo
  rw [h2] at hhi
  exact ⟨hlog,hlo,hhi⟩

theorem narrowed_subnormal {f : Nat} (h0 : f ≠ 0) (hf : f < 2 ^ 23) :
    narrowed (f.log2 + 874) (f * 2 ^ (52 - f.log2) - 2 ^ 52) = f := by
  obtain ⟨hlog,hlo,_⟩ := leading_bit h0 hf
  have hk : 29 + (897 - max (f.log2 + 874) 1) = 52 - f.log2 := by omega
  have hm : 0x10000000000000 + (f * 2 ^ (52 - f.log2) - 2 ^ 52) = f * 2 ^ (52 - f.log2) := by omega
  rw [narrowed,if_neg (by omega)]
  dsimp only
  rw [if_neg (by omega),hk,hm,roundShift_mul,Nat.shiftLeft_eq]
  omega

/-- Widening fills the fields of a double, and narrowing takes what was put there. -/
theorem exists_widened {e f : Nat} (he : e < 2 ^ 8) (hf : f < 2 ^ 23) :
    ∃ e' f', e' < 2 ^ 11 ∧ f' < 2 ^ 52 ∧ widened e f = e' * 2 ^ 52 + f' ∧
      (e' = 2047 ∧ f' ≠ 0 ∨ narrowed e' f' = e * 2 ^ 23 + f) := by
  unfold widened
  by_cases hmax : e = 255
  · rw [if_pos hmax]
    by_cases hf0 : f = 0
    · rw [if_pos hf0,hmax,hf0]
      exact ⟨2047,0,by decide,by decide,rfl,.inr (by decide)⟩
    · rw [if_neg hf0,Nat.shiftLeft_eq f]
      refine ⟨2047,f * 2 ^ 29 ||| 0x8000000000000,by decide,?_,rfl,.inl ⟨rfl,?_⟩⟩
      · exact Nat.or_lt_two_pow (by omega) (by decide)
      · have hbit : 0x8000000000000 ≤ f * 2 ^ 29 ||| 0x8000000000000 := Nat.right_le_or
        omega
  · rw [if_neg hmax]
    by_cases he0 : e = 0
    · rw [if_neg (fun h => h he0)]
      by_cases hf0 : f = 0
      · rw [if_pos hf0,he0,hf0]
        exact ⟨0,0,by decide,by decide,rfl,.inr (by decide)⟩
      · obtain ⟨hlog,hlo,hhi⟩ := leading_bit hf0 hf
        rw [if_neg hf0,Nat.shiftLeft_eq,Nat.shiftLeft_eq,he0]
        refine ⟨f.log2 + 874,f * 2 ^ (52 - f.log2) - 2 ^ 52,by omega,by omega,by omega,.inr ?_⟩
        rw [narrowed_subnormal hf0 hf]
        omega
    · rw [if_pos he0,Nat.shiftLeft_eq,Nat.shiftLeft_eq]
      exact ⟨e + 896,f * 2 ^ 29,by omega,by omega,rfl,.inr (narrowed_normal he0 (by omega) hf)⟩

/-- The sign is kept, and exponent and fraction are the ones that were widened. -/
theorem fields_widen {w : UInt32} {e f : Nat} (he : e < 2 ^ 11) (hf : f < 2 ^ 52)
    (h : widened (w.toNat >>> 23 % 0x100) (w.toNat % 0x800000) = e * 2 ^ 52 + f) :
    (widen w).toNat / 2 ^ 63 = w.toNat / 2 ^ 31 ∧ (widen w).toNat / 2 ^ 52 % 2 ^ 11 = e ∧
      (widen w).toNat % 2 ^ 52 = f := by
  have hw := w.toNat_lt
  have hv : (widen w).toNat = w.toNat / 2 ^ 31 * 2 ^ 63 + (e * 2 ^ 52 + f) := by
    rw [widen_eq,h,UInt64.toNat_ofNat',Nat.shiftRight_eq_div_pow,Nat.shiftLeft_eq]
    omega
  omega

/-- A number that was read is stored as it was. -/
theorem narrow_widen {w : UInt32} (h : ¬IsNaN (widen w)) : narrow (widen w) = w := by
  have hw := w.toNat_lt
  have hexponent : w.toNat >>> 23 % 0x100 < 2 ^ 8 := Nat.mod_lt _ (by decide)
  have hsignificand : w.toNat % 0x800000 < 2 ^ 23 := Nat.mod_lt _ (by decide)
  obtain ⟨e,f,he,hf,hwiden,hor⟩ := exists_widened hexponent hsignificand
  obtain ⟨hsign,hfield,hfraction⟩ := fields_widen he hf hwiden
  rcases hor with hnan | hnarrow
  · exact absurd ⟨hfield.trans hnan.1,by rw [hfraction]; exact hnan.2⟩ h
  · apply UInt32.toNat_inj.mp
    rw [narrow_eq,UInt32.toNat_ofNat',Nat.shiftRight_eq_div_pow,Nat.shiftRight_eq_div_pow,
      Nat.shiftLeft_eq,hsign,show (0x800 : Nat) = 2 ^ 11 from rfl,hfield,
      show (0x10000000000000 : Nat) = 2 ^ 52 from rfl,hfraction,hnarrow]
    omega

end LinearInverse.Cfl.Sample
