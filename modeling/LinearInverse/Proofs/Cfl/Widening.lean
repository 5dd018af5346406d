import LinearInverse.Proofs.Cfl.Sample
import Mathlib.Algebra.Order.Field.Basic
import Mathlib.Data.Nat.Digits.Defs
import Mathlib.Tactic.Ring

namespace LinearInverse.Cfl.Sample

/-- A binary format: the bits of the fraction and of the exponent field, and the exponent of the
last place of the smallest numbers. -/
structure Format where
  fractionBits : Nat
  fieldBits : Nat
  lowest : Int

def single : Format := ⟨23,8,-149⟩

def double : Format := ⟨52,11,-1074⟩

namespace Format

def fraction (F : Format) (w : Nat) : Nat := w % 2 ^ F.fractionBits

def field (F : Format) (w : Nat) : Nat := w / 2 ^ F.fractionBits % 2 ^ F.fieldBits

def sign (F : Format) (w : Nat) : Nat := w / 2 ^ (F.fractionBits + F.fieldBits)

/-- The exponent field of what is infinite or no number. -/
def full (F : Format) : Nat := 2 ^ F.fieldBits - 1

/-- The leading bit is stored only where the exponent field is zero. -/
def significand (F : Format) (field fraction : Nat) : Nat :=
  if field = 0 then fraction else 2 ^ F.fractionBits + fraction

def magnitude (F : Format) (field fraction : Nat) : ℚ :=
  F.significand field fraction * 2 ^ (F.lowest + max field 1 - 1)

def value (F : Format) (w : Nat) : ℚ :=
  (-1) ^ F.sign w * F.magnitude (F.field w) (F.fraction w)

end Format

/-- A double that stands for what a single stands for. Of what is no number it has the leading bits
and the mark that it is quiet. -/
structure Widened (w v : Nat) : Prop where
  sign : double.sign v = single.sign w
  number : single.field w ≠ single.full →
    double.field v ≠ double.full ∧ double.value v = single.value w
  infinity : single.field w = single.full → single.fraction w = 0 →
    double.field v = double.full ∧ double.fraction v = 0
  undefined : single.field w = single.full → single.fraction w ≠ 0 →
    double.field v = double.full ∧ double.fraction v = single.fraction w <<< 29 ||| 2 ^ 51

/-- A longer significand with a smaller exponent. -/
theorem magnitude_eq {e f e' f' k : Nat}
    (hs : double.significand e' f' = single.significand e f * 2 ^ k)
    (he : single.lowest + max e 1 = double.lowest + max e' 1 + k) :
    double.magnitude e' f' = single.magnitude e f := by
  have hexp : single.lowest + max e 1 - 1 = double.lowest + max e' 1 - 1 + k := by omega
  rw [Format.magnitude,Format.magnitude,hs,hexp,zpow_add₀ two_ne_zero,zpow_natCast]
  push_cast
  ring

theorem magnitude_normal {e : Nat} (he : e ≠ 0) (f : Nat) :
    double.magnitude (e + 896) (f * 2 ^ 29) = single.magnitude e f := by
  refine magnitude_eq (k := 29) ?_ ?_
  · rw [Format.significand,Format.significand,if_neg (by omega),if_neg he,Nat.add_mul]
    rfl
  · simp only [single,double]
    omega

theorem magnitude_subnormal {f : Nat} (h0 : f ≠ 0) (hf : f < 2 ^ 23) :
    double.magnitude (f.log2 + 874) (f * 2 ^ (52 - f.log2) - 2 ^ 52) = single.magnitude 0 f := by
  obtain ⟨hlog,hlo,_⟩ := leading_bit h0 hf
  refine magnitude_eq (k := 52 - f.log2) ?_ ?_
  · rw [Format.significand,Format.significand,if_neg (by omega),if_pos rfl]
    exact Nat.add_sub_of_le hlo
  · simp only [single,double]
    omega

/-- Widening keeps the magnitude of every number. -/
theorem exists_widened_magnitude {e f : Nat} (he : e < 255) (hf : f < 2 ^ 23) :
    ∃ e' f', e' < 2047 ∧ f' < 2 ^ 52 ∧ widened e f = e' * 2 ^ 52 + f' ∧
      double.magnitude e' f' = single.magnitude e f := by
  unfold widened
  rw [if_neg (by omega)]
  by_cases he0 : e = 0
  · rw [if_neg (fun h => h he0),he0]
    by_cases hf0 : f = 0
    · rw [if_pos hf0,hf0]
      exact ⟨0,0,by decide,by decide,rfl,by simp [Format.magnitude,Format.significand]⟩
    · obtain ⟨hlog,hlo,hhi⟩ := leading_bit hf0 hf
      rw [if_neg hf0,Nat.shiftLeft_eq,Nat.shiftLeft_eq]
      exact ⟨f.log2 + 874,f * 2 ^ (52 - f.log2) - 2 ^ 52,by omega,by omega,by omega,
        magnitude_subnormal hf0 hf⟩
  · rw [if_pos he0,Nat.shiftLeft_eq,Nat.shiftLeft_eq]
    exact ⟨e + 896,f * 2 ^ 29,by omega,by omega,rfl,magnitude_normal he0 f⟩

theorem widened_widen (w : UInt32) : Widened w.toNat (widen w).toNat := by
  have hfield : w.toNat >>> 23 % 0x100 = single.field w.toNat := by
    rw [Nat.shiftRight_eq_div_pow]
    rfl
  have hfraction : w.toNat % 0x800000 = single.fraction w.toNat := rfl
  have hfield_lt : single.field w.toNat < 2 ^ 8 := Nat.mod_lt _ (by decide)
  have hfraction_lt : single.fraction w.toNat < 2 ^ 23 := Nat.mod_lt _ (by decide)
  have hfields {e f : Nat} (he : e < 2 ^ 11) (hf : f < 2 ^ 52)
      (h : widened (single.field w.toNat) (single.fraction w.toNat) = e * 2 ^ 52 + f) :
      double.sign (widen w).toNat = single.sign w.toNat ∧ double.field (widen w).toNat = e ∧
        double.fraction (widen w).toNat = f :=
    fields_widen he hf (by rwa [hfield])
  have hnumber (hne : single.field w.toNat ≠ single.full) :
      double.sign (widen w).toNat = single.sign w.toNat ∧
        double.field (widen w).toNat ≠ double.full ∧
          double.value (widen w).toNat = single.value w.toNat := by
    have hfull : single.full = 255 := rfl
    obtain ⟨e,f,he,hf,hwiden,hmagnitude⟩ :=
      exists_widened_magnitude (show single.field w.toNat < 255 by omega) hfraction_lt
    obtain ⟨hs,he',hf'⟩ := hfields (by omega) hf hwiden
    refine ⟨hs,by rw [he']; exact Nat.ne_of_lt he,?_⟩
    rw [Format.value,Format.value,hs,he',hf',hmagnitude]
  have hspecial (hfull : single.field w.toNat = single.full) :
      double.sign (widen w).toNat = single.sign w.toNat ∧
        double.field (widen w).toNat = double.full ∧ double.fraction (widen w).toNat =
          if single.fraction w.toNat = 0 then 0 else single.fraction w.toNat <<< 29 ||| 2 ^ 51 := by
    refine hfields (by decide) ?_ (by rw [widened,hfull]; rfl)
    split
    · decide
    · exact Nat.or_lt_two_pow (by rw [Nat.shiftLeft_eq]; omega) (by decide)
  exact {
    sign := by
      by_cases hfull : single.field w.toNat = single.full
      · exact (hspecial hfull).1
      · exact (hnumber hfull).1
    number := fun h => (hnumber h).2
    infinity := fun h h0 => by simpa [h0] using (hspecial h).2
    undefined := fun h h0 => by simpa [h0] using (hspecial h).2 }

/-- At a place among the bytes stand two singles, lowest byte first, of which the parts of the
number are widened. -/
def StoredAt (bytes : List UInt8) (offset : Nat) (z : Cplx UInt64) : Prop :=
  ∃ a b c d e f g h : UInt8, (bytes.drop offset).take size = [a,b,c,d,e,f,g,h] ∧
    Widened (Nat.ofDigits 256 [a.toNat,b.toNat,c.toNat,d.toNat]) z.re.toNat ∧
    Widened (Nat.ofDigits 256 [e.toNat,f.toNat,g.toNat,h.toNat]) z.im.toNat

theorem ofDigits_eq (a b c d : UInt8) :
    Nat.ofDigits 256 [a.toNat,b.toNat,c.toNat,d.toNat] = (ofBytes a b c d).toNat := by
  rw [toNat_ofBytes]
  simp only [Nat.ofDigits_cons,Nat.ofDigits_nil]
  ring

theorem length_decode (bytes : List UInt8) : (decode bytes).length = bytes.length / size := by
  induction bytes using decode.induct with
  | case1 a b c d e f g h rest ih =>
    rw [decode,List.length_cons,ih]
    simp only [List.length_cons,size]
    omega
  | case2 bytes hshort =>
    have hlt : bytes.length < size := by
      rcases bytes with _ | ⟨a,_ | ⟨b,_ | ⟨c,_ | ⟨d,_ | ⟨e,_ | ⟨f,_ | ⟨g,_ | ⟨h,rest⟩⟩⟩⟩⟩⟩⟩⟩
      case cons.cons.cons.cons.cons.cons.cons.cons => exact (hshort _ _ _ _ _ _ _ _ _ rfl).elim
      all_goals exact of_decide_eq_true rfl
    rw [decode_of_short hlt,List.length_nil,Nat.div_eq_of_lt hlt]

theorem storedAt_decode {bytes : List UInt8} {k : Nat} {z : Cplx UInt64}
    (h : (decode bytes)[k]? = some z) : StoredAt bytes (size * k) z := by
  induction bytes using decode.induct generalizing k with
  | case1 a b c d e f g i rest ih =>
    rw [decode] at h
    cases k with
    | zero =>
      cases h
      refine ⟨a,b,c,d,e,f,g,i,rfl,?_,?_⟩
      · rw [ofDigits_eq]
        exact widened_widen _
      · rw [ofDigits_eq]
        exact widened_widen _
    | succ k => exact ih h
  | case2 bytes hshort =>
    rw [decode] at h
    · cases h
    · exact hshort

/-- A number of which all bytes are among the first ones. -/
theorem StoredAt.of_take {bytes : List UInt8} {n offset : Nat} {z : Cplx UInt64}
    (h : StoredAt (bytes.take n) offset z) : StoredAt bytes offset z := by
  obtain ⟨a,b,c,d,e,f,g,i,hbytes,hparts⟩ := h
  refine ⟨a,b,c,d,e,f,g,i,?_,hparts⟩
  rw [List.drop_take,List.take_take] at hbytes
  have hlength := congrArg List.length hbytes
  rw [List.length_take] at hlength
  have hmin : min size (n - offset) = size := by
    simp only [List.length_cons,List.length_nil,size] at hlength ⊢
    omega
  rwa [hmin] at hbytes

end LinearInverse.Cfl.Sample
