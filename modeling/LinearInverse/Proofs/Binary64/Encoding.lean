import Mathlib
import LinearInverse.Scalar.Binary64

namespace LinearInverse.Binary64
open Float.Model Float.Model.UnpackedFloat

abbrev Unpacked := UnpackedFloat

def decode (x : Float) : Unpacked := x.toModel.unpack

def encode (u : Unpacked) : Float := ⟨Float.Model.pack u⟩

variable {x y : Float} {u : Unpacked} {s : Sign} {e : BitVec 11} {f : BitVec 52}

/-- The number with these three fields. -/
def ofFields (s : Sign) (e : BitVec 11) (f : BitVec 52) : Unpacked :=
  if e = -1#11 then if f = 0#52 then .infinity s else .notANumber
  else if e = 0#11 then
    if h : f = 0#52 then .zero s
    else .finite s f.toNat (-1074) (Nat.pos_of_ne_zero fun h0 => h (BitVec.eq_of_toNat_eq h0))
  else .finite s (2 ^ 52 + f.toNat) (e.toNat - 1075) (by omega)

/-- What the fields behind the sign stand for. -/
inductive Shape (e : BitVec 11) (f : BitVec 52) : Prop where
  | notANumber (he : e = -1#11) (hf : f ≠ 0#52) (h : ∀ s, ofFields s e f = .notANumber)
  | infinity (he : e = -1#11) (h : ∀ s, ofFields s e f = .infinity s)
  | zero (he : e ≠ -1#11) (h : ∀ s, ofFields s e f = .zero s)
  | finite (he : e ≠ -1#11) (m : Nat) (i : Int) (hm : 0 < m)
    (h : ∀ s, ofFields s e f = .finite s m i hm)

theorem shape (e : BitVec 11) (f : BitVec 52) : Shape e f := by
  by_cases he : e = -1#11
  · by_cases hf : f = 0#52
    · exact .infinity he fun s => by rw [ofFields,if_pos he,if_pos hf]
    · exact .notANumber he hf fun s => by rw [ofFields,if_pos he,if_neg hf]
  · by_cases h0 : e = 0#11
    · by_cases hf : f = 0#52
      · exact .zero he fun s => by rw [ofFields,if_neg he,if_pos h0,dif_pos hf]
      · exact .finite he _ _ _ fun s => by rw [ofFields,if_neg he,if_pos h0,dif_neg hf]
    · exact .finite he _ _ _ fun s => by rw [ofFields,if_neg he,if_neg h0]

/-- Fields of which not more than one choice stands for an undefined number. -/
def Admissible (s : Sign) (e : BitVec 11) (f : BitVec 52) : Prop :=
  e = -1#11 → f ≠ 0#52 → s = .positive ∧ f = 1#52 <<< 51

theorem toNat_one_append (f : BitVec 52) : (1#1 ++ f).toNat = 2 ^ 52 + f.toNat := by
  rw [BitVec.toNat_append,← Nat.shiftLeft_add_eq_or_of_lt f.isLt]
  rfl

theorem unpack_packComponents (s : Sign) (e : BitVec 11) (f : BitVec 52) :
    UnpackedFloat.unpack .binary64 (packComponents .binary64 s e f) = ofFields s e f := by
  simp only [UnpackedFloat.unpack,unpackMantissa_packComponents,unpackExponent_packComponents,
    unpackSign_packComponents,Sign.ofBitVec_toBitVec,ofFields]
  split
  next => rfl
  next =>
    split
    next he =>
      subst he
      rfl
    next =>
      simp only [toNat_one_append]
      rfl

theorem pack_finite (s : Sign) {m : Nat} {e : Int} (hm : 0 < m) :
    UnpackedFloat.pack .binary64 (.finite s m e hm) =
      if 972 ≤ e then packComponents .binary64 s (-1#11) 0
      else if m.log2 = 52 then
        packComponents .binary64 s (BitVec.ofNat 11 (e + 1075).toNat) (BitVec.ofNat 52 m)
      else packComponents .binary64 s 0#11 (BitVec.ofNat 52 m) := by
  have hexp : (e + Format.exponentBias .binary64 + (52 : Nat)).toNat = (e + 1075).toNat :=
    congrArg Int.toNat (Int.add_assoc e 1023 52)
  have hlog : m.log2 + 1 = Format.mantissaBits .binary64 ↔ m.log2 = 52 := Nat.succ_inj
  have hbig : 2 ^ 11 ≤ (e + 1075).toNat + 1 ↔ 972 ≤ e := by omega
  simp only [UnpackedFloat.pack,hexp,hlog,hbig]
  rfl

theorem pack_ofFields (h : Admissible s e f) :
    UnpackedFloat.pack .binary64 (ofFields s e f) = packComponents .binary64 s e f := by
  have hf := f.isLt
  unfold ofFields
  split
  next he =>
    split
    next hf =>
      subst he hf
      rfl
    next hf =>
      obtain ⟨rfl,rfl⟩ := h he hf
      subst he
      rfl
  next he =>
    split
    next h0 =>
      split
      next hf =>
        subst h0 hf
        rfl
      next hz =>
        have hlog : f.toNat.log2 < 52 :=
          (Nat.log2_lt fun hz' => hz (BitVec.eq_of_toNat_eq hz')).mpr hf
        rw [pack_finite,if_neg (by decide),if_neg (by omega),BitVec.ofNat_toNat,
          BitVec.setWidth_eq,h0]
    next h0 =>
      have hlt := e.isLt
      have hmax : e.toNat ≠ 2047 := fun h => he (BitVec.eq_of_toNat_eq h)
      have hlog : (2 ^ 52 + f.toNat).log2 = 52 := by
        apply (Nat.log2_eq_iff (by omega)).mpr
        omega
      have hexp : ((e.toNat : Int) - 1075 + 1075).toNat = e.toNat := by omega
      have hmant : BitVec.ofNat 52 (2 ^ 52 + f.toNat) = f := by
        apply BitVec.eq_of_toNat_eq
        rw [BitVec.toNat_ofNat]
        omega
      rw [pack_finite,if_neg (by omega),if_pos hlog,hexp,hmant,BitVec.ofNat_toNat,
        BitVec.setWidth_eq]

theorem encode_decode (x : Float) : encode (decode x) = x := by
  obtain ⟨⟨bits,hvalid⟩⟩ := x
  have hpack : UnpackedFloat.pack .binary64 (UnpackedFloat.unpack .binary64 bits.toBitVec) =
      bits.toBitVec := pack_unpack_of_valid hvalid
  simp only [encode,decode,Float.Model.pack,Float.Model.unpack,hpack]

theorem decode_injective (h : decode x = decode y) : x = y := by
  rw [← encode_decode x,h,encode_decode]

theorem toNat_exponentField (x : Float) : (Scalar.Binary64.exponentField x).toNat =
    (@unpackExponent .binary64 x.toModel.toBits.toBitVec).toNat := by
  have h1 : (Scalar.Binary64.exponentField x).toNat =
      x.toModel.toBits.toNat >>> 52 &&& 0x7FF := rfl
  have h2 : (@unpackExponent .binary64 x.toModel.toBits.toBitVec).toNat =
      x.toModel.toBits.toNat >>> 52 % 2 ^ 11 := by
    rw [unpackExponent,BitVec.toNat_cast,BitVec.extractLsb_toNat]
    rfl
  rw [h1,h2]
  exact Nat.and_two_pow_sub_one_eq_mod _ 11

/-- A double is read from its fields. -/
theorem exists_fields (x : Float) : ∃ s e f, decode x = ofFields s e f ∧
    (Scalar.Binary64.exponentField x).toNat = e.toNat := by
  let b : BitVec (Format.numBits .binary64) := x.toModel.toBits.toBitVec
  refine ⟨.ofBitVec (unpackSign b),unpackExponent b,unpackMantissa b,?_,toNat_exponentField x⟩
  rw [← unpack_packComponents]
  have hb : packComponents .binary64 (.ofBitVec (unpackSign b)) (unpackExponent b)
      (unpackMantissa b) = b := packComponents_unpackSign_unpackExponent_unpackMantissa b
  rw [hb]
  rfl

/-- The mantissa has full length unless the exponent is the least one, and the exponent is in
range. -/
def Canonical : Unpacked → Prop
  | .finite _ m e _ => m < 2 ^ 53 ∧ -1074 ≤ e ∧ e ≤ 971 ∧ (2 ^ 52 ≤ m ∨ e = -1074)
  | _ => True

theorem canonical_ofFields (s : Sign) (e : BitVec 11) (f : BitVec 52) :
    Canonical (ofFields s e f) := by
  have hf := f.isLt
  have he := e.isLt
  unfold ofFields
  split
  next => split <;> trivial
  next hmax =>
    have hmax' : e.toNat ≠ 2047 := fun h => hmax (BitVec.eq_of_toNat_eq h)
    split
    next =>
      split
      next => trivial
      next => exact ⟨by omega,by decide,by decide,.inr rfl⟩
    next hmin =>
      have hmin' : e.toNat ≠ 0 := fun h => hmin (BitVec.eq_of_toNat_eq h)
      exact ⟨by omega,by omega,by omega,.inl (by omega)⟩

theorem canonical_decode (x : Float) : Canonical (decode x) := by
  obtain ⟨s,e,f,h,_⟩ := exists_fields x
  rw [h]
  exact canonical_ofFields s e f

theorem finite_congr {m n : Nat} {i j : Int} {hm : 0 < m} {hn : 0 < n} (h : m = n) (h' : i = j) :
    finite s m i hm = finite s n j hn := by
  subst h h'
  rfl

theorem exists_ofFields (h : Canonical u) : ∃ s e f, Admissible s e f ∧ ofFields s e f = u := by
  cases u with
  | notANumber => exact ⟨.positive,-1#11,1#52 <<< 51,fun _ _ => ⟨rfl,rfl⟩,rfl⟩
  | infinity s => exact ⟨s,-1#11,0#52,fun _ h => absurd rfl h,rfl⟩
  | zero s => exact ⟨s,0#11,0#52,fun h => absurd h (by decide),rfl⟩
  | finite s m e hm =>
    obtain ⟨hlt,hlo,hhi,hfull⟩ := h
    by_cases hm52 : 2 ^ 52 ≤ m
    · have he : (BitVec.ofNat 11 (e + 1075).toNat).toNat = (e + 1075).toNat := by
        rw [BitVec.toNat_ofNat]
        omega
      have hmax : BitVec.ofNat 11 (e + 1075).toNat ≠ -1#11 := by
        intro h
        have : (BitVec.ofNat 11 (e + 1075).toNat).toNat = 2047 := congrArg BitVec.toNat h
        omega
      have hmin : BitVec.ofNat 11 (e + 1075).toNat ≠ 0#11 := by
        intro h
        have : (BitVec.ofNat 11 (e + 1075).toNat).toNat = 0 := congrArg BitVec.toNat h
        omega
      have hf : (BitVec.ofNat 52 (m - 2 ^ 52)).toNat = m - 2 ^ 52 := by
        rw [BitVec.toNat_ofNat]
        omega
      refine ⟨s,_,BitVec.ofNat 52 (m - 2 ^ 52),fun h => absurd h hmax,?_⟩
      rw [ofFields,if_neg hmax,if_neg hmin]
      exact finite_congr (by omega) (by omega)
    · have hf : (BitVec.ofNat 52 m).toNat = m := by
        rw [BitVec.toNat_ofNat]
        omega
      have h0 : BitVec.ofNat 52 m ≠ 0#52 := by
        intro h
        have : (BitVec.ofNat 52 m).toNat = 0 := congrArg BitVec.toNat h
        omega
      refine ⟨s,0#11,BitVec.ofNat 52 m,fun h => absurd h (by decide),?_⟩
      rw [ofFields,if_neg (by decide),if_pos rfl,dif_neg h0]
      exact finite_congr hf (by omega)

theorem decode_encode (h : Canonical u) : decode (encode u) = u := by
  obtain ⟨s,e,f,hf,rfl⟩ := exists_ofFields h
  simp only [encode,decode,Float.Model.pack,Float.Model.unpack,pack_ofFields hf,
    unpack_packComponents]

/-- A number that is not rounded yet keeps its sign, and becomes infinite if it is too large for the
format. -/
theorem decode_encode_finite {m : Nat} {e : Int} (hm : 0 < m) :
    ∃ e' f, decode (encode (.finite s m e hm)) = ofFields s e' f ∧ (e' = -1#11 → f = 0#52) ∧
      (e' = -1#11 ↔ 972 ≤ e) := by
  simp only [encode,decode,Float.Model.pack,Float.Model.unpack,pack_finite]
  split
  next he => exact ⟨_,_,unpack_packComponents .., fun _ => rfl,iff_of_true rfl he⟩
  next he =>
    split
    next =>
      have hmax : BitVec.ofNat 11 (e + 1075).toNat ≠ -1#11 := by
        intro h
        have h' : (BitVec.ofNat 11 (e + 1075).toNat).toNat = 2047 := congrArg BitVec.toNat h
        rw [BitVec.toNat_ofNat] at h'
        omega
      exact ⟨_,_,unpack_packComponents ..,fun h => absurd h hmax,iff_of_false hmax he⟩
    next =>
      exact ⟨_,_,unpack_packComponents ..,fun h => absurd h (by decide),
        iff_of_false (by decide) he⟩

end LinearInverse.Binary64
