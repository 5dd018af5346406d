import LinearInverse.Proofs.Binary64.Comparison
import LinearInverse.Proofs.Binary64.Squares

namespace LinearInverse.Binary64
open Float.Model Float.Model.UnpackedFloat

variable {m n k : Nat} {e i : Int} {s : Sign} {x y : Float} {u v : Unpacked}

/-- `m * 2 ^ e`. -/
def magnitude (m : Nat) (e : Int) : ℚ := m * 2 ^ e

theorem magnitude_mul_two_pow (m k : Nat) (e : Int) :
    magnitude (m * 2 ^ k) e = magnitude m (e + k) := by
  rw [magnitude,magnitude,zpow_add₀ two_ne_zero,zpow_natCast]
  push_cast
  ring

/-- The exponent may be lowered to any other. -/
theorem magnitude_eq_of_le (m : Nat) (h : e ≤ i) :
    magnitude m i = magnitude (m * 2 ^ (i - e).toNat) e := by
  rw [magnitude_mul_two_pow]
  congr 1
  omega

theorem magnitude_le_iff : magnitude m e ≤ magnitude n e ↔ m ≤ n := by
  rw [magnitude,magnitude,mul_le_mul_iff_of_pos_right (zpow_pos two_pos e),Nat.cast_le]

theorem magnitude_lt_iff : magnitude m e < magnitude n e ↔ m < n := by
  rw [magnitude,magnitude,mul_lt_mul_iff_of_pos_right (zpow_pos two_pos e),Nat.cast_lt]

/-- Of mantissas of at most full length, the larger exponent decides if its mantissa is full. -/
theorem magnitude_lt_of_lt (hm : m < 2 ^ 53) (hn : 2 ^ 52 ≤ n) (h : e < i) :
    magnitude m e < magnitude n i := by
  rw [magnitude_eq_of_le n h.le,magnitude_lt_iff]
  have hpow : 2 ^ 1 ≤ 2 ^ (i - e).toNat := Nat.pow_le_pow_right (by decide) (by omega)
  have := Nat.mul_le_mul hn hpow
  omega

theorem ne_zero_of_magnitude_le (hn : n ≠ 0) (h : magnitude n i ≤ magnitude m e) : m ≠ 0 := by
  rintro rfl
  have hpos : 0 < magnitude n i :=
    mul_pos (Nat.cast_pos.mpr (Nat.pos_of_ne_zero hn)) (zpow_pos two_pos i)
  have hzero : magnitude 0 e = 0 := by simp [magnitude]
  exact absurd (h.trans_eq hzero) (not_le.mpr hpos)

/-- A mantissa of the length that the format has for its exponent, which may be too large. -/
structure Fits (m : Nat) (e : Int) : Prop where
  short : m < 2 ^ 53
  lowest : -1074 ≤ e
  full : 2 ^ 52 ≤ m ∨ e = -1074

theorem Canonical.fits {hm : 0 < m} (h : Canonical (.finite s m e hm)) : Fits m e :=
  ⟨h.1,h.2.1,h.2.2.2⟩

/-- The place of a positive number is told by its magnitude. -/
theorem rank_le_iff {hm : 0 < m} {hn : 0 < n} (h : Fits m e) (h' : Fits n i) :
    rank (.finite .positive m e hm) ≤ rank (.finite .positive n i hn) ↔
      magnitude m e ≤ magnitude n i := by
  have hlex : rank (.finite .positive m e hm) ≤ rank (.finite .positive n i hn) ↔
      e < i ∨ e = i ∧ m ≤ n := by
    simp [rank,Prod.Lex.toLex_le_toLex]
  rw [hlex]
  rcases Int.lt_trichotomy e i with hei | rfl | hei
  · have hfull := h'.full.resolve_right (by have := h.lowest; omega)
    exact iff_of_true (.inl hei) (magnitude_lt_of_lt h.short hfull hei).le
  · rw [magnitude_le_iff]
    simp
  · have hfull := h.full.resolve_right (by have := h'.lowest; omega)
    exact iff_of_false (by omega) (not_le.mpr (magnitude_lt_of_lt h'.short hfull hei))

theorem decode_encode_infinity (s : Sign) : decode (encode (.infinity s)) = .infinity s :=
  decode_encode trivial

theorem rank_le_top (u : Unpacked) : rank u ≤ rank (.infinity .positive) := by
  rcases u with (_ | _) | _ | _ | ⟨_ | _,_,_,_⟩ <;> simp [rank,Prod.Lex.toLex_le_toLex]

theorem zero_le_rank (h : Positive u) (s : Sign) : rank (.zero s) ≤ rank u := by
  rcases u with t | _ | t | ⟨t,_,_,_⟩
  case notANumber => exact h.elim
  all_goals
    obtain rfl : t = .positive := h
    simp [rank,Prod.Lex.toLex_le_toLex]

theorem mantissa_shiftRight (em : ExtendedMantissa) (k : Nat) :
    (em >>> k).mantissa = em.mantissa / 2 ^ k := by
  change (Nat.repeat ExtendedMantissa.shiftRightOne k em).mantissa = _
  induction k with
  | zero => simp [Nat.repeat]
  | succ k ih =>
    rw [Nat.repeat,ExtendedMantissa.shiftRightOne,ih,Nat.pow_succ,Nat.div_div_eq_div_mul]

theorem mantissa_ofMantissaAndAccuracy (m : Nat) (a : Accuracy) :
    (ExtendedMantissa.ofMantissaAndAccuracy m a).mantissa = m := by
  rcases a with _ | _ | _ | _ <;> rfl

/-- Rounding goes up by one at most, and not down. -/
theorem roundedMantissa_bounds (em : ExtendedMantissa) :
    em.mantissa ≤ em.roundedMantissa ∧ em.roundedMantissa ≤ em.mantissa + 1 := by
  obtain ⟨m,_ | _,_ | _⟩ := em <;>
    simp only [ExtendedMantissa.roundedMantissa,ExtendedMantissa.accuracy,
      Accuracy.roundToNearestEven] <;> omega

/-- Some integer from the truncated mantissa up to the one after it takes its place, whatever is
known about the rest. -/
theorem exists_roundWithAccuracy_eq (s : Sign) (m : Nat) (e : Int) (a : Accuracy) :
    ∃ r, m / 2 ^ excess m e ≤ r ∧ r ≤ 2 ^ 53 ∧ roundWithAccuracy .binary64 s m e a =
      if r < 2 ^ 53 then ofMantissa s r (e + excess m e)
      else .finite s (2 ^ 52) (e + excess m e + 1) (by decide) := by
  obtain ⟨hlo,hhi⟩ :=
    roundedMantissa_bounds (ExtendedMantissa.ofMantissaAndAccuracy m a >>> excess m e)
  rw [mantissa_shiftRight,mantissa_ofMantissaAndAccuracy] at hlo hhi
  have hlt : m / 2 ^ excess m e < 2 ^ 53 := by
    rw [Nat.div_lt_iff_lt_mul (Nat.two_pow_pos _),← Nat.pow_add]
    exact Nat.lt_of_lt_of_le Nat.lt_log2_self
      (Nat.pow_le_pow_right (by decide) (log2_lt_excess m e))
  refine ⟨_,hlo,by omega,?_⟩
  rw [← ofMantissa_shift (by omega) (min_le_excess m e)]
  rfl

/-- No bits are missing: the mantissa is long enough, or the exponent is low enough. -/
def Ample (m : Nat) (e : Int) : Prop := 2 ^ 52 ≤ m ∨ e ≤ -1074

/-- Where the exponent is above the least one, the truncated mantissa has full length. -/
theorem full_div (hm : m ≠ 0) (h : Ample m e) :
    2 ^ 52 ≤ m / 2 ^ excess m e ∨ e + excess m e = -1074 := by
  have hlog : 52 ≤ m.log2 ∨ e ≤ -1074 := h.imp_left (Nat.le_log2 hm).mpr
  by_cases hlow : m.log2 + 1 + e - 53 ≤ -1074
  · exact .inr (by unfold excess; omega)
  · have hk : excess m e + 52 = m.log2 := by
      unfold excess
      omega
    left
    rw [Nat.le_div_iff_mul_le (Nat.two_pow_pos _),← Nat.pow_add,Nat.add_comm,hk]
    exact Nat.log2_self_le hm

/-- Truncation does not fall below a number of the format. -/
theorem magnitude_le_div (hn : n ≠ 0) (h : Fits n i) (hm : Ample m e)
    (hle : magnitude n i ≤ magnitude m e) :
    magnitude n i ≤ magnitude (m / 2 ^ excess m e) (e + excess m e) := by
  by_cases hei : e + excess m e ≤ i
  -- the number is a whole multiple of what the last bit of the quotient counts
  · rw [magnitude_eq_of_le n hei,magnitude_le_iff,Nat.le_div_iff_mul_le (Nat.two_pow_pos _)]
    rwa [magnitude_eq_of_le n hei,← magnitude_mul_two_pow,magnitude_le_iff] at hle
  -- the last bit of the quotient counts more, and the quotient has full length
  · have hm0 := ne_zero_of_magnitude_le hn hle
    have hfull := (full_div hm0 hm).resolve_right (by have := h.lowest; omega)
    exact (magnitude_lt_of_lt h.short hfull (by omega)).le

/-- A number of the format keeps its place, or becomes infinite. -/
theorem rank_le_encode {hm : 0 < m} (h : Fits m e) :
    rank (.finite .positive m e hm) ≤ rank (decode (encode (.finite .positive m e hm))) := by
  by_cases he : e ≤ 971
  · have hc : Canonical (.finite .positive m e hm) := ⟨h.short,h.lowest,he,h.full⟩
    rw [decode_encode hc]
  · obtain ⟨e',f,hd,hf,htop⟩ := decode_encode_finite (s := .positive) (e := e) hm
    obtain rfl : e' = -1#11 := htop.mpr (by omega)
    obtain rfl : f = 0#52 := hf rfl
    rw [hd]
    exact rank_le_top _

/-- What is not below a double is not rounded below it. -/
theorem rank_le_roundWithAccuracy {hn : 0 < n} (h : Fits n i) (hm : Ample m e)
    (hle : magnitude n i ≤ magnitude m e) (a : Accuracy) : rank (.finite .positive n i hn) ≤
      rank (decode (encode (roundWithAccuracy .binary64 .positive m e a))) := by
  have hn0 := Nat.ne_of_gt hn
  obtain ⟨r,hr,hshort,hround⟩ := exists_roundWithAccuracy_eq .positive m e a
  have hle' : magnitude n i ≤ magnitude r (e + excess m e) :=
    (magnitude_le_div hn0 h hm hle).trans (magnitude_le_iff.mpr hr)
  have hlowest := min_le_excess m e
  rw [hround]
  split
  next hlt =>
    have hfits : Fits r (e + excess m e) := ⟨hlt,hlowest,
      (full_div (ne_zero_of_magnitude_le hn0 hle) hm).imp_left (le_trans · hr)⟩
    rw [ofMantissa_of_pos (Nat.pos_of_ne_zero (ne_zero_of_magnitude_le hn0 hle'))]
    exact ((rank_le_iff h hfits).mpr hle').trans (rank_le_encode hfits)
  next hge =>
    obtain rfl : r = 2 ^ 52 * 2 ^ 1 := by omega
    rw [magnitude_mul_two_pow] at hle'
    have hfits : Fits (2 ^ 52) (e + excess m e + 1) := ⟨by decide,by omega,.inl le_rfl⟩
    exact ((rank_le_iff h hfits).mpr hle').trans (rank_le_encode hfits)

/-- The same where bits may be missing, which are added first. -/
theorem rank_le_round {hn : 0 < n} (h : Fits n i) (hle : magnitude n i ≤ magnitude m e) :
    rank (.finite .positive n i hn) ≤
      rank (decode (encode (UnpackedFloat.round .binary64 .positive m e))) := by
  have hm := ne_zero_of_magnitude_le (Nat.ne_of_gt hn) hle
  have htarget : Format.targetExponent .binary64 (totalExponent m e) =
      max (m.log2 + 1 + e - 53) (-1074) := rfl
  simp only [UnpackedFloat.round,decreaseExponent,Nat.shiftLeft_eq,htarget]
  generalize hk : (e - max (m.log2 + 1 + e - 53) (-1074)).toNat = k
  refine rank_le_roundWithAccuracy h ?_ ?_ .exact
  · have hlog := Nat.log2_self_le hm
    by_cases hlow : e - k ≤ -1074
    · exact .inr hlow
    · left
      calc 2 ^ 52 ≤ 2 ^ (m.log2 + k) := Nat.pow_le_pow_right (by decide) (by omega)
        _ = 2 ^ m.log2 * 2 ^ k := Nat.pow_add ..
        _ ≤ m * 2 ^ k := Nat.mul_le_mul_right _ hlog
  · rwa [magnitude_mul_two_pow,sub_add_cancel]

theorem normalize_of_pos (hm : 0 < m) (e : Int) (z : Sign) :
    UnpackedFloat.normalize .binary64 m e z = UnpackedFloat.round .binary64 .positive m e := by
  have hcmp : compare (m : Int) 0 = .gt := Int.compare_eq_gt.mpr (by omega)
  simp only [UnpackedFloat.normalize,hcmp,Int.toNat_natCast]

theorem add_comm (x y : Float) : x + y = y + x := by
  rw [add_eq,add_eq]
  congr 1
  cases decode x with
  | notANumber => cases decode y <;> rfl
  | infinity s =>
    cases decode y with
    | infinity t => cases s <;> cases t <;> rfl
    | _ => rfl
  | zero s =>
    cases decode y with
    | zero t => cases s <;> cases t <;> rfl
    | _ => rfl
  | finite s m e hm =>
    cases decode y with
    | finite t n i hn => simp only [UnpackedFloat.add,Int.add_comm,Int.min_comm]
    | _ => rfl

theorem rank_le_add {hm : 0 < m} {hn : 0 < n} (h : Fits m e) :
    rank (.finite .positive m e hm) ≤ rank (decode (encode (UnpackedFloat.add .binary64
      (.finite .positive m e hm) (.finite .positive n i hn)))) := by
  simp only [UnpackedFloat.add,decreaseExponent,Nat.shiftLeft_eq,Sign.apply,← Int.natCast_add]
  rw [normalize_of_pos (Nat.add_pos_left (Nat.mul_pos hm (Nat.two_pow_pos _)) _)]
  refine rank_le_round h ?_
  rw [magnitude_eq_of_le m (Int.min_le_left e i),magnitude_le_iff]
  exact Nat.le_add_right _ _

theorem add_infinity (h : Positive u) :
    UnpackedFloat.add .binary64 u (.infinity .positive) = .infinity .positive ∧
      UnpackedFloat.add .binary64 (.infinity .positive) u = .infinity .positive := by
  rcases u with s | _ | s | ⟨s,_,_,_⟩
  case notANumber => exact h.elim
  all_goals
    obtain rfl : s = .positive := h
    exact ⟨rfl,rfl⟩

/-- Adding what is not negative makes nothing smaller. -/
theorem le_add (hx : Positive (decode x)) (hy : Positive (decode y)) : x ≤ x + y := by
  have hsum := positive_add hx hy
  refine le_iff.mpr ⟨isNaN_of_positive hx,isNaN_of_positive hsum,?_⟩
  have hcx := canonical_decode x
  rw [add_eq] at hsum ⊢
  generalize decode x = u at *
  generalize decode y = v at *
  cases u with
  | notANumber => exact hx.elim
  | zero s => exact zero_le_rank hsum s
  | infinity s =>
    obtain rfl : s = .positive := hx
    rw [(add_infinity hy).2,decode_encode_infinity]
  | finite s m e hm =>
    obtain rfl : s = .positive := hx
    cases v with
    | notANumber => exact hy.elim
    | zero t => exact (congrArg rank (decode_encode hcx)).ge
    | infinity t =>
      obtain rfl : t = .positive := hy
      rw [(add_infinity (u := .finite .positive m e hm) rfl).1,decode_encode_infinity]
      exact rank_le_top _
    | finite t n i hn =>
      obtain rfl : t = .positive := hy
      exact rank_le_add hcx.fits

theorem le_add' (hx : Positive (decode x)) (hy : Positive (decode y)) : y ≤ x + y := by
  rw [add_comm]
  exact le_add hy hx

theorem fits_unit : Fits (2 ^ 52) (-52) := ⟨by decide,by decide,.inl le_rfl⟩

theorem magnitude_mono (h : m ≤ n) (he : e ≤ i) : magnitude m e ≤ magnitude n i := by
  rw [magnitude_eq_of_le n he,magnitude_le_iff]
  exact h.trans (Nat.le_mul_of_pos_right n (Nat.two_pow_pos _))

theorem cases_of_one_le (h : One.one ≤ x) : decode x = .infinity .positive ∨
    ∃ m e hm, decode x = .finite .positive m e hm ∧ 2 ^ 52 ≤ m ∧ -52 ≤ e := by
  obtain ⟨_,hx,hle⟩ := le_iff.mp h
  have hc := canonical_decode x
  rw [isNaN_eq] at hx
  rw [decode_one] at hle
  rcases hd : decode x with s | _ | s | ⟨s,m,e,hm⟩ <;> rw [hd] at hx hle hc
  · cases s with
    | positive => exact .inl rfl
    | negative => simp [unit,rank,Prod.Lex.toLex_le_toLex] at hle
  · cases hx
  · simp [unit,rank,Prod.Lex.toLex_le_toLex] at hle
  · cases s with
    | negative => simp [unit,rank,Prod.Lex.toLex_le_toLex] at hle
    | positive =>
      have hfull := hc.fits.full
      simp only [unit,rank,Prod.Lex.toLex_le_toLex] at hle
      exact .inr ⟨m,e,hm,rfl,by omega,by omega⟩

/-- The root has full length, as its argument was given at least twice as many bits. -/
theorem sqrtCore_bounds (hm : 2 ^ 52 ≤ m) (he : -52 ≤ e) :
    2 ^ 52 ≤ (sqrtCore .binary64 m e).1 ∧ -52 ≤ (sqrtCore .binary64 m e).2.1 := by
  have hlog : 52 ≤ m.log2 := (Nat.le_log2 (by omega)).mpr hm
  have htarget : Format.targetExponent .binary64 ((totalExponent m e + 1).ediv 2) =
      max ((m.log2 + 1 + e + 1) / 2 - 53) (-1074) := rfl
  have hhalf : e.ediv 2 = e / 2 := rfl
  simp only [sqrtCore,htarget,hhalf,Nat.shiftLeft_eq]
  generalize ht : min (e / 2) (max ((m.log2 + 1 + e + 1) / 2 - 53) (-1074)) = t
  refine ⟨?_,by omega⟩
  rw [Nat.le_sqrt,← Nat.pow_add]
  calc 2 ^ (52 + 52) ≤ 2 ^ (m.log2 + (e - 2 * t).toNat) :=
        Nat.pow_le_pow_right (by decide) (by omega)
    _ = 2 ^ m.log2 * 2 ^ (e - 2 * t).toNat := Nat.pow_add ..
    _ ≤ m * 2 ^ (e - 2 * t).toNat := Nat.mul_le_mul_right _ (Nat.log2_self_le (by omega))

theorem one_le_sqrt (h : One.one ≤ x) : One.one ≤ x.sqrt := by
  have hsqrt : x.sqrt = encode (UnpackedFloat.sqrt .binary64 (decode x)) := rfl
  have hone : (One.one : Float).isNaN = false := (le_iff.mp h).1
  rw [hsqrt]
  obtain hd | ⟨m,e,hm,hd,hfull,he⟩ := cases_of_one_le h <;> rw [hd]
  · refine le_iff.mpr ⟨hone,by decide +kernel,?_⟩
    exact (rank_le_top _).trans_eq (congrArg rank (decode_encode_infinity .positive).symm)
  · obtain ⟨hroot,ht⟩ := sqrtCore_bounds hfull he
    refine le_iff.mpr ⟨hone,isNaN_of_positive (positive_round _ _ _),?_⟩
    rw [decode_one]
    exact rank_le_roundWithAccuracy fits_unit (.inl hroot) (magnitude_mono hroot ht) _

/-- A factor that is at least one makes no positive number smaller. -/
theorem le_mul {hm : 0 < m} (hx : decode x = .finite .positive m e hm) (hy : One.one ≤ y) :
    x ≤ x * y := by
  have hc := canonical_decode x
  rw [hx] at hc
  have hxn : x.isNaN = false := isNaN_of_positive (by rw [hx]; rfl)
  rw [mul_eq,hx]
  obtain hd | ⟨n,i,hn,hd,hfull,hi⟩ := cases_of_one_le hy <;> rw [hd]
  · have hmul : UnpackedFloat.mul .binary64 (.finite .positive m e hm) (.infinity .positive) =
        .infinity .positive := rfl
    rw [hmul]
    refine le_iff.mpr ⟨hxn,by decide +kernel,?_⟩
    exact (rank_le_top _).trans_eq (congrArg rank (decode_encode_infinity .positive).symm)
  · refine le_iff.mpr ⟨hxn,isNaN_of_positive (positive_round _ _ _),?_⟩
    have hmn : m * 2 ^ 52 ≤ m * n := Nat.mul_le_mul_left m hfull
    have hle : magnitude m e ≤ magnitude (m * n) (e + i) :=
      calc magnitude m e ≤ magnitude m (e + i + (52 : Nat)) := magnitude_mono le_rfl (by omega)
        _ = magnitude (m * 2 ^ 52) (e + i) := (magnitude_mul_two_pow m 52 (e + i)).symm
        _ ≤ magnitude (m * n) (e + i) := magnitude_le_iff.mpr hmn
    rw [hx]
    exact rank_le_roundWithAccuracy hc.fits (.inl (by omega)) hle .exact

end LinearInverse.Binary64
