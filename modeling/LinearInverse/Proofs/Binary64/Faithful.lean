import LinearInverse.Proofs.Binary64.Value

namespace LinearInverse.Binary64
open Float.Model Float.Model.UnpackedFloat

variable {m n k q : Nat} {e i E : Int} {s t : Sign} {x y z : Float} {u v : Unpacked} {r : ℝ}
  {a : Accuracy}

/-- The distance from one to the double after it. -/
noncomputable def ulp : ℝ := magnitude 1 (-52)

theorem ulp_eq : ulp = 2 ^ (-52 : Int) := by
  simp [ulp,magnitude]

theorem ulp_pos : 0 < ulp := by
  rw [ulp_eq]
  exact zpow_pos two_pos _

/-- What is known about a number whose mantissa is cut off. -/
structure Located (r : ℝ) (m : Nat) (e : Int) (a : Accuracy) : Prop where
  low : magnitude m e ≤ r
  high : r < magnitude (m + 1) e
  exact : r = magnitude m e → a = .exact

theorem located_exact (m : Nat) (e : Int) : Located (magnitude m e) m e .exact where
  low := le_rfl
  high := Rat.cast_lt.mpr (magnitude_lt_iff.mpr (Nat.lt_succ_self m))
  exact _ := rfl

/-- More of the mantissa is cut off. -/
theorem Located.low_div (h : Located r m e a) (k : Nat) : magnitude (m / 2 ^ k) (e + k) ≤ r := by
  refine LE.le.trans ?_ h.low
  rw [← magnitude_mul_two_pow,Rat.cast_le,magnitude_le_iff]
  exact Nat.div_mul_le_self m (2 ^ k)

theorem Located.high_div (h : Located r m e a) (k : Nat) :
    r < magnitude (m / 2 ^ k + 1) (e + k) := by
  refine lt_of_lt_of_le h.high ?_
  rw [← magnitude_mul_two_pow,Rat.cast_le,magnitude_le_iff]
  exact Nat.lt_mul_of_div_lt (Nat.lt_succ_self _) (Nat.two_pow_pos k)

/-- If nothing is cut off, nothing is added. -/
theorem Located.roundedMantissa_eq (h : Located r m e a)
    (hr : r = magnitude (m / 2 ^ k) (e + k)) :
    (ExtendedMantissa.ofMantissaAndAccuracy m a >>> k).roundedMantissa = m / 2 ^ k := by
  have hm : m ≤ m / 2 ^ k * 2 ^ k := by
    have := h.low
    rwa [hr,← magnitude_mul_two_pow,Rat.cast_le,magnitude_le_iff] at this
  have hmul : m / 2 ^ k * 2 ^ k = m := le_antisymm (Nat.div_mul_le_self m (2 ^ k)) hm
  rw [← magnitude_mul_two_pow,hmul] at hr
  have hmod : m % 2 ^ k = 0 := Nat.mod_eq_zero_of_dvd (Dvd.intro_left _ hmul)
  rw [h.exact hr,roundedMantissa_exact,nearest,hmod]
  simp

theorem magnitude_nonneg (m : Nat) (e : Int) : (0 : ℝ) ≤ magnitude m e := by
  simp only [magnitude]
  positivity

/-- No double is strictly between neighbouring mantissas of full length. -/
theorem value_le_or_le (hq : 2 ^ 52 ≤ q ∨ E = -1074) (y : Float) :
    value y ≤ magnitude q E ∨ magnitude (q + 1) E ≤ value y := by
  have hc := canonical_decode y
  unfold value
  cases hd : decode y with
  | finite t n i hn =>
    rw [hd] at hc
    cases t with
    | negative =>
      left
      exact (neg_nonpos.mpr (magnitude_nonneg n i)).trans (magnitude_nonneg q E)
    | positive =>
      simp only [real,signed,Rat.cast_le]
      by_cases hi : E ≤ i
      · rw [magnitude_eq_of_le n hi,magnitude_le_iff,magnitude_le_iff]
        omega
      · have hfull := hq.resolve_right (by have := hc.fits.lowest; omega)
        exact .inl (magnitude_lt_of_lt hc.fits.short hfull (by omega)).le
  | _ => exact .inl (magnitude_nonneg q E)

/-- `r` is counted in units of `2 ^ E`: `q` is how many are in it, and `n` how many stand for it,
which are not more unless there is a rest. -/
structure Counted (r : ℝ) (q n : Nat) (E : Int) : Prop where
  short : q < 2 ^ 53
  lowest : -1074 ≤ E
  full : 2 ^ 52 ≤ q ∨ E = -1074
  low : magnitude q E ≤ r
  high : r < magnitude (q + 1) E
  next : q ≤ n ∧ n ≤ q + 1
  exact : r = magnitude q E → n = q

theorem exists_counted (h : Located r m e a) (hm : Ample m e) (s : Sign) :
    ∃ q n E, Counted r q n E ∧ roundWithAccuracy .binary64 s m e a =
      if n < 2 ^ 53 then ofMantissa s n E else .finite s (2 ^ 52) (E + 1) (by decide) := by
  have hfull : 2 ^ 52 ≤ m / 2 ^ excess m e ∨ e + excess m e = -1074 := by
    by_cases hm0 : m = 0
    · subst hm0
      have he : e ≤ -1074 := hm.resolve_left (by decide)
      exact .inr (by simp only [excess,Nat.log2_zero]; omega)
    · exact full_div hm0 hm
  have hlt : m / 2 ^ excess m e < 2 ^ 53 := by
    rw [Nat.div_lt_iff_lt_mul (Nat.two_pow_pos _),← Nat.pow_add]
    exact Nat.lt_of_lt_of_le Nat.lt_log2_self
      (Nat.pow_le_pow_right (by decide) (log2_lt_excess m e))
  have hnext :=
    roundedMantissa_bounds (ExtendedMantissa.ofMantissaAndAccuracy m a >>> excess m e)
  rw [mantissa_shiftRight,mantissa_ofMantissaAndAccuracy] at hnext
  refine ⟨_,_,_,⟨hlt,min_le_excess m e,hfull,h.low_div _,h.high_div _,hnext,
    h.roundedMantissa_eq⟩,?_⟩
  rw [← ofMantissa_shift (by omega) (min_le_excess m e)]
  rfl

namespace Counted
variable (h : Counted r q n E)
include h

theorem value_le (hy : value y ≤ r) : value y ≤ magnitude n E := by
  have hn : magnitude q E ≤ magnitude n E := magnitude_le_iff.mpr h.next.1
  rcases value_le_or_le h.full y with hle | hle
  · exact hle.trans (Rat.cast_le.mpr hn)
  · exact absurd (hle.trans hy) (not_le.mpr h.high)

theorem le_value (hy : r ≤ value y) : magnitude n E ≤ value y := by
  rcases value_le_or_le h.full y with hle | hle
  · have hr : r = magnitude q E := le_antisymm (hy.trans hle) h.low
    rw [h.exact hr,← hr]
    exact hy
  · have hn : magnitude n E ≤ magnitude (q + 1) E := magnitude_le_iff.mpr h.next.2
    exact (Rat.cast_le.mpr hn).trans hle

/-- The unit is the last place of `r`, or that of the least doubles. -/
theorem unit_le : (2 : ℝ) ^ E ≤ ulp * r + value least := by
  have hr : (0 : ℝ) ≤ r := (magnitude_nonneg q E).trans h.low
  have hulp : (0 : ℝ) ≤ ulp := ulp_pos.le
  rw [value_least]
  rcases h.full with hq | rfl
  · have hq' : (2 : ℝ) ^ 52 ≤ q := by exact_mod_cast hq
    have hlow : (q : ℝ) * 2 ^ E ≤ r := by simpa [magnitude] using h.low
    calc (2 : ℝ) ^ E = ulp * (2 ^ 52 * 2 ^ E) := by rw [← mul_assoc,ulp_eq]; norm_num
      _ ≤ ulp * (q * 2 ^ E) := by gcongr
      _ ≤ ulp * r := by gcongr
      _ ≤ ulp * r + 2 ^ (-1074 : Int) := le_add_of_nonneg_right (by positivity)
  · exact le_add_of_nonneg_left (mul_nonneg hulp hr)

theorem abs_sub_le : |magnitude n E - r| ≤ ulp * r + value least := by
  refine LE.le.trans ?_ h.unit_le
  have hlow : (q : ℝ) * 2 ^ E ≤ r := by simpa [magnitude] using h.low
  have hhigh : r < (q + 1) * 2 ^ E := by simpa [magnitude] using h.high
  have hn : (q : ℝ) * 2 ^ E ≤ n * 2 ^ E := by
    have := h.next.1
    gcongr
  have hn' : (n : ℝ) * 2 ^ E ≤ (q + 1) * 2 ^ E := by
    have : (n : ℝ) ≤ q + 1 := by exact_mod_cast h.next.2
    gcongr
  simp only [magnitude]
  push_cast
  rw [abs_sub_le_iff]
  constructor <;> linarith

end Counted

/-- `x` stands for `r`: it is on the same side of every double, and next to it. -/
structure Rounds (x : Float) (r : ℝ) : Prop where
  le : ∀ y, y.isFinite = true → r ≤ value y → x ≤ y
  ge : ∀ y, y.isFinite = true → value y ≤ r → y ≤ x
  near : x.isFinite = true → |value x - r| ≤ ulp * |r| + value least

theorem Rounds.neg (h : Rounds x r) : Rounds (-x) (-r) where
  le y hy hle := by
    rw [neg_le_iff]
    exact h.ge _ ((isFinite_neg y).trans hy) (by rw [value_neg]; linarith)
  ge y hy hle := by
    rw [← neg_neg y,neg_le_neg_iff]
    exact h.le _ ((isFinite_neg y).trans hy) (by rw [value_neg]; linarith)
  near hx := by
    rw [value_neg,abs_neg,← neg_sub',abs_neg]
    exact h.near ((isFinite_neg x).symm.trans hx)

theorem value_lt_magnitude (hm : 2 ^ 52 ≤ m) (he : 971 < e) (y : Float) :
    value y < magnitude m e := by
  have hpos : (0 : ℝ) < magnitude m e := Rat.cast_pos.mpr (magnitude_pos (by omega) e)
  have hc := canonical_decode y
  unfold value
  cases hd : decode y with
  | finite t n i hn =>
    rw [hd] at hc
    cases t with
    | negative => exact lt_of_le_of_lt (neg_nonpos.mpr (magnitude_nonneg n i)) hpos
    | positive =>
      exact Rat.cast_lt.mpr (magnitude_lt_of_lt hc.1 hm (by have := hc.2.2.1; omega))
  | _ => exact hpos

/-- The double with the magnitude `m * 2 ^ e`, or infinity where none is that large. -/
def Stores (x : Float) (m : Nat) (e : Int) : Prop :=
  x.isFinite = true ∧ value x = magnitude m e ∨
    decode x = .infinity .positive ∧ ∀ y, value y < magnitude m e

theorem stores_finite {hm : 0 < m} (h : Fits m e) :
    Stores (encode (.finite .positive m e hm)) m e := by
  by_cases he : e ≤ 971
  · have hc : Canonical (.finite .positive m e hm) := ⟨h.short,h.lowest,he,h.full⟩
    exact .inl ⟨(isFinite_encode_finite hm).mpr he,congrArg real (decode_encode hc)⟩
  · obtain ⟨e',f,hd,hf,htop⟩ := decode_encode_finite (s := .positive) (e := e) hm
    obtain rfl : e' = -1#11 := htop.mpr (by omega)
    obtain rfl : f = 0#52 := hf rfl
    exact .inr ⟨hd,value_lt_magnitude (h.full.resolve_right (by omega)) (by omega)⟩

theorem Counted.stores (h : Counted r q n E) : Stores (encode (if n < 2 ^ 53 then
    ofMantissa .positive n E else .finite .positive (2 ^ 52) (E + 1) (by decide))) n E := by
  obtain ⟨hlo,hhi⟩ := h.next
  have hshort := h.short
  have hlowest := h.lowest
  split
  next hlt =>
    rcases Nat.eq_zero_or_pos n with rfl | hn
    · left
      have hd : decode (encode (ofMantissa .positive 0 E)) = .zero .positive := decode_zero
      exact ⟨congrArg UnpackedFloat.isFinite hd,by simp [value,hd,real,magnitude]⟩
    · rw [ofMantissa_of_pos hn]
      exact stores_finite ⟨hlt,hlowest,h.full.imp_left (LE.le.trans · hlo)⟩
  next hge =>
    obtain rfl : n = 2 ^ 52 * 2 ^ 1 := by omega
    rw [Stores,magnitude_mul_two_pow]
    exact stores_finite ⟨by decide,by omega,.inl le_rfl⟩

theorem Counted.rounds (h : Counted r q n E) (hx : Stores x n E) : Rounds x r := by
  rcases hx with ⟨hfin,hval⟩ | ⟨hinf,hbeyond⟩
  · refine ⟨fun y hy hle => ?_,fun y hy hle => ?_,fun _ => ?_⟩
    · rw [← value_le_iff hfin hy,hval]
      exact h.le_value hle
    · rw [← value_le_iff hy hfin,hval]
      exact h.value_le hle
    · have hr : 0 ≤ r := (magnitude_nonneg q E).trans h.low
      rw [hval,abs_of_nonneg hr]
      exact h.abs_sub_le
  · refine ⟨fun y hy hle => ?_,fun y hy hle => ?_,fun hfin => ?_⟩
    · exact absurd (h.le_value hle) (not_le.mpr (hbeyond y))
    · have hx : x.isNaN = false := by rw [isNaN_eq,hinf]; rfl
      exact le_iff.mpr ⟨isNaN_of_isFinite hy,hx,hinf ▸ rank_le_top _⟩
    · exact absurd (isTop_iff.mpr hinf) (not_isTop hfin)

theorem neg_ofFields (e : BitVec 11) (f : BitVec 52) :
    (ofFields .positive e f).neg = ofFields .negative e f := by
  cases shape e f with
  | notANumber _ _ hu | infinity _ hu | zero _ hu | finite _ _ _ _ hu => rw [hu,hu]; rfl

/-- The other fields do not depend on the sign. -/
theorem encode_finite_negative (hm : 0 < m) (e : Int) :
    encode (.finite .negative m e hm) = -encode (.finite .positive m e hm) := by
  have hfields : ∃ e' f, ∀ s, decode (encode (.finite s m e hm)) = ofFields s e' f := by
    simp only [encode,decode,Float.Model.pack,Float.Model.unpack,pack_finite]
    split
    next => exact ⟨_,_,fun s => unpack_packComponents s _ _⟩
    next => split <;> exact ⟨_,_,fun s => unpack_packComponents s _ _⟩
  obtain ⟨e',f,hd⟩ := hfields
  apply decode_injective
  rw [decode_neg,hd,hd,neg_ofFields]

theorem encode_round_negative (m : Nat) (e : Int) (a : Accuracy) :
    encode (roundWithAccuracy .binary64 .negative m e a) =
      -encode (roundWithAccuracy .binary64 .positive m e a) := by
  unfold roundWithAccuracy
  dsimp only
  split
  next => decide +kernel
  next => exact encode_finite_negative _ _

theorem rounds_roundWithAccuracy (h : Located r m e a) (hm : Ample m e) (s : Sign) :
    Rounds (encode (roundWithAccuracy .binary64 s m e a)) (signed s r) := by
  have hpos : Rounds (encode (roundWithAccuracy .binary64 .positive m e a)) r := by
    obtain ⟨q,n,E,hc,hround⟩ := exists_counted h hm .positive
    rw [hround]
    exact hc.rounds hc.stores
  cases s with
  | positive => exact hpos
  | negative =>
    rw [encode_round_negative]
    exact hpos.neg

theorem rounds_of_decode (hd : decode x = u) (hu : u.isFinite = true) : Rounds x (real u) := by
  subst hd
  have hx : x.isFinite = true := hu
  refine ⟨fun y hy hle => (value_le_iff hx hy).mp hle,fun y hy hle => (value_le_iff hy hx).mp hle,
    fun _ => ?_⟩
  rw [value,sub_self,abs_zero,value_least]
  have := ulp_pos
  positivity

theorem rounds_zero (s : Sign) : Rounds (encode (.zero s)) 0 :=
  rounds_of_decode (u := .zero s) (decode_encode trivial) rfl

/-- The same where bits may be missing, which are added first. -/
theorem rounds_round (hm : m ≠ 0) (e : Int) (s : Sign) :
    Rounds (encode (UnpackedFloat.round .binary64 s m e)) (signed s (magnitude m e)) := by
  have htarget : Format.targetExponent .binary64 (totalExponent m e) =
      max (m.log2 + 1 + e - 53) (-1074) := rfl
  simp only [UnpackedFloat.round,decreaseExponent,Nat.shiftLeft_eq,htarget]
  generalize hk : (e - max (m.log2 + 1 + e - 53) (-1074)).toNat = k
  have hample : Ample (m * 2 ^ k) (e - k) := by
    by_cases hlow : e - k ≤ -1074
    · exact .inr hlow
    · left
      calc 2 ^ 52 ≤ 2 ^ (m.log2 + k) := Nat.pow_le_pow_right (by decide) (by omega)
        _ = 2 ^ m.log2 * 2 ^ k := Nat.pow_add ..
        _ ≤ m * 2 ^ k := Nat.mul_le_mul_right _ (Nat.log2_self_le hm)
  have h := rounds_roundWithAccuracy (located_exact (m * 2 ^ k) (e - k)) hample s
  rwa [magnitude_mul_two_pow,sub_add_cancel] at h

theorem rounds_normalize (M : Int) (e : Int) :
    Rounds (encode (UnpackedFloat.normalize .binary64 M e .positive)) (M * 2 ^ e) := by
  have habs : ((M.natAbs : ℕ) : ℝ) = |(M : ℝ)| := by rw [Nat.cast_natAbs,Int.cast_abs]
  unfold UnpackedFloat.normalize
  split
  next h =>
    have hM := Int.compare_eq_lt.mp h
    have hr := rounds_round (m := (-M).toNat) (by omega) e .negative
    have hcast : (((-M).toNat : ℕ) : ℝ) = -M := by
      exact_mod_cast congrArg (Int.cast (R := ℝ)) (Int.toNat_of_nonneg (by omega : 0 ≤ -M))
    simpa [signed,magnitude,hcast] using hr
  next h =>
    have hM := Int.compare_eq_eq.mp h
    simpa [hM] using rounds_zero .positive
  next h =>
    have hM := Int.compare_eq_gt.mp h
    have hr := rounds_round (m := M.toNat) (by omega) e .positive
    have hcast : ((M.toNat : ℕ) : ℝ) = M := by
      exact_mod_cast congrArg (Int.cast (R := ℝ)) (Int.toNat_of_nonneg hM.le)
    simpa [signed,magnitude,hcast] using hr

namespace Rounds
variable (h : Rounds x r)
include h

theorem isNaN : x.isNaN = false := by
  rcases le_total r 0 with hr | hr
  · exact (le_iff.mp (h.le Zero.zero rfl (hr.trans_eq value_zero.symm))).1
  · exact (le_iff.mp (h.ge Zero.zero rfl (value_zero.trans_le hr))).2.1

/-- Finite doubles that bound the number bound what stands for it. -/
theorem between (hy : y.isFinite = true) (hz : z.isFinite = true) (hyr : value y ≤ r)
    (hrz : r ≤ value z) : x.isFinite = true ∧ value y ≤ value x ∧ value x ≤ value z := by
  have hle := h.le z hz hrz
  have hge := h.ge y hy hyr
  have hx := isFinite_of_between hy hz hge hle
  exact ⟨hx,(value_le_iff hy hx).mpr hge,(value_le_iff hx hz).mpr hle⟩

theorem bounded (hy : y.isFinite = true) (hr : |r| ≤ value y) :
    x.isFinite = true ∧ |value x| ≤ value y := by
  obtain ⟨hlo,hhi⟩ := abs_le.mp hr
  obtain ⟨hx,hlo',hhi'⟩ :=
    h.between ((isFinite_neg y).trans hy) hy (by rwa [value_neg]) hhi
  exact ⟨hx,abs_le.mpr ⟨by rwa [value_neg] at hlo',hhi'⟩⟩

/-- Doubles are not changed. -/
theorem value_eq (hy : y.isFinite = true) (hr : r = value y) :
    x.isFinite = true ∧ value x = value y := by
  obtain ⟨hx,hle,hge⟩ := h.between hy hy hr.ge hr.le
  exact ⟨hx,hge.antisymm hle⟩

end Rounds

end LinearInverse.Binary64
