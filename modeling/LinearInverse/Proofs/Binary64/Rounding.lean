import LinearInverse.Proofs.Binary64.Encoding

namespace LinearInverse.Binary64
open Float.Model Float.Model.UnpackedFloat

variable {s : Sign} {m k : Nat} {e : Int}

/-- `m / 2 ^ k` to the nearest integer, and half-way between two to the even one. -/
def nearest (m k : Nat) : Nat :=
  if 2 * (m % 2 ^ k) < 2 ^ k then m / 2 ^ k
  else if 2 * (m % 2 ^ k) = 2 ^ k then m / 2 ^ k + m / 2 ^ k % 2
  else m / 2 ^ k + 1

/-- What a shift to the right has dropped is kept track of: whether it makes half a unit, and
whether there is more to it. -/
theorem shiftRight_exact (m k : Nat) :
    ExtendedMantissa.ofMantissaAndAccuracy m .exact >>> k =
      ⟨m / 2 ^ k,decide (2 ^ k ≤ 2 * (m % 2 ^ k)),decide (2 * (m % 2 ^ k) % 2 ^ k ≠ 0)⟩ := by
  change Nat.repeat ExtendedMantissa.shiftRightOne k _ = _
  induction k with
  | zero => simp [Nat.repeat,Nat.mod_one,ExtendedMantissa.ofMantissaAndAccuracy]
  | succ k ih =>
    have hr := Nat.mod_lt m (Nat.two_pow_pos k)
    have hmod : m % 2 ^ (k + 1) = m % 2 ^ k + 2 ^ k * (m / 2 ^ k % 2) := by
      rw [Nat.pow_succ,Nat.mod_mul]
    have hbit := Nat.mod_two_eq_zero_or_one (m / 2 ^ k)
    rw [Nat.repeat,ih,ExtendedMantissa.shiftRightOne,Nat.pow_succ,Nat.div_div_eq_div_mul]
    rw [Nat.pow_succ] at hmod
    generalize 2 ^ k = p at *
    generalize m % p = r at *
    have hdouble : 2 * (m % (p * 2)) % (p * 2) = 2 * r := by
      rcases hbit with h | h
      · rw [hmod,h,Nat.mul_zero,Nat.add_zero,Nat.mod_eq_of_lt (by omega)]
      · rw [hmod,h,Nat.mul_one,Nat.mul_add,Nat.mul_comm 2 p,Nat.add_mod_right,
          Nat.mod_eq_of_lt (by omega)]
    rw [hdouble]
    congr 1
    · rw [Bool.eq_iff_iff,bne_iff_ne,decide_eq_true_iff,hmod]
      rcases hbit with h | h <;> rw [h] <;> omega
    · rw [Bool.eq_iff_iff,Bool.or_eq_true]
      simp only [decide_eq_true_iff]
      by_cases h : p ≤ 2 * r
      · simp only [h,true_or,true_iff]
        omega
      · rw [Nat.mod_eq_of_lt (by omega)]
        omega

theorem roundedMantissa_exact (m k : Nat) :
    (ExtendedMantissa.ofMantissaAndAccuracy m .exact >>> k).roundedMantissa = nearest m k := by
  have hr := Nat.mod_lt m (Nat.two_pow_pos k)
  rw [shiftRight_exact,nearest,ExtendedMantissa.roundedMantissa]
  generalize 2 ^ k = p at *
  generalize m % p = r at *
  rcases Nat.lt_trichotomy (2 * r) p with h | h | h
  · have hround : ¬p ≤ 2 * r := by omega
    by_cases h0 : 2 * r % p = 0 <;>
      simp [h,hround,h0,ExtendedMantissa.accuracy,Accuracy.roundToNearestEven]
  · simp [h,ExtendedMantissa.accuracy,Accuracy.roundToNearestEven]
  · have hround : p ≤ 2 * r := by omega
    have hmod : 2 * r % p = 2 * r - p := by
      rw [Nat.mod_eq_sub_mod hround,Nat.mod_eq_of_lt (by omega)]
    have hsticky : 2 * r % p ≠ 0 := by omega
    have hlt : ¬2 * r < p := by omega
    have hne : 2 * r ≠ p := by omega
    simp [hround,hsticky,hlt,hne,ExtendedMantissa.accuracy,Accuracy.roundToNearestEven]

/-- The number of bits that do not fit into the format. -/
def excess (m : Nat) (e : Int) : Nat :=
  (max (m.log2 + 1 + e - 53) (-1074) - e).toNat

theorem shiftToTargetExponent_exact (m : Nat) (e : Int) :
    shiftToTargetExponent .binary64 m e .exact =
      (ExtendedMantissa.ofMantissaAndAccuracy m .exact >>> excess m e,e + excess m e) := by
  rfl

theorem nearest_le (hm : m < 2 ^ (53 + k)) : nearest m k ≤ 2 ^ 53 := by
  have hdiv : m / 2 ^ k < 2 ^ 53 := by
    apply Nat.div_lt_of_lt_mul
    rwa [← Nat.pow_add,Nat.add_comm]
  unfold nearest
  split
  · omega
  · split <;> omega

theorem lt_of_nearest_eq_zero (h : nearest m k = 0) : m < 2 ^ k := by
  have hdiv : m / 2 ^ k = 0 := by
    unfold nearest at h
    generalize m / 2 ^ k = q at h ⊢
    split at h
    · exact h
    · split at h <;> omega
  exact (Nat.div_eq_zero_iff_lt (Nat.two_pow_pos k)).mp hdiv

theorem log2_lt_excess (m : Nat) (e : Int) : m.log2 < 53 + excess m e := by
  unfold excess
  omega

theorem min_le_excess (m : Nat) (e : Int) : -1074 ≤ e + excess m e := by
  unfold excess
  omega

def ofMantissa (s : Sign) (m : Nat) (e : Int) : Unpacked :=
  if h : m = 0 then .zero s else .finite s m e (Nat.pos_of_ne_zero h)

theorem ofMantissa_of_pos (hm : 0 < m) : ofMantissa s m e = .finite s m e hm :=
  dif_neg (Nat.ne_of_gt hm)

/-- A rounded mantissa has at most one bit too many, and then that bit alone. -/
theorem ofMantissa_shift (hm : m ≤ 2 ^ 53) (he : -1074 ≤ e) :
    ofMantissa s (ExtendedMantissa.ofMantissaAndAccuracy m .exact >>> excess m e).mantissa
        (e + excess m e) =
      if m < 2 ^ 53 then ofMantissa s m e else .finite s (2 ^ 52) (e + 1) (by decide) := by
  rw [shiftRight_exact]
  split
  next hlt =>
    have hlog : m.log2 < 53 := by
      by_cases h0 : m = 0
      · simp [h0]
      · exact (Nat.log2_lt h0).mpr hlt
    have hx : excess m e = 0 := by
      unfold excess
      omega
    simp [hx]
  next hge =>
    obtain rfl : m = 2 ^ 53 := by omega
    have hx : excess (2 ^ 53) e = 1 := by
      rw [excess,Nat.log2_two_pow]
      omega
    rw [hx]
    rfl

/-- The mantissa is rounded to the bits that fit, and if that carries into one more bit, the
exponent grows. -/
theorem roundWithAccuracy_exact (s : Sign) (m : Nat) (e : Int) :
    roundWithAccuracy .binary64 s m e .exact =
      if nearest m (excess m e) < 2 ^ 53 then
        ofMantissa s (nearest m (excess m e)) (e + excess m e)
      else .finite s (2 ^ 52) (e + excess m e + 1) (by decide) := by
  have hlt : m < 2 ^ (53 + excess m e) :=
    Nat.lt_of_lt_of_le Nat.lt_log2_self
      (Nat.pow_le_pow_right (by decide) (log2_lt_excess m e))
  rw [← ofMantissa_shift (nearest_le hlt) (min_le_excess m e)]
  simp only [roundWithAccuracy,shiftToTargetExponent_exact,roundedMantissa_exact]
  rfl

/-- What fits already is not changed. -/
theorem roundWithAccuracy_canonical {hm : 0 < m} (h : Canonical (.finite s m e hm)) (s' : Sign)
    (k : Nat) :
    roundWithAccuracy .binary64 s' (m * 2 ^ k) (e - k) .exact = .finite s' m e hm := by
  obtain ⟨hlt,hlo,hhi,hfull⟩ := h
  have hlog : m.log2 < 53 := (Nat.log2_lt (Nat.ne_of_gt hm)).mpr hlt
  have hlog' : 52 ≤ m.log2 ∨ e = -1074 :=
    hfull.imp_left (Nat.le_log2 (Nat.ne_of_gt hm)).mpr
  have hpow : (m * 2 ^ k).log2 = m.log2 + k := by
    have hpos : m * 2 ^ k ≠ 0 := Nat.ne_of_gt (Nat.mul_pos hm (Nat.two_pow_pos k))
    apply (Nat.log2_eq_iff hpos).mpr
    rw [Nat.pow_add,Nat.add_right_comm,Nat.pow_add]
    exact ⟨Nat.mul_le_mul_right _ (Nat.log2_self_le (Nat.ne_of_gt hm)),
      Nat.mul_lt_mul_of_pos_right Nat.lt_log2_self (Nat.two_pow_pos k)⟩
  have hx : excess (m * 2 ^ k) (e - k) = k := by
    rw [excess,hpow]
    omega
  have hr : nearest (m * 2 ^ k) k = m := by
    simp [nearest]
  rw [roundWithAccuracy_exact,hx,hr,if_pos hlt,Int.sub_add_cancel,ofMantissa_of_pos hm]

theorem isFinite_ofFields (s : Sign) (e : BitVec 11) (f : BitVec 52) :
    (ofFields s e f).isFinite = true ↔ e ≠ -1#11 := by
  cases shape e f with
  | notANumber he _ hu | infinity he hu =>
    rw [hu]
    exact iff_of_false Bool.false_ne_true (not_not_intro he)
  | zero he hu | finite he _ _ _ hu =>
    rw [hu]
    exact iff_of_true rfl he

theorem isFinite_encode_finite (hm : 0 < m) :
    (encode (.finite s m e hm)).isFinite = true ↔ e ≤ 971 := by
  obtain ⟨e',f,hdecode,_,hmax⟩ := decode_encode_finite (s := s) (e := e) hm
  change (decode (encode (.finite s m e hm))).isFinite = true ↔ _
  rw [hdecode,isFinite_ofFields,Ne,hmax]
  omega

theorem isFinite_encode_ofMantissa (he : e ≤ 971) :
    (encode (ofMantissa s m e)).isFinite = true := by
  unfold ofMantissa
  split
  next => cases s <;> decide +kernel
  next h => exact (isFinite_encode_finite _).mpr he

/-- An exact result that is rounded to a double is below `2 ^ 1024`. -/
theorem log2_le_of_isFinite (hm : m ≠ 0)
    (h : (encode (roundWithAccuracy .binary64 s m e .exact)).isFinite = true) :
    m.log2 + e ≤ 1023 := by
  have hx : m.log2 + 1 + e - 53 ≤ e + excess m e := by
    unfold excess
    omega
  rw [roundWithAccuracy_exact] at h
  split at h
  next =>
    by_cases h0 : nearest m (excess m e) = 0
    · have hlog : m.log2 < excess m e :=
        (Nat.log2_lt hm).mpr (lt_of_nearest_eq_zero h0)
      unfold excess at hlog
      omega
    · rw [ofMantissa_of_pos (Nat.pos_of_ne_zero h0),isFinite_encode_finite] at h
      omega
  next =>
    rw [isFinite_encode_finite] at h
    omega

/-- Below half a unit under a power of two nothing is rounded up to it. -/
theorem nearest_lt (h : 2 * m < (2 ^ 54 - 1) * 2 ^ k) : nearest m k < 2 ^ 53 := by
  have hm := Nat.div_add_mod m (2 ^ k)
  have hr := Nat.mod_lt m (Nat.two_pow_pos k)
  unfold nearest
  generalize m / 2 ^ k = q at *
  generalize m % 2 ^ k = r at *
  generalize 2 ^ k = p at *
  have hq : q < 2 ^ 53 := by
    apply Nat.lt_of_not_le
    intro hq
    have : p * 2 ^ 53 ≤ p * q := Nat.mul_le_mul_left p hq
    omega
  have hlast : q = 2 ^ 53 - 1 → 2 * r < p := by
    rintro rfl
    omega
  split
  · omega
  · split <;> omega

/-- An exact result that is more than half a unit below `2 ^ 1024` is rounded to a double. -/
theorem isFinite_roundWithAccuracy (he : e ≤ 971)
    (h : 2 * m < (2 ^ 54 - 1) * 2 ^ (971 - e).toNat) :
    (encode (roundWithAccuracy .binary64 s m e .exact)).isFinite = true := by
  have hlog : m.log2 < 53 + (971 - e).toNat := by
    by_cases h0 : m = 0
    · rw [h0,Nat.log2_zero]
      omega
    · apply (Nat.log2_lt h0).mpr
      rw [Nat.pow_add]
      omega
  have hx : e + excess m e ≤ 971 := by
    unfold excess
    omega
  rw [roundWithAccuracy_exact]
  by_cases htop : e + excess m e = 971
  · have hk : (971 - e).toNat = excess m e := by omega
    rw [hk] at h
    rw [if_pos (nearest_lt h)]
    exact isFinite_encode_ofMantissa hx
  · split
    · exact isFinite_encode_ofMantissa hx
    · exact (isFinite_encode_finite _).mpr (by omega)

theorem isFinite_round (he : e ≤ 971) (h : 2 * m < (2 ^ 54 - 1) * 2 ^ (971 - e).toNat) :
    (encode (UnpackedFloat.round .binary64 s m e)).isFinite = true := by
  simp only [UnpackedFloat.round,decreaseExponent,Nat.shiftLeft_eq]
  generalize (e - Format.targetExponent .binary64 (totalExponent m e)).toNat = k
  have hk : (971 - (e - k)).toNat = (971 - e).toNat + k := by omega
  apply isFinite_roundWithAccuracy (by omega)
  rw [hk,Nat.pow_add,← Nat.mul_assoc,← Nat.mul_assoc]
  exact Nat.mul_lt_mul_of_pos_right h (Nat.two_pow_pos k)

end LinearInverse.Binary64
