import LinearInverse.Proofs.Binary64.Faithful

namespace LinearInverse.Binary64
open Float.Model Float.Model.UnpackedFloat

variable {m n : Nat} {e i : Int} {x y : Float} {r : ℝ} {a : Accuracy}

theorem cast_apply (s : Sign) (m : Nat) : ((s.apply m : Int) : ℝ) = signed s m := by
  cases s <;> simp [Sign.apply,signed]

theorem signed_mul (s : Sign) (a b : ℝ) : signed s a * b = signed s (a * b) := by
  cases s <;> simp [signed]

theorem rounds_add (hx : x.isFinite = true) (hy : y.isFinite = true) :
    Rounds (x + y) (value x + value y) := by
  have hcx := canonical_decode x
  have hcy := canonical_decode y
  rw [add_eq,value,value]
  obtain ⟨s,hu⟩ | ⟨s,m,e,hm,hu⟩ := decode_of_isFinite hx <;>
    obtain ⟨t,hv⟩ | ⟨t,n,i,hn,hv⟩ := decode_of_isFinite hy <;>
    rw [hu] at hcx ⊢ <;> rw [hv] at hcy ⊢
  · have hsum : ∃ w, UnpackedFloat.add .binary64 (.zero s) (.zero t) = .zero w := by
      cases s <;> cases t <;> exact ⟨_,rfl⟩
    obtain ⟨w,hw⟩ := hsum
    rw [hw]
    simpa using rounds_zero w
  · have h := rounds_of_decode (decode_encode hcy) rfl
    rwa [← zero_add (real _)] at h
  · have h := rounds_of_decode (decode_encode hcx) rfl
    rwa [← add_zero (real _)] at h
  · have hsum : real (.finite s m e hm) + real (.finite t n i hn) =
        ((s.apply (m * 2 ^ (e - min e i).toNat : ℕ) + t.apply (n * 2 ^ (i - min e i).toNat : ℕ) :
          Int) : ℝ) * 2 ^ min e i := by
      rw [real,real,magnitude_eq_of_le m (Int.min_le_left e i),
        magnitude_eq_of_le n (Int.min_le_right e i)]
      rw [Int.cast_add,cast_apply,cast_apply]
      simp [magnitude,add_mul,signed_mul]
    rw [hsum]
    simp only [UnpackedFloat.add,decreaseExponent,Nat.shiftLeft_eq]
    exact rounds_normalize _ _

theorem sub_eq (x y : Float) : x - y = x + -y := by
  have hsub : x - y = encode (UnpackedFloat.sub .binary64 (decode x) (decode y)) := rfl
  rw [hsub,add_eq,decode_neg]
  congr 1
  cases decode x with
  | notANumber => cases decode y <;> rfl
  | infinity s => cases decode y <;> rfl
  | zero s => cases decode y <;> rfl
  | finite s m e hm =>
    cases decode y with
    | finite t n i hn =>
      have happly : ∀ k : Nat, (-t).apply (k : Int) = -t.apply (k : Int) := by
        cases t <;> simp [Sign.apply]
      simp only [UnpackedFloat.sub,UnpackedFloat.add,UnpackedFloat.neg,happly,Int.sub_eq_add_neg]
    | _ => rfl

theorem rounds_sub (hx : x.isFinite = true) (hy : y.isFinite = true) :
    Rounds (x - y) (value x - value y) := by
  rw [sub_eq,sub_eq_add_neg,← value_neg]
  exact rounds_add hx ((isFinite_neg y).trans hy)

/-- Of two mantissas that are not full, both exponents are the least. -/
theorem ample_mul (h : Fits m e) (h' : Fits n i) (hm : 0 < m) (hn : 0 < n) :
    Ample (m * n) (e + i) := by
  rcases h.full with hf | rfl
  · exact .inl (hf.trans (Nat.le_mul_of_pos_right m hn))
  · rcases h'.full with hf | rfl
    · exact .inl (hf.trans (Nat.le_mul_of_pos_left n hm))
    · exact .inr (by decide)

theorem signed_mul_signed (s t : Sign) (a b : ℝ) :
    signed s a * signed t b = signed (s * t) (a * b) := by
  cases s <;> cases t <;> simp [signed]

theorem signed_div_signed (s t : Sign) (a b : ℝ) :
    signed s a / signed t b = signed (s / t) (a / b) := by
  cases s <;> cases t
  · exact neg_div_neg_eq a b
  · exact neg_div b a
  · exact div_neg a
  · rfl

theorem magnitude_mul (m n : Nat) (e i : Int) :
    magnitude m e * magnitude n i = magnitude (m * n) (e + i) := by
  rw [magnitude,magnitude,magnitude,zpow_add₀ two_ne_zero]
  push_cast
  ring

theorem rounds_mul (hx : x.isFinite = true) (hy : y.isFinite = true) :
    Rounds (x * y) (value x * value y) := by
  have hcx := canonical_decode x
  have hcy := canonical_decode y
  rw [mul_eq,value,value]
  obtain ⟨s,hu⟩ | ⟨s,m,e,hm,hu⟩ := decode_of_isFinite hx <;>
    obtain ⟨t,hv⟩ | ⟨t,n,i,hn,hv⟩ := decode_of_isFinite hy <;>
    rw [hu] at hcx ⊢ <;> rw [hv] at hcy ⊢
  · rw [real_zero,zero_mul]
    exact rounds_zero (s * t)
  · rw [real_zero,zero_mul]
    exact rounds_zero (s * t)
  · rw [real_zero,mul_zero]
    exact rounds_zero (s * t)
  · have h := rounds_roundWithAccuracy (located_exact (m * n) (e + i))
      (ample_mul hcx.fits hcy.fits hm hn) (s * t)
    rw [← magnitude_mul,Rat.cast_mul,← signed_mul_signed] at h
    exact h

theorem located_of_mul {c : ℝ} (hr : r = c * 2 ^ e) (hlo : m ≤ c) (hhi : c < m + 1)
    (ha : c = m → a = .exact) : Located r m e a := by
  have hpos : (0 : ℝ) < 2 ^ e := zpow_pos two_pos e
  subst hr
  refine ⟨?_,?_,fun h => ha ?_⟩
  · simpa [magnitude] using mul_le_mul_of_nonneg_right hlo hpos.le
  · simpa [magnitude] using mul_lt_mul_of_pos_right hhi hpos
  · simpa [magnitude,hpos.ne'] using h

theorem accuracyOfFraction_of_cast (hn : 0 < n) (h : (m : ℝ) / n = (m / n : ℕ)) :
    accuracyOfFraction (m % n) n = .exact := by
  have hn' : (n : ℝ) ≠ 0 := Nat.cast_ne_zero.mpr hn.ne'
  have hm : m = m / n * n := by
    rw [div_eq_iff hn'] at h
    exact_mod_cast h
  rw [hm,Nat.mul_mod_left]
  rfl

theorem located_divCore (hn : 0 < n) (m : Nat) (e i : Int) :
    Located (magnitude m e / magnitude n i) (divCore .binary64 m e n i).1
      (divCore .binary64 m e n i).2.1 (divCore .binary64 m e n i).2.2 := by
  simp only [divCore,Nat.shiftLeft_eq]
  generalize ht : min (e - i)
    (Format.targetExponent .binary64 (totalExponent m e - totalExponent n i)) = t
  have hn' : (0 : ℝ) < n := Nat.cast_pos.mpr hn
  have hM : magnitude m (e - i) = magnitude (m * 2 ^ (e - i - t).toNat) t :=
    magnitude_eq_of_le m (by omega)
  generalize m * 2 ^ (e - i - t).toNat = M at hM
  refine located_of_mul (c := (M : ℝ) / n) ?_ Nat.cast_div_le ?_
    (accuracyOfFraction_of_cast hn)
  · have hM' : (m : ℝ) * 2 ^ (e - i) = M * 2 ^ t := by
      have := congrArg (Rat.cast (K := ℝ)) hM
      simpa [magnitude] using this
    have hpow : (2 : ℝ) ^ e = 2 ^ (e - i) * 2 ^ i := by
      rw [← zpow_add₀ two_ne_zero,sub_add_cancel]
    have hpos : (0 : ℝ) < 2 ^ i := zpow_pos two_pos i
    simp only [magnitude]
    push_cast
    rw [hpow]
    field_simp
    linarith
  · rw [div_lt_iff₀ hn']
    exact_mod_cast Nat.lt_mul_of_div_lt (Nat.lt_succ_self _) hn

/-- The quotient was given enough bits. -/
theorem ample_divCore (hm : 0 < m) (hn : 0 < n) (e i : Int) :
    Ample (divCore .binary64 m e n i).1 (divCore .binary64 m e n i).2.1 := by
  have htarget : Format.targetExponent .binary64 (totalExponent m e - totalExponent n i) =
      max (m.log2 + 1 + e - (n.log2 + 1 + i) - 53) (-1074) := rfl
  simp only [divCore,Nat.shiftLeft_eq,htarget]
  generalize ht : min (e - i) (max (m.log2 + 1 + e - (n.log2 + 1 + i) - 53) (-1074)) = t
  by_cases hlow : t ≤ -1074
  · exact .inr hlow
  left
  rw [Nat.le_div_iff_mul_le hn]
  calc 2 ^ 52 * n ≤ 2 ^ 52 * 2 ^ (n.log2 + 1) := Nat.mul_le_mul_left _ Nat.lt_log2_self.le
    _ = 2 ^ (52 + (n.log2 + 1)) := (Nat.pow_add ..).symm
    _ ≤ 2 ^ (m.log2 + (e - i - t).toNat) := Nat.pow_le_pow_right (by decide) (by omega)
    _ = 2 ^ m.log2 * 2 ^ (e - i - t).toNat := Nat.pow_add ..
    _ ≤ m * 2 ^ (e - i - t).toNat := Nat.mul_le_mul_right _ (Nat.log2_self_le hm.ne')

/-- What is divided by is not zero. -/
theorem rounds_div (hx : x.isFinite = true) (hy : y.isFinite = true) (h0 : value y ≠ 0) :
    Rounds (x / y) (value x / value y) := by
  rw [div_eq,value,value]
  rw [value] at h0
  obtain ⟨t,hv⟩ | ⟨t,n,i,hn,hv⟩ := decode_of_isFinite hy
  · rw [hv] at h0
    exact absurd rfl h0
  · rw [hv]
    obtain ⟨s,hu⟩ | ⟨s,m,e,hm,hu⟩ := decode_of_isFinite hx <;> rw [hu]
    · rw [real_zero,zero_div]
      exact rounds_zero (s / t)
    · have h := rounds_roundWithAccuracy (located_divCore hn m e i) (ample_divCore hm hn e i)
        (s / t)
      rw [← signed_div_signed] at h
      exact h

theorem located_sqrtCore (m : Nat) (e : Int) :
    Located (Real.sqrt (magnitude m e)) (sqrtCore .binary64 m e).1
      (sqrtCore .binary64 m e).2.1 (sqrtCore .binary64 m e).2.2 := by
  have hhalf : e.ediv 2 = e / 2 := rfl
  simp only [sqrtCore,Nat.shiftLeft_eq,hhalf]
  generalize ht : min (e / 2)
    (Format.targetExponent .binary64 ((totalExponent m e + 1).ediv 2)) = t
  have hM : magnitude m e = magnitude (m * 2 ^ (e - 2 * t).toNat) (2 * t) :=
    magnitude_eq_of_le m (by omega)
  generalize m * 2 ^ (e - 2 * t).toNat = M at hM
  refine located_of_mul (c := Real.sqrt M) ?_ Real.nat_sqrt_le_real_sqrt
    Real.real_sqrt_lt_nat_sqrt_succ ?_
  · have hsq : (2 : ℝ) ^ (2 * t) = (2 ^ t) ^ 2 := by
      rw [← zpow_natCast,← zpow_mul,Int.mul_comm]
      rfl
    rw [hM,magnitude]
    push_cast
    rw [hsq,Real.sqrt_mul (Nat.cast_nonneg M),Real.sqrt_sq (zpow_nonneg zero_le_two t)]
  · intro hroot
    have hsq : M = M.sqrt * M.sqrt := by
      have := Real.mul_self_sqrt (Nat.cast_nonneg M : (0 : ℝ) ≤ M)
      rw [hroot] at this
      exact_mod_cast this.symm
    rw [if_pos (by omega)]

/-- The root was given enough bits. -/
theorem ample_sqrtCore (hm : 0 < m) (e : Int) :
    Ample (sqrtCore .binary64 m e).1 (sqrtCore .binary64 m e).2.1 := by
  have htarget : Format.targetExponent .binary64 ((totalExponent m e + 1).ediv 2) =
      max ((m.log2 + 1 + e + 1) / 2 - 53) (-1074) := rfl
  have hhalf : e.ediv 2 = e / 2 := rfl
  simp only [sqrtCore,htarget,hhalf,Nat.shiftLeft_eq]
  generalize ht : min (e / 2) (max ((m.log2 + 1 + e + 1) / 2 - 53) (-1074)) = t
  by_cases hlow : t ≤ -1074
  · exact .inr hlow
  left
  rw [Nat.le_sqrt,← Nat.pow_add]
  calc 2 ^ (52 + 52) ≤ 2 ^ (m.log2 + (e - 2 * t).toNat) :=
        Nat.pow_le_pow_right (by decide) (by omega)
    _ = 2 ^ m.log2 * 2 ^ (e - 2 * t).toNat := Nat.pow_add ..
    _ ≤ m * 2 ^ (e - 2 * t).toNat := Nat.mul_le_mul_right _ (Nat.log2_self_le hm.ne')

theorem rounds_sqrt (hx : x.isFinite = true) (h0 : 0 ≤ value x) :
    Rounds x.sqrt (Real.sqrt (value x)) := by
  have hsqrt : x.sqrt = encode (UnpackedFloat.sqrt .binary64 (decode x)) := rfl
  rw [hsqrt,value]
  rw [value] at h0
  obtain ⟨s,hu⟩ | ⟨s,m,e,hm,hu⟩ := decode_of_isFinite hx <;> rw [hu] at h0 ⊢
  · rw [real_zero,Real.sqrt_zero]
    exact rounds_zero s
  · cases s with
    | negative =>
      have hpos : (0 : ℝ) < magnitude m e := Rat.cast_pos.mpr (magnitude_pos hm e)
      simp only [real,signed] at h0
      linarith
    | positive =>
      exact rounds_roundWithAccuracy (located_sqrtCore m e) (ample_sqrtCore hm e) .positive

end LinearInverse.Binary64
