import LinearInverse.Proofs.Binary64.Bounds
import LinearInverse.Proofs.Euclidean

namespace LinearInverse.Binary64
open Float.Model Float.Model.UnpackedFloat

variable {m n : Nat} {e i : Int} {s : Sign} {x y z : Float} {u v : Unpacked}

/-- The number with this sign and this magnitude. -/
def signed : Sign → ℝ → ℝ
  | .positive, r => r
  | .negative, r => -r

/-- Infinities and the undefined number stand for no number; zero is put in their place. -/
noncomputable def real : Unpacked → ℝ
  | .finite s m e _ => signed s (magnitude m e)
  | _ => 0

noncomputable def value (x : Float) : ℝ := real (decode x)

@[simp] theorem real_zero (s : Sign) : real (.zero s) = 0 := rfl

theorem value_one : value One.one = 1 := by
  rw [value,decode_one]
  norm_num [unit,real,signed,magnitude]

theorem magnitude_pos (hm : 0 < m) (e : Int) : 0 < magnitude m e :=
  mul_pos (Nat.cast_pos.mpr hm) (zpow_pos two_pos e)

@[simp] theorem value_zero : value Zero.zero = 0 :=
  congrArg real decode_zero

theorem real_neg (u : Unpacked) : real u.neg = -real u := by
  rcases u with s | _ | s | ⟨_ | _,m,e,hm⟩ <;> simp [UnpackedFloat.neg,real,signed]

theorem value_neg (x : Float) : value (-x) = -value x := by
  rw [value,decode_neg,real_neg,value]

theorem isFinite_neg (x : Float) : (-x).isFinite = x.isFinite := by
  change (decode (-x)).isFinite = (decode x).isFinite
  rw [decode_neg]
  cases decode x <;> rfl

theorem value_abs (x : Float) : value x.abs = |value x| := by
  rw [value,decode_abs,value]
  rcases decode x with s | _ | s | ⟨_ | _,m,e,hm⟩
  case finite.negative | finite.positive =>
    have hpos : (0 : ℝ) ≤ magnitude m e := by exact_mod_cast (magnitude_pos hm e).le
    simp [UnpackedFloat.abs,real,signed,abs_of_nonneg hpos]
  all_goals simp [UnpackedFloat.abs,real]

theorem isFinite_abs (x : Float) : x.abs.isFinite = x.isFinite := by
  change (decode x.abs).isFinite = (decode x).isFinite
  rw [decode_abs]
  cases decode x <;> rfl

theorem rank_le_iff_real (hu : Canonical u) (hv : Canonical v) (hu' : u.isFinite = true)
    (hv' : v.isFinite = true) : rank u ≤ rank v ↔ real u ≤ real v := by
  rcases u with s | _ | s | ⟨s,m,e,hm⟩
  case infinity | notANumber => cases hu'
  all_goals
    rcases v with t | _ | t | ⟨t,n,i,hn⟩
    case infinity | notANumber => cases hv'
  case zero.zero => simp [rank,real]
  case zero.finite =>
    have := magnitude_pos hn i
    cases t <;> simp [rank,real,signed,Prod.Lex.toLex_le_toLex] <;> linarith
  case finite.zero =>
    have := magnitude_pos hm e
    cases s <;> simp [rank,real,signed,Prod.Lex.toLex_le_toLex] <;> linarith
  case finite.finite =>
    have hem : (0 : ℝ) < magnitude m e := by exact_mod_cast magnitude_pos hm e
    have hin : (0 : ℝ) < magnitude n i := by exact_mod_cast magnitude_pos hn i
    cases s <;> cases t
    case positive.positive =>
      rw [rank_le_iff hu.fits hv.fits,real,real,signed,signed,Rat.cast_le]
    case negative.negative =>
      have hflip : rank (.finite .negative m e hm) ≤ rank (.finite .negative n i hn) ↔
          rank (.finite .positive n i hn) ≤ rank (.finite .positive m e hm) := by
        simp [rank,Prod.Lex.toLex_le_toLex]
        omega
      rw [hflip,rank_le_iff hv.fits hu.fits,real,real,signed,signed,neg_le_neg_iff,Rat.cast_le]
    all_goals
      simp [rank,real,signed,Prod.Lex.toLex_le_toLex]
      linarith

theorem value_le_iff (hx : x.isFinite = true) (hy : y.isFinite = true) :
    value x ≤ value y ↔ x ≤ y := by
  rw [le_iff,value,value,← rank_le_iff_real (canonical_decode x) (canonical_decode y) hx hy]
  exact ⟨fun h => ⟨isNaN_of_isFinite hx,isNaN_of_isFinite hy,h⟩,fun h => h.2.2⟩

theorem value_lt_iff (hx : x.isFinite = true) (hy : y.isFinite = true) :
    value x < value y ↔ x < y := by
  rw [← not_le,value_le_iff hy hx,le_iff,lt_iff_rank,← not_le]
  simp only [isNaN_of_isFinite hx,isNaN_of_isFinite hy,true_and]

theorem unpacked_beq_iff (hu : u.isNaN = false) (hv : v.isNaN = false) :
    u.beq v = true ↔ rank u = rank v := by
  rcases u with s | _ | s | ⟨s,m,e,hm⟩
  case notANumber => cases hu
  all_goals
    rcases v with t | _ | t | ⟨t,n,i,hn⟩
    case notANumber => cases hv
    all_goals
      cases s <;> cases t <;> simp [UnpackedFloat.beq,UnpackedFloat.compare,rank,
        Ordering.then_eq_eq] <;> rfl

/-- The two zeros stand for the same number. -/
theorem value_eq_iff (hx : x.isFinite = true) (hy : y.isFinite = true) :
    value x = value y ↔ (x == y) = true := by
  have hbeq : (x == y) = (decode x).beq (decode y) := rfl
  have hrank := unpacked_beq_iff (u := decode x) (v := decode y) (isNaN_of_isFinite hx)
    (isNaN_of_isFinite hy)
  rw [hbeq,hrank,le_antisymm_iff,le_antisymm_iff,value,value,
    rank_le_iff_real (canonical_decode x) (canonical_decode y) hx hy,
    rank_le_iff_real (canonical_decode y) (canonical_decode x) hy hx]

theorem rank_neg_le_iff : rank u.neg ≤ rank v ↔ rank v.neg ≤ rank u := by
  rcases u with (_ | _) | _ | _ | ⟨_ | _,m,e,hm⟩ <;>
    rcases v with (_ | _) | _ | _ | ⟨_ | _,n,i,hn⟩ <;>
    simp [UnpackedFloat.neg,rank,Prod.Lex.toLex_le_toLex]  <;> omega

theorem isNaN_neg (x : Float) : (-x).isNaN = x.isNaN := by
  rw [isNaN_eq,isNaN_eq,decode_neg]
  cases decode x <;> rfl

theorem neg_le_iff : -x ≤ y ↔ -y ≤ x := by
  rw [le_iff,le_iff,decode_neg,decode_neg,rank_neg_le_iff,isNaN_neg,isNaN_neg]
  tauto

theorem neg_le_neg_iff : -x ≤ -y ↔ y ≤ x := by
  rw [neg_le_iff,neg_neg]

theorem isTop_of_not_finite (h : x.isFinite = false) (hx : x.isNaN = false) :
    Scalar.isTop x = true ∨ Scalar.isTop (-x) = true := by
  rw [isTop_iff,isTop_iff,decode_neg]
  rw [isNaN_eq] at hx
  change (decode x).isFinite = false at h
  cases hd : decode x with
  | notANumber => rw [hd] at hx; cases hx
  | infinity s =>
    cases s with
    | negative => exact .inr rfl
    | positive => exact .inl rfl
  | zero s => rw [hd] at h; cases h
  | finite s m e hm => rw [hd] at h; cases h

theorem not_isTop (h : x.isFinite = true) : ¬Scalar.isTop x = true := by
  rw [isTop_iff]
  intro hx
  change (decode x).isFinite = true at h
  rw [hx] at h
  cases h

/-- What is between finite doubles is finite. -/
theorem isFinite_of_between (hx : x.isFinite = true) (hz : z.isFinite = true) (h : x ≤ y)
    (h' : y ≤ z) : y.isFinite = true := by
  apply Bool.of_not_eq_false
  intro hy
  rcases isTop_of_not_finite hy (le_iff.mp h').1 with htop | htop
  · exact not_isTop hz (isTop_of_le htop h')
  · exact not_isTop ((isFinite_neg x).trans hx) (isTop_of_le htop (neg_le_neg_iff.mpr h))

/-- The largest finite double. -/
def largest : Float := encode (.finite .positive (2 ^ 53 - 1) 971 (by decide))

/-- The least positive double. -/
def least : Float := encode (.finite .positive 1 (-1074) (by decide))

theorem value_encode_finite {hm : 0 < m} (h : Canonical (.finite .positive m e hm)) :
    value (encode (.finite .positive m e hm)) = m * 2 ^ e := by
  rw [value,decode_encode h]
  simp [real,signed,magnitude]

theorem value_largest : value largest = (2 ^ 53 - 1) * 2 ^ 971 := by
  rw [largest,value_encode_finite ⟨by decide,by decide,by decide,.inl (by decide)⟩]
  push_cast
  norm_num

theorem value_least : value least = (2 : ℝ) ^ (-1074 : Int) := by
  rw [least,value_encode_finite ⟨by decide,by decide,by decide,.inr rfl⟩]
  norm_num

/-- No positive double is less than the least. -/
theorem least_le (h : 0 < value x) : value least ≤ value x := by
  have hc := canonical_decode x
  rw [value_least]
  unfold value at h ⊢
  cases hd : decode x with
  | finite s m e hm =>
    rw [hd] at h hc
    cases s with
    | negative =>
      have hpos : (0 : ℝ) < magnitude m e := Rat.cast_pos.mpr (magnitude_pos hm e)
      simp only [real,signed] at h
      linarith
    | positive =>
      have hle := (Rat.cast_le (K := ℝ)).mpr (magnitude_mono hm hc.fits.lowest)
      simpa [real,signed,magnitude] using hle
  | _ => rw [hd] at h; exact absurd h (lt_irrefl _)

theorem isFinite_largest : largest.isFinite = true := by
  decide +kernel

theorem isFinite_least : least.isFinite = true := by
  decide +kernel

/-- Powers of two among the doubles of full precision. -/
theorem value_ofBits {c : UInt64} {e : Int} (he : -1074 ≤ e) (he' : e ≤ 971)
    (h : Float.ofBits c = encode (.finite .positive (2 ^ 52) e (by decide))) :
    value (Float.ofBits c) = 2 ^ (52 + e) := by
  rw [h,value_encode_finite ⟨by decide,he,he',.inl (by decide)⟩,zpow_add₀ two_ne_zero]
  norm_num

end LinearInverse.Binary64
