import LinearInverse.Proofs.Binary64.Hypot
import LinearInverse.Prox.SoftThreshold

namespace LinearInverse

namespace ProxOperator.SoftThreshold
open Binary64

variable {t m a v : Float} {z : Cplx Float}

/-- Neither infinite nor undefined, and no larger. -/
def Shrunk (v w : Float) : Prop := w.isFinite = true ∧ w.abs ≤ v.abs

theorem shrunk_mul (hv : v.isFinite = true) (ha : a.isFinite = true) (ha0 : 0 ≤ value a)
    (ha1 : value a ≤ 1) : Shrunk v (v * a) := by
  have hr : |value v * value a| ≤ value v.abs := by
    rw [value_abs,abs_mul,abs_of_nonneg ha0]
    exact mul_le_of_le_one_right (abs_nonneg _) ha1
  obtain ⟨hfin,hle⟩ := (rounds_mul hv ha).bounded ((isFinite_abs v).trans hv) hr
  refine ⟨hfin,(value_le_iff ((isFinite_abs _).trans hfin) ((isFinite_abs v).trans hv)).mp ?_⟩
  rwa [value_abs]

theorem shrunk_zero (hv : v.isFinite = true) : Shrunk v 0 := by
  refine ⟨rfl,(value_le_iff rfl ((isFinite_abs v).trans hv)).mp ?_⟩
  rw [value_abs,value_abs]
  exact (congrArg abs value_zero).trans_le (abs_zero.trans_le (abs_nonneg _))

/-- The same number, but for the sign of zero. -/
def Kept (v w : Float) : Prop := (w == v) = true

theorem kept_mul (hv : v.isFinite = true) (ha : a.isFinite = true) (ha1 : value a = 1) :
    Kept v (v * a) := by
  obtain ⟨hfin,hval⟩ := (rounds_mul hv ha).value_eq hv (by rw [ha1]; ring)
  exact (value_eq_iff hfin hv).mp hval

section
variable (hm : m.isFinite = true) (ht : t.isFinite = true) (ht0 : 0 ≤ value t) (h : t < m)
include hm ht ht0 h

/-- What is left of a magnitude. -/
theorem rest_bounds : (m - t).isFinite = true ∧ 0 ≤ value (m - t) ∧ value (m - t) ≤ value m := by
  have hlt := (value_lt_iff ht hm).mpr h
  have hrest := (rounds_sub hm ht).between (y := Zero.zero) rfl hm
    (by rw [value_zero]; linarith) (by linarith)
  rwa [value_zero] at hrest

theorem factor_bounds : ((m - t) / m).isFinite = true ∧ 0 ≤ value ((m - t) / m) ∧
    value ((m - t) / m) ≤ 1 := by
  obtain ⟨hd,hd0,hdm⟩ := rest_bounds hm ht ht0 h
  have hm0 : 0 < value m := ht0.trans_lt ((value_lt_iff ht hm).mpr h)
  have hfactor := (rounds_div hd hm hm0.ne').between (y := Zero.zero) (z := One.one) rfl
    (by decide +kernel) (by rw [value_zero]; exact div_nonneg hd0 hm0.le)
    (by rw [value_one]; exact div_le_one_of_le₀ hdm hm0.le)
  rwa [value_zero,value_one] at hfactor

/-- Nothing is taken off by a threshold of zero. -/
theorem value_factor (ht' : value t = 0) : value ((m - t) / m) = 1 := by
  have hm0 : 0 < value m := ht0.trans_lt ((value_lt_iff ht hm).mpr h)
  obtain ⟨hd,hdm⟩ := (rounds_sub hm ht).value_eq hm (by rw [ht',sub_zero])
  have hone := (rounds_div hd hm hm0.ne').value_eq (y := One.one) (by decide +kernel)
    (by rw [hdm,div_self hm0.ne',value_one])
  exact hone.2.trans value_one

end

/-- Both parts are finite. -/
structure FiniteParts (z : Cplx Float) : Prop where
  re : z.re.isFinite = true
  im : z.im.isFinite = true

/-- The exact magnitude. -/
noncomputable def modulus (z : Cplx Float) : ℝ := hypotenuse z.re z.im

theorem measures_magnitude (hz : FiniteParts z) : Measures z.magnitude (modulus z) :=
  measures_hypot hz.re hz.im

theorem modulus_nonneg (z : Cplx Float) : 0 ≤ modulus z :=
  Real.sqrt_nonneg _

/-- Only zeros have the modulus zero. -/
theorem value_eq_zero (h : modulus z = 0) : value z.re = 0 ∧ value z.im = 0 := by
  have hsum := mul_self_hypotenuse z.re z.im
  rw [show hypotenuse z.re z.im = 0 from h] at hsum
  have hre := mul_self_nonneg (value z.re)
  have him := mul_self_nonneg (value z.im)
  exact ⟨mul_self_eq_zero.mp (by linarith),mul_self_eq_zero.mp (by linarith)⟩

section
variable (hz : FiniteParts z) (hm : z.magnitude.isFinite = true) (ht : t.isFinite = true)
  (ht0 : 0 ≤ value t)
include hz hm ht ht0

theorem shrunk_shrink : Shrunk z.re (shrink t z).re ∧ Shrunk z.im (shrink t z).im := by
  unfold shrink
  dsimp only
  split
  next h =>
    obtain ⟨ha,ha0,ha1⟩ := factor_bounds hm ht ht0 h
    exact ⟨shrunk_mul hz.re ha ha0 ha1,shrunk_mul hz.im ha ha0 ha1⟩
  next => exact ⟨shrunk_zero hz.re,shrunk_zero hz.im⟩

theorem kept_shrink (ht' : value t = 0) :
    Kept z.re (shrink t z).re ∧ Kept z.im (shrink t z).im := by
  unfold shrink
  dsimp only
  split
  next h =>
    obtain ⟨ha,-,-⟩ := factor_bounds hm ht ht0 h
    have ha1 := value_factor hm ht ht0 h ht'
    exact ⟨kept_mul hz.re ha ha1,kept_mul hz.im ha ha1⟩
  next h =>
    have hle : value z.magnitude ≤ 0 := ht' ▸ not_lt.mp fun hlt => h ((value_lt_iff ht hm).mp hlt)
    have hzero : modulus z = 0 := by
      refine le_antisymm (not_lt.mp fun hpos => ?_) (modulus_nonneg z)
      exact absurd ((measures_magnitude hz).pos hpos hm) (not_lt.mpr hle)
    obtain ⟨hre,him⟩ := value_eq_zero hzero
    exact ⟨(value_eq_iff rfl hz.re).mp (value_zero.trans hre.symm),
      (value_eq_iff rfl hz.im).mp (value_zero.trans him.symm)⟩

end

/-- Infinity less a number is infinite, and infinity over infinity undefined. -/
theorem factor_undefined (hm : decode m = .infinity .positive) (ht : t.isFinite = true) :
    decode ((m - t) / m) = .notANumber := by
  have ht' := (isFinite_neg t).trans ht
  have hrest : decode (m - t) = .infinity .positive := by
    rw [sub_eq,add_eq,hm]
    obtain ⟨s,hd⟩ | ⟨s,n,e,hn,hd⟩ := decode_of_isFinite ht' <;> rw [hd] <;>
      exact decode_encode_infinity .positive
  rw [div_eq,hrest,hm]
  exact decode_encode (u := .notANumber) trivial

theorem isNaN_mul_undefined (ha : decode a = .notANumber) (v : Float) : (v * a).isNaN = true := by
  have hmul : Float.Model.UnpackedFloat.mul .binary64 (decode v) .notANumber = .notANumber := by
    cases decode v <;> rfl
  rw [mul_eq,ha,hmul]
  exact isNaN_encode_notANumber

theorem decode_magnitude (hz : FiniteParts z) (hm : z.magnitude.isFinite = false) :
    decode z.magnitude = .infinity .positive := by
  have hmeasures := measures_magnitude hz
  rcases isTop_of_not_finite hm hmeasures.isNaN with htop | htop
  · exact isTop_iff.mp htop
  · have hneg := Binary64.neg_le_neg_iff.mpr (hmeasures.nonneg (modulus_nonneg z))
    exact absurd (isTop_of_le htop hneg) (not_isTop rfl)

theorem undefined_shrink (hz : FiniteParts z) (hm : z.magnitude.isFinite = false)
    (ht : t.isFinite = true) :
    (shrink t z).re.isNaN = true ∧ (shrink t z).im.isNaN = true := by
  have hinf := decode_magnitude hz hm
  have hlt : t < z.magnitude := by
    by_contra hlt
    have hle := le_of_not_lt (isNaN_of_isFinite ht) (measures_magnitude hz).isNaN hlt
    exact not_isTop ht (isTop_of_le (isTop_iff.mpr hinf) hle)
  have hfactor := factor_undefined hinf ht
  unfold shrink
  dsimp only
  rw [if_pos hlt]
  exact ⟨isNaN_mul_undefined hfactor z.re,isNaN_mul_undefined hfactor z.im⟩

/-- What becomes of an element. -/
structure Thresholded (weight : Float) (z w : Cplx Float) : Prop where
  shrunk : z.magnitude.isFinite = true → Shrunk z.re w.re ∧ Shrunk z.im w.im
  kept : z.magnitude.isFinite = true → (weight == 0) = true → Kept z.re w.re ∧ Kept z.im w.im
  undefined : z.magnitude.isFinite = false → w.re.isNaN = true ∧ w.im.isNaN = true
  short : modulus z ≤ (1 - 2 ^ (-45 : Int)) * 2 ^ (1024 : Int) → z.magnitude.isFinite = true
  long : (1 + 2 ^ (-45 : Int)) * 2 ^ (1024 : Int) ≤ modulus z → z.magnitude.isFinite = false

theorem forall₂_interleave {R : Float → Float → Prop} {src : List Float}
    (heven : src.length % 2 = 0) (f : Cplx Float → Cplx Float) :
    List.Forall₂ R src (Cplx.interleave ((Cplx.pairs src).map f)) ↔
      ∀ z ∈ Cplx.pairs src, R z.re (f z).re ∧ R z.im (f z).im := by
  have hsrc := Cplx.interleave_pairs src heven
  generalize Cplx.pairs src = zs at hsrc ⊢
  subst hsrc
  clear heven
  induction zs with
  | nil => simp [Cplx.interleave]
  | cons z zs ih => simp [Cplx.interleave,ih,and_assoc]

/-- What the parts keep to unless they become undefined holds of all of them exactly if no magnitude
overflows. -/
theorem forall₂_iff {R : Float → Float → Prop} {src : List Float} {f : Cplx Float → Cplx Float}
    (heven : src.length % 2 = 0) (hR : ∀ {v w : Float}, w.isNaN = true → ¬R v w)
    (h : ∀ z ∈ Cplx.pairs src, (z.magnitude.isFinite = true → R z.re (f z).re ∧ R z.im (f z).im) ∧
      (z.magnitude.isFinite = false → (f z).re.isNaN = true)) :
    List.Forall₂ R src (Cplx.interleave ((Cplx.pairs src).map f)) ↔
      ∀ z ∈ Cplx.pairs src, z.magnitude.isFinite = true := by
  rw [forall₂_interleave heven]
  refine forall₂_congr fun z hz => ⟨fun hparts => ?_,(h z hz).1⟩
  apply Bool.of_not_eq_false
  intro hm
  exact hR ((h z hz).2 hm) hparts.1

theorem finite_of_mem : (src : List Float) → (∀ v ∈ src, v.isFinite = true) →
    ∀ z ∈ Cplx.pairs src, FiniteParts z
  | [], _, _, hz => absurd hz List.not_mem_nil
  | [_], _, _, hz => absurd hz List.not_mem_nil
  | re::im::rest, h, z, hz => by
    rcases List.mem_cons.mp hz with rfl | hz
    · exact ⟨h re (by simp),h im (by simp)⟩
    · exact finite_of_mem rest (fun v hv => h v (by simp [hv])) z hz

variable {weight mu : Float}

theorem zero_le_threshold (hw : 0 ≤ weight) (hmu : 0 ≤ mu) (ht : (weight * mu).isFinite = true) :
    0 ≤ value (weight * mu) := by
  obtain ⟨hw',hmu'⟩ := isFinite_mul ht
  have hprod : 0 ≤ value weight * value mu := by
    rw [← value_le_iff rfl hw'] at hw
    rw [← value_le_iff rfl hmu'] at hmu
    exact mul_nonneg (value_zero.symm.trans_le hw) (value_zero.symm.trans_le hmu)
  have hge := (rounds_mul hw' hmu').ge Zero.zero rfl (value_zero.trans_le hprod)
  exact value_zero.symm.trans_le ((value_le_iff rfl ht).mpr hge)

theorem value_threshold (hw : (weight == 0) = true) (ht : (weight * mu).isFinite = true) :
    value (weight * mu) = 0 := by
  obtain ⟨s,hs⟩ := decode_of_beq_zero (zero_mul_of_isFinite hw (isFinite_mul ht).2)
  exact congrArg real hs

theorem thresholded (hz : FiniteParts z) (hw : 0 ≤ weight) (hmu : 0 ≤ mu)
    (ht : (weight * mu).isFinite = true) : Thresholded weight z (shrink (weight * mu) z) where
  shrunk hm := shrunk_shrink hz hm ht (zero_le_threshold hw hmu ht)
  kept hm hw0 := kept_shrink hz hm ht (zero_le_threshold hw hmu ht) (value_threshold hw0 ht)
  undefined hm := undefined_shrink hz hm ht
  short h := (measures_magnitude hz).isFinite (modulus_nonneg z) h
  long h := (measures_magnitude hz).not_isFinite h

theorem not_shrunk {v w : Float} (hw : w.isNaN = true) : ¬Shrunk v w := by
  rintro ⟨hfin,-⟩
  rw [isNaN_of_isFinite hfin] at hw
  cases hw

theorem not_kept {v w : Float} (hw : w.isNaN = true) : ¬Kept v w := by
  have hbeq : (w == v) = (decode w).beq (decode v) := rfl
  rw [Kept,hbeq,decode_of_isNaN hw]
  cases decode v <;> exact Bool.false_ne_true

end ProxOperator.SoftThreshold

namespace ProxOperator
open SoftThreshold

/-- Finite data stay finite and grow nowhere, and a weight of zero keeps them, exactly if no
magnitude overflows. -/
theorem softThreshold_tame_iff {weight mu : Float} {dst src : List Float}
    (hsrc : ∀ v ∈ src, v.isFinite = true) (heven : src.length % 2 = 0)
    (hdst : dst.length = src.length) (hw : 0 ≤ weight) (hmu : 0 ≤ mu)
    (ht : (weight * mu).isFinite = true) :
    ∃ out, (softThreshold weight).apply mu dst src = .ok out ∧
      (List.Forall₂ Shrunk src out ↔ ∀ z ∈ Cplx.pairs src, z.magnitude.isFinite = true) ∧
      ((weight == 0) = true →
        (List.Forall₂ Kept src out ↔ ∀ z ∈ Cplx.pairs src, z.magnitude.isFinite = true)) ∧
      List.Forall₂ (Thresholded weight) (Cplx.pairs src) (Cplx.pairs out) := by
  have hall : ∀ z ∈ Cplx.pairs src, Thresholded weight z (shrink (weight * mu) z) := fun z hz =>
    thresholded (finite_of_mem src hsrc z hz) hw hmu ht
  refine ⟨_,apply_eq hdst heven,?_,fun hw0 => ?_,?_⟩
  · exact forall₂_iff heven not_shrunk fun z hz =>
      ⟨(hall z hz).shrunk,fun hm => ((hall z hz).undefined hm).1⟩
  · exact forall₂_iff heven not_kept fun z hz =>
      ⟨fun hm => (hall z hz).kept hm hw0,fun hm => ((hall z hz).undefined hm).1⟩
  · rw [Cplx.pairs_interleave,List.forall₂_map_right_iff,List.forall₂_same]
    exact hall

/-- The magnitude five is shortened to four. -/
theorem softThreshold_three_four : ∃ out,
    (softThreshold (1 : Float)).apply 1 [0,0] [3,4] = .ok out ∧
      List.Forall₂ Shrunk [3,4] out := by
  obtain ⟨out,happly,hiff,-⟩ := @softThreshold_tame_iff 1 1 [0,0] [3,4] (by decide +kernel) rfl rfl
    (by decide +kernel) (by decide +kernel) (by decide +kernel)
  exact ⟨out,happly,hiff.mpr (by decide +kernel)⟩

/-- A zero weight makes an element undefined of which both parts are finite. -/
theorem softThreshold_overflow :
    (∀ v ∈ [(1.5e308 : Float),1.5e308], v.isFinite = true) ∧
    (0 : Float) ≤ 0 ∧ (0 : Float) ≤ 1 ∧ ((0 : Float) * 1).isFinite = true ∧
    ∃ out, (softThreshold (0 : Float)).apply 1 [0,0] [1.5e308,1.5e308] = .ok out ∧
      ¬List.Forall₂ Shrunk [1.5e308,1.5e308] out ∧ ¬List.Forall₂ Kept [1.5e308,1.5e308] out := by
  have hnan : (shrink (0 * 1) (⟨1.5e308,1.5e308⟩ : Cplx Float)).re.isNaN = true := by
    decide +kernel
  have hfin : (1.5e308 : Float).isFinite = true := by decide +kernel
  generalize (1.5e308 : Float) = c at hnan hfin ⊢
  have happly : SoftThreshold.apply (0 : Float) 1 [0,0] [c,c] =
      .ok (Cplx.interleave ([⟨c,c⟩].map (shrink (0 * 1)))) := apply_eq (by simp) (by simp)
  refine ⟨by simp [hfin],by decide +kernel,by decide +kernel,by decide +kernel,_,happly,?_,?_⟩
  · rintro (_ | ⟨hshrunk,-⟩)
    exact not_shrunk hnan hshrunk
  · rintro (_ | ⟨hkept,-⟩)
    exact not_kept hnan hkept

end ProxOperator

end LinearInverse
