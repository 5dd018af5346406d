import LinearInverse.Proofs.Binary64.Triangle

namespace LinearInverse.Binary64
open Scalar.Binary64

variable {x y a b c : Float} {s : ℝ}

theorem zpow_mul_le {p q r : Int} (h : p + q ≤ r) : (2 : ℝ) ^ p * 2 ^ q ≤ 2 ^ r := by
  rw [← zpow_add₀ two_ne_zero]
  exact zpow_le_zpow_right₀ one_le_two h

theorem le_zpow_mul {p q r : Int} (h : r ≤ p + q) : (2 : ℝ) ^ r ≤ 2 ^ p * 2 ^ q := by
  rw [← zpow_add₀ two_ne_zero]
  exact zpow_le_zpow_right₀ one_le_two h

/-- Two to the power of 600 and its inverse, by which legs are scaled. -/
theorem value_up : value (Float.ofBits 0x6570000000000000) = 2 ^ (600 : Int) :=
  value_ofBits (e := 548) (by decide) (by decide) (by decide +kernel)

theorem value_down : value (Float.ofBits 0x1A70000000000000) = 2 ^ (-600 : Int) :=
  value_ofBits (e := -652) (by decide) (by decide) (by decide +kernel)

theorem up_mul_down :
    value (Float.ofBits 0x6570000000000000) * value (Float.ofBits 0x1A70000000000000) = 1 := by
  rw [value_up,value_down,← zpow_add₀ two_ne_zero]
  rfl

theorem value_gap : value (Float.ofBits 0x4350000000000000) = 2 ^ (54 : Int) :=
  value_ofBits (e := 2) (by decide) (by decide) (by decide +kernel)

theorem value_high : value (Float.ofBits 0x5FE0000000000000) = 2 ^ (511 : Int) :=
  value_ofBits (e := 459) (by decide) (by decide) (by decide +kernel)

theorem value_low : value (Float.ofBits 0x2340000000000000) = 2 ^ (-459 : Int) :=
  value_ofBits (e := -511) (by decide) (by decide) (by decide +kernel)

/-- What `hypot` does with the longer leg `a` and the shorter leg `b`. -/
def longSide (a b : Float) : Float :=
  if b * Float.ofBits 0x4350000000000000 ≤ a then a + b
  else if Float.ofBits 0x5FE0000000000000 < a then
    correctedRoot (a * Float.ofBits 0x1A70000000000000) (b * Float.ofBits 0x1A70000000000000) *
      Float.ofBits 0x6570000000000000
  else if b < Float.ofBits 0x2340000000000000 then
    correctedRoot (a * Float.ofBits 0x6570000000000000) (b * Float.ofBits 0x6570000000000000) *
      Float.ofBits 0x1A70000000000000
  else correctedRoot a b

/-- Finite legs, the longer one first. -/
structure Legs (a b : Float) : Prop where
  left : a.isFinite = true
  right : b.isFinite = true
  nonneg : 0 ≤ value b
  order : value b ≤ value a

/-- The exact long side. -/
noncomputable def hypotenuse (a b : Float) : ℝ :=
  Real.sqrt (value a * value a + value b * value b)

theorem hypotenuse_comm (a b : Float) : hypotenuse a b = hypotenuse b a := by
  unfold hypotenuse
  congr 1
  ring

theorem hypotenuse_abs (a b : Float) : hypotenuse a.abs b.abs = hypotenuse a b := by
  rw [hypotenuse,value_abs,value_abs,abs_mul_abs_self,abs_mul_abs_self,hypotenuse]

theorem isInf_of_isFinite (h : x.isFinite = true) : x.isInf = false := by
  change (decode x).isInf = false
  obtain ⟨s,hd⟩ | ⟨s,m,e,hm,hd⟩ := decode_of_isFinite h <;> rw [hd] <;> rfl

theorem legs_abs (hx : x.isFinite = true) (hy : y.isFinite = true)
    (h : value y.abs ≤ value x.abs) : Legs x.abs y.abs where
  left := (isFinite_abs x).trans hx
  right := (isFinite_abs y).trans hy
  nonneg := value_abs y ▸ abs_nonneg _
  order := h

/-- With finite legs only the order of the two is left to decide. -/
theorem hypot_eq_longSide (hx : x.isFinite = true) (hy : y.isFinite = true) :
    hypot x y = if x.abs < y.abs then longSide y.abs x.abs else longSide x.abs y.abs := by
  simp only [hypot,isInf_of_isFinite hx,isInf_of_isFinite hy,isNaN_of_isFinite hx,
    isNaN_of_isFinite hy,Bool.or_self,Bool.false_eq_true,↓reduceIte]
  split <;> rfl

theorem le_hypotenuse (a b : Float) : value a ≤ hypotenuse a b :=
  Real.le_sqrt_of_sq_le (by nlinarith [mul_self_nonneg (value b)])

theorem mul_self_hypotenuse (a b : Float) :
    hypotenuse a b * hypotenuse a b = value a * value a + value b * value b :=
  Real.mul_self_sqrt (add_nonneg (mul_self_nonneg _) (mul_self_nonneg _))

/-- `z` stands for a number that differs from `s` in its last places only, and which is not below
the least double unless `s` is zero. -/
def Measures (z : Float) (s : ℝ) : Prop :=
  ∃ r, Rounds z r ∧ |r - s| ≤ 64 * ulp * s ∧ (0 < s → value least ≤ r)

theorem value_least_pos : 0 < value least := by
  rw [value_least]
  exact zpow_pos two_pos _

namespace Legs
variable (h : Legs a b)
include h

theorem left_nonneg : 0 ≤ value a :=
  h.nonneg.trans h.order

theorem hypotenuse_le_add : hypotenuse a b ≤ value a + value b := by
  have := mul_nonneg h.left_nonneg h.nonneg
  exact Real.sqrt_le_iff.mpr ⟨add_nonneg h.left_nonneg h.nonneg,by linarith⟩

theorem rounds_gap : Rounds (b * Float.ofBits 0x4350000000000000) (value b * 2 ^ 54) := by
  have hrounds := rounds_mul h.right (y := Float.ofBits 0x4350000000000000) (by decide +kernel)
  rwa [value_gap] at hrounds

theorem right_le_of_gap (hle : b * Float.ofBits 0x4350000000000000 ≤ a) :
    2 ^ 53 * value b ≤ value a := by
  have hgap := h.rounds_gap
  have hnonneg : Zero.zero ≤ b * Float.ofBits 0x4350000000000000 :=
    hgap.ge _ rfl (by have := h.nonneg; rw [value_zero]; positivity)
  have hfin := isFinite_of_between rfl h.left hnonneg hle
  have hvalue := (value_le_iff hfin h.left).mpr hle
  have hnear := (abs_le.mp (hgap.near hfin)).1
  rw [abs_of_nonneg (by have := h.nonneg; positivity)] at hnear
  rcases h.nonneg.eq_or_lt with hb | hb
  · rw [← hb]
    simpa using h.left_nonneg
  · have := least_le hb
    nlinarith [ulp_le]

theorem hypotenuse_pos (hb : 0 < value b) : 0 < hypotenuse a b :=
  hb.trans_le (h.order.trans (le_hypotenuse a b))

/-- A leg that is lost in the last places of the other is added to it. -/
theorem measures_add (hle : b * Float.ofBits 0x4350000000000000 ≤ a) :
    Measures (a + b) (hypotenuse a b) := by
  have hgap := h.right_le_of_gap hle
  have hlow := le_hypotenuse a b
  have hhigh := h.hypotenuse_le_add
  have ha := h.left_nonneg
  have hb := h.nonneg
  refine ⟨_,rounds_add h.left h.right,?_,fun hpos => ?_⟩
  · rw [abs_of_nonneg (by linarith)]
    have hulp : 1 / 2 ^ 53 ≤ 64 * ulp := by norm_num [ulp_eq]
    calc value a + value b - hypotenuse a b ≤ value b := by linarith
      _ ≤ 1 / 2 ^ 53 * value a := by linarith
      _ ≤ 64 * ulp * hypotenuse a b := by gcongr
  · have hapos : 0 < value a := by linarith
    linarith [least_le hapos]

theorem lt_of_not_gap (hle : ¬b * Float.ofBits 0x4350000000000000 ≤ a) :
    value a < value b * 2 ^ 54 :=
  not_le.mp fun hge => hle (h.rounds_gap.le a h.left hge)

/-- With both legs positive the long side is well above the least double. -/
theorem measures (hb : 0 < value b) {z : Float} {r : ℝ} (hz : Rounds z r)
    (hr : |r - hypotenuse a b| ≤ 64 * ulp * hypotenuse a b) : Measures z (hypotenuse a b) := by
  refine ⟨r,hz,hr,fun hpos => ?_⟩
  have hsq := mul_self_hypotenuse a b
  have hlong : 7 / 5 * value b ≤ hypotenuse a b := by
    apply le_of_not_gt
    intro hlt
    nlinarith [h.order]
  have hulp : 64 * ulp * hypotenuse a b ≤ 1 / 1000 * hypotenuse a b := by
    have := ulp_le
    gcongr
    linarith
  have := (abs_le.mp hr).1
  linarith [least_le hb]

end Legs

/-- Legs whose squares are in range make a triangle, also where they are not quite in order. -/
theorem triangle_of (ha : a.isFinite = true) (hb : b.isFinite = true) (ha0 : 0 ≤ value a)
    (hb0 : 0 ≤ value b) (hba : value b ≤ 101 / 100 * value a)
    (hs : Scale (value a * value a + value b * value b)) :
    Triangle (hypotenuse a b) a b (value a / hypotenuse a b) (value b / hypotenuse a b) := by
  have hsq := mul_self_hypotenuse a b
  have hle := le_hypotenuse a b
  have hpos : 0 < hypotenuse a b := Real.sqrt_pos.mpr hs.pos
  refine ⟨by rwa [hsq],hpos,⟨ha,(div_mul_cancel₀ _ hpos.ne').symm⟩,
    ⟨hb,(div_mul_cancel₀ _ hpos.ne').symm⟩,?_,⟨div_nonneg ha0 hpos.le,div_nonneg hb0 hpos.le⟩,?_⟩
  · field_simp
    linarith
  · rw [div_le_iff₀ hpos,add_mul,div_mul_cancel₀ _ hpos.ne']
    linarith

/-- The squares of legs of moderate length are in range. -/
theorem scale_of_moderate {p q : ℝ} (hp : 99 / 100 * 2 ^ (-500 : Int) ≤ p)
    (hp' : p ≤ 101 / 100 * 2 ^ (500 : Int)) (hq : 0 ≤ q) (hqp : q ≤ 101 / 100 * p) :
    Scale (p * p + q * q) := by
  have hlow : (2 : ℝ) ^ (-1010 : Int) =
      2 ^ (-10 : Int) * (2 ^ (-500 : Int) * 2 ^ (-500 : Int)) := by
    rw [← zpow_add₀ two_ne_zero,← zpow_add₀ two_ne_zero]
    rfl
  have hhigh : (2 : ℝ) ^ (1023 : Int) = 2 ^ (23 : Int) * (2 ^ (500 : Int) * 2 ^ (500 : Int)) := by
    rw [← zpow_add₀ two_ne_zero,← zpow_add₀ two_ne_zero]
    rfl
  have hv : (0 : ℝ) < 2 ^ (-500 : Int) := zpow_pos two_pos _
  have hp0 : 0 < p := by linarith
  have hqq : q * q ≤ 101 / 100 * p * (101 / 100 * p) := mul_self_le_mul_self hq hqp
  constructor
  · rw [hlow]
    generalize (2 : ℝ) ^ (-500 : Int) = v at hp hv
    norm_num
    nlinarith
  · have hpp := mul_self_le_mul_self hp0.le hp'
    rw [hhigh]
    generalize (2 : ℝ) ^ (500 : Int) = w at hpp
    norm_num
    nlinarith

theorem abs_square_sub_le {p q : ℝ} (hp : 0 ≤ p) (h : |q - p| ≤ 2 * ulp * p) :
    |q * q - p * p| ≤ 5 * ulp * (p * p) := by
  have hulp : ulp * p ≤ 1 / 10 ^ 15 * p := mul_le_mul_of_nonneg_right ulp_le hp
  obtain ⟨hlo,hhi⟩ := abs_le.mp h
  have hsum : |q + p| ≤ 5 / 2 * p := abs_le.mpr ⟨by linarith,by linarith⟩
  calc |q * q - p * p| = |q - p| * |q + p| := by rw [← abs_mul]; ring_nf
    _ ≤ 2 * ulp * p * (5 / 2 * p) := by
      have := ulp_pos
      gcongr
    _ = 5 * ulp * (p * p) := by ring

/-- Scaling by a number within range costs a rounding. -/
theorem near_mul (ha : a.isFinite = true) (hc : c.isFinite = true)
    (hs : Scale (value a * value c)) : Near (value a * value c) (a * c) 1 2 :=
  (Near.of_rounds hs (rounds_mul ha hc) (a := 0) (by norm_num) (by norm_num) (by simp)).mono
    hs.pos (by norm_num)

/-- Both legs are scaled, by a factor that leaves them of moderate length. -/
theorem Legs.scaled (h : Legs a b) (hc : c.isFinite = true) (hpos : 0 < value c)
    (hlow : 2 ^ (-500 : Int) ≤ value b * value c) (hhigh : value a * value c ≤ 2 ^ (500 : Int)) :
    |hypotenuse (a * c) (b * c) - hypotenuse a b * value c| ≤
        5 * ulp * (hypotenuse a b * value c) ∧
      Near (hypotenuse (a * c) (b * c)) (correctedRoot (a * c) (b * c)) 1 56 := by
  have horder := mul_le_mul_of_nonneg_right h.order hpos.le
  have hmin : (2 : ℝ) ^ (-1010 : Int) ≤ 2 ^ (-500 : Int) :=
    zpow_le_zpow_right₀ one_le_two (by decide)
  have hmax : (2 : ℝ) ^ (500 : Int) ≤ 2 ^ (1023 : Int) :=
    zpow_le_zpow_right₀ one_le_two (by decide)
  have hna := near_mul h.left hc ⟨hmin.trans (hlow.trans horder),hhigh.trans hmax⟩
  have hnb := near_mul h.right hc ⟨hmin.trans hlow,horder.trans (hhigh.trans hmax)⟩
  have hb : 0 < value b * value c := (zpow_pos two_pos _).trans_le hlow
  have ha : 0 < value a * value c := hb.trans_le horder
  have hda : |value (a * c) - value a * value c| ≤ 2 * ulp * (value a * value c) := by
    simpa [mul_assoc] using hna.near
  have hdb : |value (b * c) - value b * value c| ≤ 2 * ulp * (value b * value c) := by
    simpa [mul_assoc] using hnb.near
  constructor
  · have hsq : hypotenuse a b * value c * (hypotenuse a b * value c) =
        value a * value c * (value a * value c) + value b * value c * (value b * value c) := by
      linear_combination value c * value c * mul_self_hypotenuse a b
    refine abs_sqrt_sub_le (add_nonneg (mul_self_nonneg _) (mul_self_nonneg _)) ?_ ?_
    · exact mul_pos (h.hypotenuse_pos (pos_of_mul_pos_left hb hpos.le)) hpos
    · rw [hsq,add_sub_add_comm,mul_add]
      exact (abs_add_le _ _).trans
        (add_le_add (abs_square_sub_le ha.le hda) (abs_square_sub_le hb.le hdb))
  · obtain ⟨hlo,hhi⟩ := abs_le.mp hda
    obtain ⟨hlo',hhi'⟩ := abs_le.mp hdb
    have hua := mul_le_mul_of_nonneg_right ulp_le ha.le
    have hub := mul_le_mul_of_nonneg_right ulp_le hb.le
    refine (triangle_of hna.finite hnb.finite (by linarith) (by linarith) (by linarith)
      (scale_of_moderate ?_ ?_ (by linarith) (by linarith))).near_correctedRoot
    · calc 99 / 100 * 2 ^ (-500 : Int) ≤ 99 / 100 * (value a * value c) := by linarith
        _ ≤ value (a * c) := by linarith
    · calc value (a * c) ≤ 101 / 100 * (value a * value c) := by linarith
        _ ≤ 101 / 100 * 2 ^ (500 : Int) := by linarith

/-- A long side that was scaled back. -/
theorem Legs.measures_scaled (h : Legs a b) {d : Float} (hc : c.isFinite = true)
    (hd : d.isFinite = true) (hcd : value c * value d = 1) (hpos : 0 < value c)
    (hlow : 2 ^ (-500 : Int) ≤ value b * value c) (hhigh : value a * value c ≤ 2 ^ (500 : Int)) :
    Measures (correctedRoot (a * c) (b * c) * d) (hypotenuse a b) := by
  obtain ⟨hs,hnear⟩ := h.scaled hc hpos hlow hhigh
  have hb : 0 < value b := pos_of_mul_pos_left ((zpow_pos two_pos _).trans_le hlow) hpos.le
  have hd0 : 0 < value d := pos_of_mul_pos_right (hcd.symm ▸ one_pos) hpos.le
  have hsc : 0 < hypotenuse a b * value c := mul_pos (h.hypotenuse_pos hb) hpos
  have hroot := hnear.near
  norm_num at hroot
  refine h.measures hb (rounds_mul hnear.finite hd) ?_
  generalize value (correctedRoot (a * c) (b * c)) = z at hroot ⊢
  generalize hypotenuse (a * c) (b * c) = s' at hs hroot
  have hz : |z - hypotenuse a b * value c| ≤ 64 * ulp * (hypotenuse a b * value c) := by
    have hs' := (abs_le.mp hs).2
    have husc := mul_pos ulp_pos hsc
    have huu := mul_le_mul_of_nonneg_right ulp_le husc.le
    have hus : ulp * s' ≤ ulp * (hypotenuse a b * value c + 5 * ulp * (hypotenuse a b * value c)) :=
      mul_le_mul_of_nonneg_left (by linarith) ulp_pos.le
    calc |z - hypotenuse a b * value c|
        ≤ |z - s'| + |s' - hypotenuse a b * value c| := abs_sub_le ..
      _ ≤ 64 * ulp * (hypotenuse a b * value c) := by linarith
  have hback : hypotenuse a b * value c * value d = hypotenuse a b := by
    rw [mul_assoc,hcd]
    ring
  calc |z * value d - hypotenuse a b| = |z - hypotenuse a b * value c| * value d := by
        rw [← abs_of_pos hd0,← abs_mul,abs_of_pos hd0,sub_mul,hback]
    _ ≤ 64 * ulp * (hypotenuse a b * value c) * value d := by gcongr
    _ = 64 * ulp * hypotenuse a b := by rw [mul_assoc,hback]

/-- Legs of which neither square over- or underflows need no scaling. -/
theorem Legs.measures_root (h : Legs a b) (hlow : 2 ^ (-459 : Int) ≤ value b)
    (hhigh : value a ≤ 2 ^ (511 : Int)) : Measures (correctedRoot a b) (hypotenuse a b) := by
  have hv : (0 : ℝ) < 2 ^ (-459 : Int) := zpow_pos two_pos _
  have hb : 0 < value b := hv.trans_le hlow
  have hvv : (2 : ℝ) ^ (-1010 : Int) ≤ 2 ^ (-459 : Int) * 2 ^ (-459 : Int) :=
    le_zpow_mul (by decide)
  have hww : (2 : ℝ) ^ (1023 : Int) = 2 * (2 ^ (511 : Int) * 2 ^ (511 : Int)) := by
    rw [← zpow_add₀ two_ne_zero,← zpow_one_add₀ two_ne_zero]
    rfl
  have hscale : Scale (value a * value a + value b * value b) := by
    have hbb := mul_self_le_mul_self hv.le hlow
    have haa := mul_self_le_mul_self h.left_nonneg hhigh
    have hba := mul_self_le_mul_self h.nonneg h.order
    refine ⟨hvv.trans (hbb.trans (le_add_of_nonneg_left (mul_self_nonneg _))),?_⟩
    rw [hww]
    linarith
  have hnear := (triangle_of h.left h.right h.left_nonneg h.nonneg
    (by linarith [h.order,h.left_nonneg]) hscale).near_correctedRoot
  refine h.measures hb (rounds_of_decode rfl hnear.finite) ?_
  have hle := hnear.near
  have hunit := mul_pos ulp_pos (h.hypotenuse_pos hb)
  norm_num at hle
  exact hle.trans (by linarith)

theorem lt_two_zpow (x : Float) : value x < 2 ^ (1024 : Int) := by
  have hlt := value_lt_magnitude (m := 2 ^ 52) (e := 972) le_rfl (by decide) x
  have hpow : (2 : ℝ) ^ (1024 : Int) = 4503599627370496 * 2 ^ (972 : Int) := by
    rw [show (1024 : Int) = 52 + 972 from rfl,zpow_add₀ two_ne_zero]
    congr 1
    norm_num
  rw [hpow]
  simpa [magnitude] using hlt

/-- A leg too long to be squared: the other one is not much shorter. -/
theorem Legs.measures_down (h : Legs a b) (hgap : value a < value b * 2 ^ (54 : Int))
    (hlong : 2 ^ (511 : Int) < value a) :
    Measures (correctedRoot (a * Float.ofBits 0x1A70000000000000)
      (b * Float.ofBits 0x1A70000000000000) * Float.ofBits 0x6570000000000000)
      (hypotenuse a b) := by
  have hdown : (0 : ℝ) < 2 ^ (-600 : Int) := zpow_pos two_pos _
  have hb : (2 : ℝ) ^ (457 : Int) ≤ value b := by
    refine le_of_mul_le_mul_right ?_ (zpow_pos two_pos 54)
    exact (zpow_mul_le (by decide)).trans (hlong.trans hgap).le
  refine h.measures_scaled (by decide +kernel) (by decide +kernel)
    (by rw [← up_mul_down]; ring) ?_ ?_ ?_
  all_goals rw [value_down]
  · exact hdown
  · exact (le_zpow_mul (by decide)).trans (mul_le_mul_of_nonneg_right hb hdown.le)
  · exact (mul_le_mul_of_nonneg_right (lt_two_zpow a).le hdown.le).trans (zpow_mul_le (by decide))

/-- A leg too short to be squared: the other one is not much longer. -/
theorem Legs.measures_up (h : Legs a b) (hgap : value a < value b * 2 ^ (54 : Int))
    (hb : 0 < value b) (hshort : value b < 2 ^ (-459 : Int)) :
    Measures (correctedRoot (a * Float.ofBits 0x6570000000000000)
      (b * Float.ofBits 0x6570000000000000) * Float.ofBits 0x1A70000000000000)
      (hypotenuse a b) := by
  have hup : (0 : ℝ) < 2 ^ (600 : Int) := zpow_pos two_pos _
  have ha : value a ≤ 2 ^ (-405 : Int) :=
    calc value a ≤ value b * 2 ^ (54 : Int) := hgap.le
      _ ≤ 2 ^ (-459 : Int) * 2 ^ (54 : Int) :=
        mul_le_mul_of_nonneg_right hshort.le (zpow_pos two_pos _).le
      _ ≤ 2 ^ (-405 : Int) := zpow_mul_le (by decide)
  refine h.measures_scaled (by decide +kernel) (by decide +kernel) up_mul_down ?_ ?_ ?_
  all_goals rw [value_up]
  · exact hup
  · refine LE.le.trans ?_ (mul_le_mul_of_nonneg_right (least_le hb) hup.le)
    rw [value_least]
    exact le_zpow_mul (by decide)
  · exact (mul_le_mul_of_nonneg_right ha hup.le).trans (zpow_mul_le (by decide))

theorem Legs.measures_longSide (h : Legs a b) : Measures (longSide a b) (hypotenuse a b) := by
  unfold longSide
  split
  next hle => exact h.measures_add hle
  next hle =>
    have hgap : value a < value b * 2 ^ (54 : Int) := h.lt_of_not_gap hle
    have hb : 0 < value b :=
      pos_of_mul_pos_left (h.left_nonneg.trans_lt hgap) (zpow_pos two_pos _).le
    split
    next hlong =>
      rw [← value_lt_iff (by decide +kernel) h.left,value_high] at hlong
      exact h.measures_down hgap hlong
    next hlong =>
      rw [← value_lt_iff (by decide +kernel) h.left,value_high,not_lt] at hlong
      split
      next hshort =>
        rw [← value_lt_iff h.right (by decide +kernel),value_low] at hshort
        exact h.measures_up hgap hb hshort
      next hshort =>
        rw [← value_lt_iff h.right (by decide +kernel),value_low,not_lt] at hshort
        exact h.measures_root hshort hlong

theorem measures_hypot (hx : x.isFinite = true) (hy : y.isFinite = true) :
    Measures (hypot x y) (hypotenuse x y) := by
  have hx' := (isFinite_abs x).trans hx
  have hy' := (isFinite_abs y).trans hy
  rw [hypot_eq_longSide hx hy]
  split
  next hlt =>
    rw [← value_lt_iff hx' hy'] at hlt
    rw [hypotenuse_comm,← hypotenuse_abs]
    exact (legs_abs hy hx hlt.le).measures_longSide
  next hlt =>
    rw [← value_lt_iff hx' hy',not_lt] at hlt
    rw [← hypotenuse_abs]
    exact (legs_abs hx hy hlt).measures_longSide

namespace Measures
variable {z : Float} (h : Measures z s)
include h

theorem isNaN : z.isNaN = false := by
  obtain ⟨r,hr,-⟩ := h
  exact hr.isNaN

theorem nonneg (hs : 0 ≤ s) : (Zero.zero : Float) ≤ z := by
  obtain ⟨r,hr,hle,-⟩ := h
  refine hr.ge _ rfl ?_
  have := mul_le_mul_of_nonneg_right ulp_le hs
  rw [value_zero]
  linarith [(abs_le.mp hle).1]

theorem pos (hs : 0 < s) (hz : z.isFinite = true) : 0 < value z := by
  obtain ⟨r,hr,-,hleast⟩ := h
  have := (value_le_iff isFinite_least hz).mpr (hr.ge _ isFinite_least (hleast hs))
  exact value_least_pos.trans_le this

theorem isFinite (hs : 0 ≤ s) (hs' : s ≤ (1 - 2 ^ (-45 : Int)) * 2 ^ (1024 : Int)) :
    z.isFinite = true := by
  obtain ⟨r,hr,hle,-⟩ := h
  obtain ⟨hlo,hhi⟩ := abs_le.mp hle
  have hus := mul_le_mul_of_nonneg_right ulp_le hs
  refine (hr.bounded isFinite_largest ?_).1
  rw [abs_of_nonneg (by linarith),value_largest]
  have hpow : (2 : ℝ) ^ (1024 : Int) = 2 ^ (53 : Int) * 2 ^ 971 := by
    rw [← zpow_natCast 2 971,← zpow_add₀ two_ne_zero]
    rfl
  have hw : (0 : ℝ) < 2 ^ 971 := by positivity
  rw [hpow] at hs'
  generalize (2 : ℝ) ^ 971 = w at hs' hw ⊢
  norm_num [ulp_eq] at hs' hhi ⊢
  linarith

theorem not_isFinite (hs : (1 + 2 ^ (-45 : Int)) * 2 ^ (1024 : Int) ≤ s) : z.isFinite = false := by
  obtain ⟨r,hr,hle,-⟩ := h
  apply Bool.eq_false_iff.mpr
  intro hz
  have hw : (1 : ℝ) ≤ 2 ^ (1024 : Int) := one_le_zpow₀ one_le_two (by decide)
  have hlt := lt_two_zpow z
  have hnear := (abs_le.mp (hr.near hz)).1
  have hlo := (abs_le.mp hle).1
  have hleast : value least ≤ ulp := by
    rw [value_least,ulp_eq]
    exact zpow_le_zpow_right₀ one_le_two (by decide)
  generalize (2 : ℝ) ^ (1024 : Int) = w at hs hw hlt
  norm_num [ulp_eq] at hs hlo hnear hleast
  have hr0 : 0 ≤ r := by linarith
  rw [abs_of_nonneg hr0] at hnear
  linarith

end Measures

end LinearInverse.Binary64
