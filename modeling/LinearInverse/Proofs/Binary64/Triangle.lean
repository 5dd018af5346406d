import LinearInverse.Proofs.Binary64.Error

namespace LinearInverse.Binary64
open Scalar.Binary64

variable {x y a b h : Float} {k s ρ c α β χ : ℝ}

theorem value_two : value 2.0 = 2 := by
  have h : (2.0 : Float) = Float.ofBits 0x4000000000000000 := by decide +kernel
  rw [h,value_ofBits (e := -51) (by decide) (by decide) (by decide +kernel)]
  norm_num

theorem value_four : value 4.0 = 4 := by
  have h : (4.0 : Float) = Float.ofBits 0x4010000000000000 := by decide +kernel
  rw [h,value_ofBits (e := -50) (by decide) (by decide) (by decide +kernel)]
  norm_num

theorem Near.double (hk : Scale k) (hx : Near k x ρ c) (hc : c ≤ 400) (h : |2 * ρ| ≤ 3 / 2) :
    Near k (2.0 * x) (2 * ρ) (2 * c + 2) := by
  have hmul := hx.constMul hk (c := 2.0) (by decide +kernel)
  rw [value_two,abs_two] at hmul
  exact hmul (by linarith) h

theorem Near.value_eq (h : Near k x ρ 0) : value x = ρ * k := by
  have := h.near
  rwa [zero_mul,abs_nonpos_iff,sub_eq_zero] at this

/-- What is doubled keeps its place in twice the scale. -/
theorem Near.twice (hx : Near k x ρ 0) (hk : Scale (2 * k)) : Near (2 * k) (2.0 * x) ρ 2 := by
  obtain ⟨hlo,hhi⟩ := abs_le.mp hx.bounded
  have hhalf : Near (2 * k) x (ρ / 2) 0 :=
    near_exact hx.finite (abs_le.mpr ⟨by linarith,by linarith⟩) (by rw [hx.value_eq]; ring)
  have h := hhalf.double hk (by norm_num) (abs_le.mpr ⟨by linarith,by linarith⟩)
  rw [mul_div_cancel₀ ρ two_ne_zero] at h
  exact h.mono hk.pos (by norm_num)

theorem Near.quadruple (hk : Scale k) (hx : Near k x ρ c) (hc : c ≤ 200) (h : |4 * ρ| ≤ 3 / 2) :
    Near k (4.0 * x) (4 * ρ) (4 * c + 2) := by
  have hmul := hx.constMul hk (c := 4.0) (by decide +kernel)
  rw [value_four,abs_of_pos four_pos] at hmul
  exact hmul (by linarith) h

/-- Where a square is a scale, so are its root and twice its root. -/
theorem Scale.twice (h : Scale (s * s)) (hs : 0 < s) : Scale (2 * s) := by
  have hlow := h.low
  have hhigh := h.high
  have h1 : (2 : ℝ) ^ (-1010 : Int) ≤ 1 := zpow_le_one_of_nonpos₀ one_le_two (by decide)
  have h4 : (4 : ℝ) ≤ 2 ^ (1023 : Int) :=
    calc (4 : ℝ) = 2 ^ (2 : Int) := by norm_num
      _ ≤ 2 ^ (1023 : Int) := zpow_le_zpow_right₀ one_le_two (by decide)
  constructor
  · generalize (2 : ℝ) ^ (-1010 : Int) = v at hlow h1 ⊢
    rcases le_total s 1 with h | h <;> nlinarith
  · generalize (2 : ℝ) ^ (1023 : Int) = w at hhigh h4 ⊢
    rcases le_total s 2 with h | h <;> nlinarith

theorem Scale.of_square (h : Scale (s * s)) (hs : 0 < s) : Scale s := by
  have hlow := h.low
  have h1 : (2 : ℝ) ^ (-1010 : Int) ≤ 1 := zpow_le_one_of_nonpos₀ one_le_two (by decide)
  refine ⟨?_,(by linarith : s ≤ 2 * s).trans (h.twice hs).high⟩
  generalize (2 : ℝ) ^ (-1010 : Int) = v at hlow h1 ⊢
  rcases le_total s 1 with h | h <;> nlinarith

/-- A root is not farther off than its argument, in proportion. -/
theorem abs_sqrt_sub_le {r c : ℝ} (hr : 0 ≤ r) (hs : 0 < s) (h : |r - s * s| ≤ c * (s * s)) :
    |Real.sqrt r - s| ≤ c * s := by
  have hroot := Real.sqrt_nonneg r
  have hfactor : |Real.sqrt r - s| * (Real.sqrt r + s) = |r - s * s| := by
    rw [← abs_of_nonneg (add_nonneg hroot hs.le),← abs_mul]
    congr 1
    linear_combination Real.mul_self_sqrt hr
  have hle : |Real.sqrt r - s| * s ≤ c * s * s := by
    have := mul_nonneg (abs_nonneg (Real.sqrt r - s)) hroot
    linarith
  exact le_of_mul_le_mul_right hle hs

/-- The legs of a triangle whose long side is the scale. -/
structure Triangle (s : ℝ) (a b : Float) (α β : ℝ) : Prop where
  square : Scale (s * s)
  pos : 0 < s
  left : a.isFinite = true ∧ value a = α * s
  right : b.isFinite = true ∧ value b = β * s
  unit : α * α + β * β = 1
  nonneg : 0 ≤ α ∧ 0 ≤ β
  order : β ≤ α + 1 / 100

namespace Triangle
variable (t : Triangle s a b α β)
include t

theorem scale : Scale s := t.square.of_square t.pos

theorem le_one : α ≤ 1 ∧ β ≤ 1 := by
  constructor <;> nlinarith [t.unit,mul_self_nonneg α,mul_self_nonneg β]

theorem near_left : Near s a α 0 := by
  obtain ⟨hα0,hβ0⟩ := t.nonneg
  obtain ⟨hα1,hβ1⟩ := t.le_one
  exact near_exact t.left.1 (abs_le.mpr ⟨by linarith,by linarith⟩) t.left.2

theorem near_right : Near s b β 0 := by
  obtain ⟨hα0,hβ0⟩ := t.nonneg
  obtain ⟨hα1,hβ1⟩ := t.le_one
  exact near_exact t.right.1 (abs_le.mpr ⟨by linarith,by linarith⟩) t.right.2

/-- The rounded sum of squares gives the long side but for a few units. -/
theorem near_root : Near s (a * a + b * b).sqrt 1 8 := by
  obtain ⟨hα0,hβ0⟩ := t.nonneg
  obtain ⟨hα1,hβ1⟩ := t.le_one
  have haa := t.near_left.mul t.square t.pos t.near_left (by norm_num)
    (abs_le.mpr ⟨by nlinarith,by nlinarith⟩)
  have hbb := t.near_right.mul t.square t.pos t.near_right (by norm_num)
    (abs_le.mpr ⟨by nlinarith,by nlinarith⟩)
  have hsum := haa.add t.square hbb (by norm_num) (by rw [t.unit]; norm_num)
  rw [t.unit] at hsum
  have hnear : |value (a * a + b * b) - s * s| ≤ 6 * ulp * (s * s) := by
    have := hsum.near
    norm_num at this
    linarith
  have hnonneg : 0 ≤ value (a * a + b * b) := by
    have := (abs_le.mp hnear).1
    nlinarith [ulp_le,mul_pos t.pos t.pos]
  have hroot := abs_sqrt_sub_le hnonneg t.pos hnear
  refine (Near.of_rounds t.scale (rounds_sqrt hsum.finite hnonneg) (a := 6) (by norm_num)
    (by norm_num) ?_).mono t.pos (by norm_num)
  simpa [mul_assoc] using hroot

end Triangle

/-- `h` is about as long as the long side. -/
structure Long (s : ℝ) (h : Float) (χ : ℝ) : Prop where
  exact : Near s h χ 0
  about : |χ - 1| ≤ 8 * ulp

theorem Long.bounds (hh : Long s h χ) : 999 / 1000 ≤ χ ∧ χ ≤ 1001 / 1000 := by
  obtain ⟨hlo,hhi⟩ := abs_le.mp hh.about
  have := ulp_le
  constructor <;> linarith

theorem Long.abs_square_sub_le (hh : Long s h χ) : |χ * χ - 1| ≤ 17 * ulp := by
  obtain ⟨hlo,hhi⟩ := hh.bounds
  calc |χ * χ - 1| = |χ - 1| * |χ + 1| := by rw [← abs_mul]; ring_nf
    _ ≤ 8 * ulp * (17 / 8) := by
      have := hh.about
      have := ulp_pos
      have : |χ + 1| ≤ 17 / 8 := abs_le.mpr ⟨by linarith,by linarith⟩
      gcongr
    _ = 17 * ulp := by ring

theorem Long.abs_square_sub_one_le (hh : Long s h χ) : |χ * χ - 1| ≤ 3 / 2 := by
  have := ulp_le
  linarith [hh.abs_square_sub_le]

namespace Triangle
variable (t : Triangle s a b α β) (hh : Long s h χ)
include t hh

/-- The error of the long side where the legs are about as long as each other. -/
theorem near_error (hβ : χ ≤ 2 * β + 1 / 1000) :
    Near (s * s) (a * (2.0 * (h - b) - a) + (h - b - 2.0 * (a - b)) * (h - b)) (χ * χ - 1) 62 := by
  obtain ⟨hα0,hβ0⟩ := t.nonneg
  obtain ⟨hα1,hβ1⟩ := t.le_one
  obtain ⟨hlo,hhi⟩ := hh.bounds
  have horder := t.order
  have hs := t.scale
  have hd : Near s (h - b) (χ - β) 2 :=
    (hh.exact.sub hs t.near_right (by norm_num)
      (abs_le.mpr ⟨by linarith,by linarith⟩)).mono t.pos (by norm_num)
  have h2d := hd.double hs (by norm_num) (abs_le.mpr ⟨by linarith,by linarith⟩)
  have hda := h2d.sub hs t.near_left (by norm_num) (abs_le.mpr ⟨by linarith,by linarith⟩)
  have hfirst := t.near_left.mul t.square t.pos hda (by norm_num)
    (abs_le.mpr ⟨by nlinarith,by nlinarith⟩)
  have hab := t.near_left.sub hs t.near_right (by norm_num)
    (abs_le.mpr ⟨by linarith,by linarith⟩)
  have h2ab := hab.double hs (by norm_num) (abs_le.mpr ⟨by linarith,by linarith⟩)
  have hdab := hd.sub hs h2ab (by norm_num) (abs_le.mpr ⟨by linarith,by linarith⟩)
  have hsecond := hdab.mul t.square t.pos hd (by norm_num)
    (abs_le.mpr ⟨by nlinarith,by nlinarith⟩)
  have hexact : α * (2 * (χ - β) - α) + (χ - β - 2 * (α - β)) * (χ - β) = χ * χ - 1 := by
    linear_combination (-1) * t.unit
  have hsum := hfirst.add t.square hsecond (by norm_num) (hexact ▸ hh.abs_square_sub_one_le)
  rw [hexact] at hsum
  exact hsum.mono t.square.pos (by norm_num)

/-- The same where one leg is shorter. -/
theorem near_error' (hβ : 2 * β ≤ χ + 1 / 1000) :
    Near (s * s) (2.0 * (h - a) * (a - 2.0 * b) + ((4.0 * (h - a) - b) * b + (h - a) * (h - a)))
      (χ * χ - 1) 62 := by
  obtain ⟨hα0,hβ0⟩ := t.nonneg
  obtain ⟨hα1,hβ1⟩ := t.le_one
  obtain ⟨hlo,hhi⟩ := hh.bounds
  have horder := t.order
  have hα : 86 / 100 ≤ α := by nlinarith [t.unit]
  have hs := t.scale
  have hd : Near s (h - a) (χ - α) 2 :=
    (hh.exact.sub hs t.near_left (by norm_num)
      (abs_le.mpr ⟨by linarith,by linarith⟩)).mono t.pos (by norm_num)
  have h2d := hd.double hs (by norm_num) (abs_le.mpr ⟨by linarith,by linarith⟩)
  have h2b := t.near_right.double hs (by norm_num) (abs_le.mpr ⟨by linarith,by linarith⟩)
  have hab := t.near_left.sub hs h2b (by norm_num) (abs_le.mpr ⟨by linarith,by linarith⟩)
  have hfirst := h2d.mul t.square t.pos hab (by norm_num)
    (abs_le.mpr ⟨by nlinarith,by nlinarith⟩)
  have h4d := hd.quadruple hs (by norm_num) (abs_le.mpr ⟨by linarith,by linarith⟩)
  have h4db := h4d.sub hs t.near_right (by norm_num) (abs_le.mpr ⟨by linarith,by linarith⟩)
  have hsecond := h4db.mul t.square t.pos t.near_right (by norm_num)
    (abs_le.mpr ⟨by nlinarith,by nlinarith⟩)
  have hdd := hd.mul t.square t.pos hd (by norm_num) (abs_le.mpr ⟨by nlinarith,by nlinarith⟩)
  have hrest := hsecond.add t.square hdd (by norm_num) (abs_le.mpr ⟨by nlinarith,by nlinarith⟩)
  have hexact : 2 * (χ - α) * (α - 2 * β) + ((4 * (χ - α) - β) * β + (χ - α) * (χ - α)) =
      χ * χ - 1 := by
    linear_combination (-1) * t.unit
  have hsum := hfirst.add t.square hrest (by norm_num) (hexact ▸ hh.abs_square_sub_one_le)
  rw [hexact] at hsum
  exact hsum.mono t.square.pos (by norm_num)

theorem near_choice : Near (s * s)
    (if h ≤ 2.0 * b then a * (2.0 * (h - b) - a) + (h - b - 2.0 * (a - b)) * (h - b)
      else 2.0 * (h - a) * (a - 2.0 * b) + ((4.0 * (h - a) - b) * b + (h - a) * (h - a)))
    (χ * χ - 1) 62 := by
  have htwice := (t.near_right.twice (t.square.twice t.pos))
  have hvalue := abs_le.mp htwice.near
  have hχ := hh.exact.value_eq
  have hulp := ulp_le
  have hpos := t.pos
  split
  next hle =>
    rw [← value_le_iff hh.exact.finite htwice.finite,hχ] at hle
    refine t.near_error hh ?_
    have : χ * s ≤ (2 * β + 1 / 1000) * s := by
      nlinarith
    exact le_of_mul_le_mul_right this hpos
  next hle =>
    rw [← value_le_iff hh.exact.finite htwice.finite,hχ,not_le] at hle
    refine t.near_error' hh ?_
    have : 2 * β * s ≤ (χ + 1 / 1000) * s := by
      nlinarith
    exact le_of_mul_le_mul_right this hpos

end Triangle

/-- The error over twice the long side is a few units of that. -/
theorem Long.near_div (hh : Long s h χ) (hs : Scale (s * s)) (hpos : 0 < s) {e : Float}
    (he : Near (s * s) e (χ * χ - 1) 62) : Near s (e / (2.0 * h)) 0 46 := by
  have htwice := hh.exact.twice (hs.twice hpos)
  have hulp := ulp_pos
  have hlarge : 19 / 10 * s ≤ value (2.0 * h) := by
    have := (abs_le.mp htwice.near).1
    have := mul_le_mul_of_nonneg_right hh.bounds.1 hpos.le
    have := mul_le_mul_of_nonneg_right ulp_le hpos.le
    linarith
  have hvalue : 0 < value (2.0 * h) := by linarith
  have hsmall : |value e| ≤ 79 * ulp * (s * s) :=
    calc |value e| = |value e - (χ * χ - 1) * (s * s) + (χ * χ - 1) * (s * s)| := by
          rw [sub_add_cancel]
      _ ≤ |value e - (χ * χ - 1) * (s * s)| + |(χ * χ - 1) * (s * s)| := abs_add_le ..
      _ = |value e - (χ * χ - 1) * (s * s)| + |χ * χ - 1| * (s * s) := by
        rw [abs_mul,abs_of_pos hs.pos]
      _ ≤ 62 * (ulp * (s * s)) + 17 * ulp * (s * s) :=
        add_le_add he.near (mul_le_mul_of_nonneg_right hh.abs_square_sub_le hs.pos.le)
      _ = 79 * ulp * (s * s) := by ring
  have hquot : |value e / value (2.0 * h) - 0 * s| ≤ 44 * (ulp * s) := by
    rw [zero_mul,sub_zero,abs_div,abs_of_pos hvalue,div_le_iff₀ hvalue]
    calc |value e| ≤ 79 * ulp * (s * s) := hsmall
      _ ≤ 44 * (ulp * s) * (19 / 10 * s) := by nlinarith [mul_pos hulp hs.pos]
      _ ≤ 44 * (ulp * s) * value (2.0 * h) := by gcongr
  exact (Near.of_rounds (hs.of_square hpos) (rounds_div he.finite htwice.finite hvalue.ne')
    (by norm_num) (by norm_num) hquot).mono hpos (by norm_num)

theorem Triangle.near_correctedRoot (t : Triangle s a b α β) :
    Near s (correctedRoot a b) 1 56 := by
  have hroot := t.near_root
  unfold correctedRoot
  generalize (a * a + b * b).sqrt = h at hroot
  obtain ⟨χ,hχ⟩ : ∃ χ, value h = χ * s := ⟨value h / s,(div_mul_cancel₀ _ t.pos.ne').symm⟩
  have habout : |χ - 1| ≤ 8 * ulp := by
    have hle := hroot.near
    rw [hχ,← sub_mul,abs_mul,abs_of_pos t.pos] at hle
    exact le_of_mul_le_mul_right (by linarith) t.pos
  have hlong : Long s h χ := by
    have hulp := ulp_le
    obtain ⟨hlo,hhi⟩ := abs_le.mp habout
    exact ⟨near_exact hroot.finite (abs_le.mpr ⟨by linarith,by linarith⟩) hχ,habout⟩
  have hquot := hlong.near_div t.square t.pos (t.near_choice hlong)
  have hsub := hroot.sub t.scale hquot (by norm_num) (by norm_num)
  rw [sub_zero] at hsub
  exact hsub.mono t.pos (by norm_num)

end LinearInverse.Binary64
