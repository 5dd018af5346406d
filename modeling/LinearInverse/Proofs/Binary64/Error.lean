import LinearInverse.Proofs.Binary64.Operations

namespace LinearInverse.Binary64

variable {x y : Float} {k r a b ρ σ : ℝ}

/-- A scale at which neither overflow nor the least doubles matter. -/
structure Scale (k : ℝ) : Prop where
  low : (2 : ℝ) ^ (-1010 : Int) ≤ k
  high : k ≤ 2 ^ (1023 : Int)

/-- `x` stands for `ρ * k` up to `a` units in the last place of the scale. -/
structure Near (k : ℝ) (x : Float) (ρ a : ℝ) : Prop where
  finite : x.isFinite = true
  bounded : |ρ| ≤ 3 / 2
  near : |value x - ρ * k| ≤ a * (ulp * k)

theorem Scale.pos (h : Scale k) : 0 < k :=
  (zpow_pos two_pos _).trans_le h.low

theorem Scale.le_largest (h : Scale k) : 8 / 5 * k ≤ value largest := by
  have hpow : (2 : ℝ) ^ (1023 : Int) = 2 ^ 52 * 2 ^ 971 := by
    rw [← zpow_natCast 2 971,← zpow_natCast,← zpow_add₀ two_ne_zero]
    rfl
  have hk := h.high
  rw [hpow] at hk
  rw [value_largest]
  have hpos : (0 : ℝ) < 2 ^ 971 := by positivity
  generalize (2 : ℝ) ^ 971 = w at hk hpos ⊢
  norm_num at hk ⊢
  linarith

theorem Scale.least_le (h : Scale k) : value least ≤ 1 / 4 * (ulp * k) := by
  have hpow : value least = 2 ^ (-12 : Int) * (ulp * 2 ^ (-1010 : Int)) := by
    rw [value_least,ulp_eq,← zpow_add₀ two_ne_zero,← zpow_add₀ two_ne_zero]
    rfl
  have hle : ulp * 2 ^ (-1010 : Int) ≤ ulp * k := mul_le_mul_of_nonneg_left h.low ulp_pos.le
  have hpos : 0 ≤ ulp * (2 : ℝ) ^ (-1010 : Int) := mul_nonneg ulp_pos.le (zpow_nonneg zero_le_two _)
  rw [hpow]
  exact mul_le_mul (by norm_num) hle hpos (by norm_num)

theorem ulp_le : ulp ≤ 1 / 10 ^ 15 := by
  norm_num [ulp_eq]

/-- With so few units the scale bounds the number. -/
theorem abs_le_of_near (hk : 0 < k) (hρ : |ρ| ≤ 3 / 2) (ha : a ≤ 1000)
    (hr : |r - ρ * k| ≤ a * (ulp * k)) : |r| ≤ 8 / 5 * k := by
  have hunit : ulp * k ≤ 1 / 10 ^ 15 * k := mul_le_mul_of_nonneg_right ulp_le hk.le
  have hulp := mul_pos ulp_pos hk
  calc |r| = |r - ρ * k + ρ * k| := by rw [sub_add_cancel]
    _ ≤ |r - ρ * k| + |ρ * k| := abs_add_le ..
    _ = |r - ρ * k| + |ρ| * k := by rw [abs_mul,abs_of_pos hk]
    _ ≤ a * (ulp * k) + 3 / 2 * k := add_le_add hr (mul_le_mul_of_nonneg_right hρ hk.le)
    _ ≤ 1000 * (1 / 10 ^ 15 * k) + 3 / 2 * k := by gcongr
    _ ≤ 8 / 5 * k := by linarith

/-- One rounding costs two units at most. -/
theorem Near.of_rounds (hk : Scale k) (h : Rounds x r) (ha : a ≤ 1000) (hρ : |ρ| ≤ 3 / 2)
    (hr : |r - ρ * k| ≤ a * (ulp * k)) : Near k x ρ (a + 2) := by
  have hr' := abs_le_of_near hk.pos hρ ha hr
  have hx := (h.bounded isFinite_largest (hr'.trans hk.le_largest)).1
  have hone : ulp * |r| ≤ ulp * (8 / 5 * k) := mul_le_mul_of_nonneg_left hr' ulp_pos.le
  have hunit := mul_pos ulp_pos hk.pos
  refine ⟨hx,hρ,?_⟩
  calc |value x - ρ * k| ≤ |value x - r| + |r - ρ * k| := abs_sub_le ..
    _ ≤ (a + 2) * (ulp * k) := by linarith [h.near hx,hk.least_le]

theorem near_exact (hx : x.isFinite = true) (hρ : |ρ| ≤ 3 / 2) (h : value x = ρ * k) :
    Near k x ρ 0 :=
  ⟨hx,hρ,by simp [h]⟩

theorem Near.mono (hk : 0 < k) (h : Near k x ρ a) (hab : a ≤ b) : Near k x ρ b :=
  ⟨h.finite,h.bounded,h.near.trans (mul_le_mul_of_nonneg_right hab (mul_pos ulp_pos hk).le)⟩

theorem Near.nonneg (hk : 0 < k) (h : Near k x ρ a) : 0 ≤ a :=
  nonneg_of_mul_nonneg_left ((abs_nonneg _).trans h.near) (mul_pos ulp_pos hk)

section
variable (hk : Scale k) (hx : Near k x ρ a) (hy : Near k y σ b)
include hk hx hy

theorem Near.add (hab : a + b ≤ 1000) (h : |ρ + σ| ≤ 3 / 2) :
    Near k (x + y) (ρ + σ) (a + b + 2) := by
  refine .of_rounds hk (rounds_add hx.finite hy.finite) hab h ?_
  have hsplit : value x + value y - (ρ + σ) * k = value x - ρ * k + (value y - σ * k) := by ring
  rw [hsplit,add_mul]
  exact (abs_add_le _ _).trans (add_le_add hx.near hy.near)

theorem Near.sub (hab : a + b ≤ 1000) (h : |ρ - σ| ≤ 3 / 2) :
    Near k (x - y) (ρ - σ) (a + b + 2) := by
  refine .of_rounds hk (rounds_sub hx.finite hy.finite) hab h ?_
  have hsplit : value x - value y - (ρ - σ) * k = value x - ρ * k - (value y - σ * k) := by ring
  rw [hsplit,add_mul]
  exact (abs_sub _ _).trans (add_le_add hx.near hy.near)

end

/-- The scale of a product is that of the factors squared. -/
theorem Near.mul (hk : Scale (k * k)) (hk0 : 0 < k) (hx : Near k x ρ a) (hy : Near k y σ b)
    (hab : a + b ≤ 400) (h : |ρ * σ| ≤ 3 / 2) :
    Near (k * k) (x * y) (ρ * σ) (2 * (a + b) + 2) := by
  have ha := hx.nonneg hk0
  have hb := hy.nonneg hk0
  have hulp := ulp_pos
  refine .of_rounds hk (rounds_mul hx.finite hy.finite) (by linarith) h ?_
  have hsplit : value x * value y - ρ * σ * (k * k) =
      (value x - ρ * k) * value y + ρ * (k * (value y - σ * k)) := by ring
  calc |value x * value y - ρ * σ * (k * k)|
      ≤ |(value x - ρ * k) * value y| + |ρ * (k * (value y - σ * k))| := by
        rw [hsplit]
        exact abs_add_le ..
    _ = |value x - ρ * k| * |value y| + |ρ| * (k * |value y - σ * k|) := by
        rw [abs_mul,abs_mul,abs_mul,abs_of_pos hk0]
    _ ≤ a * (ulp * k) * (8 / 5 * k) + 3 / 2 * (k * (b * (ulp * k))) := by
        have := hx.near
        have := hy.near
        have := hx.bounded
        have := abs_le_of_near hk0 hy.bounded (by linarith) hy.near
        gcongr
    _ = (8 / 5 * a + 3 / 2 * b) * (ulp * (k * k)) := by ring
    _ ≤ 2 * (a + b) * (ulp * (k * k)) := by
        gcongr
        linarith

/-- A constant factor, such as two, leaves the scale. -/
theorem Near.constMul {c : Float} (hk : Scale k) (hc : c.isFinite = true) (hx : Near k x ρ a)
    (ha : |value c| * a ≤ 1000) (h : |value c * ρ| ≤ 3 / 2) :
    Near k (c * x) (value c * ρ) (|value c| * a + 2) := by
  refine .of_rounds hk (rounds_mul hc hx.finite) ha h ?_
  rw [mul_assoc,← mul_sub,abs_mul,mul_assoc]
  exact mul_le_mul_of_nonneg_left hx.near (abs_nonneg _)

end LinearInverse.Binary64
