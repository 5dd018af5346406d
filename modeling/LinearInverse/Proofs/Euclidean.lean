import Mathlib.Analysis.InnerProductSpace.PiL2
import Mathlib.Analysis.SpecialFunctions.Pow.Real
import LinearInverse.ConjugateGradient
import LinearInverse.Momentum

namespace LinearInverse

/-- Real numbers have neither infinities nor undefined values, and all but zero are normal. -/
noncomputable instance : Scalar ℝ where
  beq x y := decide (x = y)
  decLt := inferInstance
  decLe := inferInstance
  abs x := |x|
  sqrt := Real.sqrt
  hypot x y := Real.sqrt (x ^ 2 + y ^ 2)
  pow := Real.rpow
  isTop _ := false
  isNormal x := decide (x ≠ 0)

namespace Scalar

@[simp] theorem real_beq (x y : ℝ) : (x == y) = decide (x = y) := rfl

@[simp] theorem real_abs (x : ℝ) : Scalar.abs x = |x| := rfl

@[simp] theorem real_sqrt (x : ℝ) : Scalar.sqrt x = Real.sqrt x := rfl

@[simp] theorem real_isTop (x : ℝ) : Scalar.isTop x = false := rfl

@[simp] theorem real_isNaN (x : ℝ) : Scalar.isNaN x = false := by simp [isNaN]

@[simp] theorem real_isInfinite (x : ℝ) : Scalar.isInfinite x = false := rfl

@[simp] theorem real_max (x y : ℝ) : Scalar.max x y = Max.max x y := by
  simp only [Scalar.max,real_isNaN,Bool.false_eq_true,↓reduceIte]
  split
  next h => exact (max_eq_right h.le).symm
  next h => exact (max_eq_left (not_lt.mp h)).symm

theorem real_foldl_add (xs : List ℝ) (a : ℝ) : xs.foldl (· + ·) a = a + xs.sum := by
  induction xs generalizing a with
  | nil => simp
  | cons x xs ih => simp [ih,add_assoc]

@[simp] theorem real_sum (xs : List ℝ) : Scalar.sum xs = xs.sum := by
  change xs.foldl (· + ·) (-0 : ℝ) = xs.sum
  rw [real_foldl_add,neg_zero,zero_add]

end Scalar

theorem Momentum.next_eq (t : ℝ) : next t = (1 + √(1 + 4 * t ^ 2)) / 2 := by
  rw [next,Nat.cast_ofNat,Nat.cast_ofNat,mul_assoc,← sq]
  rfl

theorem zipWith_ofFn {α β γ : Type} {D : Nat} (f : α → β → γ) (g : Fin D → α)
    (h : Fin D → β) : List.zipWith f (List.ofFn g) (List.ofFn h) =
      List.ofFn fun i => f (g i) (h i) := by
  apply List.ext_getElem <;> simp

/-- A traversal succeeds if it does at each index. -/
theorem Checked.mapM_ofFn {α β γ : Type} {D : Nat} {f : Fin D → β} {g : β → Checked α γ}
    {ys : List γ} :
    (List.ofFn f).mapM g = .ok ys ↔ ∃ y, ys = List.ofFn y ∧ ∀ i, g (f i) = .ok (y i) := by
  induction D generalizing ys with
  | zero =>
    rw [List.ofFn_zero,List.mapM_nil]
    exact ⟨fun h => ⟨nofun,by cases h; rfl,nofun⟩,fun ⟨y,hy,_⟩ => by rw [hy]; rfl⟩
  | succ D ih =>
    rw [List.ofFn_succ,List.mapM_cons]
    constructor
    · intro h
      obtain ⟨y0,h0,h⟩ := bind_eq_ok.mp h
      obtain ⟨zs,hs,h⟩ := bind_eq_ok.mp h
      cases h
      obtain ⟨y,rfl,hy⟩ := ih.mp hs
      exact ⟨Fin.cons y0 y,by simp [List.ofFn_succ],Fin.cases h0 hy⟩
    · rintro ⟨y,rfl,hy⟩
      rw [hy 0,List.ofFn_succ]
      change ((List.ofFn fun i => f i.succ).mapM g >>= _) = _
      rw [ih.mpr ⟨fun i => y i.succ,rfl,fun i => hy i.succ⟩]
      rfl

abbrev Space (n : Nat) := EuclideanSpace ℝ (Fin n)

/-- The list of the coordinates. -/
def coords {n : Nat} (x : Space n) : List ℝ := List.ofFn x

variable {n : Nat}

@[simp] theorem length_coords (x : Space n) : (coords x).length = n := by simp [coords]

/-- Every list is that of a point. -/
theorem exists_coords {xs : List ℝ} (h : xs.length = n) : ∃ x : Space n, coords x = xs := by
  subst h
  exact ⟨WithLp.toLp 2 xs.get,List.ofFn_get xs⟩

theorem coords_injective : Function.Injective (coords : Space n → List ℝ) := by
  intro x y h
  ext i
  exact congrFun (List.ofFn_injective h) i

theorem zipWith_coords (f : ℝ → ℝ → ℝ) (x y : Space n) :
    List.zipWith f (coords x) (coords y) = List.ofFn fun i => f (x i) (y i) :=
  zipWith_ofFn f x y

theorem map_coords (f : ℝ → ℝ) (x : Space n) :
    (coords x).map f = List.ofFn fun i => f (x i) := by
  simp only [coords,List.map_ofFn]
  rfl

namespace Vec

theorem sub_coords (x y : Space n) : sub (coords x) (coords y) = coords (x - y) :=
  zipWith_coords _ x y

theorem add_coords (x y : Space n) : add (coords x) (coords y) = coords (x + y) :=
  zipWith_coords _ x y

theorem axpy_coords (x y : Space n) (a : ℝ) :
    axpy (coords y) a (coords x) = coords (y + a • x) :=
  zipWith_coords _ y x

theorem scale_coords (x : Space n) (a : ℝ) : scale a (coords x) = coords (a • x) := by
  rw [scale,map_coords]
  apply congrArg List.ofFn
  funext i
  exact mul_comm _ _

/-- However a sum is split between the lanes, it is the sum of the list. -/
theorem sum_lanes (l : Lanes ℝ) (xs : List ℝ) : l.sum xs = l.total + xs.sum := by
  refine Lanes.sum_induction (P := fun l xs r => r = l.total + xs.sum) ?_ ?_ l xs
  · intro l a0 a1 a2 a3 a4 a5 a6 a7 rest r h
    rw [h]
    simp only [Lanes.total,List.sum_cons]
    ring
  · exact fun l rest => Scalar.real_foldl_add rest l.total

theorem dot_coords (x y : Space n) : dot (coords x) (coords y) = inner ℝ x y := by
  rw [dot,zipWith_coords,sum_lanes,List.sum_ofFn,PiLp.inner_apply]
  simp [Lanes.total,Lanes.zero,mul_comm]

theorem peak_coords_le (x : Space n) (c : ℝ) :
    peak (coords x) ≤ c ↔ 0 ≤ c ∧ ∀ i, |x i| ≤ c := by
  have h (xs : List ℝ) (a : ℝ) :
      xs.foldl (fun s v => Max.max s |v|) a ≤ c ↔ a ≤ c ∧ ∀ v ∈ xs, |v| ≤ c := by
    induction xs generalizing a with
    | nil => simp
    | cons v vs ih => simp [ih,and_assoc]
  simp only [peak,Scalar.real_max,Scalar.real_abs]
  rw [h]
  simp [coords]

/-- The largest magnitude, which is divided out first, comes back at the end. -/
theorem norm_coords (x : Space n) : norm (coords x) = ‖x‖ := by
  obtain ⟨h0,hle⟩ := (peak_coords_le x _).mp le_rfl
  have hfind : (coords x).find? Scalar.isNaN = none := by simp
  rw [norm,hfind]
  simp only [Scalar.real_isInfinite,Scalar.real_beq,Scalar.real_sum,Scalar.real_sqrt,
    Bool.or_false,decide_eq_true_eq]
  split
  next hs =>
    have hx : x = 0 := by
      ext i
      exact abs_nonpos_iff.mp (hs ▸ hle i)
    rw [hs,hx,norm_zero]
  next hs =>
    have hpos : 0 < peak (coords x) := lt_of_le_of_ne h0 (Ne.symm hs)
    rw [map_coords,List.sum_ofFn,EuclideanSpace.norm_eq]
    have hsum : ∑ i, x i / peak (coords x) * (x i / peak (coords x)) =
        (∑ i, ‖x i‖ ^ 2) / peak (coords x) ^ 2 := by
      rw [Finset.sum_div]
      refine Finset.sum_congr rfl fun i _ => ?_
      rw [Real.norm_eq_abs,sq_abs]
      ring
    rw [hsum,Real.sqrt_div' _ (sq_nonneg _),Real.sqrt_sq h0,mul_div_cancel₀ _ hs]

variable {a c : ℝ}

theorem scale_scale (a c : ℝ) (x : List ℝ) : scale c (scale a x) = scale (a * c) x := by
  simp only [scale,List.map_map]
  exact List.map_congr_left fun v _ => mul_assoc v a c

theorem scale_one (x : List ℝ) : scale 1 x = x := by
  simp [scale]

theorem scale_zeros (a : ℝ) (n : Nat) :
    scale a (List.replicate n 0) = List.replicate n 0 := by
  simp [scale]

/-- What is homogeneous entry by entry is so on vectors. -/
theorem zipWith_scale {f : ℝ → ℝ → ℝ} (h : ∀ v w, f (v * a) (w * a) = f v w * c)
    (x y : List ℝ) :
    List.zipWith f (scale a x) (scale a y) = scale c (List.zipWith f x y) := by
  rw [scale,scale,scale,List.zipWith_map,List.map_zipWith]
  simp only [h]

theorem scale_comm (a c : ℝ) (x : List ℝ) : scale a (scale c x) = scale c (scale a x) := by
  rw [scale_scale,scale_scale,mul_comm]

theorem sub_scale (a : ℝ) (x y : List ℝ) : sub (scale a x) (scale a y) = scale a (sub x y) :=
  zipWith_scale (fun v w => by ring) x y

theorem add_scale (a : ℝ) (x y : List ℝ) : add (scale a x) (scale a y) = scale a (add x y) :=
  zipWith_scale (fun v w => by ring) x y

theorem axpy_scale (a c : ℝ) (x y : List ℝ) :
    axpy (scale a x) c (scale a y) = scale a (axpy x c y) :=
  zipWith_scale (fun v w => by ring) x y

theorem extrapolate_scale (a beta : ℝ) (x y : List ℝ) :
    Momentum.extrapolate beta (scale a x) (scale a y) =
      scale a (Momentum.extrapolate beta x y) := by
  rw [Momentum.extrapolate_eq,Momentum.extrapolate_eq,sub_scale,axpy_scale]

theorem dot_scale (a : ℝ) (x y : List ℝ) : dot (scale a x) (scale a y) = a * a * dot x y := by
  have hproducts := zipWith_scale (f := (· * ·)) (a := a) (c := a * a) (fun v w => by ring) x y
  have hlanes : (Lanes.zero : Lanes ℝ).total = 0 := by simp [Lanes.total,Lanes.zero]
  rw [dot,dot,hproducts,sum_lanes,sum_lanes,hlanes,scale,List.sum_map_mul_right,List.map_id',
    zero_add,zero_add,mul_comm]

theorem norm_scale (ha : 0 ≤ a) (x : List ℝ) : norm (scale a x) = a * norm x := by
  obtain ⟨v,hv⟩ := exists_coords (rfl : x.length = x.length)
  rw [← hv,scale_coords,norm_coords,norm_coords,norm_smul,Real.norm_of_nonneg ha]

theorem dist_scale (ha : 0 ≤ a) (x y : List ℝ) :
    dist (scale a x) (scale a y) = a * dist x y := by
  rw [dist,sub_scale,norm_scale ha,dist]

end Vec

end LinearInverse
