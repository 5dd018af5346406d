import LinearInverse.Proofs.Admm.Monotone
import LinearInverse.Proofs.Elements
import LinearInverse.Proofs.Prox.Projection
import LinearInverse.Prox.SoftThreshold

namespace LinearInverse
variable {m n : Nat} {mu t : ℝ}

/-- A function that is infinite outside of a set. -/
structure Penalty (m : Nat) where
  domain : Set (Space m)
  value : Space m → ℝ

namespace Penalty
variable {g : Penalty m} {v v' y y' : Space m}

/-- `y` alone makes `g(x) + ‖x - v‖² / (2μ)` as small as it is there. -/
structure Minimiser (g : Penalty m) (mu : ℝ) (v y : Space m) : Prop where
  mem : y ∈ g.domain
  cost_lt : ∀ x ∈ g.domain, x ≠ y →
    g.value y + ‖y - v‖ ^ 2 / (2 * mu) < g.value x + ‖x - v‖ ^ 2 / (2 * mu)

/-- The way from `y` to `v` is at most as steep as the function, in every direction. -/
structure Balanced (g : Penalty m) (mu : ℝ) (v y : Space m) : Prop where
  mem : y ∈ g.domain
  inner_le : ∀ x ∈ g.domain, inner ℝ (v - y) (x - y) ≤ mu * (g.value x - g.value y)

theorem Balanced.minimiser (h : g.Balanced mu v y) (hmu : 0 < mu) : g.Minimiser mu v y := by
  refine ⟨h.mem,fun x hmem hx => ?_⟩
  have hinner := h.inner_le x hmem
  have hsplit : ‖x - v‖ ^ 2 = ‖x - y‖ ^ 2 - 2 * inner ℝ (v - y) (x - y) + ‖y - v‖ ^ 2 := by
    rw [← sub_sub_sub_cancel_right x v y,norm_sub_sq_real,real_inner_comm,norm_sub_rev v y]
  have hpos : 0 < ‖x - y‖ ^ 2 := pow_pos (norm_pos_iff.mpr (sub_ne_zero.mpr hx)) 2
  have hdiff : g.value y - g.value x < (‖x - v‖ ^ 2 - ‖y - v‖ ^ 2) / (2 * mu) := by
    rw [lt_div_iff₀ (mul_pos two_pos hmu),hsplit]
    linarith
  rw [sub_div] at hdiff
  linarith

theorem Balanced.norm_le (h : g.Balanced mu v y) (h' : g.Balanced mu v' y') :
    ‖y - y'‖ ^ 2 + ‖v - v' - (y - y')‖ ^ 2 ≤ ‖v - v'‖ ^ 2 := by
  rw [norm_sq_le_inner_iff]
  have hy := h.inner_le y' h'.mem
  have hy' := h'.inner_le y h.mem
  have hdiff : v' - y' - (v - y) = y - y' - (v - v') := by abel
  have hsum : inner ℝ (v - y) (y' - y) + inner ℝ (v' - y') (y - y') =
      ‖y - y'‖ ^ 2 - inner ℝ (y - y') (v - v') := by
    rw [← neg_sub y y',inner_neg_right,neg_add_eq_sub,← inner_sub_left,hdiff,inner_sub_left,
      real_inner_self_eq_norm_sq,real_inner_comm (v - v')]
  linarith

end Penalty

namespace ProxOperator
open Penalty

/-- The map with step `mu` answers with the minimisers. -/
def Minimises (p : ProxOperator ℝ) (g : Penalty m) (mu : ℝ) : Prop :=
  ∀ (dst : List ℝ) (v : Space m), dst.length = m →
    ∃ y, p.apply mu dst (coords v) = .ok (coords y) ∧ g.Minimiser mu v y

/-- The map answers with points as in `Penalty.Balanced`. -/
def Balances (p : ProxOperator ℝ) (g : Penalty m) (mu : ℝ) : Prop :=
  ∀ (dst : List ℝ) (v : Space m), dst.length = m →
    ∃ y, p.apply mu dst (coords v) = .ok (coords y) ∧ g.Balanced mu v y

namespace Balances
variable {p : ProxOperator ℝ} {g : Penalty m}

theorem minimises (h : p.Balances g mu) (hmu : 0 < mu) : p.Minimises g mu := by
  intro dst v hdst
  obtain ⟨y,hy,hbalanced⟩ := h dst v hdst
  exact ⟨y,hy,hbalanced.minimiser hmu⟩

theorem firmlyNonexpansive (h : p.Balances g mu) : p.FirmlyNonexpansive mu m := by
  have hbalanced {dst : List ℝ} {v y : Space m}
      (hy : p.apply mu dst (coords v) = .ok (coords y)) : g.Balanced mu v y := by
    obtain ⟨z,hz,hbalanced⟩ := h dst v ((p.length_apply hy).symm.trans (length_coords y))
    obtain rfl : y = z := coords_injective (Except.ok.inj (hy.symm.trans hz))
    exact hbalanced
  intro dst dst' v v' y y' hy hy'
  exact (hbalanced hy).norm_le (hbalanced hy')

end Balances

/-- `w Σ |x_j|`. -/
noncomputable def magnitudes (w : ℝ) (n : Nat) : Penalty (2 * n) where
  domain := Set.univ
  value x := w * ∑ j, (element x j).magnitude

theorem turn_shrink_le (ht : 0 ≤ t) (z c : Cplx ℝ) :
    Cplx.turn z (SoftThreshold.shrink t z) c ≤
      t * (c.magnitude - (SoftThreshold.shrink t z).magnitude) := by
  rw [SoftThreshold.shrink]
  split
  -- The magnitude is a divisor only where it is above the threshold.
  next hlt =>
    have hm : 0 < z.magnitude := ht.trans_lt hlt
    have hscale := Cplx.magnitude_scale (div_nonneg (sub_nonneg.mpr hlt.le) hm.le) z
    rw [div_mul_cancel₀ _ hm.ne'] at hscale
    rw [hscale]
    calc Cplx.turn z (z.scale ((z.magnitude - t) / z.magnitude)) c
        = t / z.magnitude *
            (z.re * c.re + z.im * c.im - z.magnitude * (z.magnitude - t)) := by
          have hone : (z.magnitude - t) / z.magnitude = 1 - t / z.magnitude := by
            rw [sub_div,div_self hm.ne']
          have hprod : z.magnitude * (z.magnitude - t) =
              (1 - t / z.magnitude) * (z.re ^ 2 + z.im ^ 2) := by
            rw [← Cplx.magnitude_sq,← hone,sq,← mul_assoc,div_mul_cancel₀ _ hm.ne',mul_comm]
          rw [hone,hprod,Cplx.turn,Cplx.scale]
          ring
      _ ≤ t / z.magnitude *
            (z.magnitude * c.magnitude - z.magnitude * (z.magnitude - t)) := by
          gcongr
          exact Cplx.mul_add_mul_le z c
      _ = t * (c.magnitude - (z.magnitude - t)) := by
          rw [← mul_sub,← mul_assoc,div_mul_cancel₀ _ hm.ne']
  next hle =>
    rw [Cplx.magnitude_zero,sub_zero]
    calc Cplx.turn z Cplx.zero c = z.re * c.re + z.im * c.im := by
          simp only [Cplx.turn,Cplx.zero,sub_zero]
      _ ≤ z.magnitude * c.magnitude := Cplx.mul_add_mul_le z c
      _ ≤ t * c.magnitude :=
          mul_le_mul_of_nonneg_right (not_lt.mp hle) c.magnitude_nonneg

theorem balances_softThreshold {w : ℝ} (hw : 0 ≤ w) (hmu : 0 ≤ mu) (n : Nat) :
    (softThreshold w).Balances (magnitudes w n) mu := by
  intro dst v hdst
  obtain ⟨y,hy,helement⟩ := exists_elements fun j => SoftThreshold.shrink (w * mu) (element v j)
  refine ⟨y,?_,trivial,fun x _ => ?_⟩
  · change SoftThreshold.apply w mu dst (coords v) = _
    rw [SoftThreshold.apply,if_neg (not_not_intro (hdst.trans (length_coords v).symm)),
      ofVector_pairs (length_coords v),pairs_coords,hy]
    exact congrArg (Except.ok ∘ Cplx.interleave) List.map_ofFn
  · calc inner ℝ (v - y) (x - y)
        = ∑ j, Cplx.turn (element v j) (element y j) (element x j) := inner_eq_sum v x y
      _ ≤ ∑ j, w * mu * ((element x j).magnitude - (element y j).magnitude) := by
          refine Finset.sum_le_sum fun j _ => ?_
          rw [helement]
          exact turn_shrink_le (mul_nonneg hw hmu) _ _
      _ = mu * (w * ∑ j, (element x j).magnitude - w * ∑ j, (element y j).magnitude) := by
          rw [← Finset.mul_sum,Finset.sum_sub_distrib]
          ring

/-- Zero on the vectors that have the fixed values, and infinite elsewhere. -/
def fixing (n : Nat) (f : Projection.Fixed ℝ) : Penalty (2 * n) where
  domain := { x | ∀ (j : Fin n) w, Projection.value f j = some w → element x j = w }
  value _ := 0

theorem balances_ofFixed {f : Projection.Fixed ℝ} (hf : f.length = n) (mismatch : Defect ℝ)
    (mu : ℝ) : (ofFixed mismatch f).Balances (fixing n f) mu := by
  subst hf
  intro dst v hdst
  obtain ⟨y,hy,helement⟩ := exists_elements (n := f.length) fun j =>
    (Projection.value f j).getD (element v j)
  have hfix : Projection.fix f (List.ofFn (element v)) =
      List.ofFn fun j : Fin f.length => (Projection.value f j).getD (element v j) := by
    refine List.ext_getElem? fun j => ?_
    rw [Projection.getElem?_fix (List.length_ofFn).symm,List.getElem?_ofFn,List.getElem?_ofFn]
    split <;> rfl
  refine ⟨y,?_,fun j w hw => ?_,fun x hx => ?_⟩
  · rw [apply_ofFixed (length_coords v) (hdst.trans (length_coords v).symm),pairs_coords,hy,hfix]
  · rw [helement,hw]
    rfl
  · change inner ℝ (v - y) (x - y) ≤ mu * ((0 : ℝ) - 0)
    rw [inner_eq_sum,sub_self,mul_zero]
    refine (Finset.sum_eq_zero fun j _ => ?_).le
    rw [helement]
    cases hw : Projection.value f j with
    | none => simp [Cplx.turn]
    | some w => simp [Cplx.turn,hx j w hw]

/-- Zero on the vectors whose elements outside the mask are zero. -/
def supported (mask : List Bool) : Penalty (2 * mask.length) where
  domain := { x | ∀ j : Fin mask.length, mask[j] = false → element x j = Cplx.zero }
  value _ := 0

/-- Zero on the vectors whose elements in the mask have the measured values. -/
def matching (mask : List Bool) (data : List (Cplx ℝ)) : Penalty (2 * mask.length) where
  domain := { x | ∀ j : Fin mask.length, mask[j] = true → data[j]? = some (element x j) }
  value _ := 0

theorem fixing_support (mask : List Bool) :
    fixing mask.length (mask.map fun keep => if keep then none else some Cplx.zero) =
      supported mask := by
  refine congrArg (Penalty.mk · _) (Set.ext fun x => forall_congr' fun j => ?_)
  rw [Projection.value,List.getElem?_map,List.getElem?_eq_getElem j.isLt]
  change (∀ w, (if mask[j] then none else some Cplx.zero) = some w → _) ↔ _
  cases mask[j] <;> simp

theorem fixing_measured {mask : List Bool} {data : List (Cplx ℝ)}
    (h : mask.length = data.length) :
    fixing mask.length (List.zipWith (fun m z => if m then some z else none) mask data) =
      matching mask data := by
  refine congrArg (Penalty.mk · _) (Set.ext fun x => forall_congr' fun j => ?_)
  have hdata : data[(j : Nat)]? = some data[j] := List.getElem?_eq_getElem (h ▸ j.isLt)
  rw [Projection.value,List.getElem?_zipWith,List.getElem?_eq_getElem j.isLt,hdata]
  change (∀ w, (if mask[j] then some data[j] else none) = some w → _) ↔
    (_ → data[(j : Nat)]? = _)
  rw [hdata]
  cases mask[j] <;> simp [eq_comm]

/-- The proximal maps on complex vectors minimise what they are for: soft thresholding the sum of
the magnitudes, and the projections the distance within the sets that they project onto. No other
vector does as well, and the maps are firmly non-expansive. -/
theorem proximalMaps_minimise (hmu : 0 < mu) :
    (∀ (w : ℝ) (n : Nat), 0 ≤ w → (softThreshold w).Minimises (magnitudes w n) mu ∧
        (softThreshold w).FirmlyNonexpansive mu (2 * n)) ∧
      (∀ mask : List Bool, (support mask).Minimises (supported mask) mu ∧
        (support mask).FirmlyNonexpansive mu (2 * mask.length)) ∧
      ∀ (mask : List Bool) (data : List (Cplx ℝ)), mask.length = data.length →
        ∃ q, measured mask data = .ok q ∧ q.Minimises (matching mask data) mu ∧
          q.FirmlyNonexpansive mu (2 * mask.length) := by
  refine ⟨fun w n hw => ?_,fun mask => ?_,fun mask data h => ⟨_,if_pos h,?_⟩⟩
  · have hbalances := balances_softThreshold hw hmu.le n
    exact ⟨hbalances.minimises hmu,hbalances.firmlyNonexpansive⟩
  · have hbalances := balances_ofFixed (n := mask.length)
      (f := mask.map fun keep => if keep then none else some Cplx.zero) (List.length_map _)
      .supportMask mu
    rw [fixing_support] at hbalances
    exact ⟨hbalances.minimises hmu,hbalances.firmlyNonexpansive⟩
  · have hbalances := balances_ofFixed (n := mask.length)
      (f := List.zipWith (fun m z => if m then some z else none) mask data)
      (by rw [List.length_zipWith,h,Nat.min_self]) .dataMask mu
    rw [fixing_measured h] at hbalances
    exact ⟨hbalances.minimises hmu,hbalances.firmlyNonexpansive⟩

/-- An element of magnitude five shrinks by one, and one of magnitude one vanishes. A measured
element is replaced. -/
theorem proximalMaps_minimise_shrunk :
    ((softThreshold (1 / 2 : ℝ)).apply 2 [0,0,0,0] [3,4,0,1] = .ok [12 / 5,16 / 5,0,0] ∧
        (magnitudes (1 / 2) 2).Minimiser 2 !₂[3,4,0,1] !₂[12 / 5,16 / 5,0,0]) ∧
      ∃ q, measured [true,false] [(⟨1,2⟩ : Cplx ℝ),Cplx.zero] = .ok q ∧
        q.apply 2 [0,0,0,0] [3,4,0,1] = .ok [1,2,0,1] ∧
        (matching [true,false] [⟨1,2⟩,Cplx.zero]).Minimiser 2 !₂[3,4,0,1] !₂[1,2,0,1] := by
  have hfive : (⟨3,4⟩ : Cplx ℝ).magnitude = 5 := by
    have hsq : (3 : ℝ) ^ 2 + 4 ^ 2 = 5 ^ 2 := by norm_num
    change √((3 : ℝ) ^ 2 + 4 ^ 2) = 5
    rw [hsq,Real.sqrt_sq (by norm_num)]
  have hone : (⟨0,1⟩ : Cplx ℝ).magnitude = 1 := by
    simp [Cplx.magnitude_eq]
  have hfirst : SoftThreshold.shrink (1 / 2 * 2) (⟨3,4⟩ : Cplx ℝ) = ⟨12 / 5,16 / 5⟩ := by
    rw [SoftThreshold.shrink,hfive]
    norm_num [Cplx.scale]
  have hsecond : SoftThreshold.shrink (1 / 2 * 2) (⟨0,1⟩ : Cplx ℝ) = Cplx.zero := by
    rw [SoftThreshold.shrink,hone]
    norm_num
  have happly : (softThreshold (1 / 2 : ℝ)).apply 2 [0,0,0,0] [3,4,0,1] =
      .ok [12 / 5,16 / 5,0,0] := by
    change Except.ok (Cplx.interleave [SoftThreshold.shrink (1 / 2 * 2) ⟨3,4⟩,
      SoftThreshold.shrink (1 / 2 * 2) ⟨0,1⟩]) = _
    rw [hfirst,hsecond]
    rfl
  obtain ⟨hthreshold,_,hmeasured⟩ := proximalMaps_minimise (two_pos : (0 : ℝ) < 2)
  refine ⟨⟨happly,?_⟩,?_⟩
  · obtain ⟨y,hy,hmin⟩ := (hthreshold (1 / 2) 2 (by norm_num)).1 [0,0,0,0] !₂[3,4,0,1] rfl
    obtain rfl : y = !₂[12 / 5,16 / 5,0,0] :=
      coords_injective (Except.ok.inj (hy.symm.trans happly))
    exact hmin
  · obtain ⟨q,hq,hminimises,_⟩ := hmeasured [true,false] [⟨1,2⟩,Cplx.zero] rfl
    obtain ⟨y,hy,hmin⟩ := hminimises [0,0,0,0] !₂[3,4,0,1] rfl
    cases hq
    obtain rfl : y = !₂[1,2,0,1] := coords_injective (Except.ok.inj hy.symm)
    exact ⟨_,rfl,hy,hmin⟩

end ProxOperator

end LinearInverse
