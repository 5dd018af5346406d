import LinearInverse.Proofs.Binary64.Bounds
import LinearInverse.Proofs.Euclidean
import LinearInverse.Proofs.Skipping

namespace LinearInverse

namespace Vec
open Binary64 Float.Model

variable {x : List Float} {v : Float}

theorem isNaN_zero : (0 : Float).isNaN = false := by decide +kernel

theorem peak_eq_foldl (x : List Float) : peak x = (x.map Float.abs).foldl Scalar.max 0 := by
  rw [List.foldl_map]
  rfl

theorem abs_le_peak (h : Defined x) (hv : v ∈ x) : v.abs ≤ peak x := by
  rw [peak_eq_foldl]
  refine (rising_max.foldl isNaN_zero ?_).2 _ (List.mem_map_of_mem hv)
  intro a ha
  obtain ⟨w,hw,rfl⟩ := List.mem_map.mp ha
  rw [isNaN_abs]
  exact h w hw

/-- The largest magnitude is that of some entry. -/
theorem exists_peak_eq (x : List Float) : peak x = 0 ∨ ∃ v ∈ x, peak x = v.abs := by
  have hmax : ∀ s w : Float, Scalar.max s w = s ∨ Scalar.max s w = w := by
    intro s w
    unfold Scalar.max
    split_ifs <;> simp
  refine List.foldlRecOn (motive := fun s => s = 0 ∨ ∃ v ∈ x, s = v.abs) x _ (.inl rfl) ?_
  intro s hs v hv
  rcases hmax s v.abs with hm | hm
  · exact hs.imp hm.trans fun ⟨w,hw,hsw⟩ => ⟨w,hw,hm.trans hsw⟩
  · exact .inr ⟨v,hv,hm⟩

theorem isNaN_norm (hv : v ∈ x) (h : v.isNaN = true) : (norm x).isNaN = true := by
  cases hf : x.find? Scalar.isNaN with
  | none =>
    have := List.find?_eq_none.mp hf v hv
    rw [scalar_isNaN] at this
    exact absurd h this
  | some w =>
    rw [norm,hf]
    exact (scalar_isNaN w).symm.trans (List.find?_some hf)

theorem norm_of_defined (h : Defined x) : norm x =
    if peak x == 0 || Scalar.isInfinite (peak x) then peak x
    else peak x * Scalar.sqrt (Scalar.sum (x.map fun v => v / peak x * (v / peak x))) := by
  have hf : x.find? Scalar.isNaN = none := by
    refine List.find?_eq_none.mpr fun v hv => ?_
    rw [scalar_isNaN,h v hv]
    exact Bool.false_ne_true
  rw [norm,hf]
  rfl

theorem positive_peak (h : Defined x) : Positive (decode (peak x)) := by
  obtain hp | ⟨v,hv,hp⟩ := exists_peak_eq x <;> rw [hp]
  · rw [show decode (0 : Float) = .zero .positive from decode_zero]
    rfl
  · exact positive_abs (h v hv)

/-- Of the ratios to the largest magnitude, some have the square one. -/
theorem one_le_sum_ratios {m : Nat} {e : Int} {hm : 0 < m} (h : Defined x)
    (hd : decode (peak x) = .finite .positive m e hm) :
    One.one ≤ Scalar.sum (x.map fun v => v / peak x * (v / peak x)) := by
  have htop : ¬Scalar.isTop (peak x) = true := by
    rw [isTop_iff,hd]
    nofun
  -- the square is one of the summands, and all of them have a positive sign
  apply le_sum
  · intro r hr
    obtain ⟨v,hv,rfl⟩ := List.mem_map.mp hr
    exact positive_square (isNaN_div (isFinite_of_abs_le (abs_le_peak h hv) htop) hd)
  · obtain hp | ⟨v,hv,hp⟩ := exists_peak_eq x
    · rw [hp,show decode (0 : Float) = .zero .positive from decode_zero] at hd
      cases hd
    · rw [hp] at hd ⊢
      obtain ⟨s,hs⟩ := decode_of_abs hd
      exact List.mem_map.mpr ⟨v,hv,square_div_abs hs⟩

theorem peak_le_norm (h : Defined x) : peak x ≤ norm x := by
  have hpeak := positive_peak h
  rw [norm_of_defined h,isInfinite_of_positive hpeak]
  split
  next => exact le_refl (isNaN_of_positive hpeak)
  next hs =>
    obtain ⟨h0,htop⟩ := not_or.mp (mt (Bool.or_eq_true _ _).mpr hs)
    obtain ⟨m,e,hm,hd⟩ := exists_decode hpeak h0 htop
    exact le_mul hd (one_le_sqrt (one_le_sum_ratios h hd))

theorem abs_le_norm (h : Defined x) (hv : v ∈ x) : v.abs ≤ norm x :=
  le_trans (abs_le_peak h hv) (peak_le_norm h)

theorem norm_beq_zero_iff : (norm x == 0) = true ↔ ∀ v ∈ x, (v == (0 : Float)) = true := by
  constructor
  · intro h v hv
    have hx : Defined x := fun w hw => Bool.eq_false_iff.mpr fun hnan => by
      exact Bool.eq_false_iff.mp (not_beq_zero (.inl (isNaN_norm hw hnan))) h
    exact beq_zero_of_abs_le (abs_le_norm hx hv) h
  · intro h
    have hx : Defined x := fun w hw => Bool.eq_false_iff.mpr fun hnan => by
      exact Bool.eq_false_iff.mp (not_beq_zero (.inl hnan)) (h w hw)
    have hp : (peak x == (0 : Float)) = true := by
      obtain hp | ⟨v,hv,hp⟩ := exists_peak_eq x <;> rw [hp]
      · decide +kernel
      · obtain ⟨s,hs⟩ := decode_of_beq_zero (h v hv)
        refine beq_zero_of_decode (s := .positive) ?_
        rw [decode_abs,hs]
        rfl
    rw [norm_of_defined hx,if_pos (by rw [Bool.or_eq_true]; exact .inl hp)]
    exact hp

theorem isTop_norm (h : Defined x) (hv : v ∈ x) (hinf : v.isInf = true) :
    Scalar.isTop (norm x) = true := by
  refine isTop_of_le (isTop_iff.mpr ?_) (abs_le_norm h hv)
  have hinf' : (decode v).isInf = true := hinf
  rw [decode_abs]
  cases hd : decode v with
  | infinity s => rfl
  | _ => rw [hd] at hinf'; cases hinf'

/-- The largest magnitude cancels where nothing is rounded. -/
theorem norm_eq_sqrt (x : List ℝ) : norm x = √(x.map (· ^ 2)).sum := by
  obtain ⟨v,hv⟩ := exists_coords (rfl : x.length = x.length)
  rw [← hv,norm_coords,map_coords,List.sum_ofFn,EuclideanSpace.norm_eq]
  simp only [Real.norm_eq_abs,sq_abs]

end Vec

namespace DataState
open Binary64

/-- What the norm and the class of a vector tell about its entries. -/
structure Classified (x : List Float) : Prop where
  zero_iff : (Vec.norm x == 0) = true ↔ ∀ v ∈ x, v = 0 ∨ v = -0
  empty_iff : classify x = .empty ↔ ∀ v ∈ x, v = 0 ∨ v = -0
  undefined : (∃ v ∈ x, v.isNaN = true) → (Vec.norm x).isNaN = true
  infinite : (∀ v ∈ x, v.isNaN = false) → (∃ v ∈ x, v.isInf = true) →
    Scalar.isTop (Vec.norm x) = true
  corrupted : (∃ v ∈ x, v.isFinite = false) → classify x = .corrupted (Vec.norm x)
  finite : (∀ v ∈ x, v.isFinite = true) → ∀ v ∈ x, v.abs ≤ Vec.norm x
  usable : ∀ s, classify x = .usable s →
    s = Vec.norm x ∧ ∀ v ∈ x, v.isFinite = true ∧ v.abs ≤ s

variable {x : List Float} {v : Float}

theorem classify_eq_empty_iff : classify x = .empty ↔ (Vec.norm x == 0) = true := by
  rw [classify_eq]
  split
  next h => exact iff_of_true rfl h
  next h => exact iff_of_false (by split <;> nofun) h

theorem classify_of_not_finite (hv : v ∈ x) (h : v.isFinite = false) :
    classify x = .corrupted (Vec.norm x) := by
  have hnorm : (Vec.norm x).isNaN = true ∨ (Vec.norm x).isInf = true := by
    by_cases hx : Defined x
    · have hinf := (isNaN_or_isInf h).resolve_left (by rw [hx v hv]; exact Bool.false_ne_true)
      exact .inr (isInf_of_isTop (Vec.isTop_norm hx hv hinf))
    · obtain ⟨w,hw,hnan⟩ := by simpa only [Defined,not_forall] using hx
      exact .inl (Vec.isNaN_norm hw (Bool.eq_true_of_not_eq_false hnan))
  have hmarks : Degeneracy.corrupted.Marks (Vec.norm x) := hnorm.imp_right .inl
  rw [classify_eq,if_neg (Bool.eq_false_iff.mp (not_beq_zero hmarks)),
    if_neg fun hn => Degeneracy.isNormal_iff.mp hn .corrupted hmarks]

theorem isFinite_of_not_corrupted (h : classify x ≠ .corrupted (Vec.norm x)) (hv : v ∈ x) :
    v.isFinite = true :=
  Bool.eq_true_of_not_eq_false fun hfin => h (classify_of_not_finite hv hfin)

theorem defined_of_finite (h : ∀ v ∈ x, v.isFinite = true) : Defined x :=
  fun v hv => isNaN_of_isFinite (h v hv)

/-- The norm of every vector of doubles and the class it is put into; in exact arithmetic the norm
is the root of the sum of squares. -/
theorem classify_entries : (∀ x, Classified x) ∧
    ∀ y : List ℝ, Vec.norm y = √(y.map (· ^ 2)).sum := by
  refine ⟨fun x => ?_,Vec.norm_eq_sqrt⟩
  have hzero : (Vec.norm x == 0) = true ↔ ∀ v ∈ x, v = 0 ∨ v = -0 := by
    simp only [Binary64.zero_iff]
    exact Vec.norm_beq_zero_iff
  exact {
    zero_iff := hzero
    empty_iff := classify_eq_empty_iff.trans hzero
    undefined := fun ⟨v,hv,h⟩ => Vec.isNaN_norm hv h
    infinite := fun hx ⟨v,hv,h⟩ => Vec.isTop_norm hx hv h
    corrupted := fun ⟨v,hv,h⟩ => classify_of_not_finite hv h
    finite := fun hx v hv => Vec.abs_le_norm (defined_of_finite hx) hv
    usable := fun s hs => by
      obtain ⟨rfl,_⟩ := eq_of_classify_usable hs
      have hfin : ∀ v ∈ x, v.isFinite = true := fun v hv =>
        isFinite_of_not_corrupted (by rw [hs]; nofun) hv
      exact ⟨rfl,fun v hv => ⟨hfin v hv,Vec.abs_le_norm (defined_of_finite hfin) hv⟩⟩ }

/-- An infinite entry beside an undefined one, and the smallest number alone. -/
theorem classify_edges :
    (Vec.norm [Float.ofBits 0x7FF0000000000000,Float.ofBits 0x7FF8000000000000]).isNaN = true ∧
    classify [Float.ofBits 1] ≠ .empty := by
  obtain ⟨hall,_⟩ := classify_entries
  refine ⟨(hall _).undefined ⟨_,List.mem_cons_of_mem _ List.mem_cons_self,by decide +kernel⟩,?_⟩
  intro h
  have hzero := (hall _).empty_iff.mp h _ List.mem_cons_self
  exact absurd (Binary64.zero_iff.mp hzero) (by decide +kernel)

end DataState

end LinearInverse
