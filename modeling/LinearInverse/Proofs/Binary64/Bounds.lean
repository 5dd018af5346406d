import LinearInverse.Proofs.Binary64.Monotone

namespace LinearInverse.Binary64
open Float.Model Float.Model.UnpackedFloat

/-- An operation that keeps a property and whose result is not below either operand. -/
structure Rising (P : Float → Prop) (f : Float → Float → Float) : Prop where
  defined : ∀ v, P v → v.isNaN = false
  keeps : ∀ a v, P a → P v → P (f a v)
  left : ∀ a v, P a → P v → a ≤ f a v
  right : ∀ a v, P a → P v → v ≤ f a v

variable {a v x y z : Float} {xs : List Float}

theorem le_trans (h : x ≤ y) (h' : y ≤ z) : x ≤ z := by
  obtain ⟨hx,_,hxy⟩ := le_iff.mp h
  obtain ⟨_,hz,hyz⟩ := le_iff.mp h'
  exact le_iff.mpr ⟨hx,hz,hxy.trans hyz⟩

theorem le_of_not_lt (hx : x.isNaN = false) (hy : y.isNaN = false) (h : ¬x < y) : y ≤ x :=
  le_iff.mpr ⟨hy,hx,not_lt.mp fun hlt => h (lt_iff_rank.mpr ⟨hx,hy,hlt⟩)⟩

/-- A fold is not below its start nor below anything it takes in. -/
theorem Rising.foldl {P : Float → Prop} {f : Float → Float → Float} (h : Rising P f) (ha : P a)
    (hxs : ∀ v ∈ xs, P v) : a ≤ xs.foldl f a ∧ ∀ v ∈ xs, v ≤ xs.foldl f a := by
  induction xs generalizing a with
  | nil => exact ⟨le_refl (h.defined a ha),by simp⟩
  | cons w xs ih =>
    obtain ⟨hw,hxs⟩ := List.forall_mem_cons.mp hxs
    obtain ⟨hle,hall⟩ := ih (h.keeps a w ha hw) hxs
    exact ⟨le_trans (h.left a w ha hw) hle,
      List.forall_mem_cons.mpr ⟨le_trans (h.right a w ha hw) hle,hall⟩⟩

theorem max_eq (hx : x.isNaN = false) (hy : y.isNaN = false) :
    Scalar.max x y = if x < y then y else x := by
  rw [Scalar.max,scalar_isNaN,scalar_isNaN,hx,hy]
  rfl

theorem rising_max : Rising (fun v => v.isNaN = false) Scalar.max where
  defined _ h := h
  keeps a v ha hv := by
    rw [max_eq ha hv]
    split <;> assumption
  left a v ha hv := by
    rw [max_eq ha hv]
    split
    next h => exact le_of_lt h
    next => exact le_refl ha
  right a v ha hv := by
    rw [max_eq ha hv]
    split
    next => exact le_refl hv
    next h => exact le_of_not_lt ha hv h

theorem rising_add : Rising (fun v => Positive (decode v)) (· + ·) where
  defined _ h := isNaN_of_positive h
  keeps _ _ := positive_add
  left _ _ := le_add
  right _ _ := le_add'

theorem decode_neg_zero : decode (-0 : Float) = .zero .negative :=
  (decode_neg (0 : Float)).trans (congrArg UnpackedFloat.neg decode_zero)

/-- A sum starts at the zero that changes nothing. -/
theorem neg_zero_add (h : Positive (decode x)) : -0 + x = x := by
  rw [add_eq,decode_neg_zero]
  conv_rhs => rw [← encode_decode x]
  congr 1
  cases hd : decode x with
  | notANumber => rfl
  | infinity s => rfl
  | finite s m e hm => rfl
  | zero s =>
    rw [hd] at h
    obtain rfl : s = .positive := h
    rfl

/-- A sum of squares is not below any of them. -/
theorem le_sum (h : ∀ w ∈ xs, Positive (decode w)) (hv : v ∈ xs) : v ≤ Scalar.sum xs := by
  cases xs with
  | nil => cases hv
  | cons w xs =>
    obtain ⟨hw,hxs⟩ := List.forall_mem_cons.mp h
    obtain ⟨hle,hall⟩ := rising_add.foldl hw hxs
    have hsum : Scalar.sum (w :: xs) = xs.foldl (· + ·) w :=
      congrArg (fun s => xs.foldl (· + ·) s) (neg_zero_add hw)
    rw [hsum]
    rcases List.mem_cons.mp hv with rfl | hv
    · exact hle
    · exact hall v hv

theorem isNaN_or_isInf (h : v.isFinite = false) : v.isNaN = true ∨ v.isInf = true :=
  not_finite_cases (P := fun v => v.isNaN = true ∨ v.isInf = true)
    (fun s => .inr (by cases s <;> decide +kernel)) (.inl (by decide +kernel)) h

theorem isInf_of_isTop (h : Scalar.isTop v = true) : v.isInf = true :=
  congrArg UnpackedFloat.isInf (isTop_iff.mp h)

theorem positive_abs (h : v.isNaN = false) : Positive (decode v.abs) := by
  rw [decode_abs]
  rw [isNaN_eq] at h
  cases hd : decode v with
  | notANumber => rw [hd] at h; cases h
  | infinity s => rfl
  | zero s => rfl
  | finite s m e hm => rfl

/-- What is at most a number below the largest one has neither a larger magnitude nor none. -/
theorem isFinite_of_abs_le (h : v.abs ≤ x) (hx : ¬Scalar.isTop x = true) : v.isFinite = true := by
  have hfin : v.isFinite = (decode v).isFinite := rfl
  have hnan := (le_iff.mp h).1
  rw [isNaN_abs,isNaN_eq] at hnan
  rw [hfin]
  cases hd : decode v with
  | notANumber => rw [hd] at hnan; cases hnan
  | infinity s =>
    refine absurd (isTop_of_le (isTop_iff.mpr ?_) h) hx
    rw [decode_abs,hd]
    rfl
  | zero s => rfl
  | finite s m e hm => rfl

theorem isInfinite_of_positive (h : Positive (decode x)) : Scalar.isInfinite x = Scalar.isTop x :=
  congrArg Scalar.isTop (abs_of_positive h)

/-- What is left of the positive numbers beside zero and infinity. -/
theorem exists_decode (h : Positive (decode x)) (h0 : ¬(x == (0 : Float)) = true)
    (htop : ¬Scalar.isTop x = true) : ∃ m e hm, decode x = .finite .positive m e hm := by
  rw [isTop_iff] at htop
  cases hd : decode x with
  | notANumber => rw [hd] at h; exact h.elim
  | zero s => exact absurd (beq_zero_of_decode hd) h0
  | infinity s =>
    rw [hd] at h
    obtain rfl : s = .positive := h
    exact absurd hd htop
  | finite s m e hm =>
    rw [hd] at h
    obtain rfl : s = .positive := h
    exact ⟨m,e,hm,rfl⟩

theorem decode_of_abs {m : Nat} {e : Int} {hm : 0 < m}
    (h : decode v.abs = .finite .positive m e hm) : ∃ s, decode v = .finite s m e hm := by
  rw [decode_abs] at h
  cases hd : decode v with
  | finite s n i hn =>
    rw [hd] at h
    cases h
    exact ⟨s,rfl⟩
  | _ => rw [hd] at h; cases h

theorem zero_iff : v = 0 ∨ v = -0 ↔ (v == (0 : Float)) = true := by
  constructor
  · rintro (rfl | rfl) <;> decide +kernel
  · intro h
    obtain ⟨s,hs⟩ := decode_of_beq_zero h
    cases s with
    | positive => exact .inl (decode_injective (hs.trans decode_zero.symm))
    | negative => exact .inr (decode_injective (hs.trans decode_neg_zero.symm))

/-- Only zero has a magnitude that is not above zero. -/
theorem beq_zero_of_abs_le (h : v.abs ≤ x) (hx : (x == (0 : Float)) = true) :
    (v == (0 : Float)) = true := by
  obtain ⟨s,hs⟩ := decode_of_beq_zero hx
  obtain ⟨hnan,_,hle⟩ := le_iff.mp h
  rw [isNaN_abs,isNaN_eq] at hnan
  rw [decode_abs,hs] at hle
  cases hd : decode v with
  | notANumber => rw [hd] at hnan; cases hnan
  | infinity t => simp [hd,UnpackedFloat.abs,rank,Prod.Lex.toLex_le_toLex] at hle
  | zero t => exact beq_zero_of_decode hd
  | finite t m e hm => simp [hd,UnpackedFloat.abs,rank,Prod.Lex.toLex_le_toLex] at hle

theorem isNaN_div {s : Sign} {m : Nat} {e : Int} {hm : 0 < m} (hv : v.isFinite = true)
    (hx : decode x = .finite s m e hm) : (v / x).isNaN = false := by
  rw [div_eq,hx]
  obtain ⟨t,hd⟩ | ⟨t,n,i,hn,hd⟩ := decode_of_isFinite hv <;> rw [hd]
  · exact isNaN_encode_zero (t / s)
  · obtain ⟨e',f,hround,hf⟩ := exists_decode_round (t / s)
      (divCore .binary64 n i m e).1 (divCore .binary64 n i m e).2.1 (divCore .binary64 n i m e).2.2
    exact (congrArg UnpackedFloat.isNaN hround).trans (isNaN_ofFields hf)

/-- A double over its magnitude is one or minus one, and has the square one. -/
theorem square_div_abs {s : Sign} {m : Nat} {e : Int} {hm : 0 < m}
    (hv : decode v = .finite s m e hm) : v / v.abs * (v / v.abs) = One.one := by
  have habs : decode v.abs = .finite .positive m e hm := by
    rw [decode_abs,hv]
    rfl
  have hdiv : decode (v / v.abs) = .finite s (2 ^ 52) (-52) (by decide) := by
    have hs : s / .positive = s := by cases s <;> rfl
    rw [div_eq,habs,hv,div_finite_self,hs]
    exact decode_encode canonical_unit
  have hs : s * s = .positive := by cases s <;> rfl
  apply decode_injective
  rw [mul_eq,hdiv,decode_one,UnpackedFloat.mul,hs,
    show (-52 : Int) + -52 = -52 - (52 : Nat) from rfl,roundWithAccuracy_canonical canonical_unit]
  exact decode_encode canonical_unit

end LinearInverse.Binary64
