import LinearInverse.Proofs.Binary64.Arithmetic
import LinearInverse.Vec

namespace LinearInverse.Binary64
open Float.Model Float.Model.UnpackedFloat

variable {x y : Float} {u v : Unpacked}

theorem lt_iff : x < y ↔ (decode x).lt (decode y) = true :=
  decide_eq_true_iff

theorem isNaN_eq (x : Float) : x.isNaN = (decode x).isNaN := rfl

theorem canonical_abs (h : Canonical u) : Canonical u.abs := by
  cases u <;> exact h

theorem decode_abs (x : Float) : decode x.abs = (decode x).abs :=
  decode_encode (canonical_abs (canonical_decode x))

theorem decode_of_beq_zero (h : (x == (0 : Float)) = true) : ∃ s, decode x = .zero s := by
  have hx : (decode x).beq (decode Zero.zero) = true := h
  rw [decode_zero,beq_zero] at hx
  cases hd : decode x with
  | zero s => exact ⟨s,rfl⟩
  | _ => rw [hd] at hx; cases hx

theorem beq_zero_of_decode {s : Sign} (h : decode x = .zero s) : (x == (0 : Float)) = true := by
  have hzero : (x == (0 : Float)) = (decode x).beq (decode Zero.zero) := rfl
  rw [hzero,h,decode_zero,beq_zero]

/-- The least positive double of full precision. -/
def minNormal : Float := Float.ofBits 0x0010000000000000

theorem decode_minNormal : decode minNormal = .finite .positive (2 ^ 52) (-1074) (by decide) := by
  have h : minNormal = encode (.finite .positive (2 ^ 52) (-1074) (by decide)) := by decide +kernel
  rw [h]
  exact decode_encode ⟨by decide,by decide,by decide,.inl (by decide)⟩

/-- Neither zero nor of full precision, as it is too small. -/
def Subnormal (x : Float) : Prop :=
  (0 : Float) < x.abs ∧ x.abs < minNormal

theorem subnormal_iff : Subnormal x ↔ (UnpackedFloat.zero .positive).lt (decode x).abs = true ∧
    (decode x).abs.lt (.finite .positive (2 ^ 52) (-1074) (by decide)) = true := by
  have h0 : decode (0 : Float) = .zero .positive := decode_zero
  rw [Subnormal,lt_iff,lt_iff,decode_abs,decode_minNormal,h0]

theorem subnormal_of_decode {s : Sign} {m : Nat} {hm : 0 < m}
    (h : decode x = .finite s m (-1074) hm) (hlt : m < 2 ^ 52) : Subnormal x := by
  rw [subnormal_iff,h]
  refine ⟨rfl,?_⟩
  have hcmp : compare m (2 ^ 52) = .lt := Nat.compare_eq_lt.mpr hlt
  simp only [UnpackedFloat.abs,UnpackedFloat.lt,UnpackedFloat.compare,hcmp]
  rfl

theorem not_subnormal_of_decode {s : Sign} {m : Nat} {e : Int} {hm : 0 < m}
    (h : decode x = .finite s m e hm) (hm' : 2 ^ 52 ≤ m) (he : -1074 ≤ e) : ¬Subnormal x := by
  rw [subnormal_iff,h]
  rintro ⟨-,hlt⟩
  simp only [UnpackedFloat.abs,UnpackedFloat.lt,UnpackedFloat.compare,beq_iff_eq,
    Option.some.injEq,Ordering.then_eq_lt,Int.compare_eq_lt,Nat.compare_eq_lt,
    Int.compare_eq_eq] at hlt
  omega

/-- Full precision is what is left beside zero, the undefined number, the infinities and the
subnormal numbers. -/
theorem isNormal_iff : Scalar.isNormal x = true ↔
    (x == (0 : Float)) = false ∧ x.isNaN = false ∧ x.isInf = false ∧ ¬Subnormal x := by
  obtain ⟨s,e,f,hd,he⟩ := exists_fields x
  have hnormal : Scalar.isNormal x = true ↔ e.toNat ≠ 0 ∧ e.toNat ≠ 2047 := by
    change (Scalar.Binary64.exponentField x != 0 &&
      Scalar.Binary64.exponentField x != 0x7FF) = true ↔ _
    rw [Bool.and_eq_true,bne_iff_ne,bne_iff_ne,Ne,Ne,← UInt64.toNat_inj,← UInt64.toNat_inj,he]
    rfl
  have hzero : (x == (0 : Float)) = (decode x).beq (.zero .positive) :=
    congrArg (UnpackedFloat.beq (decode x)) decode_zero
  have hinf : x.isInf = (decode x).isInf := rfl
  have hf := f.isLt
  rw [hnormal,hzero,isNaN_eq,hinf]
  unfold ofFields at hd
  split at hd
  next hmax =>
    have hmax' : e.toNat = 2047 := congrArg BitVec.toNat hmax
    refine iff_of_false (fun h => h.2 hmax') ?_
    split at hd <;> rw [hd] <;> simp [UnpackedFloat.isNaN,UnpackedFloat.isInf]
  next hmax =>
    split at hd
    next hmin =>
      have hmin' : e.toNat = 0 := congrArg BitVec.toNat hmin
      refine iff_of_false (fun h => h.1 hmin') ?_
      split at hd
      next => rw [hd]; exact fun h => absurd h.1 (by cases s <;> decide)
      next => exact fun h => h.2.2.2 (subnormal_of_decode hd hf)
    next hmin =>
      refine iff_of_true ⟨fun h => hmin (BitVec.eq_of_toNat_eq h),
        fun h => hmax (BitVec.eq_of_toNat_eq h)⟩ ?_
      have hmin' : e.toNat ≠ 0 := fun h => hmin (BitVec.eq_of_toNat_eq h)
      refine ⟨?_,?_,?_,not_subnormal_of_decode hd (by omega) (by omega)⟩ <;> rw [hd] <;>
        cases s <;> rfl

/-- Zero is none of the things that have not full precision otherwise. -/
theorem not_beq_zero (h : x.isNaN = true ∨ x.isInf = true ∨ Subnormal x) :
    (x == (0 : Float)) = false := by
  rw [Bool.eq_false_iff]
  intro h0
  obtain ⟨s,hs⟩ := decode_of_beq_zero h0
  have hinf : x.isInf = (decode x).isInf := rfl
  rw [isNaN_eq,hinf,subnormal_iff,hs] at h
  cases s <;> exact absurd h (by decide)

/-- Not below zero: the sign of an infinity or of a number other than zero is positive. -/
def Unsigned : Unpacked → Prop
  | .infinity s | .finite s _ _ _ => s = .positive
  | _ => True

theorem not_lt_zero (h : Unsigned u) (t : Sign) : u.lt (.zero t) = false := by
  cases u with
  | notANumber => rfl
  | infinity s => subst h; rfl
  | zero s => rfl
  | finite s m e hm => subst h; rfl

theorem not_lt_of_unsigned (h : Unsigned (decode x)) (hy : (y == (0 : Float)) = true) :
    ¬x < y := by
  obtain ⟨t,ht⟩ := decode_of_beq_zero hy
  rw [lt_iff,ht,not_lt_zero h]
  exact Bool.false_ne_true

theorem unsigned_encode (h : Canonical u) (hu : Unsigned u) : Unsigned (decode (encode u)) := by
  rwa [decode_encode h]

theorem unsigned_ofFields (e : BitVec 11) (f : BitVec 52) :
    Unsigned (ofFields .positive e f) := by
  cases shape e f with
  | notANumber _ _ hu | infinity _ hu | zero _ hu | finite _ _ _ _ hu => rw [hu]; trivial

theorem unsigned_round (m : Nat) (e : Int) (a : Accuracy) :
    Unsigned (decode (encode (roundWithAccuracy .binary64 .positive m e a))) := by
  obtain ⟨e',f,h,_⟩ := exists_decode_round .positive m e a
  rw [h]
  exact unsigned_ofFields e' f

theorem unsigned_abs (x : Float) : Unsigned (decode x.abs) := by
  rw [decode_abs]
  cases decode x <;> trivial

theorem unsigned_sqrt (x : Float) : Unsigned (decode x.sqrt) := by
  have h : x.sqrt = encode (UnpackedFloat.sqrt .binary64 (decode x)) := rfl
  rw [h]
  cases decode x with
  | notANumber => exact unsigned_encode (u := .notANumber) trivial trivial
  | infinity s =>
    cases s with
    | positive => exact unsigned_encode (u := .infinity .positive) trivial rfl
    | negative => exact unsigned_encode (u := .notANumber) trivial trivial
  | zero s => exact unsigned_encode (u := .zero s) trivial trivial
  | finite s m e hm =>
    cases s with
    | positive => exact unsigned_round _ _ _
    | negative => exact unsigned_encode (u := .notANumber) trivial trivial

/-- A product of unsigned numbers is exact and unsigned, or rounded with a positive sign. -/
theorem mul_cases (hu : Unsigned u) (hv : Unsigned v) :
    Canonical (UnpackedFloat.mul .binary64 u v) ∧ Unsigned (UnpackedFloat.mul .binary64 u v) ∨
      ∃ m e, UnpackedFloat.mul .binary64 u v = roundWithAccuracy .binary64 .positive m e .exact := by
  cases u <;> cases v <;> simp only [UnpackedFloat.mul]
  all_goals first
    | exact .inl ⟨trivial,trivial⟩
    | (subst hu hv; exact .inl ⟨trivial,rfl⟩)
    | (subst hu hv; exact .inr ⟨_,_,rfl⟩)

theorem unsigned_mul (hx : Unsigned (decode x)) (hy : Unsigned (decode y)) :
    Unsigned (decode (x * y)) := by
  rw [mul_eq]
  obtain ⟨hc,hu⟩ | ⟨m,e,h⟩ := mul_cases hx hy
  · exact unsigned_encode hc hu
  · rw [h]
    exact unsigned_round m e .exact

theorem decode_of_isNaN (h : x.isNaN = true) : decode x = .notANumber := by
  rw [isNaN_eq] at h
  cases hd : decode x with
  | notANumber => rfl
  | infinity s => rw [hd] at h; cases h
  | zero s => rw [hd] at h; cases h
  | finite s m e hm => rw [hd] at h; cases h

theorem unsigned_of_isNaN (h : x.isNaN = true) : Unsigned (decode x) := by
  rw [decode_of_isNaN h]
  trivial

/-- What does not equal itself is the undefined number. -/
theorem scalar_isNaN (x : Float) : Scalar.isNaN x = x.isNaN := by
  have h : Scalar.isNaN x = !(decode x).beq (decode x) := rfl
  rw [h,isNaN_eq]
  cases decode x with
  | notANumber => rfl
  | infinity s => cases s <;> rfl
  | zero s => rfl
  | finite s m e hm =>
    cases s <;> simp [UnpackedFloat.beq,UnpackedFloat.compare,UnpackedFloat.isNaN]

theorem unsigned_max (hx : Unsigned (decode x)) (hy : Unsigned (decode y)) :
    Unsigned (decode (Scalar.max x y)) := by
  unfold Scalar.max
  split
  · exact hy
  · split
    · exact hx
    · split
      · exact hy
      · exact hx

theorem unsigned_peak (x : List Float) : Unsigned (decode (Vec.peak x)) := by
  have h0 : Unsigned (decode (0 : Float)) := by
    have h : decode (0 : Float) = .zero .positive := decode_zero
    rw [h]
    trivial
  exact List.foldlRecOn (motive := fun s => Unsigned (decode s)) x _ h0
    fun _ h v _ => unsigned_max h (unsigned_abs v)

theorem unsigned_norm (x : List Float) : Unsigned (decode (Vec.norm x)) := by
  unfold Vec.norm
  split
  next v hv => exact unsigned_of_isNaN ((scalar_isNaN v).symm.trans (List.find?_some hv))
  next =>
    dsimp only
    split
    · exact unsigned_peak x
    · exact unsigned_mul (unsigned_peak x) (unsigned_sqrt _)

/-- No norm is below zero, of whichever sign. -/
theorem not_norm_lt (x : List Float) (hy : (y == (0 : Float)) = true) : ¬Vec.norm x < y :=
  not_lt_of_unsigned (unsigned_norm x) hy

theorem zero_mul_of_isFinite (hx : (x == (0 : Float)) = true) (hy : y.isFinite = true) :
    (x * y == (0 : Float)) = true := by
  obtain ⟨s,hs⟩ := decode_of_beq_zero hx
  have hmul : ∃ t, UnpackedFloat.mul .binary64 (.zero s) (decode y) = .zero t := by
    obtain ⟨t,h⟩ | ⟨t,m,e,hm,h⟩ := decode_of_isFinite hy <;> rw [h] <;> exact ⟨_,rfl⟩
  obtain ⟨t,ht⟩ := hmul
  apply beq_zero_of_decode (s := t)
  rw [mul_eq,hs,ht,decode_encode (u := .zero t) trivial]

end LinearInverse.Binary64
