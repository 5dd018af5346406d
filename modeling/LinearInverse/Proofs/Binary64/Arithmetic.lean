import LinearInverse.Proofs.Binary64.Rounding

namespace LinearInverse.Binary64
open Float.Model Float.Model.UnpackedFloat

variable {x y : Float} {u v : Unpacked}

theorem add_eq (x y : Float) : x + y = encode (UnpackedFloat.add .binary64 (decode x) (decode y)) :=
  rfl

theorem mul_eq (x y : Float) : x * y = encode (UnpackedFloat.mul .binary64 (decode x) (decode y)) :=
  rfl

theorem div_eq (x y : Float) : x / y = encode (UnpackedFloat.div .binary64 (decode x) (decode y)) :=
  rfl

theorem canonical_neg (h : Canonical u) : Canonical u.neg := by
  cases u <;> exact h

theorem decode_neg (x : Float) : decode (-x) = (decode x).neg :=
  decode_encode (canonical_neg (canonical_decode x))

theorem encode_zero : encode (.zero .positive) = Zero.zero :=
  rfl

theorem decode_zero : decode Zero.zero = .zero .positive :=
  decode_encode (u := .zero .positive) trivial

def unit : Unpacked := .finite .positive (2 ^ 52) (-52) (by decide)

theorem canonical_unit : Canonical unit := ⟨by decide,by decide,by decide,.inl (by decide)⟩

theorem decode_one : decode One.one = unit := by
  have h : (One.one : Float) = encode unit := by decide +kernel
  rw [h]
  exact decode_encode canonical_unit

theorem decode_of_isFinite (h : x.isFinite = true) :
    (∃ s, decode x = .zero s) ∨ ∃ s m e hm, decode x = .finite s m e hm := by
  have hx : (decode x).isFinite = true := h
  cases hd : decode x with
  | notANumber => rw [hd] at hx; cases hx
  | infinity s => rw [hd] at hx; cases hx
  | zero s => exact .inl ⟨s,rfl⟩
  | finite s m e hm => exact .inr ⟨s,m,e,hm,rfl⟩

theorem isNaN_of_isFinite (h : x.isFinite = true) : x.isNaN = false := by
  change (decode x).isNaN = false
  obtain ⟨s,hd⟩ | ⟨s,m,e,hm,hd⟩ := decode_of_isFinite h <;> rw [hd] <;> rfl

theorem neg_neg (x : Float) : - -x = x := by
  apply decode_injective
  rw [decode_neg,decode_neg]
  cases decode x with
  | notANumber => rfl
  | infinity s => cases s <;> rfl
  | zero s => cases s <;> rfl
  | finite s m e hm => cases s <;> rfl

theorem sign_neg_mul_neg (s t : Sign) : -s * -t = s * t := by
  cases s <;> cases t <;> rfl

theorem sign_mul_comm (s t : Sign) : s * t = t * s := by
  cases s <;> cases t <;> rfl

theorem neg_mul_neg (x y : Float) : -x * -y = x * y := by
  rw [mul_eq,mul_eq,decode_neg,decode_neg]
  cases decode x <;> cases decode y <;>
    simp only [UnpackedFloat.neg,UnpackedFloat.mul,sign_neg_mul_neg]

theorem mul_comm (x y : Float) : x * y = y * x := by
  rw [mul_eq,mul_eq]
  cases decode x <;> cases decode y <;>
    simp only [UnpackedFloat.mul,sign_mul_comm,Nat.mul_comm,Int.add_comm]

theorem mul_unit (h : Canonical u) : UnpackedFloat.mul .binary64 u unit = u := by
  cases u with
  | notANumber => rfl
  | infinity s => cases s <;> rfl
  | zero s => cases s <;> rfl
  | finite s m e hm =>
    have hs : s * .positive = s := by cases s <;> rfl
    exact (congrArg (roundWithAccuracy .binary64 · _ _ _) hs).trans
      (roundWithAccuracy_canonical h s 52)

theorem mul_one (x : Float) : x * One.one = x := by
  rw [mul_eq,decode_one,mul_unit (canonical_decode x),encode_decode]

theorem one_mul (x : Float) : One.one * x = x := by
  rw [mul_comm,mul_one]

theorem eq_one_of_beq (h : (x == One.one) = true) : x = One.one := by
  apply decode_injective
  have hx : (decode x).beq (decode One.one) = true := h
  rw [decode_one] at hx ⊢
  obtain ⟨_,_,h | ⟨_,h⟩ | ⟨_,h⟩⟩ := (beq_iff_ne_notANumber_and_eq _ _).mp hx
  · exact h
  · cases h
  · cases h

theorem add_neg_finite (s : Sign) (m : Nat) (e : Int) (hm : 0 < m) :
    UnpackedFloat.add .binary64 (.finite (-s) m e hm) (.finite s m e hm) = .zero .positive := by
  have hs : ∀ k : Nat, (-s).apply (k : Int) + s.apply k = 0 := by
    intro k
    cases s
    · exact Int.add_right_neg k
    · exact Int.add_left_neg k
  simp only [UnpackedFloat.add,hs]
  rfl

theorem neg_add_self (h : x.isFinite = true) : -x + x = Zero.zero := by
  rw [add_eq,decode_neg]
  obtain ⟨s,hd⟩ | ⟨s,m,e,hm,hd⟩ := decode_of_isFinite h
  · rw [hd]
    cases s <;> exact encode_zero
  · rw [hd]
    exact congrArg encode (add_neg_finite s m e hm)

theorem divCore_self {m : Nat} (hm : 0 < m) (e : Int) :
    divCore .binary64 m e m e = (2 ^ 53,-53,.exact) := by
  simp only [divCore,Int.sub_self,Nat.shiftLeft_eq]
  change (m * 2 ^ 53 / m,-53,accuracyOfFraction (m * 2 ^ 53 % m) m) = _
  rw [Nat.mul_div_cancel_left _ hm,Nat.mul_mod_right]
  rfl

theorem div_finite_self (s t : Sign) {m : Nat} (e : Int) (hm : 0 < m) :
    UnpackedFloat.div .binary64 (.finite s m e hm) (.finite t m e hm) =
      .finite (s / t) (2 ^ 52) (-52) (by decide) := by
  simp only [UnpackedFloat.div,divCore_self hm]
  rw [show (2 : Nat) ^ 53 = 2 ^ 52 * 2 ^ 1 from rfl,show (-53 : Int) = -52 - (1 : Nat) from rfl,
    roundWithAccuracy_canonical canonical_unit]

theorem div_self (h : x.isFinite = true) (h0 : (x == Zero.zero) = false) : x / x = One.one := by
  apply decode_injective
  rw [div_eq,decode_one]
  obtain ⟨s,hd⟩ | ⟨s,m,e,hm,hd⟩ := decode_of_isFinite h
  · have hz : (decode x).beq (decode Zero.zero) = false := h0
    rw [decode_zero,hd] at hz
    cases hz
  · have hs : s / s = .positive := by cases s <;> rfl
    rw [hd,div_finite_self,hs]
    exact decode_encode canonical_unit

theorem isFinite_encode_eq_false (h : u.isFinite = false) : (encode u).isFinite = false := by
  have hu : decode (encode u) = u := by
    cases u with
    | notANumber => exact decode_encode trivial
    | infinity s => exact decode_encode trivial
    | zero s => cases h
    | finite s m e hm => cases h
  exact (congrArg UnpackedFloat.isFinite hu).trans h

theorem isFinite_add_eq_false (h : ¬(u.isFinite = true ∧ v.isFinite = true)) :
    (UnpackedFloat.add .binary64 u v).isFinite = false := by
  cases u <;> cases v <;> simp only [UnpackedFloat.add] <;> first
    | rfl
    | (split <;> rfl)
    | exact absurd ⟨rfl,rfl⟩ h

theorem isFinite_mul_eq_false (h : ¬(u.isFinite = true ∧ v.isFinite = true)) :
    (UnpackedFloat.mul .binary64 u v).isFinite = false := by
  cases u <;> cases v <;> first
    | rfl
    | exact absurd ⟨rfl,rfl⟩ h

theorem beq_zero (v : Unpacked) : v.beq (.zero .positive) = (v matches .zero _) := by
  cases v with
  | notANumber => rfl
  | infinity s => cases s <;> rfl
  | zero s => rfl
  | finite s m e hm => cases s <;> rfl

/-- Infinity by infinity is undefined, and so is zero by zero. Anything else by zero is infinite. -/
theorem isFinite_div_eq_false
    (h : ¬(u.isFinite = true ∧ v.isNaN = false ∧ v.beq (.zero .positive) = false)) :
    (UnpackedFloat.div .binary64 u v).isFinite = false := by
  rw [beq_zero] at h
  cases u <;> cases v <;> first
    | rfl
    | exact absurd ⟨rfl,rfl,rfl⟩ h

theorem isFinite_add (h : (x + y).isFinite = true) : x.isFinite = true ∧ y.isFinite = true := by
  apply Decidable.byContradiction
  intro hxy
  exact Bool.false_ne_true ((isFinite_encode_eq_false (isFinite_add_eq_false hxy)).symm.trans h)

theorem isFinite_mul (h : (x * y).isFinite = true) : x.isFinite = true ∧ y.isFinite = true := by
  apply Decidable.byContradiction
  intro hxy
  exact Bool.false_ne_true ((isFinite_encode_eq_false (isFinite_mul_eq_false hxy)).symm.trans h)

theorem isFinite_div (h : (x / y).isFinite = true) :
    x.isFinite = true ∧ y.isNaN = false ∧ (y == Zero.zero) = false := by
  apply Decidable.byContradiction
  intro hxy
  refine Bool.false_ne_true ((isFinite_encode_eq_false (isFinite_div_eq_false ?_)).symm.trans h)
  rwa [← decode_zero]

theorem isFinite_normalize {M : Int} {e : Int} {s : Sign} (he : e ≤ 971)
    (h : 2 * M.natAbs < (2 ^ 54 - 1) * 2 ^ (971 - e).toNat) :
    (encode (UnpackedFloat.normalize .binary64 M e s)).isFinite = true := by
  unfold UnpackedFloat.normalize
  split
  next hlt =>
    apply isFinite_round he
    rwa [show (-M).toNat = M.natAbs from by have := Int.compare_eq_lt.mp hlt; omega]
  next => cases s <;> decide +kernel
  next hgt =>
    apply isFinite_round he
    rwa [show M.toNat = M.natAbs from by have := Int.compare_eq_gt.mp hgt; omega]

theorem natAbs_apply_add (s t : Sign) (m n : Nat) :
    (s.apply m + t.apply n).natAbs ≤ m + n := by
  cases s <;> cases t <;> simp only [Sign.apply] <;> omega

/-- A number with a finite square is below the root of the range. -/
theorem log2_le_of_square {s : Sign} {m : Nat} {e : Int} {hm : 0 < m}
    (h : (encode (UnpackedFloat.mul .binary64 (.finite s m e hm) (.finite s m e hm))).isFinite =
      true) : m.log2 + e ≤ 511 := by
  have hmm : m * m ≠ 0 := Nat.ne_of_gt (Nat.mul_pos hm hm)
  have hle := log2_le_of_isFinite hmm h
  have hlog : m.log2 + m.log2 ≤ (m * m).log2 := by
    apply (Nat.le_log2 hmm).mpr
    rw [Nat.pow_add]
    have := Nat.log2_self_le (Nat.ne_of_gt hm)
    exact Nat.mul_le_mul this this
  omega

theorem isFinite_add_finite {s t : Sign} {m n : Nat} {e i : Int} {hm : 0 < m} {hn : 0 < n}
    (hx : Canonical (.finite s m e hm)) (hy : n.log2 + i ≤ 511) :
    (encode (UnpackedFloat.add .binary64 (.finite s m e hm) (.finite t n i hn))).isFinite =
      true := by
  obtain ⟨hlt,_,hhi,_⟩ := hx
  simp only [UnpackedFloat.add,decreaseExponent,Nat.shiftLeft_eq]
  apply isFinite_normalize (by omega)
  have habs := natAbs_apply_add s t (m * 2 ^ (e - min e i).toNat) (n * 2 ^ (i - min e i).toNat)
  have hpow : 2 ^ (971 - min e i).toNat = 2 * 2 ^ ((971 - min e i).toNat - 1) := by
    rw [← Nat.pow_add_one']
    congr 1
    omega
  have h1 : m * 2 ^ (e - min e i).toNat ≤ (2 ^ 53 - 1) * 2 ^ (971 - min e i).toNat :=
    Nat.mul_le_mul (by omega) (Nat.pow_le_pow_right (by decide) (by omega))
  have h2 : n * 2 ^ (i - min e i).toNat < 2 ^ ((971 - min e i).toNat - 1) := by
    have hlog : n.log2 + 1 + (i - min e i).toNat ≤ (971 - min e i).toNat - 1 := by omega
    refine Nat.lt_of_lt_of_le ?_ (Nat.pow_le_pow_right (by decide) hlog)
    rw [Nat.pow_add]
    exact Nat.mul_lt_mul_of_pos_right Nat.lt_log2_self (Nat.two_pow_pos _)
  omega

theorem isFinite_add_of_square (hx : x.isFinite = true) (hy : (y * y).isFinite = true) :
    (x + y).isFinite = true := by
  have hx' : (encode (decode x)).isFinite = true := by rwa [encode_decode]
  have hy' : (encode (decode y)).isFinite = true := by
    rw [encode_decode]
    exact (isFinite_mul hy).1
  have hcx := canonical_decode x
  rw [mul_eq] at hy
  rw [add_eq]
  obtain ⟨s,hu⟩ | ⟨s,m,e,hm,hu⟩ := decode_of_isFinite hx <;>
    obtain ⟨t,hv⟩ | ⟨t,n,i,hn,hv⟩ := decode_of_isFinite (isFinite_mul hy).1 <;>
    rw [hu,hv]
  · cases s <;> cases t <;> decide +kernel
  · rwa [hv] at hy'
  · rwa [hu] at hx'
  · rw [hu] at hcx
    rw [hv] at hy
    exact isFinite_add_finite hcx (log2_le_of_square hy)

/-- What holds of the infinities and of the undefined number holds of all that is not finite. -/
theorem not_finite_cases {P : Float → Prop} (hinf : ∀ s, P (encode (.infinity s)))
    (hnan : P (encode .notANumber)) (h : x.isFinite = false) : P x := by
  have hx : (decode x).isFinite = false := h
  rw [← encode_decode x]
  cases hd : decode x with
  | notANumber => exact hnan
  | infinity s => exact hinf s
  | zero s => rw [hd] at hx; cases hx
  | finite s m e hm => rw [hd] at hx; cases hx

theorem isFinite_of_isNormal (h : Scalar.isNormal x = true) : x.isFinite = true := by
  apply Bool.of_not_eq_false
  intro hx
  exact not_finite_cases (P := fun x => ¬Scalar.isNormal x = true)
    (fun s => by cases s <;> decide +kernel) (by decide +kernel) hx h

theorem isFinite_of_scalar (h : Scalar.isFinite x = true) : x.isFinite = true := by
  apply Bool.of_not_eq_false
  intro hx
  exact not_finite_cases (P := fun x => ¬Scalar.isFinite x = true)
    (fun s => by cases s <;> decide +kernel) (by decide +kernel) hx h

/-- Rounding keeps the sign, and never makes an undefined number. -/
theorem exists_decode_round (s : Sign) (m : Nat) (e : Int) (a : Accuracy) :
    ∃ e' f, decode (encode (roundWithAccuracy .binary64 s m e a)) = ofFields s e' f ∧
      (e' = -1#11 → f = 0#52) := by
  unfold roundWithAccuracy
  dsimp only
  split
  next => exact ⟨0#11,0#52,decode_encode trivial,fun _ => rfl⟩
  next h =>
    obtain ⟨e',f,hd,hf,_⟩ := decode_encode_finite (s := s) (Nat.pos_of_ne_zero h)
    exact ⟨e',f,hd,hf⟩

theorem isNaN_ofFields {s : Sign} {e : BitVec 11} {f : BitVec 52} (h : e = -1#11 → f = 0#52) :
    (ofFields s e f).isNaN = false := by
  cases shape e f with
  | notANumber he hf _ => exact absurd (h he) hf
  | infinity _ hu | zero _ hu | finite _ _ _ _ hu => rw [hu]; rfl

theorem zero_le_ofFields {e : BitVec 11} {f : BitVec 52} (h : e = -1#11 → f = 0#52) :
    (UnpackedFloat.zero .positive).le (ofFields .positive e f) = true := by
  cases shape e f with
  | notANumber he hf _ => exact absurd (h he) hf
  | infinity _ hu | zero _ hu | finite _ _ _ _ hu => rw [hu]; rfl

theorem isNaN_encode_zero (s : Sign) : (encode (.zero s)).isNaN = false := by
  cases s <;> decide +kernel

theorem isNaN_mul (hx : x.isFinite = true) (hy : y.isFinite = true) : (x * y).isNaN = false := by
  rw [mul_eq]
  obtain ⟨s,hu⟩ | ⟨s,m,e,hm,hu⟩ := decode_of_isFinite hx <;>
    obtain ⟨t,hv⟩ | ⟨t,n,i,hn,hv⟩ := decode_of_isFinite hy <;>
    rw [hu,hv]
  · exact isNaN_encode_zero (s * t)
  · exact isNaN_encode_zero (s * t)
  · exact isNaN_encode_zero (s * t)
  · obtain ⟨e',f,hd,hf⟩ := exists_decode_round (s * t) (m * n) (e + i) .exact
    exact (congrArg UnpackedFloat.isNaN hd).trans (isNaN_ofFields hf)

theorem zero_le_square (h : x.isNaN = false) : (Zero.zero : Float) ≤ x * x := by
  have hx : (decode x).isNaN = false := h
  have hle : (UnpackedFloat.zero .positive).le (decode (x * x)) = true := by
    rw [mul_eq]
    cases hd : decode x with
    | notANumber => rw [hd] at hx; cases hx
    | infinity s => cases s <;> decide +kernel
    | zero s => cases s <;> decide +kernel
    | finite s m e hm =>
      obtain ⟨e',f,hround,hf⟩ := exists_decode_round .positive (m * m) (e + e) .exact
      have hs : s * s = .positive := by cases s <;> rfl
      simp only [UnpackedFloat.mul,hs,hround]
      exact zero_le_ofFields hf
  exact decide_eq_true hle

end LinearInverse.Binary64
