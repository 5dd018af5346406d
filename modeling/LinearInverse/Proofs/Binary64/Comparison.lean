import LinearInverse.Proofs.Binary64.Order

namespace LinearInverse.Binary64
open Float.Model Float.Model.UnpackedFloat

variable {x y z : Float} {u v : Unpacked}

/-- The place of a number: first by sign and size class, then by exponent, then by mantissa. -/
def rank : Unpacked → Int ×ₗ Int ×ₗ Int
  | .infinity .negative => toLex (-2,toLex (0,0))
  | .finite .negative m e _ => toLex (-1,toLex (-e,-m))
  | .notANumber | .zero _ => toLex (0,toLex (0,0))
  | .finite .positive m e _ => toLex (1,toLex (e,m))
  | .infinity .positive => toLex (2,toLex (0,0))

theorem unpacked_lt_iff (hu : u.isNaN = false) (hv : v.isNaN = false) :
    u.lt v = true ↔ rank u < rank v := by
  rcases u with s | _ | s | ⟨s,m,e,hm⟩
  case notANumber => cases hu
  all_goals
    rcases v with t | _ | t | ⟨t,n,i,hn⟩
    case notANumber => cases hv
    all_goals
      cases s <;> cases t <;> simp [UnpackedFloat.lt,UnpackedFloat.compare,rank,
        Prod.Lex.toLex_lt_toLex,Ordering.then_eq_lt,Ordering.then_eq_gt,Int.compare_eq_lt,
        Int.compare_eq_gt,Nat.compare_eq_lt,Nat.compare_eq_gt] <;> rfl

theorem unpacked_le_iff (hu : u.isNaN = false) (hv : v.isNaN = false) :
    u.le v = true ↔ rank u ≤ rank v := by
  rcases u with s | _ | s | ⟨s,m,e,hm⟩
  case notANumber => cases hu
  all_goals
    rcases v with t | _ | t | ⟨t,n,i,hn⟩
    case notANumber => cases hv
    all_goals
      cases s <;> cases t <;> simp [UnpackedFloat.le,UnpackedFloat.compare,rank,
        Prod.Lex.toLex_le_toLex,Ordering.swap_then,Ordering.isLE_then_iff_or,Ordering.isLE_swap,
        Int.compare_eq_lt,Int.compare_eq_gt,Nat.isLE_compare,Nat.isGE_compare] <;> rfl

/-- The undefined number compares with nothing. -/
theorem isNaN_of_compare (h : u.compare v ≠ none) : u.isNaN = false ∧ v.isNaN = false := by
  cases u <;> cases v <;> simp [UnpackedFloat.compare,UnpackedFloat.isNaN] at h ⊢

theorem le_iff : x ≤ y ↔
    x.isNaN = false ∧ y.isNaN = false ∧ rank (decode x) ≤ rank (decode y) := by
  have hle : x ≤ y ↔ (decode x).le (decode y) = true := decide_eq_true_iff
  rw [hle]
  constructor
  · intro h
    obtain ⟨hx,hy⟩ := isNaN_of_compare (u := decode x) (v := decode y) fun hnone => by
      simp [UnpackedFloat.le,hnone] at h
    exact ⟨hx,hy,(unpacked_le_iff hx hy).mp h⟩
  · rintro ⟨hx,hy,h⟩
    exact (unpacked_le_iff hx hy).mpr h

theorem lt_iff_rank : x < y ↔
    x.isNaN = false ∧ y.isNaN = false ∧ rank (decode x) < rank (decode y) := by
  rw [lt_iff]
  constructor
  · intro h
    obtain ⟨hx,hy⟩ := isNaN_of_compare (u := decode x) (v := decode y) fun hnone => by
      simp [UnpackedFloat.lt,hnone] at h
    exact ⟨hx,hy,(unpacked_lt_iff hx hy).mp h⟩
  · rintro ⟨hx,hy,h⟩
    exact (unpacked_lt_iff hx hy).mpr h

theorem le_refl (h : x.isNaN = false) : x ≤ x :=
  le_iff.mpr ⟨h,h,le_rfl⟩

/-- What is not below a bound is above all that is. -/
theorem lt_of_le_of_not_le (h : x ≤ y) (hz : z.isNaN = false) (hzy : ¬z ≤ y) : x < z := by
  obtain ⟨hx,hy,hle⟩ := le_iff.mp h
  refine lt_iff_rank.mpr ⟨hx,hz,lt_of_le_of_lt hle (not_le.mp fun hle' => hzy ?_)⟩
  exact le_iff.mpr ⟨hz,hy,hle'⟩

theorem le_of_lt (h : x < y) : x ≤ y := by
  obtain ⟨hx,hy,hlt⟩ := lt_iff_rank.mp h
  exact le_iff.mpr ⟨hx,hy,hlt.le⟩

theorem decode_top : decode (Float.ofBits 0x7FF0000000000000) = .infinity .positive := by
  have h : Float.ofBits 0x7FF0000000000000 = encode (.infinity .positive) := by decide +kernel
  rw [h]
  exact decode_encode trivial

theorem isTop_iff : Scalar.isTop x = true ↔ decode x = .infinity .positive := by
  have htop : Scalar.isTop x = (decode x).beq (decode (Float.ofBits 0x7FF0000000000000)) := rfl
  rw [htop,decode_top]
  cases decode x with
  | notANumber => simp [UnpackedFloat.beq,UnpackedFloat.compare]
  | infinity s =>
    cases s <;> simp [UnpackedFloat.beq,UnpackedFloat.compare]
    rfl
  | zero s => simp [UnpackedFloat.beq,UnpackedFloat.compare]
  | finite s m e hm => cases s <;> simp [UnpackedFloat.beq,UnpackedFloat.compare]

theorem eq_top_of_rank_le (h : rank (.infinity .positive) ≤ rank u) : u = .infinity .positive := by
  cases u with
  | notANumber => simp [rank,Prod.Lex.toLex_le_toLex] at h
  | infinity s => cases s <;> simp [rank,Prod.Lex.toLex_le_toLex] at h ⊢
  | zero s => simp [rank,Prod.Lex.toLex_le_toLex] at h
  | finite s m e hm => cases s <;> simp [rank,Prod.Lex.toLex_le_toLex] at h

/-- Nothing but itself is above the largest number. -/
theorem isTop_of_le (hx : Scalar.isTop x = true) (h : x ≤ y) : Scalar.isTop y = true := by
  obtain ⟨_,_,hle⟩ := le_iff.mp h
  rw [isTop_iff] at hx ⊢
  exact eq_top_of_rank_le (hx ▸ hle)

end LinearInverse.Binary64
