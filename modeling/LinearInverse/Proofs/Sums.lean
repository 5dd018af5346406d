import LinearInverse.Vec

namespace LinearInverse.Vec
variable {α : Type} [Scalar α] {P : α → Prop} {x y : List α} {a : α}

def Lanes.Forall (P : α → Prop) (l : Lanes α) : Prop :=
  ∀ v ∈ [l.p0,l.p1,l.p2,l.p3,l.p4,l.p5,l.p6,l.p7], P v

/-- A sum has the property only if both its summands have it. -/
def Hereditary (P : α → Prop) : Prop :=
  ∀ v w, P (v + w) → P v ∧ P w

namespace Hereditary

theorem of_foldl (hP : Hereditary P) {xs : List α} (h : P (xs.foldl (· + ·) a)) :
    P a ∧ ∀ v ∈ xs, P v := by
  induction xs generalizing a with
  | nil => exact ⟨h,by simp⟩
  | cons v xs ih =>
    obtain ⟨ha,hxs⟩ := ih h
    obtain ⟨ha,hv⟩ := hP a v ha
    exact ⟨ha,List.forall_mem_cons.mpr ⟨hv,hxs⟩⟩

theorem of_total (hP : Hereditary P) {l : Lanes α} (h : P l.total) : l.Forall P := by
  obtain ⟨h,h37⟩ := hP _ _ h
  obtain ⟨h,h26⟩ := hP _ _ h
  obtain ⟨h,h15⟩ := hP _ _ h
  obtain ⟨_,h04⟩ := hP _ _ h
  obtain ⟨h0,h4⟩ := hP _ _ h04
  obtain ⟨h1,h5⟩ := hP _ _ h15
  obtain ⟨h2,h6⟩ := hP _ _ h26
  obtain ⟨h3,h7⟩ := hP _ _ h37
  simp only [Lanes.Forall,List.forall_mem_cons]
  exact ⟨h0,h1,h2,h3,h4,h5,h6,h7,by simp⟩

theorem of_sum (hP : Hereditary P) (l : Lanes α) (xs : List α) :
    P (l.sum xs) → l.Forall P ∧ ∀ v ∈ xs, P v := by
  refine Lanes.sum_induction (P := fun l xs r => P r → l.Forall P ∧ ∀ v ∈ xs, P v) ?_ ?_ l xs
  · intro l a0 a1 a2 a3 a4 a5 a6 a7 rest r ih h
    obtain ⟨hl,hrest⟩ := ih h
    simp only [Lanes.Forall,List.forall_mem_cons] at hl ⊢
    obtain ⟨h0,h1,h2,h3,h4,h5,h6,h7,_⟩ := hl
    obtain ⟨h0,g0⟩ := hP _ _ h0
    obtain ⟨h1,g1⟩ := hP _ _ h1
    obtain ⟨h2,g2⟩ := hP _ _ h2
    obtain ⟨h3,g3⟩ := hP _ _ h3
    obtain ⟨h4,g4⟩ := hP _ _ h4
    obtain ⟨h5,g5⟩ := hP _ _ h5
    obtain ⟨h6,g6⟩ := hP _ _ h6
    obtain ⟨h7,g7⟩ := hP _ _ h7
    exact ⟨⟨h0,h1,h2,h3,h4,h5,h6,h7,by simp⟩,g0,g1,g2,g3,g4,g5,g6,g7,hrest⟩
  · intro l rest h
    obtain ⟨hl,hrest⟩ := hP.of_foldl h
    exact ⟨hP.of_total hl,hrest⟩

theorem of_dot (hP : Hereditary P) (h : P (dot x x)) : ∀ v ∈ x, P (v * v) := by
  obtain ⟨_,h⟩ := hP.of_sum .zero _ h
  simpa [List.zipWith_self] using h

theorem of_axpy (hP : Hereditary P) (hlen : y.length = x.length) (h : ∀ v ∈ axpy y a x, P v) :
    (∀ v ∈ y, P v) ∧ ∀ v ∈ x, P (a * v) := by
  induction y generalizing x with
  | nil =>
    obtain rfl : x = [] := List.eq_nil_of_length_eq_zero hlen.symm
    simp
  | cons w y ih =>
    cases x with
    | nil => cases hlen
    | cons v x =>
      obtain ⟨hw,h⟩ := List.forall_mem_cons.mp h
      obtain ⟨hw,hv⟩ := hP _ _ hw
      obtain ⟨hy,hx⟩ := ih (Nat.succ_inj.mp hlen) h
      exact ⟨List.forall_mem_cons.mpr ⟨hw,hy⟩,List.forall_mem_cons.mpr ⟨hv,hx⟩⟩

end Hereditary

/-- Zero has the property, and a sum if both its summands have it. -/
structure Additive (P : α → Prop) : Prop where
  zero : P 0
  add : ∀ v w, P v → P w → P (v + w)

namespace Additive

theorem foldl (hP : Additive P) {xs : List α} (ha : P a) (h : ∀ v ∈ xs, P v) :
    P (xs.foldl (· + ·) a) :=
  List.foldlRecOn (motive := P) xs _ ha fun b hb v hv => hP.add b v hb (h v hv)

theorem total (hP : Additive P) {l : Lanes α} (h : l.Forall P) : P l.total := by
  simp only [Lanes.Forall,List.forall_mem_cons] at h
  obtain ⟨h0,h1,h2,h3,h4,h5,h6,h7,_⟩ := h
  have h04 := hP.add _ _ hP.zero (hP.add _ _ h0 h4)
  have h15 := hP.add _ _ h04 (hP.add _ _ h1 h5)
  have h26 := hP.add _ _ h15 (hP.add _ _ h2 h6)
  exact hP.add _ _ h26 (hP.add _ _ h3 h7)

theorem sum (hP : Additive P) (l : Lanes α) (xs : List α) :
    l.Forall P → (∀ v ∈ xs, P v) → P (l.sum xs) := by
  refine Lanes.sum_induction (P := fun l xs r => l.Forall P → (∀ v ∈ xs, P v) → P r) ?_ ?_ l xs
  · intro l a0 a1 a2 a3 a4 a5 a6 a7 rest r ih hl h
    simp only [Lanes.Forall,List.forall_mem_cons] at hl h ih
    obtain ⟨h0,h1,h2,h3,h4,h5,h6,h7,_⟩ := hl
    obtain ⟨g0,g1,g2,g3,g4,g5,g6,g7,hrest⟩ := h
    exact ih ⟨hP.add _ _ h0 g0,hP.add _ _ h1 g1,hP.add _ _ h2 g2,hP.add _ _ h3 g3,
      hP.add _ _ h4 g4,hP.add _ _ h5 g5,hP.add _ _ h6 g6,hP.add _ _ h7 g7,by simp⟩ hrest
  · intro l rest hl h
    exact hP.foldl (hP.total hl) h

theorem dot (hP : Additive P) (h : ∀ v ∈ x, P (v * v)) : P (dot x x) := by
  refine hP.sum .zero _ ?_ ?_
  · simpa [Lanes.Forall,Lanes.zero] using hP.zero
  · simpa [List.zipWith_self] using h

end Additive

end LinearInverse.Vec
