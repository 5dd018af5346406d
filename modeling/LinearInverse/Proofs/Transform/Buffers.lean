import LinearInverse.Proofs.Transform.Contract

namespace LinearInverse
open Grid

namespace Grid

theorem Stretches.refl (shape : List Nat) : Stretches shape shape := by
  induction shape with
  | nil => trivial
  | cons d ds ih => exact ⟨.inr rfl,ih⟩

theorem Broadcasts.refl (shape : List Nat) : Broadcasts shape shape := by
  rw [Broadcasts,aligned,Nat.sub_self]
  exact .refl shape

end Grid

namespace Transform

/-- The transforms that come with the solver. -/
inductive Provided {α : Type} [Scalar α] : Transform α → Prop
  | identity (dims : List Nat) : Provided (identity dims)
  | sampling {dims patternDims : List Nat} {pattern : Grid (Cplx α)} {s : Sampling α}
      (h : Sampling.new dims patternDims pattern = .ok s) : Provided s.transform

variable {α : Type} {dims target source : List Nat} {n : Nat} {x : List α}
  {map : List Nat → Grid (Cplx α) → Checked α (Grid (Cplx α))}

/-- A map that takes sources of one shape and destinations of one shape. -/
def Strict (target source : List Nat)
    (map : List Nat → Grid (Cplx α) → Checked α (Grid (Cplx α))) : Prop :=
  ∀ dst g, (∃ out, map dst g = .ok out) ↔ g.shape = source ∧ dst = target

/-- A map that takes every source that can be repeated over the destination. -/
def Stretching (map : List Nat → Grid (Cplx α) → Checked α (Grid (Cplx α))) : Prop :=
  ∀ dst g, (∃ out, map dst g = .ok out) ↔ Broadcasts g.shape dst

theorem Stretching.exists_eq_ok (h : Stretching map) {g : Grid (Cplx α)} (hg : g.shape = dims) :
    ∃ out, map dims g = .ok out :=
  (h dims g).mpr (hg ▸ .refl g.shape)

theorem stretching_copy : Stretching (copy (α := α)) := by
  intro dst g
  by_cases h : Broadcasts g.shape dst <;> simp [copy,broadcast?,h]

theorem strict_apply [Scalar α] (s : Sampling α) : Strict s.dims s.dims s.apply := by
  intro dst g
  constructor
  · rintro ⟨out,hout⟩
    by_cases hg : g.shape = s.dims
    · by_cases hdst : dst = s.dims
      · exact ⟨hg,hdst⟩
      · simp [s.apply_of_target_ne hg hdst] at hout
    · simp [s.apply_of_source_ne hg] at hout
  · rintro ⟨hg,rfl⟩
    obtain ⟨f,hf,_⟩ := s.exists_apply_eq hg
    exact ⟨_,hf⟩

theorem checkBuffer_eq_ok_iff : checkBuffer (α := α) dims n = .ok () ↔
    n = 2 * volume dims ∧ addressable dims = true := by
  constructor
  · intro h
    obtain ⟨m,_,hm⟩ := Checked.bind_eq_ok.mp h
    obtain ⟨_,hm⟩ := Checked.unless_eq_ok.mp hm
    obtain ⟨hdims,_⟩ := Checked.unless_eq_ok.mp hm
    exact ⟨length_of_checkBuffer h,by simpa using hdims⟩
  · rintro ⟨rfl,h⟩
    exact checkBuffer_of_addressable h

/-- What can be wrong with a buffer of a wrong length: its length, or that the right one is not a
machine word. -/
def Misfit (dims : List Nat) (e : Defect α) : Prop :=
  e = .bufferLength dims ∨ e = .sizeOverflow

theorem exists_checkBuffer_eq_error (h : n ≠ 2 * volume dims) :
    ∃ e, Misfit dims e ∧ checkBuffer (α := α) dims n = .error e := by
  rw [checkBuffer]
  cases hm : flatLength (α := α) dims with
  | ok m =>
    rw [volume_of_flatLength hm]
    exact ⟨_,.inl rfl,if_pos h⟩
  | error e =>
    refine ⟨e,.inr ?_,rfl⟩
    simp only [flatLength] at hm
    split at hm
    next =>
      split at hm
      next => cases hm
      next => cases hm; rfl
    next => cases hm; rfl

/-- A map on vectors that looks at the length of its destination and then at that of its source. -/
structure Guarded (target source : List Nat) (call : Nat → List α → Checked α (List α)) :
    Prop where
  target_ne : ∀ n, n ≠ 2 * volume target → ∃ e, Misfit target e ∧ ∀ x, call n x = .error e
  source_ne : addressable target = true → ∀ x, x.length ≠ 2 * volume source →
    ∃ e, Misfit source e ∧ call (2 * volume target) x = .error e
  takes_iff : ∀ n x, (∃ out, call n x = .ok out) ↔
    (n = 2 * volume target ∧ addressable target = true) ∧
      x.length = 2 * volume source ∧ addressable source = true

theorem guarded_onVectors (h : ∀ g, g.shape = source → ∃ out, map target g = .ok out) :
    Guarded target source (onVectors map target source) where
  target_ne n hn := by
    obtain ⟨e,he,hcheck⟩ := exists_checkBuffer_eq_error (α := α) hn
    exact ⟨e,he,fun x => by rw [onVectors,hcheck]; rfl⟩
  source_ne ht x hx := by
    obtain ⟨e,he,hcheck⟩ := exists_checkBuffer_eq_error (α := α) hx
    refine ⟨e,he,?_⟩
    rw [onVectors,checkBuffer_of_addressable ht,gridOf,hcheck]
    rfl
  takes_iff n x := by
    constructor
    · rintro ⟨out,hout⟩
      obtain ⟨_,hn,hout⟩ := Checked.bind_eq_ok.mp hout
      obtain ⟨g,hg,_⟩ := Checked.bind_eq_ok.mp hout
      obtain ⟨_,hx,_⟩ := Checked.bind_eq_ok.mp hg
      exact ⟨checkBuffer_eq_ok_iff.mp hn,checkBuffer_eq_ok_iff.mp hx⟩
    · rintro ⟨hn,hx,hs⟩
      obtain ⟨g,hg,hshape,_⟩ := exists_gridOf hs hx
      obtain ⟨out,hout⟩ := h g hshape
      exact ⟨_,onVectors_eq (checkBuffer_eq_ok_iff.mpr hn) hg hout⟩

/-- On the arrays of vectors both kinds of transform return, so only the lengths are left to go
wrong. -/
theorem Provided.guarded [Scalar α] {t : Transform α} (h : Provided t) :
    Guarded t.codomain t.domain t.flatForward ∧ Guarded t.domain t.codomain t.flatAdjoint ∧
      Guarded t.domain t.domain t.flatNormal := by
  cases h with
  | identity dims =>
    have hcopy : Guarded dims dims (onVectors (copy (α := α)) dims dims) :=
      guarded_onVectors fun g hg => stretching_copy.exists_eq_ok hg
    exact ⟨hcopy,hcopy,hcopy⟩
  | @sampling _ _ _ s _ =>
    have happly : Guarded s.dims s.dims (onVectors s.apply s.dims s.dims) :=
      guarded_onVectors fun g hg => (strict_apply s s.dims g).mpr ⟨hg,rfl⟩
    exact ⟨happly,happly,happly⟩

/-- Which buffers are refused: by the provided transforms on vectors, by samplings on arrays, and by
the identity on arrays, where its dimensions do not matter. -/
theorem buffers_refused [Scalar α] :
    (∀ t : Transform α, Provided t → Guarded t.codomain t.domain t.flatForward ∧
      Guarded t.domain t.codomain t.flatAdjoint ∧ Guarded t.domain t.domain t.flatNormal) ∧
    (∀ dims patternDims pattern (s : Sampling α), Sampling.new dims patternDims pattern = .ok s →
      Strict s.transform.codomain s.transform.domain s.transform.forward ∧
      Strict s.transform.domain s.transform.codomain s.transform.adjoint ∧
      Strict s.transform.domain s.transform.domain s.transform.normal) ∧
    ∀ dims, Stretching (identity dims : Transform α).forward ∧
      Stretching (identity dims : Transform α).adjoint ∧
      Stretching (identity dims : Transform α).normal :=
  ⟨fun _ ht => ht.guarded,fun _ _ _ s _ => ⟨strict_apply s,strict_apply s,strict_apply s⟩,
    fun _ => ⟨stretching_copy,stretching_copy,stretching_copy⟩⟩

/-- Two entries. -/
def couple : Grid (Cplx Float) where
  axes := [⟨2,1⟩]
  data := #[⟨1,2⟩,⟨3,4⟩]
  stored := by decide

theorem couple_refused : ∃ s, Sampling.new [2] [2] couple = .ok s ∧
    (¬∃ out, s.transform.normal [1] couple = .ok out) ∧
    ∃ e, Misfit s.transform.codomain e ∧ ∀ x, s.transform.flatForward 6 x = .error e := by
  have hok : (Sampling.new [2] [2] couple).isOk = true := by decide +kernel
  cases hs : Sampling.new [2] [2] couple with
  | error e => rw [hs] at hok; cases hok
  | ok s =>
    obtain ⟨hdims,_⟩ := Sampling.eq_of_new hs
    obtain ⟨hvectors,harrays,_⟩ := buffers_refused (α := Float)
    have hcodomain : s.transform.codomain = [2] := hdims
    refine ⟨s,rfl,fun h => ?_,(hvectors _ (.sampling hs)).1.target_ne 6 ?_⟩
    · have hone := (((harrays _ _ _ s hs).2.2 [1] couple).mp h).2
      rw [show s.transform.domain = [2] from hdims] at hone
      cases hone
    · rw [hcodomain]
      decide

/-- The identity over three elements copies two. -/
theorem identity_couple : couple.shape ≠ (identity [3] : Transform Float).domain ∧
    [2] ≠ (identity [3] : Transform Float).codomain ∧
    ∃ out, (identity [3]).forward [2] couple = .ok out ∧ out.entries = couple.entries := by
  refine ⟨by decide,by decide,_,rfl,rfl⟩

end Transform
end LinearInverse
