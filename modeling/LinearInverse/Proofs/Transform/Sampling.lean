import LinearInverse.Scalar.Binary64
import LinearInverse.Transform.Sampling
import LinearInverse.Proofs.Transform.Flat

namespace LinearInverse.Sampling
variable {α : Type} {dims patternDims ds qs : List Nat} {pattern : Grid (Cplx α)}
  {axis d q k : Nat} {e : SamplingError} {s : Sampling α}

/-- An axis of size `d` takes a pattern axis of size `q`. -/
def Takes (d q : Nat) : Prop := d ≠ 0 ∧ (q = 1 ∨ q = d)

/-- Why an axis of size `d` does not take a pattern axis of size `q`. -/
inductive Fault (axis d q : Nat) : SamplingError → Prop where
  | empty : d = 0 → Fault axis d q (.emptyDimension axis)
  | stretch : d ≠ 0 → q ≠ 1 → q ≠ d → Fault axis d q (.notBroadcastable axis d q)

theorem Fault.not_takes (h : Fault axis d q e) : ¬Takes d q := by
  rintro ⟨hd,hq⟩
  cases h with
  | empty h0 => exact hd h0
  | stretch _ h1 hne => exact hq.elim h1 hne

theorem takes_or_fault (axis d q : Nat) : Takes d q ∨ ∃ e, Fault axis d q e := by
  by_cases hd : d = 0
  · exact .inr ⟨_,.empty hd⟩
  · by_cases hq : q = 1 ∨ q = d
    · exact .inl ⟨hd,hq⟩
    · obtain ⟨h1,hne⟩ := not_or.mp hq
      exact .inr ⟨_,.stretch hd h1 hne⟩

/-- All axes before number `k` take those of the pattern. -/
def TakesBelow (k : Nat) (dims patternDims : List Nat) : Prop :=
  ∀ i d q, i < k → dims[i]? = some d → patternDims[i]? = some q → Takes d q

theorem takesBelow_succ_cons :
    TakesBelow (k + 1) (d::ds) (q::qs) ↔ Takes d q ∧ TakesBelow k ds qs := by
  constructor
  · intro h
    exact ⟨h 0 d q (Nat.succ_pos k) rfl rfl,
      fun i d' q' hi => h (i + 1) d' q' (Nat.succ_lt_succ hi)⟩
  · rintro ⟨h0,hs⟩ i d' q' hi hd hq
    cases i with
    | zero =>
      obtain rfl : d = d' := Option.some.inj hd
      obtain rfl : q = q' := Option.some.inj hq
      exact h0
    | succ i => exact hs i d' q' (Nat.lt_of_succ_lt_succ hi) hd hq

theorem checkAxes_of_takes (h : Takes d q) :
    checkAxes axis (d::ds) (q::qs) = checkAxes (axis + 1) ds qs := by
  obtain ⟨hd,hq⟩ := h
  rw [checkAxes,if_neg hd,if_neg (by omega)]

theorem checkAxes_of_fault (h : Fault axis d q e) :
    checkAxes axis (d::ds) (q::qs) = .error e := by
  cases h with
  | empty hd => rw [checkAxes,if_pos hd]
  | stretch hd h1 hne => rw [checkAxes,if_neg hd,if_pos ⟨h1,hne⟩]

/-- The check reports what is wrong with the first axis that does not take that of the pattern. -/
theorem checkAxes_eq_error_iff : checkAxes axis dims patternDims = .error e ↔
    ∃ i d q, dims[i]? = some d ∧ patternDims[i]? = some q ∧ Fault (axis + i) d q e ∧
      TakesBelow i dims patternDims := by
  induction dims generalizing axis patternDims with
  | nil => simp [checkAxes]
  | cons d ds ih =>
    cases patternDims with
    | nil => simp [checkAxes]
    | cons q qs =>
      rcases takes_or_fault axis d q with ht | ⟨e₀,hf⟩
      · rw [checkAxes_of_takes ht,ih]
        constructor
        · rintro ⟨i,d',q',hd,hq,hf,hb⟩
          rw [Nat.add_assoc,Nat.add_comm 1] at hf
          exact ⟨i + 1,d',q',hd,hq,hf,takesBelow_succ_cons.mpr ⟨ht,hb⟩⟩
        · rintro ⟨i,d',q',hd,hq,hf,hb⟩
          cases i with
          | zero =>
            obtain rfl : d = d' := Option.some.inj hd
            obtain rfl : q = q' := Option.some.inj hq
            exact absurd ht hf.not_takes
          | succ i =>
            rw [Nat.add_comm i,← Nat.add_assoc] at hf
            exact ⟨i,d',q',hd,hq,hf,(takesBelow_succ_cons.mp hb).2⟩
      · constructor
        · intro h
          rw [checkAxes_of_fault hf] at h
          cases h
          exact ⟨0,d,q,rfl,rfl,hf,fun i _ _ hi => absurd hi (Nat.not_lt_zero i)⟩
        · rintro ⟨i,d',q',hd,hq,hf',hb⟩
          cases i with
          | zero =>
            obtain rfl : d = d' := Option.some.inj hd
            obtain rfl : q = q' := Option.some.inj hq
            exact checkAxes_of_fault hf'
          | succ i => exact absurd (takesBelow_succ_cons.mp hb).1 hf.not_takes

theorem checkAxes_eq_ok_iff : checkAxes axis dims patternDims = .ok () ↔
    ∀ k, TakesBelow k dims patternDims := by
  induction dims generalizing axis patternDims with
  | nil => simp [checkAxes,TakesBelow]
  | cons d ds ih =>
    cases patternDims with
    | nil => simp [checkAxes,TakesBelow]
    | cons q qs =>
      rcases takes_or_fault axis d q with ht | ⟨e₀,hf⟩
      · rw [checkAxes_of_takes ht,ih]
        constructor
        · intro h k
          cases k with
          | zero => exact fun i _ _ hi => absurd hi (Nat.not_lt_zero i)
          | succ k => exact takesBelow_succ_cons.mpr ⟨ht,h k⟩
        · exact fun h k => (takesBelow_succ_cons.mp (h (k + 1))).2
      · rw [checkAxes_of_fault hf]
        exact ⟨fun h => (by cases h),fun h => absurd (takesBelow_succ_cons.mp (h 1)).1 hf.not_takes⟩

/-- The pattern has the shape that is said of it, and every axis takes that of the pattern. -/
structure Suits (dims patternDims : List Nat) (pattern : Grid (Cplx α)) : Prop where
  shape : pattern.shape = patternDims
  rank : dims.length = patternDims.length
  takes : ∀ i d q : Nat, dims[i]? = some d → patternDims[i]? = some q → Takes d q

/-- The first thing that is wrong with a pattern. -/
inductive Refused (dims patternDims : List Nat) (pattern : Grid (Cplx α)) :
    SamplingError → Prop where
  | shape : pattern.shape ≠ patternDims →
      Refused dims patternDims pattern (.patternShapeMismatch patternDims pattern.shape)
  | rank : pattern.shape = patternDims → dims.length ≠ patternDims.length →
      Refused dims patternDims pattern (.rankMismatch dims.length patternDims.length)
  | axis {i d q : Nat} {e : SamplingError} : pattern.shape = patternDims →
      dims.length = patternDims.length → dims[i]? = some d → patternDims[i]? = some q →
      Fault i d q e → TakesBelow i dims patternDims → Refused dims patternDims pattern e

theorem new_of_shape_ne (h : pattern.shape ≠ patternDims) :
    new dims patternDims pattern = .error (.patternShapeMismatch patternDims pattern.shape) :=
  dif_neg h

/-- A pattern of the right shape is left to the check of its axes. -/
theorem new_of_shape_eq (h : pattern.shape = patternDims) :
    (∃ s, new dims patternDims pattern = .ok s) ∧
      checkBroadcast (kspaceDims dims) patternDims = .ok () ∨
    ∃ e, new dims patternDims pattern = .error e ∧
      checkBroadcast (kspaceDims dims) patternDims = .error e := by
  unfold new
  rw [dif_pos h]
  split
  next hc => exact .inl ⟨⟨_,rfl⟩,hc⟩
  next e hc => exact .inr ⟨e,rfl,hc⟩

theorem eq_of_new (h : new dims patternDims pattern = .ok s) :
    s.dims = kspaceDims dims ∧ s.pattern = pattern := by
  unfold new at h
  split at h
  next =>
    split at h
    next => cases h; exact ⟨rfl,rfl⟩
    next => cases h
  next => cases h

theorem checkBroadcast_of_length (h : dims.length = patternDims.length) :
    checkBroadcast dims patternDims = checkAxes 0 dims patternDims :=
  if_neg (fun hne => hne h)

theorem exists_new_iff : (∃ s, new dims patternDims pattern = .ok s) ↔
    Suits (kspaceDims dims) patternDims pattern := by
  constructor
  · rintro ⟨s,h⟩
    by_cases hs : pattern.shape = patternDims
    · rcases new_of_shape_eq hs with ⟨_,hc⟩ | ⟨e,he,_⟩
      · by_cases hl : (kspaceDims dims).length = patternDims.length
        · rw [checkBroadcast_of_length hl,checkAxes_eq_ok_iff] at hc
          exact ⟨hs,hl,fun i d q => hc (i + 1) i d q (Nat.lt_succ_self i)⟩
        · rw [checkBroadcast,if_pos hl] at hc
          cases hc
      · rw [he] at h
        cases h
    · rw [new_of_shape_ne hs] at h
      cases h
  · intro h
    rcases new_of_shape_eq h.shape with ⟨hok,_⟩ | ⟨e,_,hc⟩
    · exact hok
    · rw [checkBroadcast_of_length h.rank,checkAxes_eq_ok_iff.mpr
        fun _ i d q _ => h.takes i d q] at hc
      cases hc

theorem new_eq_error_iff : new dims patternDims pattern = .error e ↔
    Refused (kspaceDims dims) patternDims pattern e := by
  constructor
  · intro h
    by_cases hs : pattern.shape = patternDims
    · rcases new_of_shape_eq hs with ⟨⟨s,hok⟩,_⟩ | ⟨e',he,hc⟩
      · rw [hok] at h
        cases h
      · obtain rfl : e' = e := Except.error.inj (he.symm.trans h)
        by_cases hl : (kspaceDims dims).length = patternDims.length
        · rw [checkBroadcast_of_length hl] at hc
          obtain ⟨i,d,q,hd,hq,hf,hb⟩ := checkAxes_eq_error_iff.mp hc
          rw [Nat.zero_add] at hf
          exact .axis hs hl hd hq hf hb
        · rw [checkBroadcast,if_pos hl] at hc
          cases hc
          exact .rank hs hl
    · rw [new_of_shape_ne hs] at h
      cases h
      exact .shape hs
  · intro h
    cases h with
    | shape hs => exact new_of_shape_ne hs
    | rank hs hl =>
      rcases new_of_shape_eq hs with ⟨_,hc⟩ | ⟨e,he,hc⟩ <;> rw [checkBroadcast,if_pos hl] at hc
      · cases hc
      · cases hc
        exact he
    | @axis i d q e hs hl hd hq hf hb =>
      have hf : Fault (0 + i) d q e := (Nat.zero_add i).symm ▸ hf
      have haxes := checkAxes_eq_error_iff.mpr ⟨i,d,q,hd,hq,hf,hb⟩
      rcases new_of_shape_eq hs with ⟨_,hc⟩ | ⟨e',he,hc⟩ <;>
        rw [checkBroadcast_of_length hl,haxes] at hc
      · cases hc
      · cases hc
        exact he

/-- No axis of an accepted pattern is empty. -/
theorem Suits.zero_not_mem (h : Suits dims patternDims pattern) : 0 ∉ dims := by
  intro hmem
  obtain ⟨i,hi⟩ := List.getElem?_of_mem hmem
  have hlt : i < patternDims.length := h.rank ▸ (List.getElem?_eq_some_iff.mp hi).1
  exact (h.takes i 0 _ hi (List.getElem?_eq_getElem hlt)).1 rfl

variable [Scalar α] {n : Nat} {x out : List α}

/-- Each element of `out` is that of `x` times that of the pattern, which is read at its only entry
along axes of size one. -/
def Multiplied (dims : List Nat) (pattern : Grid (Cplx α)) (x out : List α) : Prop :=
  ∀ idx, Grid.Inside dims idx → ∃ (hp : Grid.Inside pattern.shape (Grid.pin pattern.shape idx))
    (z : Cplx α), Transform.element? dims x idx = some z ∧
      Transform.element? dims out idx = some (z.mul (pattern.entry _ hp))

/-- A sampling knows all arrays over its dimensions. -/
theorem exists_apply (s : Sampling α) {g : Grid (Cplx α)} (hg : g.shape = s.dims) :
    ∃ out, s.apply s.dims g = .ok out ∧ out.shape = s.dims ∧
      ∀ idx (hi : Grid.Inside out.shape idx) (hi' : Grid.Inside g.shape idx)
        (hp : Grid.Inside s.pattern.shape (Grid.pin s.pattern.shape idx)),
          out.entry idx hi = (g.entry idx hi').mul (s.pattern.entry _ hp) := by
  refine ⟨_,by rw [apply,dif_pos hg,if_pos rfl],Grid.shape_generate _ _,fun idx hi hi' hp => ?_⟩
  exact Grid.entry_generate hi (hg ▸ hi')

theorem exists_onVectors (s : Sampling α) (hn : Transform.Sized s.dims n)
    (hx : x.length = 2 * n) : ∃ out,
      Transform.onVectors s.apply s.dims s.dims (2 * n) x = .ok out ∧ out.length = 2 * n ∧
        Multiplied s.dims s.pattern x out := by
  obtain ⟨g,hg,hshape,hentries⟩ := Transform.exists_gridOf hn.addressable (by rw [hx,hn.volume_eq])
  obtain ⟨y,hy,hy',hmul⟩ := s.exists_apply hshape
  refine ⟨_,Transform.onVectors_eq hn.checkBuffer_eq hg hy,?_,fun idx hi => ?_⟩
  · rw [Cplx.length_interleave,Grid.length_entries,hy',hn.volume_eq]
  · have hi' : Grid.Inside g.shape idx := hshape ▸ hi
    have hi'' : Grid.Inside y.shape idx := hy' ▸ hi
    have hp := Grid.Inside.pin s.stretches hi
    refine ⟨hp,g.entry idx hi',?_,?_⟩
    · rw [← hshape]
      exact Transform.element?_eq hentries hi'
    · rw [← hmul idx hi'' hi' hp,← hy']
      exact Transform.element?_eq (Cplx.pairs_interleave _).symm hi''

/-- Which patterns make a sampling, what is wrong with the others, and what a sampling does to every
vector over its dimensions, whichever of its maps is taken. -/
theorem new_multiplies (dims patternDims : List Nat) (pattern : Grid (Cplx α)) :
    ((∃ s, new dims patternDims pattern = .ok s) ↔
      Suits (kspaceDims dims) patternDims pattern) ∧
    (∀ e, new dims patternDims pattern = .error e ↔
      Refused (kspaceDims dims) patternDims pattern e) ∧
    ∀ s n, new dims patternDims pattern = .ok s → Grid.size? (kspaceDims dims) = some n →
      2 * n < Grid.wordBound →
      s.transform.domain = kspaceDims dims ∧ s.transform.codomain = kspaceDims dims ∧
      ∀ x : List α, x.length = 2 * n → ∃ out, s.transform.flatForward (2 * n) x = .ok out ∧
        s.transform.flatAdjoint (2 * n) x = .ok out ∧
        s.transform.flatNormal (2 * n) x = .ok out ∧
        s.transform.normalOperator.fill (2 * n) x = .ok out ∧ out.length = 2 * n ∧
        Multiplied (kspaceDims dims) pattern x out := by
  refine ⟨exists_new_iff,fun e => new_eq_error_iff,fun s n hs hsize hword => ?_⟩
  obtain ⟨hdims,hpattern⟩ := eq_of_new hs
  have hn : Transform.Sized s.dims n :=
    hdims ▸ ⟨hsize,hword,(exists_new_iff.mp ⟨s,hs⟩).zero_not_mem⟩
  refine ⟨hdims,hdims,fun x hx => ?_⟩
  obtain ⟨out,hout,hlen,hmul⟩ := s.exists_onVectors hn hx
  rw [hdims,hpattern] at hmul
  exact ⟨out,hout,hout,hout,hout,hlen,hmul⟩

/-- A pattern that is stored with its first axis varying fastest. -/
def columnPattern : Grid (Cplx Float) where
  axes := [⟨2,1⟩,⟨1,2⟩,⟨1,2⟩,⟨1,2⟩,⟨1,2⟩,⟨2,2⟩]
  data := #[⟨1,0⟩,⟨0,0⟩,⟨0,1⟩,⟨2,0⟩]
  stored := by decide

theorem new_columnPattern : ∃ s out,
    new [2,3,1,1,5,2] [2,1,1,1,1,2] columnPattern = .ok s ∧
      Grid.size? (kspaceDims [2,3,1,1,5,2]) = some 12 ∧
      s.transform.flatForward 24 ((List.range 24).map Nat.toFloat) = .ok out ∧
      Multiplied [2,3,1,1,1,2] columnPattern ((List.range 24).map Nat.toFloat) out := by
  have hok : (new [2,3,1,1,5,2] [2,1,1,1,1,2] columnPattern).isOk = true := by decide +kernel
  cases hs : new [2,3,1,1,5,2] [2,1,1,1,1,2] columnPattern with
  | error e => rw [hs] at hok; cases hok
  | ok s =>
    obtain ⟨_,_,hvectors⟩ := (new_multiplies [2,3,1,1,5,2] [2,1,1,1,1,2] columnPattern).2.2 s 12 hs
      rfl (by decide)
    obtain ⟨out,hout,_,_,_,_,hmul⟩ := hvectors ((List.range 24).map Nat.toFloat) rfl
    exact ⟨s,out,rfl,rfl,hout,hmul⟩

end LinearInverse.Sampling
