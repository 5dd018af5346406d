import LinearInverse.Proofs.ComplexSpace
import LinearInverse.Proofs.Transform.Sampling

namespace LinearInverse

namespace Grid
variable {β : Type} {shape : List Nat}

theorem mem_entries {g : Grid β} {b : β} : b ∈ g.entries ↔ ∃ idx hi, g.entry idx hi = b := by
  simp only [entries,List.mem_pmap,mem_indices]

theorem entries_eq_pmap {g : Grid β} (h : g.shape = shape) : g.entries =
    (indices shape).pmap (fun idx hi => g.entry idx (h ▸ hi)) fun _ hi => mem_indices.mp hi := by
  subst h
  rfl

theorem entries_generate (f : (idx : List Nat) → Inside shape idx → β) :
    (generate shape f).entries = (indices shape).pmap f fun _ hi => mem_indices.mp hi := by
  rw [entries_eq_pmap (shape_generate shape f)]
  exact List.pmap_congr_left _ fun idx _ hi hi' => entry_generate _ hi'

/-- What is generated is told by its entries. -/
theorem generate_congr {f f' : (idx : List Nat) → Inside shape idx → β}
    (h : (generate shape f).entries = (generate shape f').entries) :
    generate shape f = generate shape f' := by
  rw [entries_generate,entries_generate] at h
  rw [generate,generate,Grid.mk.injEq]
  exact ⟨rfl,congrArg List.toArray h⟩

/-- Every list of the right length is that of the entries of an array. -/
theorem exists_entries {bs : List β} (h : bs.length = volume shape) :
    ∃ g : Grid β, g.shape = shape ∧ g.entries = bs := by
  refine ⟨generate shape fun idx hi => bs.get ⟨Axis.offset (Axis.rowMajor shape) idx,
      h ▸ offset_rowMajor_lt hi⟩,shape_generate _ _,
    entries_eq (by rw [shape_generate,h]) fun idx hi => ?_⟩
  have hi' : Inside shape idx := shape_generate shape _ ▸ hi
  rw [entry_generate hi hi',shape_generate]
  exact List.getElem?_eq_getElem _

/-- The Hermitian inner product of arrays of one shape, element by element. -/
noncomputable def inner (g h : Grid (Cplx ℝ)) : ℂ :=
  (List.zipWith (fun z w => star z.toComplex * w.toComplex) g.entries h.entries).sum

theorem inner_eq {n : Nat} {g h : Grid (Cplx ℝ)} {x y : ComplexSpace n}
    (hg : g.entries = complexCoords x) (hh : h.entries = complexCoords y) :
    inner g h = Inner.inner ℂ x y := by
  rw [inner,hg,hh,complexCoords,complexCoords,zipWith_ofFn,List.sum_ofFn,PiLp.inner_apply]
  exact Finset.sum_congr rfl fun j _ => mul_comm _ _

end Grid

/-- Every list of complex numbers is that of the coordinates of a vector. -/
theorem exists_complexCoords {n : Nat} {zs : List (Cplx ℝ)} (h : zs.length = n) :
    ∃ x : ComplexSpace n, complexCoords x = zs := by
  subst h
  exact ⟨WithLp.toLp _ fun j => (zs[j]).toComplex,List.ofFn_getElem ..⟩

namespace Sampling

section
variable {α : Type} {s : Sampling α} {small big q : List Nat}

theorem inside_pin (s : Sampling α) {idx : List Nat} (hi : Grid.Inside s.dims idx) :
    Grid.Inside s.pattern.shape (Grid.pin s.pattern.shape idx) :=
  .pin s.stretches hi

/-- The pattern, repeated along axes of size one. -/
def stretched (s : Sampling α) : Grid (Cplx α) :=
  Grid.generate s.dims fun _ hi => s.pattern.entry _ (s.inside_pin hi)

theorem shape_stretched (s : Sampling α) : s.stretched.shape = s.dims :=
  Grid.shape_generate s.dims _

/-- Where no axis is empty, every entry of the smaller shape is met. -/
theorem inside_of_stretches (hs : Grid.Stretches small big) (h0 : 0 ∉ big)
    (h : Grid.Inside small q) : Grid.Inside big q ∧ Grid.pin small q = q := by
  induction small generalizing big q with
  | nil =>
    cases big with
    | nil =>
      cases q with
      | nil => exact ⟨trivial,rfl⟩
      | cons => exact h.elim
    | cons => exact hs.elim
  | cons p ps ih =>
    cases big with
    | nil => exact hs.elim
    | cons b bs =>
      cases q with
      | nil => exact h.elim
      | cons i is =>
        obtain ⟨hb,hbs⟩ := not_or.mp (mt List.mem_cons.mpr h0)
        obtain ⟨hinside,hpin⟩ := ih hs.2 hbs h.2
        have hi := h.1
        have hstretch := hs.1
        refine ⟨⟨by omega,hinside⟩,?_⟩
        rw [Grid.pin,List.zipWith_cons_cons]
        refine congrArg₂ List.cons ?_ hpin
        split <;> omega

/-- The stretched pattern has the entries of the pattern and no others. -/
theorem mem_stretched (h0 : 0 ∉ s.dims) {z : Cplx α} :
    z ∈ s.stretched.entries ↔ z ∈ s.pattern.entries := by
  rw [Grid.mem_entries,Grid.mem_entries]
  constructor
  · rintro ⟨idx,hi,rfl⟩
    have hi' : Grid.Inside s.dims idx := Grid.shape_generate s.dims _ ▸ hi
    exact ⟨_,s.inside_pin hi',(Grid.entry_generate hi hi').symm⟩
  · rintro ⟨q,hq,rfl⟩
    obtain ⟨hq',hpin⟩ := inside_of_stretches s.stretches h0 hq
    have hi : Grid.Inside s.stretched.shape q := s.shape_stretched.symm ▸ hq'
    refine ⟨q,hi,(Grid.entry_generate hi hq').trans ?_⟩
    simp only [hpin]

variable [Scalar α] {g : Grid (Cplx α)} {dst : List Nat}

/-- An array over the dimensions is multiplied by the stretched pattern. -/
theorem exists_apply_eq (s : Sampling α) (hg : g.shape = s.dims) : ∃ f,
    s.apply s.dims g = .ok (Grid.generate s.dims f) ∧ (Grid.generate s.dims f).entries =
      List.zipWith Cplx.mul g.entries s.stretched.entries := by
  refine ⟨_,by rw [apply,dif_pos hg,if_pos rfl],?_⟩
  rw [Grid.entries_generate,Grid.entries_eq_pmap hg,stretched,Grid.entries_generate]
  simp only [List.pmap_eq_map_attach,List.zipWith_map,List.zipWith_self]

theorem apply_of_source_ne (s : Sampling α) (hg : g.shape ≠ s.dims) :
    s.apply dst g = .error .samplingInput :=
  dif_neg hg

theorem apply_of_target_ne (s : Sampling α) (hg : g.shape = s.dims) (hdst : dst ≠ s.dims) :
    s.apply dst g = .error .samplingOutput := by
  rw [apply,dif_pos hg,if_neg hdst]

/-- Twice the same multiplication, on arrays of all shapes. -/
theorem apply_twice_iff (s : Sampling α) :
    (∀ dst g, s.apply dst g = (s.apply s.dims g >>= s.apply dst)) ↔
      ∀ g, g.shape = s.dims → s.apply s.dims g = (s.apply s.dims g >>= s.apply s.dims) := by
  refine ⟨fun h g _ => h s.dims g,fun h dst g => ?_⟩
  by_cases hg : g.shape = s.dims
  · by_cases hdst : dst = s.dims
    · subst hdst
      exact h g hg
    · obtain ⟨f,hf,_⟩ := s.exists_apply_eq hg
      rw [hf,s.apply_of_target_ne hg hdst]
      exact (s.apply_of_target_ne (Grid.shape_generate s.dims f) hdst).symm
  · rw [s.apply_of_source_ne hg,s.apply_of_source_ne hg]
    rfl

end

variable {dims patternDims : List Nat} {pattern : Grid (Cplx ℝ)} {s : Sampling ℝ} {n : Nat}
  {p x y : ComplexSpace n} {g h : Grid (Cplx ℝ)}

/-- The products of the coordinates. -/
def times (x p : ComplexSpace n) : ComplexSpace n :=
  WithLp.toLp _ fun j => x j * p j

theorem zipWith_mul_coords (x p : ComplexSpace n) :
    List.zipWith Cplx.mul (complexCoords x) (complexCoords p) = complexCoords (times x p) :=
  zipWith_ofFn ..

/-- On arrays over the dimensions a sampling multiplies by the vector of its stretched pattern. -/
theorem exists_apply_coords (hp : s.stretched.entries = complexCoords p) (hg : g.shape = s.dims)
    (hx : g.entries = complexCoords x) : ∃ f,
    s.apply s.dims g = .ok (Grid.generate s.dims f) ∧
      (Grid.generate s.dims f).entries = complexCoords (times x p) := by
  obtain ⟨f,hf,hentries⟩ := s.exists_apply_eq hg
  exact ⟨f,hf,by rw [hentries,hx,hp,zipWith_mul_coords]⟩

theorem complexCoords_injective : Function.Injective (complexCoords : ComplexSpace n → _) := by
  intro x y h
  ext j
  exact congrArg Cplx.toComplex (congrFun (List.ofFn_injective h) j)

theorem exists_coords_of_shape (hg : g.shape = s.dims) :
    ∃ x : ComplexSpace (Grid.volume s.dims), g.entries = complexCoords x := by
  obtain ⟨x,hx⟩ := exists_complexCoords (g.length_entries.trans (congrArg Grid.volume hg))
  exact ⟨x,hx.symm⟩

theorem exists_grid (x : ComplexSpace (Grid.volume s.dims)) :
    ∃ g : Grid (Cplx ℝ), g.shape = s.dims ∧ g.entries = complexCoords x :=
  Grid.exists_entries (length_complexCoords x)

theorem forall_mem_pattern (h0 : 0 ∉ s.dims) (hp : s.stretched.entries = complexCoords p)
    {P : Cplx ℝ → Prop} :
    (∀ z ∈ s.pattern.entries, P z) ↔ ∀ j, P (Cplx.ofComplex (p j)) := by
  simp only [← mem_stretched h0]
  rw [hp]
  exact List.forall_mem_ofFn_iff

/-- Multiplying one factor or the other by the pattern is the same for all vectors only if it is for
the unit vectors. -/
theorem inner_times_iff : (∀ x y : ComplexSpace n, Inner.inner ℂ (times x p) y =
    Inner.inner ℂ x (times y p)) ↔ ∀ j, (p j).im = 0 := by
  have hsum (x y : ComplexSpace n) : Inner.inner ℂ (times x p) y - Inner.inner ℂ x (times y p) =
      ∑ j, y j * star (x j) * (star (p j) - p j) := by
    rw [PiLp.inner_apply,PiLp.inner_apply,← Finset.sum_sub_distrib]
    refine Finset.sum_congr rfl fun j _ => ?_
    simp only [times,RCLike.inner_apply,starRingEnd_apply,star_mul']
    ring
  constructor
  · intro h j
    have hj := hsum (EuclideanSpace.single j 1) (EuclideanSpace.single j 1)
    rw [h,sub_self,Finset.sum_eq_single j (fun i _ hij => by simp [hij]) (by simp)] at hj
    refine Complex.conj_eq_iff_im.mp (sub_eq_zero.mp ?_)
    simpa using hj.symm
  · intro h x y
    rw [← sub_eq_zero,hsum]
    refine Finset.sum_eq_zero fun j _ => ?_
    rw [show star (p j) = p j from Complex.conj_eq_iff_im.mpr (h j),sub_self,mul_zero]

theorem times_times_iff :
    (∀ x : ComplexSpace n, times (times x p) p = times x p) ↔ ∀ j, p j = 0 ∨ p j = 1 := by
  constructor
  · intro h j
    have hj := congrArg (fun x : ComplexSpace n => x j) (h (WithLp.toLp _ fun _ => 1))
    simp only [times,one_mul] at hj
    exact IsIdempotentElem.iff_eq_zero_or_one.mp hj
  · intro h x
    ext j
    rcases h j with hj | hj <;> simp [times,hj]

/-- The forward map is its own adjoint exactly for real patterns. -/
theorem inner_apply_iff (h0 : 0 ∉ s.dims) : (∀ x y : Grid (Cplx ℝ), x.shape = s.dims →
    y.shape = s.dims → ∃ fx fy, s.apply s.dims x = .ok fx ∧ s.apply s.dims y = .ok fy ∧
      fx.inner y = x.inner fy) ↔ ∀ z ∈ s.pattern.entries, z.im = 0 := by
  obtain ⟨p,hp⟩ := exists_coords_of_shape s.shape_stretched
  have hreal : (∀ z ∈ s.pattern.entries, z.im = 0) ↔ ∀ j, (p j).im = 0 :=
    forall_mem_pattern h0 hp
  rw [hreal,← inner_times_iff]
  constructor
  · intro h x y
    obtain ⟨g,hg,hx⟩ := exists_grid x
    obtain ⟨k,hk,hy⟩ := exists_grid y
    obtain ⟨fx,fy,hfx,hfy,hinner⟩ := h g k hg hk
    obtain ⟨f,hf,hentries⟩ := exists_apply_coords hp hg hx
    obtain ⟨f',hf',hentries'⟩ := exists_apply_coords hp hk hy
    rw [hf] at hfx
    rw [hf'] at hfy
    cases hfx
    cases hfy
    rwa [Grid.inner_eq hentries hy,Grid.inner_eq hx hentries'] at hinner
  · intro h g k hg hk
    obtain ⟨x,hx⟩ := exists_coords_of_shape hg
    obtain ⟨y,hy⟩ := exists_coords_of_shape hk
    obtain ⟨f,hf,hentries⟩ := exists_apply_coords hp hg hx
    obtain ⟨f',hf',hentries'⟩ := exists_apply_coords hp hk hy
    exact ⟨_,_,hf,hf',by rw [Grid.inner_eq hentries hy,Grid.inner_eq hx hentries',h x y]⟩

/-- A sampling is idempotent exactly for patterns of zeros and ones. -/
theorem apply_apply_iff (h0 : 0 ∉ s.dims) : (∀ g, g.shape = s.dims →
    ∃ once, s.apply s.dims g = .ok once ∧ s.apply s.dims once = .ok once) ↔
      ∀ z ∈ s.pattern.entries, z = ⟨0,0⟩ ∨ z = ⟨1,0⟩ := by
  obtain ⟨p,hp⟩ := exists_coords_of_shape s.shape_stretched
  have hbit (c : ℂ) : c = 0 ∨ c = 1 ↔
      Cplx.ofComplex c = ⟨0,0⟩ ∨ Cplx.ofComplex c = ⟨1,0⟩ := by
    simp only [Cplx.ofComplex,Cplx.mk.injEq,Complex.ext_iff,Complex.zero_re,Complex.zero_im,
      Complex.one_re,Complex.one_im]
  rw [forall_mem_pattern h0 hp]
  simp only [← hbit]
  rw [← times_times_iff]
  constructor
  · intro h x
    obtain ⟨g,hg,hx⟩ := exists_grid x
    obtain ⟨once,honce,htwice⟩ := h g hg
    obtain ⟨f,hf,hentries⟩ := exists_apply_coords hp hg hx
    rw [hf] at honce
    cases honce
    obtain ⟨f',hf',hentries'⟩ :=
      exists_apply_coords hp (Grid.shape_generate s.dims f) hentries
    rw [hf'] at htwice
    refine complexCoords_injective (hentries'.symm.trans ?_)
    rw [Except.ok.inj htwice,hentries]
  · intro h g hg
    obtain ⟨x,hx⟩ := exists_coords_of_shape hg
    obtain ⟨f,hf,hentries⟩ := exists_apply_coords hp hg hx
    obtain ⟨f',hf',hentries'⟩ :=
      exists_apply_coords hp (Grid.shape_generate s.dims f) hentries
    rw [h x,← hentries] at hentries'
    exact ⟨_,hf,by rw [hf',Grid.generate_congr hentries']⟩

/-- Once is enough exactly where the map is idempotent. -/
theorem apply_eq_bind_iff (s : Sampling ℝ) :
    (∀ dst g, s.apply dst g = (s.apply s.dims g >>= s.apply dst)) ↔ ∀ g, g.shape = s.dims →
      ∃ once, s.apply s.dims g = .ok once ∧ s.apply s.dims once = .ok once := by
  rw [apply_twice_iff]
  refine forall_congr' fun g => forall_congr' fun hg => ?_
  obtain ⟨f,hf,_⟩ := s.exists_apply_eq hg
  simp only [hf,Except.ok.injEq,exists_eq_left']
  exact eq_comm

/-- The adjoint map of a sampling is the adjoint of its forward map exactly if the pattern is real.
Its normal map is the forward map and then the adjoint one exactly if the pattern has zeros and ones
alone, which is exactly when the forward map is idempotent; where an array over the codomain can be
made at all, that is also exactly when it is the default normal map. -/
theorem new_contract (hs : new dims patternDims pattern = .ok s) :
    ((∀ x y : Grid (Cplx ℝ), x.shape = s.transform.domain → y.shape = s.transform.codomain →
      ∃ fx ay, s.transform.forward s.transform.codomain x = .ok fx ∧
        s.transform.adjoint s.transform.domain y = .ok ay ∧ fx.inner y = x.inner ay) ↔
      ∀ z ∈ pattern.entries, z.im = 0) ∧
    ((∀ dst g, s.transform.normal dst g =
      (s.transform.forward s.transform.codomain g >>= s.transform.adjoint dst)) ↔
      ∀ z ∈ pattern.entries, z = ⟨0,0⟩ ∨ z = ⟨1,0⟩) ∧
    (Grid.allocatable Cplx.size s.transform.codomain = true →
      ((∀ dst g, s.transform.normal dst g = Transform.viaCodomain s.transform.codomain
        s.transform.forward s.transform.adjoint dst g) ↔
        ∀ z ∈ pattern.entries, z = ⟨0,0⟩ ∨ z = ⟨1,0⟩)) ∧
    ((∀ g, g.shape = s.transform.domain → ∃ once,
      s.transform.forward s.transform.codomain g = .ok once ∧
        s.transform.forward s.transform.codomain once = .ok once) ↔
      ∀ z ∈ pattern.entries, z = ⟨0,0⟩ ∨ z = ⟨1,0⟩) := by
  obtain ⟨hdims,rfl⟩ := eq_of_new hs
  have h0 : 0 ∉ s.dims := hdims ▸ (exists_new_iff.mp ⟨s,hs⟩).zero_not_mem
  have hnormal := (apply_eq_bind_iff s).trans (apply_apply_iff h0)
  refine ⟨inner_apply_iff h0,hnormal,fun hc => ?_,apply_apply_iff h0⟩
  simp only [Transform.viaCodomain,hc]
  exact hnormal

/-- One entry that is the imaginary unit. -/
def imaginary : Grid (Cplx ℝ) where
  axes := [⟨1,1⟩]
  data := #[⟨0,1⟩]
  stored := fun _ => Nat.one_pos

theorem entries_imaginary : imaginary.entries = [⟨0,1⟩] := rfl

/-- The pattern is not real, and its square is not itself. -/
theorem new_imaginary : ∃ s, new [2] [1] imaginary = .ok s ∧
    ¬(∀ x y : Grid (Cplx ℝ), x.shape = s.transform.domain → y.shape = s.transform.codomain →
      ∃ fx ay, s.transform.forward s.transform.codomain x = .ok fx ∧
        s.transform.adjoint s.transform.domain y = .ok ay ∧ fx.inner y = x.inner ay) ∧
    ¬∀ dst g, s.transform.normal dst g =
      (s.transform.forward s.transform.codomain g >>= s.transform.adjoint dst) := by
  have hsuits : Suits (kspaceDims [2]) [1] imaginary := {
    shape := rfl
    rank := rfl
    takes := by
      rintro (_ | i) d q hd hq
      · cases hd
        cases hq
        exact ⟨two_ne_zero,.inl rfl⟩
      · cases hq }
  obtain ⟨s,hs⟩ := exists_new_iff.mpr hsuits
  obtain ⟨hadjoint,hnormal,_⟩ := new_contract hs
  rw [entries_imaginary] at hadjoint hnormal
  exact ⟨s,hs,fun h => by simpa using hadjoint.mp h,fun h => by simpa using hnormal.mp h⟩

end Sampling

end LinearInverse
