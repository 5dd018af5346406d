import LinearInverse.Prox.Projection

namespace LinearInverse.ProxOperator
variable {α : Type} {j : Nat} {w : Cplx α}

namespace Projection
variable {fs : List (Fixed α)} {f : Fixed α} {zs vs : List (Cplx α)}

/-- The value that element `j` is fixed to. -/
def value (f : Fixed α) (j : Nat) : Option (Cplx α) := f[j]?.join

theorem length_fix (h : f.length = zs.length) : (fix f zs).length = zs.length := by
  rw [fix,List.length_zipWith,h,Nat.min_self]

theorem getElem?_fix (h : f.length = zs.length) (j : Nat) :
    (fix f zs)[j]? = zs[j]?.map fun z => (value f j).getD z := by
  rw [fix,List.getElem?_zipWith,value]
  cases hz : zs[j]? with
  | none =>
    have hf : f[j]? = none :=
      List.getElem?_eq_none_iff.mpr (h ▸ List.getElem?_eq_none_iff.mp hz)
    rw [hf]
    rfl
  | some z =>
    have hj : j < f.length := h ▸ (List.getElem?_eq_some_iff.mp hz).1
    rw [List.getElem?_eq_getElem hj]
    rfl

/-- A vector that a projection leaves alone has the values that the projection fixes. -/
theorem getElem?_of_fix_eq (h : f.length = vs.length) (hv : fix f vs = vs)
    (hw : value f j = some w) : vs[j]? = some w := by
  have hj := getElem?_fix h j
  rw [hv,hw] at hj
  cases hz : vs[j]? with
  | none =>
    have hf : f[j]? = none :=
      List.getElem?_eq_none_iff.mpr (h ▸ List.getElem?_eq_none_iff.mp hz)
    rw [value,hf] at hw
    cases hw
  | some z =>
    rw [hz] at hj
    exact hj

theorem fix_eq_iff (h : f.length = zs.length) :
    fix f zs = zs ↔ ∀ j w, value f j = some w → zs[j]? = some w := by
  refine ⟨fun hf j w => getElem?_of_fix_eq h hf,fun hf => List.ext_getElem? fun j => ?_⟩
  rw [getElem?_fix h]
  cases hw : value f j with
  | none => exact Option.map_id'
  | some w =>
    rw [hf j w hw]
    rfl

/-- All of the projections, in order. -/
def fixAll (fs : List (Fixed α)) (zs : List (Cplx α)) : List (Cplx α) :=
  fs.foldl (fun zs f => fix f zs) zs

/-- The value that the last projection with one for element `j` fixes it to. -/
def lastValue : List (Fixed α) → Nat → Option (Cplx α)
  | [], _ => none
  | f::fs, j => (lastValue fs j).or (value f j)

theorem lastValue_eq_none_iff : lastValue fs j = none ↔ ∀ f ∈ fs, value f j = none := by
  induction fs with
  | nil => exact ⟨fun _ _ h => absurd h List.not_mem_nil,fun _ => rfl⟩
  | cons f fs ih => rw [lastValue,Option.or_eq_none_iff,ih,List.forall_mem_cons,and_comm]

theorem exists_of_lastValue (h : lastValue fs j = some w) : ∃ f ∈ fs, value f j = some w := by
  induction fs with
  | nil => cases h
  | cons f fs ih =>
    rcases Option.or_eq_some_iff.mp h with h | ⟨_,h⟩
    · obtain ⟨g,hg,hw⟩ := ih h
      exact ⟨g,List.mem_cons_of_mem f hg,hw⟩
    · exact ⟨f,List.mem_cons_self,h⟩

theorem length_fixAll (h : ∀ f ∈ fs, f.length = zs.length) :
    (fixAll fs zs).length = zs.length := by
  induction fs generalizing zs with
  | nil => rfl
  | cons f fs ih =>
    obtain ⟨hf,hfs⟩ := List.forall_mem_cons.mp h
    have hlen := length_fix hf
    exact (ih fun g hg => (hfs g hg).trans hlen.symm).trans hlen

theorem getElem?_fixAll (h : ∀ f ∈ fs, f.length = zs.length) (j : Nat) :
    (fixAll fs zs)[j]? = zs[j]?.map fun z => (lastValue fs j).getD z := by
  induction fs generalizing zs with
  | nil => exact Option.map_id'.symm
  | cons f fs ih =>
    obtain ⟨hf,hfs⟩ := List.forall_mem_cons.mp h
    have hfs' : ∀ g ∈ fs, g.length = (fix f zs).length :=
      fun g hg => (hfs g hg).trans (length_fix hf).symm
    have hstep := ih hfs'
    rw [getElem?_fix hf,Option.map_map] at hstep
    refine hstep.trans (congrArg (Option.map · _) (funext fun z => ?_))
    rw [Function.comp_apply,lastValue]
    cases lastValue fs j <;> rfl

theorem fixAll_fixAll (h : ∀ f ∈ fs, f.length = zs.length) :
    fixAll fs (fixAll fs zs) = fixAll fs zs := by
  have hlen := length_fixAll h
  refine List.ext_getElem? fun j => ?_
  rw [getElem?_fixAll fun f hf => (h f hf).trans hlen.symm,getElem?_fixAll h,Option.map_map]
  refine congrArg (Option.map · _) (funext fun z => ?_)
  rw [Function.comp_apply]
  cases lastValue fs j <;> rfl

/-- Projections that leave some vector alone agree wherever two of them fix an element. -/
theorem fix_fixAll (h : ∀ f ∈ fs, f.length = zs.length) (hlen : vs.length = zs.length)
    (hv : ∀ f ∈ fs, fix f vs = vs) (hf : f ∈ fs) : fix f (fixAll fs zs) = fixAll fs zs := by
  refine (fix_eq_iff ((h f hf).trans (length_fixAll h).symm)).mpr fun j w hw => ?_
  have hj := getElem?_of_fix_eq ((h f hf).trans hlen.symm) (hv f hf) hw
  cases hl : lastValue fs j with
  | none =>
    rw [lastValue_eq_none_iff.mp hl f hf] at hw
    cases hw
  | some w' =>
    obtain ⟨g,hg,hw'⟩ := exists_of_lastValue hl
    have hj' := getElem?_of_fix_eq ((h g hg).trans hlen.symm) (hv g hg) hw'
    obtain rfl : w = w' := Option.some.inj (hj.symm.trans hj')
    have hlt : j < zs.length := hlen ▸ (List.getElem?_eq_some_iff.mp hj).1
    rw [getElem?_fixAll h,hl,List.getElem?_eq_getElem hlt]
    rfl

end Projection

/-- The result does not depend on what the buffer holds, as it is agreed for all proximal maps. -/
def Pure (p : ProxOperator α) : Prop :=
  ∀ mu dst dst' src, dst.length = src.length → dst'.length = src.length →
    p.apply mu dst src = p.apply mu dst' src

/-- A vector is left alone, in every buffer. -/
def Fixes (p : ProxOperator α) (v : List α) : Prop :=
  ∀ mu dst, dst.length = v.length → p.apply mu dst v = .ok v

variable {f : Projection.Fixed α} {mismatch : Defect α} {mu : α} {dst src out v : List α}

theorem ofVector_pairs {n : Nat} (h : src.length = 2 * n) :
    Cplx.ofVector (α := α) src = .ok (Cplx.pairs src) :=
  if_pos (by omega)

theorem pure_ofFixed (mismatch : Defect α) (f : Projection.Fixed α) :
    (ofFixed mismatch f).Pure := by
  intro mu dst dst' src hd hd'
  change Projection.apply mismatch f dst src = Projection.apply mismatch f dst' src
  rw [Projection.apply,Projection.apply]
  cases hs : Cplx.ofVector (α := α) src with
  | error d => rfl
  | ok zs =>
    have hlen := Cplx.length_of_ofVector hs
    have hpairs : (Cplx.pairs dst).length = (Cplx.pairs dst').length := by
      rw [Cplx.length_pairs,Cplx.length_pairs,hd,hd']
    rw [ofVector_pairs (hd.trans hlen),ofVector_pairs (hd'.trans hlen)]
    change (if _ then _ else if (Cplx.pairs dst).length ≠ _ then _ else _) = _
    rw [hpairs]
    rfl

theorem apply_ofFixed (hsrc : src.length = 2 * f.length) (hdst : dst.length = src.length) :
    (ofFixed mismatch f).apply mu dst src =
      .ok (Cplx.interleave (Projection.fix f (Cplx.pairs src))) := by
  have hlen : (Cplx.pairs src).length = f.length := by
    rw [Cplx.length_pairs]
    omega
  have hlen' : (Cplx.pairs dst).length = (Cplx.pairs src).length := by
    rw [Cplx.length_pairs,Cplx.length_pairs,hdst]
  change Projection.apply mismatch f dst src = _
  rw [Projection.apply,ofVector_pairs hsrc,ofVector_pairs (hdst.trans hsrc)]
  change (if _ then _ else if _ then _ else _) = _
  rw [if_neg (fun hne => hne hlen),if_neg (fun hne => hne hlen')]

theorem length_of_ofFixed (h : (ofFixed mismatch f).apply mu dst src = .ok out) :
    src.length = 2 * f.length := by
  obtain ⟨zs,hs,h⟩ := Checked.bind_eq_ok.mp h
  obtain ⟨old,_,h⟩ := Checked.bind_eq_ok.mp h
  obtain ⟨hlen,_⟩ := Checked.unless_eq_ok.mp h
  rw [Cplx.length_of_ofVector hs,Decidable.of_not_not hlen]

theorem fixes_ofFixed_iff [Scalar α] : (ofFixed mismatch f).Fixes v ↔
    v.length = 2 * f.length ∧ Projection.fix f (Cplx.pairs v) = Cplx.pairs v := by
  constructor
  · intro hv
    have hlen := length_of_ofFixed (hv 1 v rfl)
    have heq := Except.ok.inj ((apply_ofFixed hlen rfl).symm.trans (hv 1 v rfl))
    exact ⟨hlen,(Cplx.pairs_interleave _).symm.trans (congrArg Cplx.pairs heq)⟩
  · rintro ⟨hlen,hfix⟩ mu dst hdst
    rw [apply_ofFixed hlen hdst,hfix,Cplx.interleave_pairs v (by omega)]

/-- The sets of the library: elements outside a mask are zero, or elements in a mask are given. -/
inductive Constraint (α : Type) where
  | support (mask : List Bool)
  | measured (mask : List Bool) (data : List (Cplx α))

namespace Constraint

def mask : Constraint α → List Bool
  | support mask => mask
  | measured mask _ => mask

def projection [Scalar α] : Constraint α → Checked α (ProxOperator α)
  | support mask => .ok (.support mask)
  | measured mask data => ProxOperator.measured mask data

/-- Element `j` is replaced, whatever it is. -/
def Overwrites : Constraint α → Nat → Prop
  | support mask, j => mask[j]? = some false
  | measured mask _, j => mask[j]? = some true

variable [Scalar α]

/-- Element `j` is replaced by `z`. -/
def Sets : Constraint α → Nat → Cplx α → Prop
  | support mask, j, z => mask[j]? = some false ∧ z = .zero
  | measured mask data, j, z => mask[j]? = some true ∧ data[j]? = some z

/-- The vectors of the set. Outside a support they are zero, and where something was measured they
have its value. -/
structure Contains (c : Constraint α) (v : List α) : Prop where
  length : v.length = 2 * c.mask.length
  value : ∀ j z, c.Sets j z → v[2 * j]? = some z.re ∧ v[2 * j + 1]? = some z.im

/-- As many elements are described as the mask has, and those are fixed that the set replaces. -/
structure Describes (c : Constraint α) (f : Projection.Fixed α) : Prop where
  length : f.length = c.mask.length
  value : ∀ j z, Projection.value f j = some z ↔ c.Sets j z

variable {c : Constraint α} {cs : List (Constraint α)} {p : ProxOperator α}
  {ps : List (ProxOperator α)} {j : Nat}

theorem Describes.value_eq_none (h : c.Describes f) (hj : ¬c.Overwrites j) :
    Projection.value f j = none := by
  refine Option.eq_none_iff_forall_ne_some.mpr fun z hz => hj ?_
  have hsets := (h.value j z).mp hz
  cases c <;> exact hsets.1

theorem Describes.fixes_iff (h : c.Describes f) :
    (ofFixed mismatch f).Fixes v ↔ c.Contains v := by
  rw [fixes_ofFixed_iff,h.length]
  constructor
  · rintro ⟨hlen,hfix⟩
    have hpairs : f.length = (Cplx.pairs v).length := by
      rw [Cplx.length_pairs,h.length]
      omega
    refine ⟨hlen,fun j z hz => ?_⟩
    rw [← Cplx.getElem?_pairs_eq_some (by omega)]
    exact (Projection.fix_eq_iff hpairs).mp hfix j z ((h.value j z).mpr hz)
  · rintro ⟨hlen,hvalue⟩
    have hpairs : f.length = (Cplx.pairs v).length := by
      rw [Cplx.length_pairs,h.length]
      omega
    refine ⟨hlen,(Projection.fix_eq_iff hpairs).mpr fun j z hz => ?_⟩
    rw [Cplx.getElem?_pairs_eq_some (by omega)]
    exact hvalue j z ((h.value j z).mp hz)

theorem exists_fixed (h : c.projection = .ok p) :
    ∃ mismatch f, p = ofFixed mismatch f ∧ c.Describes f := by
  cases c with
  | support mask =>
    cases h
    refine ⟨_,_,rfl,List.length_map _,fun j z => ?_⟩
    rw [Projection.value,List.getElem?_map,Sets]
    cases mask[j]? with
    | none => simp
    | some keep => cases keep <;> simp [eq_comm]
  | measured mask data =>
    change (if mask.length = data.length then _ else _) = _ at h
    split at h
    next hlen =>
      cases h
      refine ⟨_,_,rfl,?_,fun j z => ?_⟩
      · rw [List.length_zipWith,← hlen,Nat.min_self]
        rfl
      · rw [Projection.value,List.getElem?_zipWith,Sets]
        cases mask[j]? with
        | none => simp
        | some given => cases given <;> cases data[j]? <;> simp
    next => cases h

theorem exists_fixed_all (h : cs.mapM projection = .ok ps) :
    ∃ gs : List (Defect α × Projection.Fixed α), ps = gs.map (fun g => ofFixed g.1 g.2) ∧
      (∀ g ∈ gs, ∃ c ∈ cs, c.Describes g.2) ∧ ∀ c ∈ cs, ∃ g ∈ gs, c.Describes g.2 := by
  induction cs generalizing ps with
  | nil =>
    cases h
    exact ⟨[],rfl,nofun,nofun⟩
  | cons c cs ih =>
    rw [List.mapM_cons] at h
    obtain ⟨p,hp,h⟩ := Checked.bind_eq_ok.mp h
    obtain ⟨qs,hqs,h⟩ := Checked.bind_eq_ok.mp h
    cases h
    obtain ⟨mismatch,f,rfl,hc⟩ := exists_fixed hp
    obtain ⟨gs,rfl,hgs,hcs⟩ := ih hqs
    refine ⟨(mismatch,f)::gs,rfl,List.forall_mem_cons.mpr ⟨⟨c,List.mem_cons_self,hc⟩,?_⟩,
      List.forall_mem_cons.mpr ⟨⟨_,List.mem_cons_self,hc⟩,?_⟩⟩
    · intro g hg
      obtain ⟨d,hd,hdg⟩ := hgs g hg
      exact ⟨d,List.mem_cons_of_mem c hd,hdg⟩
    · intro d hd
      obtain ⟨g,hg,hdg⟩ := hcs d hd
      exact ⟨g,List.mem_cons_of_mem _ hg,hdg⟩

/-- What all projections leave alone are the common points of their sets. -/
theorem forall_fixes_iff (h : cs.mapM projection = .ok ps) :
    (∀ p ∈ ps, p.Fixes v) ↔ ∀ c ∈ cs, c.Contains v := by
  obtain ⟨gs,rfl,hgs,hcs⟩ := exists_fixed_all h
  constructor
  · intro hv c hc
    obtain ⟨g,hg,hdesc⟩ := hcs c hc
    exact hdesc.fixes_iff.mp (hv _ (List.mem_map.mpr ⟨g,hg,rfl⟩))
  · intro hv p hp
    obtain ⟨g,hg,rfl⟩ := List.mem_map.mp hp
    obtain ⟨c,hc,hdesc⟩ := hgs g hg
    exact hdesc.fixes_iff.mpr (hv c hc)

end Constraint

end LinearInverse.ProxOperator
