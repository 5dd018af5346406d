import Mathlib.Data.List.FinRange
import LinearInverse.Proofs.Admm.Points

namespace LinearInverse
variable {α β γ β' γ' : Type}

/-- Where the first computation returns, so does the second, and the results are related. -/
def Checked.Returns (R : β → γ → Prop) (a : Checked α β) (b : Checked α γ) : Prop :=
  ∀ x, a = .ok x → ∃ y, b = .ok y ∧ R x y

namespace Checked.Returns
variable {R : β → γ → Prop} {S : β' → γ' → Prop} {a : Checked α β} {b : Checked α γ}

theorem ok {x : β} {y : γ} (h : R x y) : Returns (α := α) R (.ok x) (.ok y) := by
  rintro _ ⟨⟩
  exact ⟨y,rfl,h⟩

theorem error (d : Defect α) (b : Checked α γ) : Returns R (.error d) b := by
  rintro _ ⟨⟩

theorem refl (a : Checked α β) : Returns Eq a a :=
  fun x hx => ⟨x,hx,rfl⟩

theorem bind {f : β → Checked α β'} {g : γ → Checked α γ'} (h : Returns R a b)
    (hf : ∀ x y, R x y → Returns S (f x) (g y)) : Returns S (a >>= f) (b >>= g) := by
  intro z hz
  obtain ⟨x,hx,hz⟩ := bind_eq_ok.mp hz
  obtain ⟨y,hy,hxy⟩ := h x hx
  obtain ⟨w,hw,hzw⟩ := hf x y hxy z hz
  exact ⟨w,bind_eq_ok.mpr ⟨y,hy,hw⟩,hzw⟩

theorem map {f : β → β'} {g : γ → γ'} (h : Returns R a b) (hf : ∀ x y, R x y → S (f x) (g y)) :
    Returns S (a.map f) (b.map g) := by
  intro z hz
  obtain ⟨x,hx,rfl⟩ := map_eq_ok.mp hz
  obtain ⟨y,hy,hxy⟩ := h x hx
  exact ⟨g y,map_eq_ok.mpr ⟨y,hy,rfl⟩,hf x y hxy⟩

end Checked.Returns

/-- A fold whose steps may trade places, where they succeed, does not depend on the order. -/
theorem foldlM_perm {f : β → γ → Checked α β}
    (hf : ∀ b x y, Checked.Returns Eq (f b x >>= (f · y)) (f b y >>= (f · x))) {xs ys : List γ}
    (h : xs.Perm ys) (b : β) : Checked.Returns Eq (xs.foldlM f b) (ys.foldlM f b) := by
  induction h generalizing b with
  | nil => exact .refl _
  | cons x _ ih =>
    rw [List.foldlM_cons,List.foldlM_cons]
    refine (Checked.Returns.refl (f b x)).bind fun c d hc => ?_
    subst hc
    exact ih c
  | swap x y xs =>
    simp only [List.foldlM_cons,← bind_assoc]
    refine (hf b y x).bind fun c d hc => ?_
    subst hc
    exact .refl _
  | trans _ _ ih ih' =>
    intro r hr
    obtain ⟨r,hr,rfl⟩ := ih b r hr
    exact ih' b _ hr

variable {D : Nat} {σ : Equiv.Perm (Fin D)}

/-- Entry `i` of the second list is entry `σ i` of the first. -/
def Reordered (σ : Equiv.Perm (Fin D)) (xs ys : List β) : Prop :=
  ∃ f : Fin D → β, xs = List.ofFn f ∧ ys = List.ofFn (f ∘ σ)

namespace Reordered
variable {xs ys : List β} {us vs : List γ}

theorem perm (h : Reordered σ xs ys) : xs.Perm ys := by
  obtain ⟨f,rfl,rfl⟩ := h
  exact (σ.ofFn_comp_perm f).symm

theorem symm (h : Reordered σ xs ys) : Reordered σ⁻¹ ys xs := by
  obtain ⟨f,rfl,rfl⟩ := h
  refine ⟨f ∘ σ,rfl,congrArg List.ofFn (funext fun i => ?_)⟩
  exact congrArg f (σ.apply_symm_apply i).symm

theorem map (h : Reordered σ xs ys) (g : β → γ) : Reordered σ (xs.map g) (ys.map g) := by
  obtain ⟨f,rfl,rfl⟩ := h
  exact ⟨g ∘ f,List.map_ofFn,List.map_ofFn⟩

theorem zipWith (h : Reordered σ xs ys) (h' : Reordered σ us vs) (g : β → γ → β') :
    Reordered σ (List.zipWith g xs us) (List.zipWith g ys vs) := by
  obtain ⟨f,rfl,rfl⟩ := h
  obtain ⟨f',rfl,rfl⟩ := h'
  exact ⟨fun i => g (f i) (f' i),zipWith_ofFn g f f',zipWith_ofFn g (f ∘ σ) (f' ∘ σ)⟩

theorem mapM (h : Reordered σ xs ys) (g : β → Checked α γ) :
    Checked.Returns (Reordered σ) (xs.mapM g) (ys.mapM g) := by
  intro zs hzs
  obtain ⟨f,rfl,rfl⟩ := h
  obtain ⟨z,rfl,hz⟩ := Checked.mapM_ofFn.mp hzs
  exact ⟨_,Checked.mapM_ofFn.mpr ⟨z ∘ σ,rfl,fun i => hz (σ i)⟩,z,rfl,rfl⟩

theorem isEmpty_eq (h : Reordered σ xs ys) : ys.isEmpty = xs.isEmpty := by
  rw [Bool.eq_iff_iff,List.isEmpty_iff,List.isEmpty_iff]
  exact ⟨fun hys => (hys ▸ h.perm).eq_nil,fun hxs => (hxs ▸ h.perm.symm).eq_nil⟩

end Reordered

section
variable {τ τ' : Type} {R : τ → τ' → Prop}

/-- Passes that stop together and tell the same, and leave related states. -/
structure Pass.Matches (R : τ → τ' → Prop) (p : Pass α τ) (q : Pass α τ') : Prop where
  state : R p.state q.state
  stop_eq : q.stop = p.stop
  events_eq : q.events = p.events

structure Run.Matches (R : τ → τ' → Prop) (r : Run α τ) (t : Run α τ') : Prop where
  state : R r.state t.state
  iterations_eq : t.iterations = r.iterations
  stopped_eq : t.stopped = r.stopped
  log_eq : t.log = r.log

variable {pass : Nat → τ → Checked α (Pass α τ)} {pass' : Nat → τ' → Checked α (Pass α τ')}
  {k : Nat} {s : τ} {t : τ'} {ps : List (Pass α τ)}

theorem Checked.Returns.iterate
    (hpass : ∀ j u v, R u v → Returns (Pass.Matches R) (pass j u) (pass' j v)) (h : R s t)
    (fuel : Nat) : Returns (Run.Matches R) (iterate pass fuel k s) (iterate pass' fuel k t) := by
  induction fuel generalizing k s t with
  | zero => exact .ok ⟨h,rfl,rfl,rfl⟩
  | succ fuel ih =>
    rw [LinearInverse.iterate,LinearInverse.iterate]
    refine (hpass k s t h).bind fun p q hq => ?_
    rw [hq.stop_eq]
    cases p.stop with
    | true => exact .ok ⟨hq.state,rfl,rfl,hq.events_eq⟩
    | false =>
      refine (ih hq.state).map fun r r' hr => ⟨hr.state,hr.iterations_eq,hr.stopped_eq,?_⟩
      rw [hq.events_eq,hr.log_eq]

/-- The passes of one run match those of the other. -/
theorem Trace.exists_matching
    (hpass : ∀ j u v, R u v → Checked.Returns (Pass.Matches R) (pass j u) (pass' j v)) (h : R s t)
    (htrace : Trace pass k s ps) :
    ∃ qs, Trace pass' k t qs ∧ List.Forall₂ (Pass.Matches R) ps qs := by
  induction htrace generalizing t with
  | nil => exact ⟨[],.nil,.nil⟩
  | last hp hstop =>
    obtain ⟨q,hq,hmatch⟩ := hpass _ _ t h _ hp
    exact ⟨[q],.last hq (hmatch.stop_eq.trans hstop),.cons hmatch .nil⟩
  | cons hp hgo _ ih =>
    obtain ⟨q,hq,hmatch⟩ := hpass _ _ t h _ hp
    obtain ⟨qs,hqs,hall⟩ := ih hmatch.state
    exact ⟨q :: qs,.cons hq (hmatch.stop_eq.trans hgo) hqs,.cons hmatch hall⟩

theorem forall₂_states {qs : List (Pass α τ')} (h : R s t)
    (hall : List.Forall₂ (Pass.Matches R) ps qs) : List.Forall₂ R (states s ps) (states t qs) :=
  .cons h (List.forall₂_map_left_iff.mpr
    (List.forall₂_map_right_iff.mpr (hall.imp fun _ _ h => h.state)))

end

end LinearInverse
