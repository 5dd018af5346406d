import Mathlib.Data.List.Forall2
import LinearInverse.Proofs.Iterations

namespace LinearInverse
variable {α β γ β' γ' : Type}

/-- Both fail with the same defect, or both return results in the relation. -/
inductive Checked.Both (R : β → γ → Prop) : Checked α β → Checked α γ → Prop where
  | error (d : Defect α) : Both R (.error d) (.error d)
  | ok {x : β} {y : γ} : R x y → Both R (.ok x) (.ok y)

namespace Checked.Both
variable {R : β → γ → Prop} {S : β' → γ' → Prop} {a : Checked α β} {b : Checked α γ}

theorem of_eq_map {f : β → γ} (h : b = a.map f) : Both (fun x y => y = f x) a b := by
  subst h
  cases a with
  | error d => exact .error d
  | ok x => exact .ok rfl

/-- Two views of one computation. -/
theorem of_maps {δ : Type} {f : δ → β} {g : δ → γ} (h : ∀ x, R (f x) (g x))
    (c : Checked α δ) : Both R (c.map f) (c.map g) := by
  cases c with
  | error d => exact .error d
  | ok x => exact .ok (h x)

/-- Behind both only what they return matters. -/
theorem bind {f : β → Checked α β'} {g : γ → Checked α γ'} (h : Both R a b)
    (hf : ∀ x y, a = .ok x → R x y → Both S (f x) (g y)) : Both S (a >>= f) (b >>= g) := by
  cases h with
  | error d => exact .error d
  | ok h => exact hf _ _ rfl h

/-- A computation in common goes before both. -/
theorem bind_same {δ : Type} (x : Checked α δ) {f : δ → Checked α β'} {g : δ → Checked α γ'}
    (hf : ∀ a, x = .ok a → Both S (f a) (g a)) : Both S (x >>= f) (x >>= g) := by
  cases x with
  | error d => exact .error d
  | ok a => exact hf a rfl

theorem map {f : β → β'} {g : γ → γ'} (h : Both R a b) (hf : ∀ x y, R x y → S (f x) (g y)) :
    Both S (a.map f) (b.map g) := by
  cases h with
  | error d => exact .error d
  | ok h => exact .ok (hf _ _ h)

/-- Lists of the same length, traversed element by element. -/
theorem mapM {f : β → Checked α β'} {g : γ → Checked α γ'} {xs : List β} {ys : List γ}
    (h : List.Forall₂ R xs ys) (hf : ∀ x y, R x y → Both S (f x) (g y)) :
    Both (List.Forall₂ S) (xs.mapM f) (ys.mapM g) := by
  induction h with
  | nil => exact .ok .nil
  | cons h _ ih =>
    rw [List.mapM_cons,List.mapM_cons]
    exact (hf _ _ h).bind fun u v _ huv => ih.bind fun us vs _ hs => .ok (.cons huv hs)

end Checked.Both

theorem map_eq_of_forall₂ {R : β → γ → Prop} {f : β → β'} {g : γ → β'} {xs : List β}
    {ys : List γ} (h : List.Forall₂ R xs ys) (hf : ∀ x y, R x y → g y = f x) :
    ys.map g = xs.map f := by
  induction h with
  | nil => rfl
  | cons h _ ih => rw [List.map_cons,List.map_cons,hf _ _ h,ih]

theorem mapM_eq_of_forall₂ {R : β → γ → Prop} {f : β → Checked α β'} {g : γ → Checked α β'}
    {xs : List β} {ys : List γ} (h : List.Forall₂ R xs ys) (hf : ∀ x y, R x y → g y = f x) :
    ys.mapM g = xs.mapM f := by
  induction h with
  | nil => rfl
  | cons h _ ih => rw [List.mapM_cons,List.mapM_cons,hf _ _ h,ih]

theorem isEmpty_eq_of_forall₂ {R : β → γ → Prop} {xs : List β} {ys : List γ}
    (h : List.Forall₂ R xs ys) : ys.isEmpty = xs.isEmpty := by
  cases h <;> rfl

theorem forall₂_zipWith {δ ε : Type} {R : β → γ → Prop} {S : β' → γ' → Prop}
    {Q : δ → ε → Prop} {f : β → β' → δ} {g : γ → γ' → ε} {xs : List β} {ys : List γ}
    {us : List β'} {vs : List γ'} (h : List.Forall₂ R xs ys) (h' : List.Forall₂ S us vs)
    (hf : ∀ x y u v, R x y → S u v → Q (f x u) (g y v)) :
    List.Forall₂ Q (List.zipWith f xs us) (List.zipWith g ys vs) := by
  induction h generalizing us vs with
  | nil => exact .nil
  | cons h _ ih =>
    cases h' with
    | nil => exact .nil
    | cons h' hs => exact .cons (hf _ _ _ _ h h') (ih hs)

/-- Whether a report can be made depends on the lengths alone. -/
theorem Monitor.both_report [Scalar α] {m m' : Monitor α} {x x' : List α}
    (htruth : m'.truth.map List.length = m.truth.map List.length) (hx : x'.length = x.length)
    (k k' : Nat) (r r' : α) :
    Checked.Both (fun e e' => ∃ p p', e = .progress p ∧ e' = .progress p')
      (m.report k x r) (m'.report k' x' r') := by
  have herror : Checked.Both (fun _ _ => True) (m.truthError x) (m'.truthError x') := by
    rw [truthError,truthError]
    cases h : m.truth with
    | none =>
      rw [h,Option.map_none,Option.map_eq_none_iff] at htruth
      rw [htruth]
      exact .ok trivial
    | some t =>
      rw [h,Option.map_some,Option.map_eq_some_iff] at htruth
      obtain ⟨t',h',hlen⟩ := htruth
      rw [h']
      dsimp only
      rw [hlen,hx]
      split
      · exact .error _
      · exact .ok trivial
  exact herror.map fun _ _ _ => ⟨_,_,rfl,rfl⟩

section
variable {σ τ : Type} {f : σ → τ} {tell : Event α → Option β} {g : β → β}

/-- A pass and one from the view of its state: they stop together, and what they tell of one kind
corresponds. -/
structure Pass.Alike (f : σ → τ) (tell : Event α → Option β) (g : β → β) (p : Pass α σ)
    (q : Pass α τ) : Prop where
  state_eq : q.state = f p.state
  stop_eq : q.stop = p.stop
  told_eq : q.events.filterMap tell = (p.events.filterMap tell).map g

structure Run.Alike (f : σ → τ) (tell : Event α → Option β) (g : β → β) (r : Run α σ)
    (t : Run α τ) : Prop where
  state_eq : t.state = f r.state
  report_eq : t.report = r.report
  stopped_eq : t.stopped = r.stopped
  told_eq : t.log.filterMap tell = (r.log.filterMap tell).map g

theorem both_iterate {pass : Nat → σ → Checked α (Pass α σ)}
    {image : Nat → τ → Checked α (Pass α τ)} {I : σ → Prop} {k : Nat} {s : σ}
    (hpass : ∀ j u, I u → Checked.Both (Pass.Alike f tell g) (pass j u) (image j (f u)))
    (keep : ∀ j u p, I u → pass j u = .ok p → I p.state) (hs : I s) (fuel : Nat) :
    Checked.Both (Run.Alike f tell g) (iterate pass fuel k s) (iterate image fuel k (f s)) := by
  induction fuel generalizing k s with
  | zero => exact .ok ⟨rfl,rfl,rfl,rfl⟩
  | succ fuel ih =>
    rw [iterate,iterate]
    refine (hpass k s hs).bind fun p q hp h => ?_
    rw [h.stop_eq,h.state_eq]
    cases p.stop with
    | true => exact .ok ⟨rfl,rfl,rfl,h.told_eq⟩
    | false =>
      refine (ih (keep k s p hs hp)).map fun r t hr => ⟨hr.state_eq,hr.report_eq,hr.stopped_eq,?_⟩
      rw [List.filterMap_append,List.filterMap_append,List.map_append,h.told_eq,hr.told_eq]

end

end LinearInverse
