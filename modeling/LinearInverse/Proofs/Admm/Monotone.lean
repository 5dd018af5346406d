import Mathlib.Analysis.InnerProductSpace.Positive
import LinearInverse.Proofs.Admm.Optimality
import LinearInverse.Proofs.ConjugateGradient.Termination

namespace LinearInverse

/-- On vectors of length `m` the map with step `mu` is firmly non-expansive. -/
def ProxOperator.FirmlyNonexpansive (p : ProxOperator ℝ) (mu : ℝ) (m : Nat) : Prop :=
  ∀ (dst dst' : List ℝ) (v v' y y' : Space m), p.apply mu dst (coords v) = .ok (coords y) →
    p.apply mu dst' (coords v') = .ok (coords y') →
      ‖y - y'‖ ^ 2 + ‖v - v' - (y - y')‖ ^ 2 ≤ ‖v - v'‖ ^ 2

theorem norm_sq_le_inner_iff {H : Type} [NormedAddCommGroup H] [InnerProductSpace ℝ H] (v y : H) :
    ‖y‖ ^ 2 + ‖v - y‖ ^ 2 ≤ ‖v‖ ^ 2 ↔ ‖y‖ ^ 2 ≤ inner ℝ y v := by
  rw [norm_sub_sq_real,real_inner_comm]
  constructor <;> intro h <;> linarith

theorem ProxOperator.firmlyNonexpansive_ridge {w mu : ℝ} (h : 0 ≤ w * mu) (m : Nat) :
    (ridge w).FirmlyNonexpansive mu m := by
  have hscale {dst : List ℝ} {v y : Space m}
      (hy : (ridge w).apply mu dst (coords v) = .ok (coords y)) : y = (1 + w * mu)⁻¹ • v := by
    have hlen := (ridge w).length_apply hy
    rw [ridge,apply_ofMap (by simp [← hlen]),map_coords] at hy
    ext i
    rw [← congrFun (List.ofFn_injective (Except.ok.inj hy)) i]
    exact div_eq_inv_mul _ _
  intro dst dst' v v' y y' hy hy'
  rw [norm_sq_le_inner_iff,hscale hy,hscale hy',← smul_sub,real_inner_smul_left,
    real_inner_self_eq_norm_sq,norm_smul,mul_pow,Real.norm_eq_abs,sq_abs,sq]
  have hinv : (1 + w * mu)⁻¹ ≤ 1 := inv_le_one_of_one_le₀ (by linarith)
  have hpos : 0 ≤ (1 + w * mu)⁻¹ := inv_nonneg.mpr (by linarith)
  have hsq : (1 + w * mu)⁻¹ * (1 + w * mu)⁻¹ ≤ (1 + w * mu)⁻¹ := mul_le_of_le_one_right hpos hinv
  exact mul_le_mul_of_nonneg_right hsq (sq_nonneg _)

namespace Admm

/-- A relaxed step from `w` to `w + a (g - z)`, where `z` depends on `w` by a firmly non-expansive
map. What is left over measures how far the same is from being true for `g`. -/
theorem norm_relaxed_sq_le {H : Type} [NormedAddCommGroup H] [InnerProductSpace ℝ H] {w z g : H}
    {a : ℝ} (ha : 0 ≤ a) (ha' : a ≤ 2) (hz : ‖z‖ ^ 2 ≤ inner ℝ z w) :
    ‖w + a • (g - z)‖ ^ 2 ≤ ‖w‖ ^ 2 + 2 * a * (‖g‖ ^ 2 - inner ℝ g ((2 : ℝ) • z - w)) := by
  have hsplit : inner ℝ w (g - z) + ‖g - z‖ ^ 2 =
      ‖g‖ ^ 2 - inner ℝ g ((2 : ℝ) • z - w) + (‖z‖ ^ 2 - inner ℝ z w) := by
    rw [norm_sub_sq_real,inner_sub_right,inner_sub_right,inner_smul_right,real_inner_comm w g,
      real_inner_comm w z]
    ring
  have hmove : ‖w + a • (g - z)‖ ^ 2 =
      ‖w‖ ^ 2 + 2 * a * (inner ℝ w (g - z) + ‖g - z‖ ^ 2) - a * (2 - a) * ‖g - z‖ ^ 2 := by
    rw [norm_add_sq_real,inner_smul_right,norm_smul,Real.norm_eq_abs,mul_pow,sq_abs]
    ring
  have hfirm : 2 * a * (‖z‖ ^ 2 - inner ℝ z w) ≤ 0 :=
    mul_nonpos_of_nonneg_of_nonpos (by linarith) (by linarith)
  have hrelax : 0 ≤ a * (2 - a) * ‖g - z‖ ^ 2 :=
    mul_nonneg (mul_nonneg ha (by linarith)) (sq_nonneg _)
  rw [hmove,hsplit]
  linarith

/-- An image with split variables and duals. -/
structure Point (n : Nat) {D : Nat} (size : Fin D → Nat) where
  x : Space n
  z : ∀ i, Space (size i)
  u : ∀ i, Space (size i)

variable {n D : Nat} {size : Fin D → Nat} {term : Fin D → Term ℝ}
  {G : ∀ i, Space n →ₗ[ℝ] Space (size i)} {A : Space n →ₗ[ℝ] Space n} {c x x' : Space n}
  {v w o : Point n size} {alpha rho : ℝ}

/-- How far apart the sums of split variables and duals are. -/
noncomputable def Point.apart (v w : Point n size) : ℝ :=
  ∑ i, ‖v.z i + v.u i - (w.z i + w.u i)‖ ^ 2

/-- The system of the image update from `v`, exactly solved. -/
def Solves (A : Space n →ₗ[ℝ] Space n) (c : Space n) (G : ∀ i, Space n →ₗ[ℝ] Space (size i))
    (rho : ℝ) (v : Point n size) (x : Space n) : Prop :=
  A x + rho • ∑ i, (G i).adjoint (G i x) = c + rho • ∑ i, (G i).adjoint (v.z i - v.u i)

/-- The transforms of its solutions depend on what it starts from by a firmly non-expansive map. -/
theorem Solves.sum_le (hA : A.IsPositive) (hrho : 0 < rho) (h : Solves A c G rho v x)
    (h' : Solves A c G rho w x') :
    ∑ i, (‖G i (x - x')‖ ^ 2 - inner ℝ (G i (x - x')) (v.z i - v.u i - (w.z i - w.u i))) ≤ 0 := by
  have hsystem : A (x - x') + rho • ∑ i, (G i).adjoint (G i (x - x')) =
      rho • ∑ i, (G i).adjoint (v.z i - v.u i - (w.z i - w.u i)) := by
    have hdiff := congrArg₂ (· - ·) h h'
    simp only [map_sub,Finset.sum_sub_distrib,smul_sub] at hdiff ⊢
    rw [add_sub_add_comm,add_sub_add_left_eq_sub] at hdiff
    exact hdiff
  have hinner := congrArg (inner ℝ (x - x')) hsystem
  simp only [inner_add_right,real_inner_smul_right,inner_sum,LinearMap.adjoint_inner_right,
    real_inner_self_eq_norm_sq] at hinner
  have hpos : 0 ≤ inner ℝ (x - x') (A (x - x')) := hA.inner_nonneg_right _
  have hle : rho * ∑ i, ‖G i (x - x')‖ ^ 2 ≤
      rho * ∑ i, inner ℝ (G i (x - x')) (v.z i - v.u i - (w.z i - w.u i)) := by linarith
  rw [Finset.sum_sub_distrib]
  exact sub_nonpos.mpr (le_of_mul_le_mul_left hle hrho)

/-- The split variables are what the proximal maps make of their sums with the duals. -/
def Proximal (term : Fin D → Term ℝ) (rho : ℝ) (v : Point n size) : Prop :=
  ∀ i, ∃ dst,
    (term i).prox.apply (1 / rho) dst (coords (v.z i + v.u i)) = .ok (coords (v.z i))

/-- A point that is optimal for the problem, with its split variables and duals. -/
structure Optimal (A : Space n →ₗ[ℝ] Space n) (c : Space n)
    (G : ∀ i, Space n →ₗ[ℝ] Space (size i)) (term : Fin D → Term ℝ) (rho : ℝ)
    (o : Point n size) : Prop where
  split : ∀ i, o.z i = G i o.x
  proximal : Proximal term rho o
  gradient : A o.x + rho • ∑ i, (G i).adjoint (o.u i) = c

theorem Optimal.solves (h : Optimal A c G term rho o) : Solves A c G rho o o.x := by
  rw [Solves,← h.gradient]
  simp only [map_sub,Finset.sum_sub_distrib,smul_sub,h.split]
  abel

/-- What an iteration makes of a point. -/
structure Relaxed (G : ∀ i, Space n →ₗ[ℝ] Space (size i)) (term : Fin D → Term ℝ)
    (alpha rho : ℝ) (v w : Point n size) : Prop where
  proximal : Proximal term rho w
  sum : ∀ i, w.z i + w.u i = v.z i + v.u i + alpha • (G i w.x - v.z i)

/-- One iteration does not lead away from an optimal point, once the split variables it starts
from have come out of the proximal maps. -/
theorem Relaxed.apart_le (h : Relaxed G term alpha rho v w) (halpha : 0 < alpha)
    (halpha' : alpha ≤ 2) (hrho : 0 < rho) (hA : A.IsPositive)
    (hfirm : ∀ i, (term i).prox.FirmlyNonexpansive (1 / rho) (size i))
    (hv : Proximal term rho v) (hx : Solves A c G rho v w.x)
    (ho : Optimal A c G term rho o) : w.apart o ≤ v.apart o := by
  have hterm (i : Fin D) : ‖w.z i + w.u i - (o.z i + o.u i)‖ ^ 2 ≤
      ‖v.z i + v.u i - (o.z i + o.u i)‖ ^ 2 + 2 * alpha * (‖G i (w.x - o.x)‖ ^ 2 -
        inner ℝ (G i (w.x - o.x)) (v.z i - v.u i - (o.z i - o.u i))) := by
    obtain ⟨_,hprox⟩ := hv i
    obtain ⟨_,hprox'⟩ := ho.proximal i
    have hsum : w.z i + w.u i - (o.z i + o.u i) = v.z i + v.u i - (o.z i + o.u i) +
        alpha • (G i (w.x - o.x) - (v.z i - o.z i)) := by
      rw [h.sum i,map_sub,← ho.split i,sub_sub_sub_cancel_right,add_sub_right_comm]
    have hreflect : (2 : ℝ) • (v.z i - o.z i) - (v.z i + v.u i - (o.z i + o.u i)) =
        v.z i - v.u i - (o.z i - o.u i) := by
      module
    rw [hsum,← hreflect]
    have hfirm := (norm_sq_le_inner_iff _ _).mp (hfirm i _ _ _ _ _ _ hprox hprox')
    exact norm_relaxed_sq_le halpha.le halpha' hfirm
  have hsolves := hx.sum_le hA hrho ho.solves
  calc w.apart o ≤ _ := Finset.sum_le_sum fun i _ => hterm i
    _ = v.apart o + 2 * alpha * ∑ i, (‖G i (w.x - o.x)‖ ^ 2 -
        inner ℝ (G i (w.x - o.x)) (v.z i - v.u i - (o.z i - o.u i))) := by
      rw [Finset.sum_add_distrib,Finset.mul_sum,Point.apart]
    _ ≤ v.apart o :=
      add_le_of_nonpos_right (mul_nonpos_of_nonneg_of_nonpos (by linarith) hsolves)

/-- The points of a state. -/
structure State.At (s : State ℝ) (v : Point n size) : Prop where
  image : s.image = coords v.x
  splits : ∃ split : Fin D → Split ℝ, s.splits = List.ofFn split ∧
    ∀ i, (split i).z = coords (v.z i) ∧ (split i).u = coords (v.u i)

/-- Neither momentum nor a rule for the penalty is in use. -/
structure Plain (a : AdmmSettings ℝ) : Prop where
  fast : a.fast = false
  dynamicRho : a.dynamicRho = false
  hogwild : a.hogwild = false

variable {p : Plan ℝ} {op : Option (Operator ℝ)} {b : Option (List ℝ)} {monitor : Monitor ℝ}
  {image : List ℝ} {ms : List (Moved ℝ)} {bal : Balance ℝ} {s : State ℝ}
  {q : Pass ℝ (State ℝ)} {ps : List (Pass ℝ (State ℝ))} {k : Nat}

theorem Plain.change_eq {a : AdmmSettings ℝ} (h : Plain a) (bal : Balance ℝ)
    (schedule : Schedule) : change a bal schedule = 1 := by
  rw [change,h.hogwild,Schedule.tickIf,balancing,h.dynamicRho]
  rfl

/-- An iteration then leaves what it has reached, be it the last one or not. -/
theorem Iterated.state_of_plain (hi : Iterated p op b s image ms bal q) (hp : Plain p.settings) :
    q.state.splits = ms.map Moved.settle ∧ q.state.rho = s.rho := by
  rw [hi.state_eq]
  split
  · exact ⟨rfl,rfl⟩
  · rw [following,adapt_eq,hp.change_eq]
    simp [accelerated,accelerate,hp.fast]

theorem State.At.next (h : s.At v) (hterms : p.terms = List.ofFn term)
    (hG : ∀ i x, (term i).transform.flatForward (size i) (coords x) = .ok (coords (G i x)))
    (hp : Plain p.settings) (hq : pass p op b monitor k s = .ok q) :
    ∃ w, q.state.At w ∧ q.state.rho = s.rho ∧ Relaxed G term p.settings.alpha s.rho v w := by
  obtain ⟨image,ms,bal,hi⟩ := pass_eq_ok hq
  obtain ⟨hsplits,hrho⟩ := hi.state_of_plain hp
  obtain ⟨split,hs,hzu⟩ := h.splits
  obtain ⟨_,_,hx,hm⟩ := update_eq_ok.mp hi.update_eq
  obtain ⟨x,rfl⟩ : ∃ x : Space n, coords x = image :=
    exists_coords (by rw [length_updateImage hx,h.image,length_coords])
  rw [hterms,hs,zipWith_ofFn] at hm
  obtain ⟨m,rfl,hmove⟩ := Checked.mapM_ofFn.mp hm
  have hfrom (i : Fin D) : (begin p.settings.fast (term i) (split i)).zFrom = coords (v.z i) ∧
      (begin p.settings.fast (term i) (split i)).uFrom = coords (v.u i) := by
    rw [begin,hp.fast]
    exact hzu i
  choose z hprox hmoved using fun i =>
    exists_move (m := begin p.settings.fast (term i) (split i))
      (by rw [begin,(hzu i).1,length_coords]) (hG i x) (hfrom i).1 (hfrom i).2 (hmove i)
  obtain rfl := funext hmoved
  let u (i : Fin D) := v.u i + (p.settings.alpha • G i x + (1 - p.settings.alpha) • v.z i) - z i
  refine ⟨⟨x,z,u⟩,⟨hi.image_eq,_,hsplits.trans List.map_ofFn,fun i => ⟨rfl,rfl⟩⟩,hrho,
    fun i => ⟨(split i).z,?_⟩,fun i => ?_⟩
  · change (term i).prox.apply _ _ (coords (z i + u i)) = _
    rw [add_sub_cancel,add_comm (v.u i)]
    exact hprox i
  · change z i + u i = _
    module

/-- The points of the start. -/
theorem exists_at_start (hterms : p.terms = List.ofFn term)
    (hG : ∀ i x, (term i).transform.flatForward (size i) (coords x) = .ok (coords (G i x)))
    (hx : image.length = n) (hs : start p image = .ok s) : ∃ v : Point n size, s.At v := by
  obtain ⟨split,hsplits,hsized⟩ := exists_split_start hterms
    (fun i => Transform.codomainLength_of_flatForward (hG i 0)) hs
  obtain ⟨x,hx⟩ := exists_coords hx
  choose z hz using fun i => exists_coords (hsized i).z
  choose u hu using fun i => exists_coords (hsized i).u
  exact ⟨⟨x,z,u⟩,(start_eq_ok hs).1.trans hx.symm,split,hsplits,
    fun i => ⟨(hz i).symm,(hu i).symm⟩⟩

/-- The linear map of the system of the image update. -/
noncomputable def system (A : Space n →ₗ[ℝ] Space n) (G : ∀ i, Space n →ₗ[ℝ] Space (size i))
    (rho : ℝ) : Space n →ₗ[ℝ] Space n :=
  A + rho • ∑ i, (G i).adjoint ∘ₗ G i

theorem system_apply (A : Space n →ₗ[ℝ] Space n) (G : ∀ i, Space n →ₗ[ℝ] Space (size i))
    (rho : ℝ) (x : Space n) :
    system A G rho x = A x + rho • ∑ i, (G i).adjoint (G i x) := by
  simp [system,LinearMap.sum_apply]

theorem isPositive_system (hA : A.IsPositive) (hrho : 0 ≤ rho) : (system A G rho).IsPositive :=
  hA.add ((LinearMap.isPositive_sum _ fun i _ =>
    LinearMap.isPositive_adjoint_comp_self (G i)).smul_of_nonneg hrho)

/-- The inner solve solves the system, with as many steps as dimensions, where it has only one
solution. -/
theorem Reach.Made.system_eq_of_unique {T : Fin D → LinearTerm n} {r : Reach T}
    (hr : r.Made A c p op s) (hadjoint : ∀ i, (T i).adjoint = (T i).forward.adjoint)
    (hA : A.IsPositive) (hrho : 0 ≤ s.rho)
    (hunique : Function.Injective (system A (fun i => (T i).forward) s.rho))
    (hn : n ≤ p.settings.maxIterInner) (hx : s.image = coords x) :
    system A (fun i => (T i).forward) s.rho r.x =
      c + s.rho • ∑ i, (T i).forward.adjoint (r.zFrom i - r.uFrom i) := by
  have hadjoints (v : Stack T) : adjoints T v = ∑ i, (T i).forward.adjoint (v i) := by
    simp only [← hadjoint]
    rfl
  have hacts : (augmented op s.rho p.terms).ActsAs (system A (fun i => (T i).forward) s.rho) := by
    intro w
    rw [hr.system_eq,system_apply,hadjoints]
    rfl
  have hrange := LinearMap.range_eq_top.mpr (LinearMap.injective_iff_surjective.mp hunique)
  obtain ⟨_,y,hy,hsystem⟩ := ConjugateGradient.exists_exact_solve hacts (isPositive_system hA hrho)
    (hrange ▸ Submodule.mem_top) hn x
  obtain ⟨_,hsolve⟩ := hr.solve_eq
  rw [hx,hy] at hsolve
  obtain rfl : y = r.x := coords_injective (congrArg Prod.snd (Except.ok.inj hsolve))
  rw [hsystem,hadjoints]
  rfl

theorem Linear.solves {T : Fin D → LinearTerm n} (h : Linear T A c p op b) (hD : 0 < D)
    (hadjoint : ∀ i, (T i).adjoint = (T i).forward.adjoint) (hA : A.IsPositive)
    (hrho : 0 ≤ s.rho) (hunique : Function.Injective (system A (fun i => (T i).forward) s.rho))
    (hn : n ≤ p.settings.maxIterInner) (hp : Plain p.settings) (hs : Fits T s)
    (hq : pass p op b monitor k s = .ok q) {v w : Point n fun i => (T i).size} (hv : s.At v)
    (hw : q.state.At w) : Solves A c (fun i => (T i).forward) s.rho v w.x := by
  obtain ⟨image,ms,bal,hi⟩ := pass_eq_ok hq
  obtain ⟨r,hr,rfl,rfl⟩ := h.exists_made hD hs hi.update_eq
  obtain ⟨split,hsplit,hzu⟩ := hv.splits
  obtain rfl : r.split = split := List.ofFn_injective (hr.splits_eq.symm.trans hsplit)
  have hz (i : Fin D) : r.zFrom i = v.z i := coords_injective <| by
    rw [hr.zFrom_eq,hp.fast,← (hzu i).1]
    rfl
  have hu (i : Fin D) : r.uFrom i = v.u i := coords_injective <| by
    rw [hr.uFrom_eq,hp.fast,← (hzu i).2]
    rfl
  have hsystem := hr.system_eq_of_unique hadjoint hA hrho hunique hn hv.image
  rw [coords_injective (hi.image_eq.symm.trans hw.image),system_apply] at hsystem
  simp only [hz,hu] at hsystem
  exact hsystem

/-- The image updates of a run then are exact. -/
theorem Linear.solves_of_trace {T : Fin D → LinearTerm n} (h : Linear T A c p op b) (hD : 0 < D)
    (hadjoint : ∀ i, (T i).adjoint = (T i).forward.adjoint) (hA : A.IsPositive)
    (hrho : 0 ≤ p.settings.rho)
    (hunique : Function.Injective (system A (fun i => (T i).forward) p.settings.rho))
    (hn : n ≤ p.settings.maxIterInner) (hp : Plain p.settings) (hx : image.length = n)
    (hs : start p image = .ok s) (ht : Trace (pass p op b monitor) 0 s ps)
    {v : Nat → Point n fun i => (T i).size}
    (hv : ∀ k (t : State ℝ), (states s ps)[k]? = some t → t.At (v k)) (hk : k < ps.length) :
    Solves A c (fun i => (T i).forward) p.settings.rho (v k) (v (k + 1)).x := by
  have hq := List.getElem?_eq_getElem hk
  obtain ⟨t,ht,⟨hfits,hrho'⟩,hpass,_⟩ := ht.at
    (I := fun _ t => Fits T t ∧ t.rho = p.settings.rho)
    ⟨h.fits_start hx hs,(start_eq_ok hs).2⟩ (fun j t q ht hq _ => by
      obtain ⟨_,_,_,hi⟩ := pass_eq_ok hq
      exact ⟨ht.1.next h.terms hq,(hi.state_of_plain hp).2.trans ht.2⟩) hq
  have hnext := hv (k + 1) _ ((getElem?_states_succ s ps k).trans (congrArg _ hq))
  rw [← hrho'] at hrho hunique ⊢
  exact h.solves hD hadjoint hA hrho hunique hn hp hfits hpass (hv k t ht) hnext

/-- Along the iterations of a run, whether it returns in the end or not, split variables and duals
move by relaxed steps. If only the image updates solve their systems, then from the first iteration
on their sums get no further away from those of any optimal point. -/
theorem trace_apart_le (hterms : p.terms = List.ofFn term)
    (hG : ∀ i x, (term i).transform.flatForward (size i) (coords x) = .ok (coords (G i x)))
    (hp : Plain p.settings) (halpha : 0 < p.settings.alpha) (halpha' : p.settings.alpha ≤ 2)
    (hrho : 0 < p.settings.rho) (hA : A.IsPositive)
    (hfirm : ∀ i, (term i).prox.FirmlyNonexpansive (1 / p.settings.rho) (size i))
    (hx : image.length = n) (hs : start p image = .ok s)
    (ht : Trace (pass p op b monitor) 0 s ps) :
    ∃ v : Nat → Point n size, (∀ k (t : State ℝ), (states s ps)[k]? = some t → t.At (v k)) ∧
      (∀ k, k < ps.length → Relaxed G term p.settings.alpha p.settings.rho (v k) (v (k + 1))) ∧
      ((∀ k, k < ps.length → Solves A c G p.settings.rho (v k) (v (k + 1)).x) →
        ∀ o, Optimal A c G term p.settings.rho o →
          ∀ k, 1 ≤ k → k < ps.length → (v (k + 1)).apart o ≤ (v k).apart o) := by
  obtain ⟨v₀,hv₀⟩ := exists_at_start hterms hG hx hs
  obtain ⟨v,_,hv⟩ := ht.exists_views (I := fun s v => s.At v ∧ s.rho = p.settings.rho)
    (R := Relaxed G term p.settings.alpha p.settings.rho) ⟨hv₀,(start_eq_ok hs).2⟩
    fun j u q w hw hq => by
      obtain ⟨w',hw',hrho,hR⟩ := hw.1.next hterms hG hp hq
      rw [hw.2] at hrho hR
      exact ⟨w',⟨hw',hrho⟩,hR⟩
  refine ⟨v,fun k t hk => (hv.state k t hk).1,hv.next,fun hsolves o ho k hk hlt => ?_⟩
  obtain ⟨k,rfl⟩ := Nat.exists_eq_succ_of_ne_zero (Nat.one_le_iff_ne_zero.mp hk)
  have hproximal := (hv.next k (by omega)).proximal
  exact (hv.next _ hlt).apart_le halpha halpha' hrho hA hfirm hproximal (hsolves _ hlt) ho

/-- Without tolerances no iteration is the last before the cap. -/
theorem Traced.capped_of_exact {o : Outcome ℝ} (ht : Traced p op b monitor image o s ps)
    (hterms : p.terms ≠ []) (habs : p.settings.absTol = 0) (hrel : p.settings.relTol = 0) :
    o.solution.report.status = .maxIterReached ∧ ps.length = p.settings.maxIter := by
  refine ht.capped fun hconv => ?_
  obtain ⟨q,hq,hstop⟩ := ht.converged.mp hconv
  obtain ⟨i,hi⟩ := List.getElem?_of_mem (List.mem_of_getLast? hq)
  obtain ⟨u,x,ms,bal,_,ha,hit,_⟩ := ht.passes i q hi
  obtain ⟨hprimal,_⟩ := (hit.stops ha hstop).resolve_right fun hnil => hterms hnil.1
  obtain ⟨d,_,hb⟩ := Checked.bind_eq_ok.mp hit.balance_eq
  obtain ⟨w,_,rfl⟩ := Checked.map_eq_ok.mp hb
  simp only [habs,hrel,mul_zero,zero_mul,add_zero] at hprimal
  exact absurd hprimal (not_lt.mpr (Real.sqrt_nonneg _))

theorem Traced.length_of_exact {o : Outcome ℝ} (ht : Traced p op b monitor image o s ps)
    (hterms : p.terms ≠ []) (habs : p.settings.absTol = 0) (hrel : p.settings.relTol = 0) :
    ps.length = p.settings.maxIter :=
  (ht.capped_of_exact hterms habs hrel).2

/-- One term behind the identity, with a fixed penalty and no tolerance. -/
noncomputable def plainPlan : Plan ℝ where
  settings := { AdmmSettings.default with maxIter := 3, rho := 1, absTol := 0, relTol := 0 }
  terms := [⟨.identity [1],.ridge 1⟩]
  xUpdate := none

/-- The optimal point for the data `2, 0`. -/
noncomputable def unitPoint : Point 2 fun _ : Fin 1 => 2 :=
  let unit := EuclideanSpace.single 0 1
  ⟨unit,fun _ => unit,fun _ => unit⟩

theorem optimal_unitPoint :
    Optimal .id !₂[2,0] (fun _ => .id) (fun _ => ⟨.identity [1],.ridge 1⟩) 1 unitPoint := by
  refine ⟨fun _ => rfl,fun _ => ⟨[0,0],?_⟩,?_⟩
  · rw [ProxOperator.ridge,ProxOperator.apply_ofMap (by simp)]
    simp [coords,unitPoint,List.ofFn_succ]
  · ext i
    fin_cases i <;> simp [unitPoint]
    norm_num

theorem injective_system_id :
    Function.Injective (system (.id : Space 2 →ₗ[ℝ] Space 2) (fun _ : Fin 1 => .id) 1) := by
  have hdouble (x : Space 2) : system .id (fun _ : Fin 1 => .id) 1 x = (2 : ℝ) • x := by
    rw [system_apply,one_smul,Fin.sum_univ_one,two_smul,LinearMap.adjoint_id]
    rfl
  intro x y hxy
  rw [hdouble,hdouble] at hxy
  exact smul_right_injective _ two_ne_zero hxy

theorem trace_plainPlan : ∃ (o : Outcome ℝ) (s : State ℝ) (ps : List (Pass ℝ (State ℝ)))
    (v : Nat → Point 2 fun _ : Fin 1 => 2),
    run plainPlan (some .identity) [0,0] (some [2,0]) (.silent "admm") = .ok o ∧
      Traced plainPlan (some .identity) (some [2,0]) (.silent "admm") [0,0] o s ps ∧
      ps.length = 3 ∧ (∀ k (t : State ℝ), (states s ps)[k]? = some t → t.At (v k)) ∧
      (∀ k, k < 3 → Solves .id !₂[2,0] (fun _ => .id) 1 (v k) (v (k + 1)).x) ∧
      Optimal .id !₂[2,0] (fun _ => .id) (fun _ => ⟨.identity [1],.ridge 1⟩) 1 unitPoint ∧
      ∀ k, 1 ≤ k → k < 3 → (v (k + 1)).apart unitPoint ≤ (v k).apart unitPoint := by
  let T (_ : Fin 1) : LinearTerm 2 := identityTerm (.ridge 1)
  have hlinear : Linear T .id !₂[2,0] plainPlan (some .identity) (some [2,0]) :=
    linear_identity rfl rfl 2 0
  have hplain : Plain plainPlan.settings := ⟨rfl,rfl,rfl⟩
  obtain ⟨o,ho⟩ := exists_run_identity (p := plainPlan) rfl rfl 2 0
  obtain ⟨s,ps,ht⟩ := exists_traced ho
  have hlen : ps.length = 3 := ht.length_of_exact (List.cons_ne_nil _ _) rfl rfl
  have halpha : plainPlan.settings.alpha = 1.6 := rfl
  have hrho : plainPlan.settings.rho = 1 := rfl
  obtain ⟨v,hv,_,hmonotone⟩ := trace_apart_le (n := 2) (G := fun i => (T i).forward) (A := .id)
    (c := !₂[2,0]) (p := plainPlan) rfl (fun i => (T i).flatForward_eq) hplain
    (by rw [halpha]; norm_num) (by rw [halpha]; norm_num) one_pos LinearMap.isPositive_id
    (fun _ => ProxOperator.firmlyNonexpansive_ridge (by rw [hrho]; norm_num) 2) rfl
    ht.start_eq ht.trace
  have hsolves (k : Nat) (hk : k < ps.length) :=
    hlinear.solves_of_trace Nat.one_pos (fun _ => LinearMap.adjoint_id.symm) LinearMap.isPositive_id
      zero_le_one injective_system_id (by decide) hplain rfl ht.start_eq ht.trace hv hk
  refine ⟨o,s,ps,v,ho,ht,hlen,hv,fun k hk => hsolves k (hlen ▸ hk),optimal_unitPoint,?_⟩
  exact fun k hk hlt => hmonotone hsolves unitPoint optimal_unitPoint k hk (hlen ▸ hlt)

end Admm

end LinearInverse
