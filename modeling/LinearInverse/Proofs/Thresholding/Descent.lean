import Mathlib
import LinearInverse.Proofs.Reports
import LinearInverse.Proofs.Thresholding.Composite

namespace LinearInverse.Thresholding.Plain

variable {n k : Nat} {t : Task ℝ} {A : Space n →ₗ[ℝ] Space n} {b x y q : Space n} {g : Penalty n}

/-- The gradient step that follows a value has the size of the proximal map that comes next. -/
theorem exists_next (h : t.Composite A b g) (hy : point t (coords x) k = .ok (coords y)) :
    ∃ q, point t (coords x) (k + 1) = .ok (coords q) ∧
      g.Balanced (t.tau (k + 1)) (y + t.tau (k + 1) • (b - A y)) q := by
  obtain ⟨q,hq,hbalanced⟩ := h.exists_prox (k + 1) (k + 1) (length_coords y)
    (y + t.tau (k + 1) • (b - A y))
  refine ⟨q,point_succ_eq_ok.mpr ⟨_,_,hy,h.operator y,?_⟩,hbalanced⟩
  rw [h.data,Vec.sub_coords,Vec.axpy_coords]
  exact hq

theorem exists_point (h : t.Composite A b g) (x : Space n) (k : Nat) :
    ∃ y, point t (coords x) k = .ok (coords y) ∧ y ∈ g.domain := by
  induction k with
  | zero =>
    have hzeros : ((coords x).map fun _ => (0 : ℝ)).length = n := by
      rw [List.length_map,length_coords]
    obtain ⟨y,hy,hbalanced⟩ := h.exists_prox 0 0 hzeros x
    exact ⟨y,hy,hbalanced.mem⟩
  | succ k ih =>
    obtain ⟨y,hy,_⟩ := ih
    obtain ⟨q,hq,hbalanced⟩ := exists_next h hy
    exact ⟨q,hq,hbalanced.mem⟩

/-- A halved step is short enough if the first one is. -/
theorem cost_le (h : t.Composite A b g)
    (hA : ∀ v, inner ℝ v (A v) ≤ 2 / t.params.step * ‖v‖ ^ 2) (hy : y ∈ g.domain)
    (hq : g.Balanced (t.tau k) (y + t.tau k • (b - A y)) q) :
    cost A b g q ≤ cost A b g y := by
  obtain ⟨hpos,hle⟩ := t.tau_mem h.step_pos k
  have hcurve : t.tau k * inner ℝ (q - y) (A (q - y)) ≤ 2 * ‖q - y‖ ^ 2 := by
    calc t.tau k * inner ℝ (q - y) (A (q - y))
        ≤ t.params.step * inner ℝ (q - y) (A (q - y)) :=
          mul_le_mul_of_nonneg_right hle (h.positive.inner_nonneg_right _)
      _ ≤ t.params.step * (2 / t.params.step * ‖q - y‖ ^ 2) :=
          mul_le_mul_of_nonneg_left (hA _) h.step_pos.le
      _ = 2 * ‖q - y‖ ^ 2 := by
          rw [← mul_assoc,mul_div_cancel₀ _ h.step_pos.ne']
  have hstep := cost_sub_le h.positive hq hpos.le hy
  rw [sub_self,norm_zero] at hstep
  have hdiff : 2 * t.tau k * (cost A b g q - cost A b g y) ≤ 2 * t.tau k * 0 := by linarith
  exact sub_nonpos.mp (le_of_mul_le_mul_left hdiff (mul_pos two_pos hpos))

theorem At.calls_pass {α : Type} [Scalar α] {t : Task α} {x p : List α} {s : State α}
    {q : Pass α (State α)} (h : At t x k s) (hp : Plain.point t x k = .ok p)
    (hq : pass t k s = .ok q) :
    ∃ c, calls q.events = [c] ∧ c.image = p := by
  obtain ⟨p',r,e,hp',_,he,rfl⟩ := h.pass_eq_ok.mp hq
  obtain rfl : p = p' := Except.ok.inj (hp.symm.trans hp')
  obtain ⟨c,hc,_,hx⟩ := calls_of_report he
  refine ⟨c,?_,hx⟩
  split
  · exact calls_of_notes rfl hc nofun
  · exact calls_of_notes rfl hc (note_halve _ _ _)

/-- A run returns, whatever its start, bound and cap, and shows the monitor the values of the
proximal map, one after the other, none of which costs more than the one before. -/
theorem exists_descending_run (h : t.Composite A b g)
    (hA : ∀ v, inner ℝ v (A v) ≤ 2 / t.params.step * ‖v‖ ^ 2) (x : Space n) :
    ∃ (s : Solution ℝ) (y : Nat → Space n), run t (coords x) = .ok s ∧
      (∀ k, point t (coords x) k = .ok (coords (y k))) ∧
      (calls s.log).map Progress.image =
        (List.range s.report.iterations).map (fun k => coords (y k)) ∧
      (∀ k, y k ∈ g.domain) ∧ Antitone fun k => cost A b g (y k) := by
  choose y hy hmem using exists_point h x
  have hpasses (k : Nat) (u : State ℝ) (hu : At t (coords x) k u) : ∃ q, pass t k u = .ok q :=
    hu.exists_pass_of_point (h.fits x) (hy k) (h.residual_coords (y k))
  have hkeep (k : Nat) (u : State ℝ) (q : Pass ℝ (State ℝ)) (hu : At t (coords x) k u)
      (hq : pass t k u = .ok q) (hgo : q.stop = false) : At t (coords x) (k + 1) q.state :=
    hu.next (h.fits x) hq hgo
  obtain ⟨r,hr⟩ := exists_iterate (at_start t (coords x)) hpasses hkeep t.params.maxIter
  refine ⟨_,y,(run_eq (h.fits x)).trans (Checked.map_eq_ok.mpr ⟨r,hr,rfl⟩),hy,?_,hmem,?_⟩
  · exact map_calls (at_start t (coords x)) hkeep
      (fun k u q hu hq => hu.calls_pass (hy k) hq) hr
  · refine antitone_nat_of_succ_le fun k => ?_
    obtain ⟨q,hq,hbalanced⟩ := exists_next h (hy k)
    obtain rfl : y (k + 1) = q := coords_injective (Except.ok.inj ((hy (k + 1)).symm.trans hq))
    exact cost_le h hA (hmem k) hbalanced

/-- The longest step that the identity allows, halved on the way. -/
theorem exists_descending_run_shrinkTask :
    (shrinkTask 2 true).Composite LinearMap.id !₂[1,1] (ProxOperator.magnitudes 1 1) ∧
      (∀ v : Space 2, inner ℝ v v ≤ 2 / (2 : ℝ) * ‖v‖ ^ 2) ∧
      ∃ (s : Solution ℝ) (y : Nat → Space 2), run (shrinkTask 2 true) (coords !₂[0,0]) = .ok s ∧
        (∀ k, point (shrinkTask 2 true) (coords !₂[0,0]) k = .ok (coords (y k))) ∧
        (calls s.log).map Progress.image =
          (List.range s.report.iterations).map (fun k => coords (y k)) ∧
        Antitone fun k => cost LinearMap.id !₂[1,1] (ProxOperator.magnitudes 1 1) (y k) := by
  have hc := composite_shrinkTask two_pos true
  have hA (v : Space 2) : inner ℝ v v ≤ 2 / (2 : ℝ) * ‖v‖ ^ 2 := by
    rw [div_self two_ne_zero,one_mul]
    exact (real_inner_self_eq_norm_sq v).le
  obtain ⟨s,y,hs,hy,hcalls,_,hanti⟩ := exists_descending_run hc hA !₂[0,0]
  exact ⟨hc,hA,s,y,hs,hy,hcalls,hanti⟩

end LinearInverse.Thresholding.Plain
