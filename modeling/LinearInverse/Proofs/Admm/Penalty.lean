import LinearInverse.Proofs.Euclidean
import LinearInverse.Proofs.Admm.Passes

namespace LinearInverse.Admm
variable {p : Plan ℝ} {op : Option (Operator ℝ)} {b : Option (List ℝ)} {monitor : Monitor ℝ}
  {k : Nat} {s : State ℝ} {q : Pass ℝ (State ℝ)}

theorem rescale_one (v : Split ℝ) : v.rescale 1 = v := by
  simp only [Split.rescale,Vec.scale_one]

/-- A factor of one is no exception: what is left alone then would not change. -/
theorem following_eq (a : AdmmSettings ℝ) (s : State ℝ) (image : List ℝ) (ms : List (Moved ℝ))
    (bal : Balance ℝ) :
    following a s image ms bal =
      { accelerated a s image ms with
        rho := s.rho * change a bal s.schedule
        schedule := (s.schedule.tickIf a.hogwild).2
        splits := (accelerate a.fast s.rho s ms).1.map
          (Split.rescale (1 / change a bal s.schedule)) } := by
  rw [following,adapt_eq]
  change Prod.fst (if change a bal s.schedule == 1 then _ else _) = _
  split
  next h =>
    have hone : change a bal s.schedule = 1 := by simpa using h
    simp only [hone,mul_one,one_div_one,funext rescale_one,List.map_id']
    rfl
  next => rfl

theorem balancing_pos {a : AdmmSettings ℝ} (htau : 0 < a.tau) (bal : Balance ℝ) :
    0 < balancing a bal := by
  unfold balancing
  split
  · split
    · exact mul_pos one_pos htau
    · split
      · exact one_div_pos.mpr htau
      · exact one_pos
  · exact one_pos

theorem change_pos {a : AdmmSettings ℝ} (htau : 0 < a.tau) (bal : Balance ℝ)
    (schedule : Schedule) : 0 < change a bal schedule := by
  unfold change
  split
  · exact mul_pos (balancing_pos htau bal) two_pos
  · exact balancing_pos htau bal

/-- The penalty stays positive. -/
theorem rho_pos_of_pass (htau : 0 < p.settings.tau) (hrho : 0 < s.rho)
    (hq : pass p op b monitor k s = .ok q) : 0 < q.state.rho := by
  obtain ⟨image,ms,bal,hi⟩ := pass_eq_ok hq
  rw [hi.state_eq,apply_ite State.rho,following_eq]
  split
  · exact hrho
  · exact mul_pos hrho (change_pos htau bal s.schedule)

end LinearInverse.Admm
