import LinearInverse.Schedule
import Mathlib.Algebra.Group.Nat.Defs
import Mathlib.Order.Interval.Finset.Nat

namespace LinearInverse.Schedule

/-- A new schedule after `n` ticks. -/
def after : Nat → Schedule
  | 0 => initial
  | n + 1 => (after n).tick.2

/-- The numbers of the ticks at which a period ends. -/
def Fires (n : Nat) : Prop := ∃ j, 1 ≤ j ∧ n = 10 * (2 ^ j - 1)

instance : DecidablePred Fires := fun n =>
  decidable_of_iff (∃ j < n + 1, 1 ≤ j ∧ n = 10 * (2 ^ j - 1)) (by
    refine ⟨fun ⟨j,_,h⟩ => ⟨j,h⟩,fun ⟨j,h1,h⟩ => ⟨j,?_,h1,h⟩⟩
    have := j.lt_two_pow_self
    omega)

/-- After `n` ticks, of which `f` ended a period. -/
structure Elapsed (f n : Nat) (s : Schedule) : Prop where
  period : s.period = 10 * 2 ^ f
  count_lt : s.count < s.period
  ticks : n = 10 * (2 ^ f - 1) + s.count

variable {f n : Nat} {s : Schedule}

theorem elapsed_initial : Elapsed 0 0 initial :=
  ⟨rfl,by decide,rfl⟩

/-- The last tick of a period. -/
theorem Elapsed.ends_iff (h : Elapsed f n s) :
    s.count + 1 = s.period ↔ n + 1 = 10 * (2 ^ (f + 1) - 1) := by
  have := h.period
  have := h.ticks
  have := Nat.one_le_two_pow (n := f)
  rw [Nat.pow_succ]
  omega

theorem Elapsed.tick (h : Elapsed f n s) :
    Elapsed (if s.tick.1 then f + 1 else f) (n + 1) s.tick.2 := by
  have hperiod := h.period
  have hc := h.count_lt
  by_cases hp : s.count + 1 = s.period
  · rw [show s.tick = (true,⟨0,s.period * 2⟩) from if_pos hp]
    have hdouble : s.period * 2 = 10 * 2 ^ (f + 1) := by
      rw [hperiod,Nat.pow_succ]
      omega
    exact ⟨hdouble,show 0 < s.period * 2 by omega,h.ends_iff.mp hp⟩
  · rw [show s.tick = (false,⟨s.count + 1,s.period⟩) from if_neg hp]
    exact ⟨hperiod,show s.count + 1 < s.period by omega,congrArg (· + 1) h.ticks⟩

/-- Between the ends of two periods no other period ends. -/
theorem Elapsed.fires_iff (h : Elapsed f n s) :
    Fires (n + 1) ↔ n + 1 = 10 * (2 ^ (f + 1) - 1) := by
  refine ⟨fun ⟨j,_,hj⟩ => ?_,fun hn => ⟨f + 1,by omega,hn⟩⟩
  have hc := h.count_lt
  have hn := h.ticks
  rw [h.period] at hc
  have h0 := Nat.one_le_two_pow (n := f)
  have h1 : f < j := (Nat.pow_lt_pow_iff_right (by decide : 1 < 2)).mp (by omega)
  have h2 : j ≤ f + 1 := (Nat.pow_le_pow_iff_right (by decide : 1 < 2)).mp (by
    rw [Nat.pow_succ]
    omega)
  rw [hj,show j = f + 1 by omega]

theorem exists_elapsed (n : Nat) : ∃ f, Elapsed f n (after n) := by
  induction n with
  | zero => exact ⟨0,elapsed_initial⟩
  | succ n ih =>
    obtain ⟨f,h⟩ := ih
    exact ⟨_,h.tick⟩

theorem tick_after (n : Nat) : (after n).tick = (decide (Fires (n + 1)),after (n + 1)) := by
  obtain ⟨f,h⟩ := exists_elapsed n
  have hfires : (after n).tick.1 = decide (Fires (n + 1)) := by
    rw [Bool.eq_iff_iff,decide_eq_true_iff,h.fires_iff,← h.ends_iff,Schedule.tick]
    split <;> simp_all
  exact Prod.ext hfires rfl

/-- How many periods end within `n` ticks. -/
def firings (n : Nat) : Nat := ((Finset.Icc 1 n).filter fun i => 10 * (2 ^ i - 1) ≤ n).card

/-- The bound on the numbers leaves none out. -/
theorem mem_firings {i : Nat} :
    i ∈ (Finset.Icc 1 n).filter (fun i => 10 * (2 ^ i - 1) ≤ n) ↔ 1 ≤ i ∧ 10 * (2 ^ i - 1) ≤ n := by
  have := i.lt_two_pow_self
  rw [Finset.mem_filter,Finset.mem_Icc]
  omega

theorem Elapsed.firings_eq (h : Elapsed f n s) : firings n = f := by
  have hlt := h.count_lt
  have hn := h.ticks
  rw [h.period] at hlt
  have hmem : (Finset.Icc 1 n).filter (fun i => 10 * (2 ^ i - 1) ≤ n) = Finset.Icc 1 f := by
    ext i
    rw [mem_firings,Finset.mem_Icc]
    refine and_congr_right fun _ => ⟨fun hi => ?_,fun hi => ?_⟩
    · have hpow : 2 ^ i < 2 ^ (f + 1) := by
        rw [Nat.pow_succ]
        omega
      exact Nat.le_of_lt_succ ((Nat.pow_lt_pow_iff_right (by decide)).mp hpow)
    · have hpow : 2 ^ i ≤ 2 ^ f := Nat.pow_le_pow_right (by decide) hi
      omega
  rw [firings,hmem,Nat.card_Icc,Nat.add_sub_cancel]

theorem firings_succ (n : Nat) :
    firings (n + 1) = if Fires (n + 1) then firings n + 1 else firings n := by
  obtain ⟨f,h⟩ := exists_elapsed n
  rw [h.tick.firings_eq,h.firings_eq,tick_after]
  simp only [decide_eq_true_eq]

end LinearInverse.Schedule
