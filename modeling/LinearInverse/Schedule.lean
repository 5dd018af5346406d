namespace LinearInverse

/-- The first change comes after ten ticks, and each period is twice the one before. -/
structure Schedule where
  count : Nat
  period : Nat
  deriving DecidableEq, Repr

namespace Schedule

def initial : Schedule := ⟨0,10⟩

/-- Whether this tick completes the period, and the schedule behind it. -/
def tick (s : Schedule) : Bool × Schedule :=
  if s.count + 1 = s.period then (true,⟨0,s.period * 2⟩) else (false,⟨s.count + 1,s.period⟩)

/-- A schedule that is not in use does not tick. -/
def tickIf (enabled : Bool) (s : Schedule) : Bool × Schedule :=
  if enabled then s.tick else (false,s)

/-- Which of the next `n` ticks complete a period, counted on from `k`. A whole period is passed
in one step. -/
def firingFrom (k n : Nat) (s : Schedule) : List Nat × Schedule :=
  let left := s.period - s.count
  if 0 < left ∧ left ≤ n then
    let (fired,t) := firingFrom (k + left) (n - left) ⟨0,s.period * 2⟩
    ((k + left) :: fired,t)
  else ([],⟨s.count + n,s.period⟩)
termination_by n

/-- Passing whole periods is the same as ticking one by one. -/
theorem firingFrom_succ (k n : Nat) (s : Schedule) :
    firingFrom k (n + 1) s =
      (if s.tick.1 then (k + 1) :: (firingFrom (k + 1) n s.tick.2).1
        else (firingFrom (k + 1) n s.tick.2).1,(firingFrom (k + 1) n s.tick.2).2) := by
  obtain ⟨count,period⟩ := s
  by_cases h1 : count + 1 = period
  · subst h1
    rw [firingFrom]
    simp [tick]
  · have ht : tick ⟨count,period⟩ = (false,⟨count + 1,period⟩) := by simp [tick,h1]
    rw [ht,firingFrom.eq_1 k (n + 1),firingFrom.eq_1 (k + 1) n]
    dsimp only
    by_cases h : 0 < period - count ∧ period - count ≤ n + 1
    · have h' : 0 < period - (count + 1) ∧ period - (count + 1) ≤ n := by omega
      have hk : k + 1 + (period - (count + 1)) = k + (period - count) := by omega
      have hn : n - (period - (count + 1)) = n + 1 - (period - count) := by omega
      simp [h,h',hk,hn]
    · have h' : ¬(0 < period - (count + 1) ∧ period - (count + 1) ≤ n) := by omega
      rw [if_neg h,if_neg h']
      simp [Nat.add_assoc,Nat.add_comm n 1]

/-- Which of the next `n` ticks, counted from one, complete a period. -/
def firing (n : Nat) (s : Schedule) : List Nat × Schedule :=
  firingFrom 0 n s

end Schedule

end LinearInverse
