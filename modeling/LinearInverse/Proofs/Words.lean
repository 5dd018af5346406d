import LinearInverse.Proofs.Admm.History
import LinearInverse.Proofs.Thresholding.Recursion

namespace LinearInverse

namespace Schedule
variable {f n k : Nat} {s : Schedule} {enabled : Bool}

/-- A tick in machine words, which fails where the count or the period would be none. -/
def tick? (s : Schedule) : Option (Bool × Schedule) :=
  if s.count + 1 < Grid.wordBound then
    if s.count + 1 = s.period then (Grid.times? s.period 2).map fun period => (true,⟨0,period⟩)
    else some (false,⟨s.count + 1,s.period⟩)
  else none

def tickIf? (enabled : Bool) (s : Schedule) : Option (Bool × Schedule) :=
  if enabled then s.tick? else some (false,s)

/-- The next `n` ticks, one by one in machine words: which of them complete a period, counted on
from `k`, and the schedule behind them. -/
def ticks? (k : Nat) : Nat → Schedule → Option (List Nat × Schedule)
  | 0, s => some ([],s)
  | n + 1, s => do
    let (fires,t) ← s.tick?
    let (fired,u) ← ticks? (k + 1) n t
    return (if fires then (k + 1) :: fired else fired,u)

theorem tick?_of_lt (hcount : s.count + 1 < Grid.wordBound)
    (hperiod : s.count + 1 = s.period → s.period * 2 < Grid.wordBound) : s.tick? = some s.tick := by
  rw [tick?,if_pos hcount,tick]
  split
  next h => rw [Grid.times?,if_pos (hperiod h)]; rfl
  next => rfl

/-- The period after a tick that is a word in number is a word too: it is the power of two below
that number, within a factor of two, times ten. -/
theorem Elapsed.tick?_eq (h : Elapsed f n s) (hn : n + 1 < Grid.wordBound) :
    s.tick? = some s.tick := by
  have hticks := h.ticks
  refine tick?_of_lt (by omega) fun hend => ?_
  have hlast := h.ends_iff.mp hend
  have hpow : 2 ^ (f + 1) < 2 ^ 61 := by
    have := Nat.one_le_two_pow (n := f + 1)
    simp only [Grid.wordBound] at hn
    omega
  have hle : 2 ^ (f + 1) ≤ 2 ^ 60 := by
    have := (Nat.pow_lt_pow_iff_right (by decide : 1 < 2)).mp hpow
    exact Nat.pow_le_pow_right (by decide) (by omega)
  rw [h.period]
  rw [Nat.pow_succ] at hle
  simp only [Grid.wordBound]
  omega

theorem tick?_after (hk : k + 1 < Grid.wordBound) : (after k).tick? = some (after k).tick := by
  obtain ⟨f,h⟩ := exists_elapsed k
  exact h.tick?_eq hk

theorem Elapsed.firingFrom_zero (h : Elapsed f k s) : firingFrom k 0 s = ([],s) := by
  have hlt := h.count_lt
  rw [firingFrom]
  simp only [Nat.le_zero_eq]
  rw [if_neg (by omega)]
  rfl

/-- Ticking in machine words is counting without bound. -/
theorem ticks?_eq (h : k + n < Grid.wordBound) :
    ticks? k n (after k) = some (firingFrom k n (after k)) := by
  induction n generalizing k with
  | zero =>
    obtain ⟨f,he⟩ := exists_elapsed k
    rw [ticks?,he.firingFrom_zero]
  | succ n ih =>
    have hnext : (after k).tick.2 = after (k + 1) := rfl
    rw [ticks?,tick?_after (by omega),firingFrom_succ]
    simp [hnext,ih (k := k + 1) (by omega)]

/-- The ticks are counted by the schedule, and the periods by the ticks told of. -/
theorem Elapsed.firingFrom (h : Elapsed f k s) (n : Nat) :
    Elapsed (f + (firingFrom k n s).1.length) (k + n) (firingFrom k n s).2 := by
  induction n generalizing k f s with
  | zero => simpa [h.firingFrom_zero] using h
  | succ n ih =>
    have hnext := ih h.tick
    rw [firingFrom_succ,show k + (n + 1) = k + 1 + n by omega]
    cases hfires : s.tick.1 with
    | true =>
      rw [hfires] at hnext
      simpa [Nat.add_assoc,Nat.add_comm 1] using hnext
    | false =>
      rw [hfires] at hnext
      simpa using hnext

/-- The ticks told of are those at which a period ends, in order. -/
theorem firingFrom_after (k n : Nat) : (firingFrom k n (after k)).1.Pairwise (· < ·) ∧
    ∀ i, i ∈ (firingFrom k n (after k)).1 ↔ k < i ∧ i ≤ k + n ∧ Fires i := by
  induction n generalizing k with
  | zero =>
    obtain ⟨f,he⟩ := exists_elapsed k
    rw [he.firingFrom_zero]
    refine ⟨List.Pairwise.nil,fun i => ?_⟩
    simp only [List.not_mem_nil,false_iff]
    omega
  | succ n ih =>
    obtain ⟨hsorted,hmem⟩ := ih (k + 1)
    have hnext : (after k).tick.2 = after (k + 1) := rfl
    have hlist : (firingFrom k (n + 1) (after k)).1 = if Fires (k + 1)
        then (k + 1) :: (firingFrom (k + 1) n (after (k + 1))).1
        else (firingFrom (k + 1) n (after (k + 1))).1 := by
      rw [firingFrom_succ,hnext,tick_after]
      simp only [decide_eq_true_eq]
    -- the first of the ticks comes before all others, and is told of if a period ends with it
    have hfirst (i : Nat) : k < i ∧ i ≤ k + (n + 1) ∧ Fires i ↔
        i = k + 1 ∧ Fires (k + 1) ∨ k + 1 < i ∧ i ≤ k + 1 + n ∧ Fires i := by
      constructor
      · rintro ⟨hlt,hle,hi⟩
        rcases Nat.eq_or_lt_of_le (Nat.succ_le_of_lt hlt) with rfl | hlt
        · exact .inl ⟨rfl,hi⟩
        · exact .inr ⟨hlt,by omega,hi⟩
      · rintro (⟨rfl,hi⟩ | ⟨hlt,hle,hi⟩)
        · exact ⟨Nat.lt_succ_self k,by omega,hi⟩
        · exact ⟨by omega,by omega,hi⟩
    rw [hlist]
    simp only [hfirst]
    by_cases hf : Fires (k + 1)
    · simp only [hf,if_true,List.pairwise_cons,List.mem_cons,hmem,and_true,implies_true]
      exact ⟨fun i hi => hi.1,hsorted⟩
    · simp only [hf,if_false,hmem,and_false,false_or,implies_true,and_true]
      exact hsorted

/-- The schedule before tick `k + 1`, if it ticks at all. -/
def due (enabled : Bool) (k : Nat) : Schedule :=
  if enabled then after k else initial

theorem due_zero (enabled : Bool) : due enabled 0 = initial := by
  cases enabled <;> rfl

theorem tickIf_due (enabled : Bool) (k : Nat) : (due enabled k).tickIf enabled =
    (enabled && decide (Fires (k + 1)),due enabled (k + 1)) := by
  cases enabled with
  | false => rfl
  | true => exact tick_after k

theorem tickIf?_due (hk : k + 1 < Grid.wordBound) :
    (due enabled k).tickIf? enabled = some ((due enabled k).tickIf enabled) := by
  cases enabled with
  | false => rfl
  | true => exact tick?_after hk

end Schedule

variable {α σ : Type} {enabled : Bool} {schedule : σ → Schedule}
  {pass : Nat → σ → Checked α (Pass α σ)} {s : σ} {k fuel : Nat}

/-- The same pass, refused where its tick would leave the machine words. -/
def inWords (enabled : Bool) (schedule : σ → Schedule) (pass : Nat → σ → Checked α (Pass α σ))
    (k : Nat) (s : σ) : Checked α (Pass α σ) :=
  if ((schedule s).tickIf? enabled).isSome then pass k s else .error .sizeOverflow

/-- A pass that goes on has ticked once. -/
def TicksOnce (enabled : Bool) (schedule : σ → Schedule)
    (pass : Nat → σ → Checked α (Pass α σ)) : Prop :=
  ∀ k s p, pass k s = .ok p → p.stop = false →
    schedule p.state = ((schedule s).tickIf enabled).2

/-- No pass of the run is refused, whether the run returns or not, and each of them ticks as the
closed form says. -/
structure OnSchedule (enabled : Bool) (schedule : σ → Schedule)
    (pass : Nat → σ → Checked α (Pass α σ)) (maxIter : Nat) (s : σ) : Prop where
  inWords : iterate (inWords enabled schedule pass) maxIter 0 s = iterate pass maxIter 0 s
  ticks : ∀ ps, Trace pass 0 s ps → ps.length ≤ maxIter →
    ∀ i u, (states s ps)[i]? = some u → i < ps.length →
      (schedule u).tickIf? enabled =
        some (enabled && decide (Schedule.Fires (i + 1)),Schedule.due enabled (i + 1))

namespace TicksOnce

theorem next {p : Pass α σ} (h : TicksOnce enabled schedule pass)
    (hs : schedule s = .due enabled k) (hp : pass k s = .ok p) (hgo : p.stop = false) :
    schedule p.state = .due enabled (k + 1) := by
  rw [h k s p hp hgo,hs,Schedule.tickIf_due]

theorem iterate_eq (h : TicksOnce enabled schedule pass) (hs : schedule s = .due enabled k)
    (hfuel : k + fuel < Grid.wordBound) :
    iterate (inWords enabled schedule pass) fuel k s = iterate pass fuel k s := by
  induction fuel generalizing k s with
  | zero => rfl
  | succ fuel ih =>
    have htick : (Schedule.due enabled k).tickIf? enabled =
        some ((Schedule.due enabled k).tickIf enabled) := Schedule.tickIf?_due (by omega)
    have hpass : inWords enabled schedule pass k s = pass k s := by
      rw [inWords,hs,htick]
      rfl
    rw [iterate,iterate,hpass]
    refine Checked.bind_congr fun p hp => ?_
    cases hstop : p.stop with
    | true => rfl
    | false => rw [ih (h.next hs hp hstop) (by omega)]

theorem onSchedule (h : TicksOnce enabled schedule pass) (hs : schedule s = .initial)
    {maxIter : Nat} (hmax : maxIter < Grid.wordBound) :
    OnSchedule enabled schedule pass maxIter s where
  inWords := h.iterate_eq (hs.trans (Schedule.due_zero enabled).symm) (by omega)
  ticks ps htrace hlen i u hu hi := by
    have hp := List.getElem?_eq_getElem hi
    obtain ⟨v,hv,hdue,_⟩ := htrace.at (I := fun k u => schedule u = .due enabled k)
      (hs.trans (Schedule.due_zero enabled).symm)
      (fun j w p hw hp hgo => h.next hw hp hgo) hp
    obtain rfl : u = v := Option.some.inj (hu.symm.trans hv)
    rw [hdue,Nat.zero_add,Schedule.tickIf?_due (by omega),Schedule.tickIf_due]

end TicksOnce

section
variable [Scalar α]

theorem Thresholding.schedule_halve (tau : α) (s : Schedule) :
    (Thresholding.halve enabled tau s).2.1 = (s.tickIf enabled).2 := by
  rw [Thresholding.halve]
  obtain ⟨fired,t⟩ := s.tickIf enabled
  cases fired <;> rfl

theorem Thresholding.Plain.ticksOnce (t : Thresholding.Task α) :
    TicksOnce t.params.hogwild State.schedule (Plain.pass t) := by
  intro k s q hq hgo
  obtain ⟨p,_,hq⟩ := Checked.bind_eq_ok.mp hq
  obtain ⟨r,_,hq⟩ := Checked.bind_eq_ok.mp hq
  obtain ⟨e,_,rfl⟩ := Checked.map_eq_ok.mp hq
  split at hgo
  next => cases hgo
  next hfar =>
    rw [if_neg hfar]
    exact schedule_halve s.tau s.schedule

theorem Thresholding.Accelerated.ticksOnce (t : Thresholding.Task α) :
    TicksOnce t.params.hogwild State.schedule (Accelerated.pass t) := by
  intro k s q hq hgo
  obtain ⟨r,_,hq⟩ := Checked.bind_eq_ok.mp hq
  obtain ⟨e,_,hq⟩ := Checked.bind_eq_ok.mp hq
  split at hq
  next =>
    cases hq
    cases hgo
  next =>
    obtain ⟨p,_,rfl⟩ := Checked.map_eq_ok.mp hq
    exact schedule_halve s.tau s.schedule

theorem Admm.ticksOnce (p : Admm.Plan α) (op : Option (Operator α)) (b : Option (List α))
    (monitor : Monitor α) :
    TicksOnce p.settings.hogwild State.schedule (Admm.pass p op b monitor) := by
  intro k s q hq hgo
  obtain ⟨image,ms,bal,hi⟩ := Admm.pass_eq_ok hq
  rw [hi.state_eq,hgo,if_neg Bool.false_ne_true,Admm.schedule_following]

end

/-- Within `2 ^ 64` ticks a schedule stays in machine words and fires in closed form, and so it does
in every run of an iteration that uses one, whatever the cap. -/
theorem ticks_in_words :
    (∀ n < Grid.wordBound, ∃ fired s,
      Schedule.ticks? 0 n .initial = some (fired,s) ∧ Schedule.firing n .initial = (fired,s) ∧
        fired.Pairwise (· < ·) ∧
        (∀ i, i ∈ fired ↔ i ≤ n ∧ ∃ j, 1 ≤ j ∧ i = 10 * (2 ^ j - 1)) ∧
        s.count < s.period ∧ s.period = 10 * 2 ^ fired.length ∧
        n = 10 * (2 ^ fired.length - 1) + s.count) ∧
    ∀ (α : Type) [Scalar α],
      (∀ (t : Thresholding.Task α) (x : List α), t.params.maxIter < Grid.wordBound →
        OnSchedule t.params.hogwild Thresholding.Plain.State.schedule
            (Thresholding.Plain.pass t) t.params.maxIter (Thresholding.Plain.start t x) ∧
          OnSchedule t.params.hogwild Thresholding.Accelerated.State.schedule
            (Thresholding.Accelerated.pass t) t.params.maxIter
            (Thresholding.Accelerated.start t x)) ∧
      ∀ (p : Admm.Plan α) (op : Option (Operator α)) (b : Option (List α)) (monitor : Monitor α)
        (x : List α) (s : Admm.State α), Admm.start p x = .ok s →
          p.settings.maxIter < Grid.wordBound →
          OnSchedule p.settings.hogwild Admm.State.schedule (Admm.pass p op b monitor)
            p.settings.maxIter s := by
  refine ⟨fun n hn => ?_,fun α _ => ⟨fun t x hmax => ⟨?_,?_⟩,fun p op b monitor x s hs hmax => ?_⟩⟩
  · have helapsed := Schedule.elapsed_initial.firingFrom n
    obtain ⟨hsorted,hmem⟩ := Schedule.firingFrom_after 0 n
    rw [Nat.zero_add,Nat.zero_add] at helapsed
    refine ⟨_,_,Schedule.ticks?_eq (k := 0) (by omega),rfl,hsorted,fun i => ?_,helapsed.count_lt,
      helapsed.period,helapsed.ticks⟩
    rw [hmem,Nat.zero_add]
    refine and_iff_right_of_imp ?_
    rintro ⟨_,j,hj,rfl⟩
    have := Nat.pow_le_pow_right (by decide : 0 < 2) hj
    omega
  · exact (Thresholding.Plain.ticksOnce t).onSchedule rfl hmax
  · exact (Thresholding.Accelerated.ticksOnce t).onSchedule rfl hmax
  · have hstart : s.schedule = .initial := by
      obtain ⟨zs,_,hs⟩ := Checked.bind_eq_ok.mp hs
      obtain ⟨splits,_,rfl⟩ := Checked.map_eq_ok.mp hs
      rfl
    exact (Admm.ticksOnce p op b monitor).onSchedule hstart hmax

/-- The halving of a task that may run as long as counts are words. -/
def endlessTask : Thresholding.Task Float :=
  { Thresholding.ridgeTask with
    params := { Thresholding.ridgeTask.params with
      maxIter := Grid.wordBound - 1
      hogwild := true } }

/-- The longest count that is a word ends sixty periods. -/
theorem ticks_in_words_longest : Grid.wordBound - 1 < Grid.wordBound ∧
    (∃ fired s, Schedule.ticks? 0 (Grid.wordBound - 1) .initial = some (fired,s) ∧
      fired.length = 60 ∧ s.period = 11529215046068469760) ∧
    OnSchedule true Thresholding.Plain.State.schedule (Thresholding.Plain.pass endlessTask)
      (Grid.wordBound - 1) (Thresholding.Plain.start endlessTask [0,0]) ∧
    ∃ s, Admm.start Admm.ridgePlan [0,0] = .ok s ∧
      Admm.ridgePlan.settings.maxIter < Grid.wordBound ∧
      OnSchedule Admm.ridgePlan.settings.hogwild Admm.State.schedule
        (Admm.pass Admm.ridgePlan (some .identity) (some [1,0]) (.silent "admm"))
        Admm.ridgePlan.settings.maxIter s := by
  have hn : Grid.wordBound - 1 < Grid.wordBound := by decide
  obtain ⟨hcount,hruns⟩ := ticks_in_words
  obtain ⟨hthreshold,hadmm⟩ := hruns Float
  refine ⟨hn,?_,(hthreshold endlessTask [0,0] hn).1,?_⟩
  · obtain ⟨fired,s,hticks,_,_,_,hlt,hperiod,hsum⟩ := hcount _ hn
    have hlow : 2 ^ fired.length < 2 ^ 61 := by
      have := Nat.one_le_two_pow (n := fired.length)
      simp only [Grid.wordBound] at hsum
      omega
    have hhigh : 2 ^ 59 < 2 ^ fired.length := by
      rw [hperiod] at hlt
      simp only [Grid.wordBound] at hsum
      omega
    have hlen : fired.length = 60 := by
      have := (Nat.pow_lt_pow_iff_right (by decide : 1 < 2)).mp hlow
      have := (Nat.pow_lt_pow_iff_right (by decide : 1 < 2)).mp hhigh
      omega
    have hlast : s.period = 10 * 2 ^ 60 := by rw [hperiod,hlen]
    exact ⟨fired,s,hticks,hlen,hlast⟩
  · have hok : (Admm.start Admm.ridgePlan [0,0]).isOk = true := by decide +kernel
    cases h : Admm.start Admm.ridgePlan [0,0] with
    | error d => rw [h] at hok; cases hok
    | ok s => exact ⟨s,rfl,by decide,hadmm _ _ _ _ _ s h (by decide)⟩

end LinearInverse
