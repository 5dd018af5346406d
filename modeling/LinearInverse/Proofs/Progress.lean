import LinearInverse.Proofs.Iterations

namespace LinearInverse
variable {α σ : Type}

def Event.progress? : Event α → Option (Progress α)
  | .progress p => some p
  | _ => none

/-- The reports made to the monitor, in order. -/
def calls (log : List (Event α)) : List (Progress α) :=
  log.filterMap Event.progress?

theorem Monitor.exists_report [Scalar α] (m : Monitor α) {x : List α}
    (h : ∀ t, m.truth = some t → t.length = x.length) (k : Nat) (r : α) :
    ∃ e, m.report k x r = .ok e := by
  rw [report,truthError]
  cases ht : m.truth with
  | none => exact ⟨_,rfl⟩
  | some t =>
    simp only [h t ht,ne_eq,not_true_eq_false,if_false]
    exact ⟨_,rfl⟩

theorem calls_of_report [Scalar α] {monitor : Monitor α} {k : Nat} {x : List α} {r : α}
    {e : Event α} (h : monitor.report k x r = .ok e) :
    ∃ c, Event.progress? e = some c ∧ c.iteration = k ∧ c.image = x := by
  obtain ⟨t,_,rfl⟩ := Checked.map_eq_ok.mp h
  exact ⟨_,rfl,rfl,rfl⟩

/-- Pass `k` makes one report, with its own number, and what the report shows has to do with the
pass. -/
def Tells (pass : Nat → σ → Checked α (Pass α σ)) (Shows : Progress α → Pass α σ → Prop) : Prop :=
  ∀ k s p, pass k s = .ok p → ∃ c, calls p.events = [c] ∧ c.iteration = k ∧ Shows c p

variable {pass : Nat → σ → Checked α (Pass α σ)} {Shows : Progress α → Pass α σ → Prop}
  {fuel : Nat} {s : σ} {r : Run α σ}

/-- Where pass `j` makes one report and `f` of it is `g j`, those are all that a run reports. -/
theorem map_calls {γ : Type} {I : Nat → σ → Prop} {f : Progress α → γ} {g : Nat → γ} (hs : I 0 s)
    (keep : ∀ j u p, I j u → pass j u = .ok p → p.stop = false → I (j + 1) p.state)
    (tells : ∀ j u p, I j u → pass j u = .ok p → ∃ c, calls p.events = [c] ∧ f c = g j)
    (h : iterate pass fuel 0 s = .ok r) :
    (calls r.log).map f = (List.range r.iterations).map g := by
  obtain ⟨ps,htrace,hsums⟩ := exists_trace h
  have hpass : ∀ i p, ps[i]? = some p →
      ∃ c, p.events.filterMap Event.progress? = [c] ∧ f c = g i := by
    intro i p hp
    obtain ⟨u,_,hI,hpass,_⟩ := htrace.at hs keep hp
    rw [Nat.zero_add] at hI hpass
    exact tells i u p hI hpass
  have htells : ∀ p ∈ ps, ∃ c, p.events.filterMap Event.progress? = [c] := by
    intro p hp
    obtain ⟨i,hi⟩ := List.getElem?_of_mem hp
    obtain ⟨c,hc,_⟩ := hpass i p hi
    exact ⟨c,hc⟩
  rw [calls,hsums.log,hsums.iterations,Nat.zero_add]
  refine List.ext_getElem? fun i => ?_
  rw [List.getElem?_map,List.getElem?_map,getElem?_told htells]
  cases hi : ps[i]? with
  | none =>
    rw [List.getElem?_eq_none (by simpa using List.getElem?_eq_none_iff.mp hi)]
    rfl
  | some p =>
    obtain ⟨c,hc,hf⟩ := hpass i p hi
    rw [Option.bind_some,hc,List.getElem?_range (List.getElem?_eq_some_iff.mp hi).1]
    exact congrArg some hf

/-- A run makes one report for each iteration, in order, and the last of them is that of the pass
that the run ends with. -/
theorem calls_of_iterate (ht : Tells pass Shows) (h : iterate pass fuel 0 s = .ok r) :
    (calls r.log).map Progress.iteration = List.range r.iterations ∧
      ∀ c, (calls r.log).getLast? = some c →
        ∃ p, Shows c p ∧ r.state = p.state ∧ r.stopped = p.stop := by
  constructor
  · have hnumbers := map_calls (I := fun _ _ => True) (f := Progress.iteration) (g := id) trivial
      (fun _ _ _ _ _ _ => trivial) (fun j u p _ hp => ?_) h
    · rw [hnumbers,List.map_id]
    · obtain ⟨c,hc,hk,_⟩ := ht j u p hp
      exact ⟨c,hc,hk⟩
  · obtain ⟨ps,htrace,hsums⟩ := exists_trace h
    have hpass : ∀ p ∈ ps, ∃ c, p.events.filterMap Event.progress? = [c] ∧ Shows c p := by
      intro p hp
      obtain ⟨i,hi⟩ := List.getElem?_of_mem hp
      obtain ⟨u,hpass⟩ := htrace.exists_pass hi
      obtain ⟨c,hc,_,hshows⟩ := ht _ u p hpass
      exact ⟨c,hc,hshows⟩
    have htells : ∀ p ∈ ps, ∃ c, p.events.filterMap Event.progress? = [c] := by
      intro p hp
      obtain ⟨c,hc,_⟩ := hpass p hp
      exact ⟨c,hc⟩
    intro c hc
    rw [calls,hsums.log,List.getLast?_eq_getElem?,length_told htells,getElem?_told htells] at hc
    obtain ⟨p,hp,hc⟩ := Option.bind_eq_some_iff.mp hc
    obtain ⟨d,hd,hshows⟩ := hpass p (List.mem_of_getElem? hp)
    rw [hd] at hc
    obtain rfl : d = c := Option.some.inj hc
    have hlen : ps.length - 1 + 1 = ps.length := by
      have := (List.getElem?_eq_some_iff.mp hp).1
      omega
    refine ⟨p,hshows,?_,?_⟩
    · have hstate := hsums.state
      rw [← hlen,getElem?_states_succ,hp] at hstate
      exact (Option.some.inj hstate).symm
    · have hlast : ps.getLast? = some p := by rw [List.getLast?_eq_getElem?,hp]
      rw [Bool.eq_iff_iff,hsums.stopped,hlast]
      simp

/-- A run of passes that make one report each has none to make if it has no pass to do. -/
theorem calls_ne_nil_iff (ht : Tells pass Shows) (h : iterate pass fuel 0 s = .ok r) :
    0 < fuel ↔ calls r.log ≠ [] := by
  have hlen := congrArg List.length (calls_of_iterate ht h).1
  rw [List.length_map,List.length_range] at hlen
  rw [← List.length_pos_iff,hlen]
  obtain ⟨hfull,hstopped⟩ := iterations_of_iterate h
  cases hs : r.stopped with
  | false => rw [hfull hs]
  | true =>
    have := hstopped hs
    omega

end LinearInverse
