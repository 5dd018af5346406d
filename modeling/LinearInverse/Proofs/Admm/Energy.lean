import LinearInverse.Proofs.Admm.WellPosed
import LinearInverse.Proofs.ConjugateGradient.Energy

namespace LinearInverse

section
variable {E F : Type*} [NormedAddCommGroup E] [InnerProductSpace ℝ E] [FiniteDimensional ℝ E]
  [NormedAddCommGroup F] [InnerProductSpace ℝ F] [FiniteDimensional ℝ F]
  {A : E →ₗ[ℝ] E} {G : E →ₗ[ℝ] F} {rho : ℝ} {c : E}

/-- The energy of the data, with a penalty on the distance between `G x` and `v`. -/
noncomputable def augmentedEnergy (A : E →ₗ[ℝ] E) (G : E →ₗ[ℝ] F) (rho : ℝ) (c : E) (v : F)
    (x : E) : ℝ :=
  ConjugateGradient.energy A c x + rho / (2 : ℕ) * ‖G x - v‖ ^ 2

/-- Up to a constant it is the energy of the system of the image. -/
theorem energy_add_normal (v : F) (x : E) :
    ConjugateGradient.energy (A + rho • (G.adjoint ∘ₗ G)) (c + rho • G.adjoint v) x =
      augmentedEnergy A G rho c v x - rho / 2 * ‖v‖ ^ 2 := by
  have hnormal : inner ℝ x (G.adjoint (G x)) = ‖G x‖ ^ 2 := by
    rw [LinearMap.adjoint_inner_right,real_inner_self_eq_norm_sq]
  have hdata : inner ℝ (G.adjoint v) x = inner ℝ (G x) v := by
    rw [LinearMap.adjoint_inner_left,real_inner_comm]
  simp only [augmentedEnergy,ConjugateGradient.energy_eq,Nat.cast_ofNat,LinearMap.add_apply,
    LinearMap.smul_apply,LinearMap.comp_apply,inner_add_left,inner_add_right,
    real_inner_smul_left,real_inner_smul_right,hnormal,hdata,norm_sub_sq_real]
  ring

/-- Data may also come in through the transforms. -/
theorem mem_range_add_normal_of_sup (hA : A.IsPositive) (hrho : 0 < rho)
    (hc : c ∈ LinearMap.range A ⊔ LinearMap.range G.adjoint) (v : F) :
    c + rho • G.adjoint v ∈ LinearMap.range (A + rho • (G.adjoint ∘ₗ G)) := by
  obtain ⟨a,ha,_,⟨w,rfl⟩,rfl⟩ := Submodule.mem_sup.mp hc
  have hsplit : a + G.adjoint w + rho • G.adjoint v =
      a + rho • G.adjoint (rho⁻¹ • w + v) := by
    rw [map_add,map_smul,smul_add,smul_inv_smul₀ hrho.ne',add_assoc]
  rw [hsplit]
  exact mem_range_add_normal hA hrho ha _

end

namespace Admm
variable {n D : Nat} {T : Fin D → LinearTerm n} {A : Space n →ₗ[ℝ] Space n} {c : Space n}
  {p : Plan ℝ} {op : Option (Operator ℝ)} {b : Option (List ℝ)} {monitor : Monitor ℝ}
  {s : State ℝ} {q : Pass ℝ (State ℝ)} {rho : ℝ}

/-- An iteration from state `s` takes the image from `x` to `y` before anything else can fail, and
`y` has no more augmented energy than `x`, for the points that its terms start from. -/
structure Lowers (T : Fin D → LinearTerm n) (A : Space n →ₗ[ℝ] Space n) (c : Space n)
    (p : Plan ℝ) (op : Option (Operator ℝ)) (b : Option (List ℝ)) (s : State ℝ)
    (zFrom uFrom : Stack T) (x y : Space n) : Prop where
  image_eq : s.image = coords x
  begin_eq : (List.zipWith (begin p.settings.fast) p.terms s.splits).map
    (fun m => (m.zFrom,m.uFrom)) = List.ofFn fun i => (coords (zFrom i),coords (uFrom i))
  updateImage_eq : ∃ v,
    sumAdjoint s.image.length ((List.zipWith (begin p.settings.fast) p.terms s.splits).map
      fun m => (m.term.transform,Vec.sub m.zFrom m.uFrom)) = .ok v ∧
    updateImage p op b s.rho s.image v = .ok (coords y)
  energy_le : augmentedEnergy A (forwards T) s.rho c (zFrom - uFrom) y ≤
    augmentedEnergy A (forwards T) s.rho c (zFrom - uFrom) x

/-- The image stays as it is where nothing makes up a system. -/
theorem Linear.exists_updateImage_le (h : Linear T A c p op b)
    (hadjoint : ∀ i, (T i).adjoint = (T i).forward.adjoint) (hA : A.IsPositive)
    (hc : c ∈ LinearMap.range A ⊔ LinearMap.range (adjoints T)) (hrho : 0 < rho) (x : Space n)
    (v : Stack T) :
    ∃ y, updateImage p op b rho (coords x) (coords (adjoints T v)) = .ok (coords y) ∧
      augmentedEnergy A (forwards T) rho c v y ≤ augmentedEnergy A (forwards T) rho c v x := by
  cases hsystem : op.isSome || !p.terms.isEmpty with
  | false =>
    refine ⟨x,?_,le_rfl⟩
    rw [updateImage,h.xUpdate]
    simp [hsystem]
  | true =>
    rw [adjoints_eq hadjoint] at hc
    have hB : (normalMap T A rho).IsPositive := by
      rw [normalMap_eq hadjoint]
      exact isPositive_add_normal hA hrho.le _
    have hr : c + rho • adjoints T v ∈ LinearMap.range (normalMap T A rho) := by
      rw [normalMap_eq hadjoint,adjoints_eq hadjoint]
      exact mem_range_add_normal_of_sup hA hrho hc v
    obtain ⟨report,y,hy⟩ := ConjugateGradient.exists_descends
      (h.actsAs rho).shifted_zero hB hr le_rfl x
    refine ⟨y p.settings.maxIterInner,?_,?_⟩
    · rw [h.updateImage_eq hsystem,hy.solve_eq]
      rfl
    · have hle := hy.energy_le p.settings.maxIterInner
      rw [normalMap_eq hadjoint,adjoints_eq hadjoint,energy_add_normal,energy_add_normal] at hle
      linarith

theorem Linear.exists_lowers (h : Linear T A c p op b)
    (hadjoint : ∀ i, (T i).adjoint = (T i).forward.adjoint) (hA : A.IsPositive)
    (hc : c ∈ LinearMap.range A ⊔ LinearMap.range (adjoints T)) (hs : Fits T s)
    (hrho : 0 < s.rho) : ∃ zFrom uFrom x y, Lowers T A c p op b s zFrom uFrom x y := by
  obtain ⟨split,zFrom,uFrom,_,_,_,_,hbegin⟩ := h.exists_begin hs
  obtain ⟨x,hx⟩ := exists_coords hs.image
  obtain ⟨y,hy,hle⟩ := h.exists_updateImage_le hadjoint hA hc hrho x (zFrom - uFrom)
  refine ⟨zFrom,uFrom,x,y,hx.symm,?_,⟨_,?_,hx ▸ hy⟩,hle⟩
  · rw [hbegin,List.map_ofFn]
    rfl
  · rw [hbegin,List.map_ofFn,hs.image]
    exact sumAdjoint_sub zFrom uFrom

/-- The image that an iteration leaves is that of its image update. -/
theorem Lowers.image_pass {zFrom uFrom : Stack T} {x y : Space n} {k : Nat}
    (h : Lowers T A c p op b s zFrom uFrom x y) (hq : pass p op b monitor k s = .ok q) :
    q.state.image = coords y := by
  obtain ⟨image,ms,bal,hi⟩ := pass_eq_ok hq
  obtain ⟨v,hv,himage,_⟩ := update_eq_ok.mp hi.update_eq
  obtain ⟨w,hw,hy⟩ := h.updateImage_eq
  obtain rfl : v = w := Except.ok.inj (hv.symm.trans hw)
  rw [hi.image_eq]
  exact Except.ok.inj (himage.symm.trans hy)

/-- A truncated solve of a positive semi-definite system that has a solution never ends with more
energy than it started from, nor with more than at a smaller cap. So no image update of a run of
alternating directions raises its quadratic, whatever the cap on the inner solve, the changes of
the penalty and the proximal maps. -/
theorem updates_lower_energy :
    (∀ {n : Nat} {A : Operator ℝ} {L : Space n →ₗ[ℝ] Space n} {w ε : ℝ} {b : Space n},
      A.ActsAs L → (L + w • LinearMap.id).IsPositive →
      b ∈ LinearMap.range (L + w • LinearMap.id) → 0 ≤ ε → ∀ x, ∃ report y,
        ConjugateGradient.Descends A (L + w • LinearMap.id) w ε b x report y) ∧
    ∀ {n D : Nat} {T : Fin D → LinearTerm n} {A : Space n →ₗ[ℝ] Space n} {c : Space n}
      {p : Plan ℝ} {op : Option (Operator ℝ)} {b : Option (List ℝ)} {monitor : Monitor ℝ}
      {s : State ℝ} {image : List ℝ} {ps : List (Pass ℝ (State ℝ))},
      Linear T A c p op b → (∀ i, (T i).adjoint = (T i).forward.adjoint) → A.IsPositive →
      c ∈ LinearMap.range A ⊔ LinearMap.range (adjoints T) →
      0 < p.settings.rho → 0 < p.settings.tau → image.length = n → start p image = .ok s →
      Trace (pass p op b monitor) 0 s ps →
      ∀ t ∈ states s ps, ∃ zFrom uFrom x y, Lowers T A c p op b t zFrom uFrom x y ∧
        ∀ k q, pass p op b monitor k t = .ok q → q.state.image = coords y := by
  constructor
  · intro n A L w ε b hA hB hb hε x
    exact ConjugateGradient.exists_descends (hA.shifted w) hB hb hε x
  · intro n D T A c p op b monitor s image ps h hadjoint hA hc hrho htau hx hs ht t hmem
    have hstates : ∀ t ∈ states s ps, Fits T t ∧ 0 < t.rho := by
      refine ht.forall_states ⟨h.fits_start hx hs,(start_eq_ok hs).2 ▸ hrho⟩ ?_
      intro k t q ht hq
      exact ⟨ht.1.next h.terms hq,rho_pos_of_pass htau ht.2 hq⟩
    obtain ⟨hfits,hpos⟩ := hstates t hmem
    obtain ⟨zFrom,uFrom,x,y,hlowers⟩ := h.exists_lowers hadjoint hA hc hfits hpos
    exact ⟨zFrom,uFrom,x,y,hlowers,fun k q hq => hlowers.image_pass hq⟩

/-- The second entry is not measured. -/
theorem updates_lower_energy_firstEntry :
    (∃ report y, ConjugateGradient.Descends (.diagonal [1,0])
      (ConjugateGradient.firstEntry + (0 : ℝ) • LinearMap.id) 0 0 !₂[3,0] !₂[0,5] report y) ∧
    ∃ (o : Outcome ℝ) (s : State ℝ) (ps : List (Pass ℝ (State ℝ))),
      Traced identityPlan (some (.diagonal [1,0])) (some [3,0]) (.silent "admm") [0,0] o s ps ∧
      ∀ t ∈ states s ps, ∃ zFrom uFrom x y,
        Lowers (fun _ : Fin 1 => identityTerm (.ridge 1)) ConjugateGradient.firstEntry !₂[3,0]
          identityPlan (some (.diagonal [1,0])) (some [3,0]) t zFrom uFrom x y ∧
        ∀ k q, pass identityPlan (some (.diagonal [1,0])) (some [3,0]) (.silent "admm") k t =
          .ok q → q.state.image = coords y := by
  have hpositive := ConjugateGradient.isPositive_firstEntry
  have hrange := ConjugateGradient.mem_range_firstEntry 3
  constructor
  · refine updates_lower_energy.1 ConjugateGradient.actsAs_firstEntry
      (isPositive_shifted hpositive le_rfl) ?_ le_rfl _
    simpa using hrange
  · have h : Linear (fun _ : Fin 1 => identityTerm (.ridge 1)) ConjugateGradient.firstEntry
        !₂[3,0] identityPlan (some (.diagonal [1,0])) (some [3,0]) :=
      ⟨rfl,rfl,ConjugateGradient.actsAs_firstEntry,rfl⟩
    obtain ⟨o,ho⟩ : ∃ o, run identityPlan (some (.diagonal [1,0])) [0,0] (some [3,0])
        (.silent "admm") = .ok o :=
      h.exists_run (fun _ _ _ _ _ _ => ⟨_,rfl⟩) Nat.one_pos rfl rfl nofun
    obtain ⟨s,ps,ht⟩ := exists_traced ho
    have htau : 0 < identityPlan.settings.tau := by norm_num [identityPlan,AdmmSettings.default]
    exact ⟨o,s,ps,ht,updates_lower_energy.2 h (fun _ => LinearMap.adjoint_id.symm) hpositive
      (Submodule.mem_sup_left hrange) one_pos htau rfl ht.start_eq ht.trace⟩

end Admm

end LinearInverse
