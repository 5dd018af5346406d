import LinearInverse.Proofs.Grid.Layout
import Mathlib.Algebra.GroupWithZero.Nat

namespace LinearInverse.Grid
variable {β γ δ : Type} {g h : Grid β} {shape idx order : List Nat} {data : List β}

/-- Item `k` of the result is item `order[k]`. -/
def reorder (order : List Nat) (xs : List γ) : List γ :=
  order.filterMap (xs[·]?)

theorem reorder_map (f : γ → δ) (xs : List γ) :
    reorder order (xs.map f) = (reorder order xs).map f := by
  simp [reorder,List.map_filterMap,List.getElem?_map]

theorem reorder_perm {xs : List γ} (h : order.isPerm (List.range xs.length) = true) :
    (reorder order xs).Perm xs :=
  perm_filterMap_getElem? h

theorem reorder_zip {as : List γ} {bs : List δ} (h : as.length = bs.length) :
    reorder order (as.zip bs) = (reorder order as).zip (reorder order bs) := by
  induction order with
  | nil => rfl
  | cons k ks ih =>
    simp only [reorder] at ih ⊢
    by_cases hk : k < as.length
    · have hk' : k < bs.length := h ▸ hk
      have hzip : k < (as.zip bs).length := by
        rw [List.length_zip]
        omega
      simp only [List.filterMap_cons,List.getElem?_eq_getElem hk,List.getElem?_eq_getElem hk',
        List.getElem?_eq_getElem hzip,List.getElem_zip,List.zip_cons_cons,ih]
    · have hk' : bs.length ≤ k := h ▸ Nat.le_of_not_lt hk
      have hzip : (as.zip bs).length ≤ k := by
        rw [List.length_zip]
        omega
      simp only [List.filterMap_cons,List.getElem?_eq_none (Nat.le_of_not_lt hk),
        List.getElem?_eq_none hk',List.getElem?_eq_none hzip,ih]

/-- The offset is a sum over the axes, in whatever order. -/
theorem offset_eq_sum (axes : List Axis) (idx : List Nat) :
    Axis.offset axes idx = ((axes.zip idx).map fun p => p.2 * p.1.stride).sum := by
  induction axes generalizing idx with
  | nil => rfl
  | cons a as ih =>
    cases idx with
    | nil => rfl
    | cons i is => simp [Axis.offset,ih]

theorem inside_iff : Inside shape idx ↔
    shape.length = idx.length ∧ ∀ p ∈ shape.zip idx, p.2 < p.1 := by
  induction shape generalizing idx with
  | nil => cases idx <;> simp [Inside]
  | cons d ds ih =>
    cases idx with
    | nil => simp [Inside]
    | cons i is =>
      simp only [Inside,ih,List.length_cons,Nat.add_right_cancel_iff,List.zip_cons_cons,
        List.forall_mem_cons]
      exact and_left_comm

theorem inside_reorder (h : Inside shape idx)
    (ho : order.isPerm (List.range shape.length) = true) :
    Inside (reorder order shape) (reorder order idx) := by
  obtain ⟨hlen,hlt⟩ := inside_iff.mp h
  have hidx : order.isPerm (List.range idx.length) = true := hlen ▸ ho
  refine inside_iff.mpr ⟨?_,fun p hp => hlt p ?_⟩
  · rw [(reorder_perm ho).length_eq,(reorder_perm hidx).length_eq,hlen]
  · rw [← reorder_zip hlen] at hp
    have hzip : order.isPerm (List.range (shape.zip idx).length) = true := by simpa [hlen] using ho
    exact (reorder_perm hzip).mem_iff.mp hp

theorem offset_reorder {axes : List Axis} (hlen : axes.length = idx.length)
    (ho : order.isPerm (List.range axes.length) = true) :
    Axis.offset (reorder order axes) (reorder order idx) = Axis.offset axes idx := by
  have hzip : order.isPerm (List.range (axes.zip idx).length) = true := by simpa [hlen] using ho
  rw [offset_eq_sum,offset_eq_sum,← reorder_zip hlen]
  exact ((reorder_perm hzip).map _).sum_nat

theorem permute?_eq_some (h' : g.permute? order = some h) :
    order.isPerm (List.range g.axes.length) = true ∧ h.axes = reorder order g.axes ∧
      h.data = g.data := by
  unfold permute? at h'
  split at h'
  next ho =>
    cases h'
    exact ⟨ho,rfl,rfl⟩
  next => cases h'

theorem shape_permute? (h' : g.permute? order = some h) : h.shape = reorder order g.shape := by
  rw [shape,(permute?_eq_some h').2.1]
  exact (reorder_map _ _).symm

/-- Axes in another order take their indices with them. -/
theorem entry_permute? (h' : g.permute? order = some h) (hi : Inside g.shape idx) :
    ∃ hi' : Inside h.shape (reorder order idx),
      h.entry (reorder order idx) hi' = g.entry idx hi := by
  obtain ⟨ho,haxes,hdata⟩ := permute?_eq_some h'
  have hlen : g.shape.length = g.axes.length := List.length_map ..
  have hinside : Inside h.shape (reorder order idx) := by
    rw [shape_permute? h']
    exact inside_reorder hi (hlen ▸ ho)
  have hoffset : Axis.offset h.axes (reorder order idx) = Axis.offset g.axes idx := by
    rw [haxes]
    exact offset_reorder (hlen.symm.trans hi.length_eq.symm) ho
  refine ⟨hinside,?_⟩
  simp only [entry,hoffset,hdata]

theorem volume_perm {ds es : List Nat} (h : ds.Perm es) : volume ds = volume es := by
  induction h with
  | nil => rfl
  | cons d _ ih => rw [volume,volume,ih]
  | swap d e es => simp only [volume,Nat.mul_left_comm]
  | trans _ _ ih ih' => exact ih.trans ih'

theorem addressable_perm {ds es : List Nat} (h : ds.Perm es) : addressable ds = addressable es := by
  rw [addressable,addressable,volume_perm (h.filter _)]

/-- An array as it is made: from elements in row-major or in column-major order, and with its axes
put into any other order. -/
inductive Made : Grid β → Prop where
  | rowMajor {shape : List Nat} {data : List β} {g : Grid β} :
      ofRowMajor? shape data = some g → Made g
  | columnMajor {shape : List Nat} {data : List β} {g : Grid β} :
      ofColumnMajor? shape data = some g → Made g
  | permuted {g h : Grid β} {order : List Nat} : Made g → g.permute? order = some h → Made h

theorem ofRowMajor?_eq_some (h : ofRowMajor? shape data = some g) :
    data.length = volume shape ∧ addressable shape = true ∧ g.shape = shape ∧ g.entries = data := by
  have hok : data.length = volume shape ∧ addressable shape = true := by
    unfold ofRowMajor? at h
    split at h
    next hok => exact hok
    next => cases h
  obtain ⟨g',hg',hshape,hentries⟩ := exists_ofRowMajor_entries hok.1 hok.2
  obtain rfl : g = g' := Option.some.inj (h.symm.trans hg')
  exact ⟨hok.1,hok.2,hshape,hentries⟩

theorem exists_ofRowMajor?_iff : (∃ g, ofRowMajor? shape data = some g) ↔
    data.length = volume shape ∧ addressable shape = true := by
  constructor
  · rintro ⟨g,h⟩
    obtain ⟨hl,ha,_⟩ := ofRowMajor?_eq_some h
    exact ⟨hl,ha⟩
  · rintro ⟨hl,ha⟩
    obtain ⟨g,hg,_⟩ := exists_ofRowMajor hl ha
    exact ⟨g,hg⟩

theorem Made.addressable (h : Made g) : addressable g.shape = true := by
  induction h with
  | rowMajor h =>
    obtain ⟨_,ha,hshape,_⟩ := ofRowMajor?_eq_some h
    rwa [hshape]
  | columnMajor h =>
    rw [(entry_of_ofColumnMajor h).1]
    exact addressable_of_ofColumnMajor h
  | @permuted g h order _ hp ih =>
    have hlen : g.shape.length = g.axes.length := List.length_map ..
    rw [shape_permute? hp,addressable_perm (reorder_perm (hlen ▸ (permute?_eq_some hp).1))]
    exact ih

/-- An array whose shape can be addressed is rebuilt from its entries. -/
theorem exists_rebuilt (ha : addressable g.shape = true) :
    ∃ g', ofRowMajor? g.shape g.entries = some g' ∧ g'.shape = g.shape ∧
      ∀ idx (hi : Inside g.shape idx) (hi' : Inside g'.shape idx),
        g'.entry idx hi' = g.entry idx hi := by
  obtain ⟨g',hg',hshape,hentry⟩ := exists_ofRowMajor g.length_entries ha
  refine ⟨g',hg',hshape,fun idx hi hi' => ?_⟩
  have hsame := (hentry idx hi').symm.trans (getElem?_entries g hi)
  exact Option.some.inj hsame

/-- Shape and row-major entries are all of an array: they make one exactly if they fit, are got back
from it, and rebuild every array, however its axes lie in memory. -/
theorem parts_lossless :
    (∀ (shape : List Nat) (data : List β),
      ((∃ g, ofRowMajor? shape data = some g) ↔
        data.length = volume shape ∧ volume (shape.filter (· != 0)) ≤ 2 ^ 63 - 1) ∧
      ∀ g, ofRowMajor? shape data = some g → g.shape = shape ∧ g.entries = data) ∧
    (∀ g : Grid β, Made g → ∃ g', ofRowMajor? g.shape g.entries = some g' ∧ g'.shape = g.shape ∧
      ∀ idx (hi : Inside g.shape idx) (hi' : Inside g'.shape idx),
        g'.entry idx hi' = g.entry idx hi) ∧
    (∀ (shape : List Nat) (data : List β) g, ofColumnMajor? shape data = some g →
      g.shape = shape ∧ ∀ idx, Inside shape idx →
        g.entries[Axis.offset (Axis.rowMajor shape) idx]? =
          data[Axis.offset (Axis.columnMajor 1 shape) idx]?) ∧
    ∀ (g h : Grid β) order, g.permute? order = some h → h.shape = reorder order g.shape ∧
      ∀ idx, Inside g.shape idx →
        h.entries[Axis.offset (Axis.rowMajor h.shape) (reorder order idx)]? =
          g.entries[Axis.offset (Axis.rowMajor g.shape) idx]? := by
  refine ⟨fun shape data => ⟨?_,fun g hg => ?_⟩,fun g hg => exists_rebuilt hg.addressable,
    fun shape data g hg => ?_,fun g h order hp => ⟨shape_permute? hp,fun idx hi => ?_⟩⟩
  · rw [exists_ofRowMajor?_iff,addressable,decide_eq_true_iff]
    exact and_congr_right fun _ => Nat.lt_iff_le_pred (by decide)
  · obtain ⟨_,_,hshape,hentries⟩ := ofRowMajor?_eq_some hg
    exact ⟨hshape,hentries⟩
  · obtain ⟨rfl,hdata⟩ := entry_of_ofColumnMajor hg
    refine ⟨rfl,fun idx hi => ?_⟩
    rw [getElem?_entries g hi,hdata idx hi]
  · obtain ⟨hi',hentry⟩ := entry_permute? hp hi
    rw [getElem?_entries h hi',hentry,getElem?_entries g hi]

/-- Two rows of three in column-major order, with the axes exchanged. -/
theorem parts_lossless_exchanged : ∃ g h : Grid Nat,
    ofColumnMajor? [2,3] [0,3,1,4,2,5] = some g ∧ g.permute? [1,0] = some h ∧
      h.shape = [3,2] ∧ h.entries = [0,3,1,4,2,5] ∧
      ∃ h', ofRowMajor? [3,2] [0,3,1,4,2,5] = some h' ∧ h'.shape = [3,2] := by
  obtain ⟨_,hrebuilt,_,_⟩ := @parts_lossless Nat
  cases hg : ofColumnMajor? [2,3] [0,3,1,4,2,5] with
  | none => exact absurd hg (by decide)
  | some g =>
    cases hh : g.permute? [1,0] with
    | none => cases hg; exact absurd hh (by decide)
    | some h =>
      have hmade : Made h := .permuted (.columnMajor hg) hh
      have hparts : h.shape = [3,2] ∧ h.entries = [0,3,1,4,2,5] := by
        cases hg
        cases hh
        decide
      obtain ⟨h',hh',hshape,_⟩ := hrebuilt h hmade
      rw [hparts.1] at hshape
      rw [hparts.1,hparts.2] at hh'
      exact ⟨g,h,rfl,hh,hparts.1,hparts.2,h',hh',hshape⟩

end LinearInverse.Grid
