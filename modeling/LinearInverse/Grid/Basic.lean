import LinearInverse.Grid.Index

namespace LinearInverse

/-- The stride is the distance in memory between neighbours along the axis. -/
structure Axis where
  size : Nat
  stride : Nat
  deriving DecidableEq

namespace Axis

def offset : List Axis → List Nat → Nat
  | a::as, i::is => i * a.stride + offset as is
  | _, _ => 0

/-- The offset of the last entry, if no axis is empty. -/
def reach : List Axis → Nat
  | [] => 0
  | a::as => (a.size - 1) * a.stride + reach as

def sizes (axes : List Axis) : List Nat :=
  axes.map Axis.size

/-- The last axis is contiguous. -/
def rowMajor : List Nat → List Axis
  | [] => []
  | d::ds => ⟨d,Grid.volume ds⟩ :: rowMajor ds

/-- The first axis has stride `k`. -/
def columnMajor (k : Nat) : List Nat → List Axis
  | [] => []
  | d::ds => ⟨d,k⟩ :: columnMajor (k * d) ds

theorem sizes_rowMajor (shape : List Nat) : sizes (rowMajor shape) = shape := by
  induction shape with
  | nil => rfl
  | cons d ds ih => simpa [rowMajor,sizes] using ih

theorem sizes_columnMajor (k : Nat) (shape : List Nat) : sizes (columnMajor k shape) = shape := by
  induction shape generalizing k with
  | nil => rfl
  | cons d ds ih => simpa [columnMajor,sizes] using ih (k * d)

theorem offset_le_reach (h : Grid.Inside (sizes axes) idx) : offset axes idx ≤ reach axes := by
  induction axes generalizing idx with
  | nil => simp [offset]
  | cons a as ih =>
    cases idx with
    | nil => exact h.elim
    | cons i is =>
      have h1 : i * a.stride ≤ (a.size - 1) * a.stride :=
        Nat.mul_le_mul_right _ (Nat.le_sub_one_of_lt h.1)
      have h2 := ih h.2
      simp only [offset,reach] at h2 ⊢
      omega

theorem reach_rowMajor (h : 0 ∉ shape) : reach (rowMajor shape) + 1 = Grid.volume shape := by
  induction shape with
  | nil => rfl
  | cons d ds ih =>
    have hd : d ≠ 0 := fun he => h (by simp [he])
    have hs := ih (fun hm => h (List.mem_cons_of_mem _ hm))
    obtain ⟨n,rfl⟩ := Nat.exists_eq_succ_of_ne_zero hd
    simp only [reach,rowMajor,Grid.volume,Nat.succ_eq_add_one,
      Nat.add_sub_cancel,Nat.add_mul,Nat.one_mul] at hs ⊢
    omega

theorem reach_columnMajor (h : 0 ∉ shape) :
    reach (columnMajor k shape) + k = k * Grid.volume shape := by
  induction shape generalizing k with
  | nil => simp [reach,columnMajor,Grid.volume]
  | cons d ds ih =>
    have hd : d ≠ 0 := fun he => h (by simp [he])
    have hs := ih (k := k * d) (fun hm => h (List.mem_cons_of_mem _ hm))
    obtain ⟨n,rfl⟩ := Nat.exists_eq_succ_of_ne_zero hd
    simp only [reach,columnMajor,Grid.volume,Nat.succ_eq_add_one,
      Nat.add_sub_cancel] at hs ⊢
    rw [← Nat.mul_assoc,← hs,Nat.mul_add,Nat.mul_one,Nat.mul_comm n k]
    omega

theorem reach_of_perm (h : List.Perm as bs) : reach as = reach bs := by
  induction h with
  | nil => rfl
  | cons a _ ih => simp only [reach,ih]
  | swap a b cs => exact Nat.add_left_comm _ _ _
  | trans _ _ ih ih' => exact ih.trans ih'

end Axis

/-- Every entry that the axes address is stored. -/
structure Grid (β : Type) where
  axes : List Axis
  data : Array β
  stored : 0 ∉ Axis.sizes axes → Axis.reach axes < data.size

namespace Grid
variable {β γ : Type}

def shape (g : Grid β) : List Nat := Axis.sizes g.axes

theorem offset_lt (g : Grid β) (h : Inside g.shape idx) :
    Axis.offset g.axes idx < g.data.size :=
  Nat.lt_of_le_of_lt (Axis.offset_le_reach h) (g.stored h.pos)

def entry (g : Grid β) (idx : List Nat) (h : Inside g.shape idx) : β :=
  have := g.offset_lt h
  g.data[Axis.offset g.axes idx]

/-- All entries in row-major order, whatever the layout. -/
def entries (g : Grid β) : List β :=
  (indices g.shape).pmap g.entry fun _ h => mem_indices.mp h

theorem length_entries (g : Grid β) : g.entries.length = volume g.shape := by
  simp [entries,length_indices]

/-- Accepted when there is one element for each multi-index and the shape is addressable. -/
def ofRowMajor? (shape : List Nat) (data : List β) : Option (Grid β) :=
  if h : data.length = volume shape ∧ addressable shape then
    some {
      axes := Axis.rowMajor shape
      data := data.toArray
      stored := by
        intro h0
        rw [Axis.sizes_rowMajor] at h0
        have := Axis.reach_rowMajor h0
        simp only [List.size_toArray]
        omega }
  else none

def ofColumnMajor? (shape : List Nat) (data : List β) : Option (Grid β) :=
  if h : data.length = volume shape ∧ addressable shape then
    some {
      axes := Axis.columnMajor 1 shape
      data := data.toArray
      stored := by
        intro h0
        rw [Axis.sizes_columnMajor] at h0
        have := Axis.reach_columnMajor (k := 1) h0
        simp only [List.size_toArray]
        omega }
  else none

/-- The grid whose entries are given by a function of the multi-index. -/
def generate (shape : List Nat) (f : (idx : List Nat) → Inside shape idx → β) : Grid β where
  axes := Axis.rowMajor shape
  data := ((indices shape).pmap f fun _ h => mem_indices.mp h).toArray
  stored := by
    intro h0
    rw [Axis.sizes_rowMajor] at h0
    have := Axis.reach_rowMajor h0
    simp only [List.size_toArray,List.length_pmap,length_indices]
    omega

@[simp] theorem shape_generate (shape : List Nat) (f : (idx : List Nat) → Inside shape idx → β) :
    (generate shape f).shape = shape := Axis.sizes_rowMajor shape

theorem filterMap_getElem?_range (as : List γ) :
    (List.range as.length).filterMap (as[·]?) = as := by
  induction as with
  | nil => rfl
  | cons a as ih =>
    rw [List.length_cons,List.range_succ_eq_map,List.filterMap_cons]
    simpa [List.filterMap_map,Function.comp_def] using ih

theorem perm_filterMap_getElem? {order : List Nat} {as : List γ}
    (h : order.isPerm (List.range as.length) = true) : (order.filterMap (as[·]?)).Perm as := by
  have hp := (List.isPerm_iff.mp h).filterMap (as[·]?)
  rwa [filterMap_getElem?_range] at hp

/-- The axes in another order. Nothing is moved in memory. -/
def withAxes (g : Grid β) (axes : List Axis) (h : axes.Perm g.axes) : Grid β where
  axes := axes
  data := g.data
  stored h0 := by
    rw [Axis.reach_of_perm h]
    exact g.stored fun hz => h0 ((h.map Axis.size).mem_iff.mpr hz)

/-- Axis `k` of the result is axis `order[k]`. -/
def permute? (g : Grid β) (order : List Nat) : Option (Grid β) :=
  if h : order.isPerm (List.range g.axes.length) then
    some (g.withAxes (order.filterMap (g.axes[·]?)) (perm_filterMap_getElem? h))
  else none

/-- The axes in reverse order. -/
def transpose (g : Grid β) : Grid β :=
  g.withAxes g.axes.reverse (List.reverse_perm g.axes)

/-- Entries with the first axis varying fastest. -/
def columnEntries (g : Grid β) : List β := g.transpose.entries

/-- Repeats entries of a smaller grid along missing axes and axes of size one. -/
def broadcast? (g : Grid β) (shape : List Nat) : Option (Grid β) :=
  if h : Broadcasts g.shape shape then
    some (generate shape fun idx hi => g.entry (source g.shape idx) (Inside.source h hi))
  else none

end Grid

end LinearInverse
