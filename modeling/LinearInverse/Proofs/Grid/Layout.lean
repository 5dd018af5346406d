import LinearInverse.Grid.Basic

namespace LinearInverse.Grid
variable {β : Type} {shape ds idx is : List Nat} {d i : Nat}

theorem volume_append (ds es : List Nat) : volume (ds ++ es) = volume ds * volume es := by
  induction ds with
  | nil => rw [List.nil_append,volume,Nat.one_mul]
  | cons d ds ih => rw [List.cons_append,volume,volume,ih,Nat.mul_assoc]

theorem volume_reverse (shape : List Nat) : volume shape.reverse = volume shape := by
  induction shape with
  | nil => rfl
  | cons d ds ih =>
    have hv : volume [d] = d := Nat.mul_one d
    rw [List.reverse_cons,volume_append,ih,hv,volume,Nat.mul_comm]

theorem volume_ones (n : Nat) : volume (List.replicate n 1) = 1 := by
  induction n with
  | zero => rfl
  | succ n ih => rw [List.replicate_succ,volume,ih]

theorem volume_filter_pos (ds : List Nat) : 0 < volume (ds.filter (· != 0)) := by
  induction ds with
  | nil => exact Nat.one_pos
  | cons d ds ih =>
    by_cases hd : d = 0
    · rw [List.filter_cons_of_neg (by simpa using hd)]
      exact ih
    · rw [List.filter_cons_of_pos (by simpa using hd),volume]
      exact Nat.mul_pos (Nat.pos_of_ne_zero hd) ih

theorem le_volume_filter (h : d ∈ ds) : d ≤ volume (ds.filter (· != 0)) := by
  induction ds with
  | nil => exact absurd h List.not_mem_nil
  | cons e es ih =>
    have hpos := volume_filter_pos es
    rcases List.mem_cons.mp h with rfl | h
    · by_cases hd : d = 0
      · rw [hd]
        exact Nat.zero_le _
      · rw [List.filter_cons_of_pos (by simpa using hd),volume]
        exact Nat.le_mul_of_pos_right d hpos
    · by_cases he : e = 0
      · rw [List.filter_cons_of_neg (by simpa using he)]
        exact ih h
      · rw [List.filter_cons_of_pos (by simpa using he),volume]
        exact Nat.le_trans (ih h) (Nat.le_mul_of_pos_left _ (Nat.pos_of_ne_zero he))

theorem foldlM_times (k : Nat) (h : k * volume (ds.filter (· != 0)) < wordBound) :
    ds.foldlM times? k = some (k * volume ds) := by
  induction ds generalizing k with
  | nil => rw [volume,Nat.mul_one]; rfl
  | cons d ds ih =>
    have hpos := volume_filter_pos ds
    have hstep : k * d < wordBound ∧ k * d * volume (ds.filter (· != 0)) < wordBound := by
      by_cases hd : d = 0
      · rw [hd,Nat.mul_zero,Nat.zero_mul]
        decide
      · rw [List.filter_cons_of_pos (by simpa using hd),volume,← Nat.mul_assoc] at h
        exact ⟨Nat.lt_of_le_of_lt (Nat.le_mul_of_pos_right _ hpos) h,h⟩
    rw [List.foldlM_cons,times?,if_pos hstep.1,volume,← Nat.mul_assoc]
    exact ih (k * d) hstep.2

/-- The product stops at the first one on the way that is no word. -/
theorem foldlM_times_eq_none_iff {k : Nat} (hk : k < wordBound) :
    ds.foldlM times? k = none ↔ ∃ j, wordBound ≤ k * volume (ds.take j) := by
  induction ds generalizing k with
  | nil =>
    simp only [List.take_nil,volume,Nat.mul_one,exists_const]
    exact iff_of_false (Option.some_ne_none k) (Nat.not_le_of_lt hk)
  | cons d ds ih =>
    rw [List.foldlM_cons,times?]
    by_cases hlt : k * d < wordBound
    · rw [if_pos hlt]
      refine (ih hlt).trans ⟨fun h => ?_,fun h => ?_⟩
      · obtain ⟨j,hj⟩ := h
        exact ⟨j + 1,by rwa [List.take_succ_cons,volume,← Nat.mul_assoc]⟩
      · obtain ⟨j,hj⟩ := h
        cases j with
        | zero => exact absurd hk (Nat.not_lt_of_le (by simpa [volume] using hj))
        | succ j =>
          rw [List.take_succ_cons,volume,← Nat.mul_assoc] at hj
          exact ⟨j,hj⟩
    · rw [if_neg hlt]
      refine iff_of_true rfl ⟨1,?_⟩
      rw [List.take_succ_cons,List.take_zero,volume,volume,Nat.mul_one]
      exact Nat.le_of_not_lt hlt

theorem size?_eq_none_iff : size? ds = none ↔ ∃ j, wordBound ≤ volume (ds.take j) := by
  rw [size?,foldlM_times_eq_none_iff (by decide)]
  simp only [Nat.one_mul]

theorem volume_le_filter (ds : List Nat) : volume ds ≤ volume (ds.filter (· != 0)) := by
  by_cases h : 0 ∈ ds
  · rw [volume_eq_zero h]
    exact Nat.zero_le _
  · have hfilter : ds.filter (· != 0) = ds := List.filter_eq_self.mpr fun d hd => by
      have hne : d ≠ 0 := fun h0 => h (h0 ▸ hd)
      simpa using hne
    exact Nat.le_of_eq (congrArg volume hfilter.symm)

theorem volume_lt_signedBound (h : addressable ds = true) : volume ds < signedBound :=
  Nat.lt_of_le_of_lt (volume_le_filter ds) (of_decide_eq_true h)

theorem signedBound_lt : signedBound < wordBound := by decide

/-- The volume of a shape that can be addressed is a word, and so is all that is multiplied on the
way to it. -/
theorem size?_of_addressable (h : addressable ds = true) : size? ds = some (volume ds) := by
  have hlt : volume (ds.filter (· != 0)) < wordBound :=
    Nat.lt_trans (of_decide_eq_true h) signedBound_lt
  rw [size?,foldlM_times 1 (by rwa [Nat.one_mul]),Nat.one_mul]

theorem lt_wordBound (h : addressable ds = true) (hd : d ∈ ds) : d < wordBound :=
  Nat.lt_of_le_of_lt (le_volume_filter hd) (Nat.lt_trans (of_decide_eq_true h) signedBound_lt)

theorem getElem?_flatMap_range {f : Nat → List β} {n : Nat} (hf : ∀ j, (f j).length = n)
    (m : Nat) (hi : i < m) {k : Nat} (hk : k < n) :
    ((List.range m).flatMap f)[i * n + k]? = (f i)[k]? := by
  induction m with
  | zero => exact absurd hi (Nat.not_lt_zero i)
  | succ m ih =>
    have hlen : ((List.range m).flatMap f).length = m * n := by
      simp [List.length_flatMap,hf,List.map_const']
    rw [List.range_succ,List.flatMap_append,List.flatMap_singleton]
    rcases Nat.eq_or_lt_of_le (Nat.le_of_lt_succ hi) with rfl | hlt
    · rw [List.getElem?_append_right (by omega),hlen,Nat.add_sub_cancel_left]
    · have hbefore : i * n + k < m * n := by
        have := Nat.mul_le_mul_right n (Nat.succ_le_of_lt hlt)
        rw [Nat.succ_mul] at this
        omega
      rw [List.getElem?_append_left (by rw [hlen]; exact hbefore),ih hlt]

theorem offset_rowMajor_lt (h : Inside shape idx) :
    Axis.offset (Axis.rowMajor shape) idx < volume shape := by
  have hle : Axis.offset (Axis.rowMajor shape) idx ≤ Axis.reach (Axis.rowMajor shape) :=
    Axis.offset_le_reach (by rwa [Axis.sizes_rowMajor])
  have hreach := Axis.reach_rowMajor h.pos
  omega

/-- The offset of a multi-index in row-major order is its place among all of them. -/
theorem getElem?_indicesFrom (h : Inside shape idx) :
    (indicesFrom shape)[Axis.offset (Axis.rowMajor shape) idx]? = some idx := by
  induction shape generalizing idx with
  | nil =>
    cases idx with
    | nil => rfl
    | cons i is => exact h.elim
  | cons d ds ih =>
    cases idx with
    | nil => exact h.elim
    | cons i is =>
      have hlen : ∀ j, ((indicesFrom ds).map (j :: ·)).length = volume ds := by
        intro j
        rw [List.length_map,length_indicesFrom]
      rw [indicesFrom,Axis.rowMajor,Axis.offset,
        getElem?_flatMap_range hlen d h.1 (offset_rowMajor_lt h.2),List.getElem?_map,ih h.2]
      rfl

theorem getElem?_indices (h : Inside shape idx) :
    (indices shape)[Axis.offset (Axis.rowMajor shape) idx]? = some idx := by
  rw [indices,if_neg h.pos]
  exact getElem?_indicesFrom h

/-- Every place below the volume is that of a multi-index. -/
theorem exists_inside {k : Nat} (h : k < volume shape) :
    ∃ idx, Inside shape idx ∧ Axis.offset (Axis.rowMajor shape) idx = k := by
  induction shape generalizing k with
  | nil => exact ⟨[],trivial,(Nat.lt_one_iff.mp h).symm⟩
  | cons d ds ih =>
    rw [volume] at h
    have hpos : 0 < volume ds := Nat.pos_of_mul_pos_left (Nat.zero_lt_of_lt h)
    obtain ⟨is,his,hoffset⟩ := ih (Nat.mod_lt k hpos)
    refine ⟨k / volume ds :: is,⟨(Nat.div_lt_iff_lt_mul hpos).mpr h,his⟩,?_⟩
    rw [Axis.rowMajor,Axis.offset,hoffset]
    exact Nat.div_add_mod' k (volume ds)

theorem offset_columnMajor_mul (k : Nat) (shape idx : List Nat) :
    Axis.offset (Axis.columnMajor k shape) idx =
      k * Axis.offset (Axis.columnMajor 1 shape) idx := by
  induction shape generalizing k idx with
  | nil => rfl
  | cons d ds ih =>
    cases idx with
    | nil => rfl
    | cons i is =>
      simp only [Axis.columnMajor,Axis.offset]
      rw [ih (k * d),ih (1 * d),Nat.one_mul,Nat.mul_one,Nat.mul_add,Nat.mul_assoc,Nat.mul_comm i]

theorem offset_rowMajor_concat (h : is.length = ds.length) (d i : Nat) :
    Axis.offset (Axis.rowMajor (ds ++ [d])) (is ++ [i]) =
      Axis.offset (Axis.rowMajor ds) is * d + i := by
  induction ds generalizing is with
  | nil =>
    obtain rfl := List.eq_nil_of_length_eq_zero h
    simp [Axis.rowMajor,Axis.offset,volume]
  | cons e es ih =>
    cases is with
    | nil => cases h
    | cons j js =>
      have hv : volume [d] = d := Nat.mul_one d
      simp only [List.cons_append,Axis.rowMajor,Axis.offset]
      rw [ih (Nat.succ_inj.mp h),volume_append,hv,Nat.add_mul,Nat.mul_assoc,Nat.add_assoc]

/-- Column-major order is row-major order with the axes reversed. -/
theorem offset_columnMajor (h : idx.length = shape.length) :
    Axis.offset (Axis.columnMajor 1 shape) idx =
      Axis.offset (Axis.rowMajor shape.reverse) idx.reverse := by
  induction shape generalizing idx with
  | nil =>
    obtain rfl := List.eq_nil_of_length_eq_zero h
    rfl
  | cons d ds ih =>
    cases idx with
    | nil => cases h
    | cons i is =>
      have hlen : is.length = ds.length := Nat.succ_inj.mp h
      rw [List.reverse_cons,List.reverse_cons,offset_rowMajor_concat (by simpa using hlen),
        ← ih hlen,Axis.columnMajor,Axis.offset,Nat.one_mul,offset_columnMajor_mul]
      simp only
      rw [Nat.mul_one,Nat.mul_comm d,Nat.add_comm]

theorem Inside.append {es js : List Nat} (h : Inside ds is) (h' : Inside es js) :
    Inside (ds ++ es) (is ++ js) := by
  induction ds generalizing is with
  | nil =>
    cases is with
    | nil => exact h'
    | cons i is => exact h.elim
  | cons d ds ih =>
    cases is with
    | nil => exact h.elim
    | cons i is => exact ⟨h.1,ih h.2⟩

theorem Inside.reverse (h : Inside shape idx) : Inside shape.reverse idx.reverse := by
  induction shape generalizing idx with
  | nil =>
    cases idx with
    | nil => exact h
    | cons i is => exact h.elim
  | cons d ds ih =>
    cases idx with
    | nil => exact h.elim
    | cons i is =>
      rw [List.reverse_cons,List.reverse_cons]
      exact (ih h.2).append ⟨h.1,trivial⟩

theorem offset_append {as bs : List Axis} (h : is.length = as.length) (js : List Nat) :
    Axis.offset (as ++ bs) (is ++ js) = Axis.offset as is + Axis.offset bs js := by
  induction as generalizing is with
  | nil =>
    obtain rfl := List.eq_nil_of_length_eq_zero h
    exact (Nat.zero_add _).symm
  | cons a as ih =>
    cases is with
    | nil => cases h
    | cons i is =>
      simp only [List.cons_append,Axis.offset]
      rw [ih (Nat.succ_inj.mp h),Nat.add_assoc]

theorem offset_reverse {axes : List Axis} (h : idx.length = axes.length) :
    Axis.offset axes.reverse idx.reverse = Axis.offset axes idx := by
  induction axes generalizing idx with
  | nil =>
    obtain rfl := List.eq_nil_of_length_eq_zero h
    rfl
  | cons a as ih =>
    cases idx with
    | nil => cases h
    | cons i is =>
      have hlen : is.length = as.length := Nat.succ_inj.mp h
      rw [List.reverse_cons,List.reverse_cons,offset_append (by simpa using hlen),ih hlen]
      simp only [Axis.offset]
      omega

theorem columnMajor_append (k : Nat) (ds es : List Nat) : Axis.columnMajor k (ds ++ es) =
    Axis.columnMajor k ds ++ Axis.columnMajor (k * volume ds) es := by
  induction ds generalizing k with
  | nil => rw [List.nil_append,volume,Nat.mul_one]; rfl
  | cons d ds ih =>
    rw [List.cons_append,Axis.columnMajor,ih,volume,← Nat.mul_assoc]
    rfl

theorem offset_zeros (axes : List Axis) (n : Nat) :
    Axis.offset axes (List.replicate n 0) = 0 := by
  induction axes generalizing n with
  | nil => rfl
  | cons a as ih =>
    cases n with
    | zero => rfl
    | succ n => rw [List.replicate_succ,Axis.offset,ih,Nat.zero_mul]

theorem inside_ones (n : Nat) : Inside (List.replicate n 1) (List.replicate n 0) := by
  induction n with
  | zero => trivial
  | succ n ih => exact ⟨Nat.one_pos,ih⟩

theorem shape_transpose (g : Grid β) : g.transpose.shape = g.shape.reverse :=
  List.map_reverse

theorem entry_transpose (g : Grid β) (h : Inside g.shape idx)
    (h' : Inside g.transpose.shape idx.reverse) :
    g.transpose.entry idx.reverse h' = g.entry idx h := by
  have hlen : idx.length = g.axes.length := by
    rw [h.length_eq]
    exact List.length_map ..
  have hoffset : Axis.offset g.transpose.axes idx.reverse = Axis.offset g.axes idx :=
    offset_reverse hlen
  simp only [entry,hoffset]
  rfl

theorem getElem?_entries (g : Grid β) (h : Inside g.shape idx) :
    g.entries[Axis.offset (Axis.rowMajor g.shape) idx]? = some (g.entry idx h) := by
  obtain ⟨hlt,hget⟩ := List.getElem?_eq_some_iff.mp (getElem?_indices h)
  have hlt' : Axis.offset (Axis.rowMajor g.shape) idx < g.entries.length := by
    rwa [length_entries,← length_indices]
  rw [List.getElem?_eq_getElem hlt',Option.some.injEq]
  simp only [entries,List.getElem_pmap,hget]

/-- Column-major order puts the entry at a multi-index where its column-major offset says. -/
theorem getElem?_columnEntries (g : Grid β) (h : Inside g.shape idx) :
    g.columnEntries[Axis.offset (Axis.columnMajor 1 g.shape) idx]? = some (g.entry idx h) := by
  have h' : Inside g.transpose.shape idx.reverse := by
    rw [shape_transpose]
    exact h.reverse
  rw [columnEntries,offset_columnMajor h.length_eq,← shape_transpose,getElem?_entries _ h',
    entry_transpose g h h']

theorem length_columnEntries (g : Grid β) : g.columnEntries.length = volume g.shape := by
  rw [columnEntries,length_entries,shape_transpose,volume_reverse]

theorem addressable_of_ofColumnMajor {data : List β} {g : Grid β}
    (h : ofColumnMajor? shape data = some g) : addressable shape = true := by
  unfold ofColumnMajor? at h
  split at h
  next hok => exact hok.2
  next => cases h

/-- An array that was made from elements in column-major order has them there. -/
theorem entry_of_ofColumnMajor {data : List β} {g : Grid β}
    (h : ofColumnMajor? shape data = some g) : g.shape = shape ∧ ∀ idx (hi : Inside g.shape idx),
      data[Axis.offset (Axis.columnMajor 1 shape) idx]? = some (g.entry idx hi) := by
  unfold ofColumnMajor? at h
  split at h
  next =>
    cases h
    refine ⟨Axis.sizes_columnMajor 1 shape,fun idx hi => ?_⟩
    have hlt := offset_lt _ hi
    simp only [entry,List.getElem_toArray]
    exact List.getElem?_eq_getElem (by simpa using hlt)
  next => cases h

/-- An array that was made from elements in row-major order has them there. -/
theorem exists_ofRowMajor {data : List β} (hl : data.length = volume shape)
    (ha : addressable shape = true) : ∃ g, ofRowMajor? shape data = some g ∧ g.shape = shape ∧
      ∀ idx (hi : Inside g.shape idx),
        data[Axis.offset (Axis.rowMajor shape) idx]? = some (g.entry idx hi) := by
  refine ⟨_,dif_pos ⟨hl,ha⟩,Axis.sizes_rowMajor shape,fun idx hi => ?_⟩
  have hlt := offset_lt _ hi
  simp only [entry,List.getElem_toArray]
  exact List.getElem?_eq_getElem (by simpa using hlt)

/-- Elements that stand where the row-major order puts the entries are all of them. -/
theorem entries_eq {g : Grid β} {data : List β} (hl : data.length = volume g.shape)
    (h : ∀ idx (hi : Inside g.shape idx),
      data[Axis.offset (Axis.rowMajor g.shape) idx]? = some (g.entry idx hi)) :
    g.entries = data := by
  refine List.ext_getElem (by rw [length_entries,hl]) fun k hk hk' => ?_
  obtain ⟨idx,hi,rfl⟩ := exists_inside (hl ▸ hk')
  have heq := (getElem?_entries g hi).trans (h idx hi).symm
  rwa [List.getElem?_eq_getElem hk,List.getElem?_eq_getElem hk',Option.some.injEq] at heq

/-- They are its entries, also where there are none. -/
theorem exists_ofRowMajor_entries {data : List β} (hl : data.length = volume shape)
    (ha : addressable shape = true) :
    ∃ g, ofRowMajor? shape data = some g ∧ g.shape = shape ∧ g.entries = data := by
  obtain ⟨g,hg,rfl,hentry⟩ := exists_ofRowMajor hl ha
  exact ⟨g,hg,rfl,entries_eq hl hentry⟩

theorem entry_generate {f : (idx : List Nat) → Inside shape idx → β}
    (h : Inside (generate shape f).shape idx) (h' : Inside shape idx) :
    (generate shape f).entry idx h = f idx h' := by
  obtain ⟨hlt,hget⟩ := List.getElem?_eq_some_iff.mp (getElem?_indices h')
  simp only [entry,generate,List.getElem_toArray,List.getElem_pmap,hget]

end LinearInverse.Grid
