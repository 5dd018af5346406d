import LinearInverse.Transform.Flat
import LinearInverse.Proofs.Grid.Layout

namespace LinearInverse.Transform
variable {α β : Type} {dims : List Nat} {n : Nat} {x : List α}

theorem checkBuffer_of_addressable (h : Grid.addressable dims = true) :
    checkBuffer (α := α) dims (2 * Grid.volume dims) = .ok () := by
  have hbound : Grid.wordBound = 2 * Grid.signedBound := rfl
  have hword : 2 * Grid.volume dims < Grid.wordBound := by
    have := Grid.volume_lt_signedBound h
    omega
  have hlength : flatLength (α := α) dims = .ok (2 * Grid.volume dims) := by
    rw [flatLength,Grid.size?_of_addressable h]
    exact if_pos hword
  rw [checkBuffer,hlength]
  change (if 2 * Grid.volume dims ≠ 2 * Grid.volume dims then _ else _) = _
  rw [if_neg (fun hne => hne rfl),h]
  rfl

/-- The array of a vector has its elements. -/
theorem exists_gridOf (h : Grid.addressable dims = true)
    (hx : x.length = 2 * Grid.volume dims) :
    ∃ g, gridOf dims x = .ok g ∧ g.shape = dims ∧ g.entries = Cplx.pairs x := by
  have hl : (Cplx.pairs x).length = Grid.volume dims := by
    rw [Cplx.length_pairs,hx]
    omega
  obtain ⟨g,hg,hshape,hentries⟩ := Grid.exists_ofRowMajor_entries hl h
  refine ⟨g,?_,hshape,hentries⟩
  rw [gridOf,hx,checkBuffer_of_addressable h,hg]
  rfl

/-- A map that knows the array of a vector acts on the vector. -/
theorem onVectors_eq {target source : List Nat} {g out : Grid (Cplx α)}
    {map : List Nat → Grid (Cplx α) → Checked α (Grid (Cplx α))}
    (hn : checkBuffer (α := α) target n = .ok ()) (hg : gridOf source x = .ok g)
    (hmap : map target g = .ok out) :
    onVectors map target source n x = .ok (Cplx.interleave out.entries) := by
  rw [onVectors,hn,hg]
  change (map target g).map _ = _
  rw [hmap]
  rfl

/-- The element at a multi-index of the array over `dims` that a vector stands for. -/
def element? (dims : List Nat) (x : List β) (idx : List Nat) : Option (Cplx β) :=
  (Cplx.pairs x)[Axis.offset (Axis.rowMajor dims) idx]?

/-- Dimensions without an empty axis, the vectors over which have length `2 * n`. -/
structure Sized (dims : List Nat) (n : Nat) : Prop where
  size : Grid.size? dims = some n
  word : 2 * n < Grid.wordBound
  pos : 0 ∉ dims

theorem Sized.volume_eq (h : Sized dims n) : Grid.volume dims = n :=
  (Grid.volume_of_size? h.size).symm

theorem Sized.addressable (h : Sized dims n) : Grid.addressable dims = true := by
  have hfilter : dims.filter (· != 0) = dims := List.filter_eq_self.mpr fun d hd => by
    have hne : d ≠ 0 := fun h0 => h.pos (h0 ▸ hd)
    simpa using hne
  have hword := h.word
  have hbound : Grid.wordBound = 2 * Grid.signedBound := rfl
  rw [Grid.addressable,hfilter,h.volume_eq,decide_eq_true_iff]
  omega

theorem Sized.checkBuffer_eq (h : Sized dims n) : checkBuffer (α := α) dims (2 * n) = .ok () := by
  rw [← h.volume_eq]
  exact checkBuffer_of_addressable h.addressable

/-- The elements of a vector are the entries of its array. -/
theorem element?_eq {g : Grid (Cplx α)} (hg : g.entries = Cplx.pairs x) {idx : List Nat}
    (hi : Grid.Inside g.shape idx) : element? g.shape x idx = some (g.entry idx hi) := by
  rw [element?,← hg,Grid.getElem?_entries g hi]

end LinearInverse.Transform
