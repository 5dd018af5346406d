namespace LinearInverse.Grid

def volume : List Nat → Nat
  | [] => 1
  | d::ds => d * volume ds

/-- Counts are machine words. -/
abbrev wordBound : Nat := 0x10000000000000000

/-- Distances in memory are machine words with a sign. -/
abbrev signedBound : Nat := 0x8000000000000000

def times? (n d : Nat) : Option Nat :=
  if n * d < wordBound then some (n * d) else none

/-- The volume, multiplied axis by axis as long as each product is a word. -/
def size? (dims : List Nat) : Option Nat :=
  dims.foldlM times? 1

theorem volume_of_foldlM (h : dims.foldlM times? k = some n) : n = k * volume dims := by
  induction dims generalizing k with
  | nil =>
    cases h
    simp [volume]
  | cons d ds ih =>
    obtain ⟨m,hm,h⟩ := Option.bind_eq_some_iff.mp h
    have hn := ih h
    simp only [times?] at hm
    split at hm
    · cases hm
      rw [hn,volume,Nat.mul_assoc]
    · contradiction

theorem volume_of_size? (h : size? dims = some n) : n = volume dims := by
  simpa using volume_of_foldlM h

/-- The axes that are not empty can be addressed together. -/
def addressable (dims : List Nat) : Bool :=
  volume (dims.filter (· != 0)) < signedBound

/-- The bytes that `n` items of `size` bytes take, as far as bytes can be addressed. -/
def bytes? (size n : Nat) : Option Nat :=
  if size * n < signedBound then some (size * n) else none

/-- Whether an array of items of `size` bytes can be made. -/
def allocatable (size : Nat) (dims : List Nat) : Bool :=
  addressable dims && (bytes? size (volume dims)).isSome

def Inside : List Nat → List Nat → Prop
  | [], [] => True
  | d::ds, i::is => i < d ∧ Inside ds is
  | _, _ => False

def indicesFrom : List Nat → List (List Nat)
  | [] => [[]]
  | d::ds => (List.range d).flatMap fun i => (indicesFrom ds).map (i :: ·)

/-- All multi-indices in row-major order. A shape with an empty axis is not walked at all, as
its other axes may be of any size. -/
def indices (shape : List Nat) : List (List Nat) :=
  if 0 ∈ shape then [] else indicesFrom shape

theorem mem_indicesFrom : idx ∈ indicesFrom shape ↔ Inside shape idx := by
  induction shape generalizing idx with
  | nil => cases idx <;> simp [indicesFrom,Inside]
  | cons d ds ih =>
    cases idx with
    | nil => simp [indicesFrom,Inside]
    | cons i is => simp [indicesFrom,Inside,← ih]

theorem Inside.pos (h : Inside shape idx) : 0 ∉ shape := by
  induction shape generalizing idx with
  | nil => simp
  | cons d ds ih =>
    cases idx with
    | nil => exact h.elim
    | cons i is =>
      have hne : d ≠ 0 := Nat.ne_of_gt (Nat.lt_of_le_of_lt (Nat.zero_le i) h.1)
      simp [ih h.2,hne.symm]

theorem mem_indices : idx ∈ indices shape ↔ Inside shape idx := by
  simp only [indices]
  split
  next h => exact ⟨fun hm => by simp at hm,fun hi => absurd h hi.pos⟩
  next => exact mem_indicesFrom

theorem length_indicesFrom (shape : List Nat) : (indicesFrom shape).length = volume shape := by
  induction shape with
  | nil => rfl
  | cons d ds ih =>
    have hconst (n : Nat) :
        ((List.range n).flatMap fun i => (indicesFrom ds).map (i :: ·)).length =
          n * volume ds := by
      induction n with
      | zero => simp
      | succ n hn =>
        simp only [List.range_succ,List.flatMap_append,List.length_append,hn,List.flatMap_cons,
          List.flatMap_nil,List.append_nil,List.length_map,ih]
        rw [Nat.succ_mul]
    exact hconst d

theorem volume_eq_zero (h : 0 ∈ shape) : volume shape = 0 := by
  induction shape with
  | nil => simp at h
  | cons d ds ih =>
    rcases List.mem_cons.mp h with rfl | h
    · simp [volume]
    · simp [volume,ih h]

theorem length_indices (shape : List Nat) : (indices shape).length = volume shape := by
  simp only [indices]
  split
  next h => rw [volume_eq_zero h]; rfl
  next => exact length_indicesFrom shape

/-- Axis by axis, the smaller shape has the same size or a single entry to repeat. -/
def Stretches : List Nat → List Nat → Prop
  | [], [] => True
  | s::ss, b::bs => (s = 1 ∨ s = b) ∧ Stretches ss bs
  | _, _ => False

instance decStretches : (small big : List Nat) → Decidable (Stretches small big)
  | [], [] => .isTrue trivial
  | s::ss, b::bs =>
    have := decStretches ss bs
    inferInstanceAs (Decidable ((s = 1 ∨ s = b) ∧ Stretches ss bs))
  | [], _::_ => .isFalse id
  | _::_, [] => .isFalse id

/-- The leading axes of the larger shape that the smaller one lacks are passed over. -/
def aligned (small : List Nat) (big : List Nat) : List Nat :=
  big.drop (big.length - small.length)

def Broadcasts (small big : List Nat) : Prop :=
  Stretches small (aligned small big)

instance : Decidable (Broadcasts small big) :=
  inferInstanceAs (Decidable (Stretches _ _))

/-- An axis of size one is always read at its only entry. -/
def pin (small idx : List Nat) : List Nat :=
  List.zipWith (fun s i => if s = 1 then 0 else i) small idx

/-- Where an entry of the larger shape is found in the smaller one. -/
def source (small idx : List Nat) : List Nat :=
  pin small (aligned small idx)

theorem Inside.length_eq (h : Inside shape idx) : idx.length = shape.length := by
  induction shape generalizing idx with
  | nil => cases idx with
    | nil => rfl
    | cons => exact h.elim
  | cons d ds ih => cases idx with
    | nil => exact h.elim
    | cons i is => simp [ih h.2]

theorem Inside.drop (h : Inside shape idx) (k : Nat) : Inside (shape.drop k) (idx.drop k) := by
  induction k generalizing shape idx with
  | zero => simpa using h
  | succ k ih =>
    cases shape with
    | nil => cases idx with
      | nil => simpa using h
      | cons => exact h.elim
    | cons d ds => cases idx with
      | nil => exact h.elim
      | cons i is => simpa using ih h.2

theorem Inside.pin (hs : Stretches small big) (h : Inside big idx) :
    Inside small (pin small idx) := by
  induction small generalizing big idx with
  | nil => cases big with
    | nil => simp [Grid.pin,Inside]
    | cons => exact hs.elim
  | cons s ss ih => cases big with
    | nil => exact hs.elim
    | cons b bs => cases idx with
      | nil => exact h.elim
      | cons i is =>
        refine ⟨?_,ih hs.2 h.2⟩
        by_cases h1 : s = 1
        · simp [h1]
        · simpa [h1] using hs.1.resolve_left h1 ▸ h.1

theorem Inside.source (hb : Broadcasts small big) (h : Inside big idx) :
    Inside small (source small idx) := by
  have hd := h.drop (big.length - small.length)
  simp only [Grid.source,aligned,h.length_eq]
  exact Inside.pin hb hd

end LinearInverse.Grid
