import LinearInverse.Proofs.Cfl.RoundTrip

namespace LinearInverse.Cfl
open Grid

/-- The sizes, multiplied from the first one on, leave the words, or the bytes of the elements
cannot be addressed. -/
def Overflows (dims : List Nat) : Prop :=
  (∃ k, wordBound ≤ volume (dims.take k)) ∨ signedBound ≤ Sample.size * volume dims

variable {s : Store} {base : String} {dims : List Nat} {d : Defect UInt64}

theorem byteCount_eq_error_iff :
    byteCount dims = .error d ↔ d = .sizeOverflow ∧ Overflows dims := by
  rw [byteCount,Overflows,← size?_eq_none_iff]
  cases hsize : size? dims with
  | none => simp [eq_comm]
  | some n =>
    obtain rfl := volume_of_size? hsize
    rw [Option.bind_some,bytes?]
    split <;> simp_all [eq_comm]

/-- Behind a header that reads well only the count of the bytes can be a defect. -/
theorem read_eq_error_iff_byteCount (h : shapeIn s base = .ok dims) :
    read s base = .error d ↔ byteCount dims = .error d := by
  rw [read,h]
  change (byteCount dims).map (imageIn s base dims) = .error d ↔ _
  cases byteCount dims <;> simp [Except.map]

/-- Whatever the files hold, reading answers with an array or an error of the files, unless the
header has sizes whose product overflows on the way, from the left, or whose bytes do. -/
theorem read_eq_error_iff : read s base = .error d ↔
    d = .sizeOverflow ∧ ∃ dims, shapeIn s base = .ok dims ∧ Overflows dims := by
  cases hshape : shapeIn s base with
  | error e => simp [read,hshape]
  | ok dims =>
    rw [read_eq_error_iff_byteCount hshape,byteCount_eq_error_iff]
    simp only [Except.ok.injEq,exists_eq_left']

/-- A single size of `2 ^ 60`, and one element. -/
def hugeStore : Store :=
  (Store.empty.put ["h.hdr"] (.file "1152921504606846976".toUTF8)).put ["h.cfl"]
    (.file (List.replicate 8 0).toByteArray)

theorem shapeIn_hugeStore : shapeIn hugeStore "h" = .ok [0x1000000000000000] := by
  have hshape : (shapeIn hugeStore "h").toOption = some [0x1000000000000000] := by
    decide +kernel
  cases h : shapeIn hugeStore "h" with
  | error e =>
    rw [h] at hshape
    cases hshape
  | ok dims =>
    rw [h] at hshape
    exact congrArg _ (Option.some.inj hshape)

/-- The data file is far too short for this header, and reading does not get to say so. -/
theorem read_hugeStore :
    hugeStore.content? (headerPath "h") = some "1152921504606846976".toUTF8 ∧
      hugeStore.content? (dataPath "h") = some (List.replicate 8 0).toByteArray ∧
      ¬∃ r, read hugeStore "h" = .ok r := by
  refine ⟨by decide +kernel,by decide +kernel,fun ⟨r,hr⟩ => ?_⟩
  have hcount : byteCount [0x1000000000000000] = .error .sizeOverflow :=
    byteCount_eq_error_iff.mpr ⟨rfl,.inr (by decide)⟩
  rw [(read_eq_error_iff_byteCount shapeIn_hugeStore).mpr hcount] at hr
  cases hr

end LinearInverse.Cfl
