import LinearInverse.Proofs.Cfl.Grammar
import LinearInverse.Proofs.Cfl.Overflow
import LinearInverse.Proofs.Cfl.Widening
import Mathlib.Algebra.BigOperators.Ring.Finset

namespace LinearInverse.Cfl
open Grid

variable {s s' : Store} {base text : String} {bytes bytes' : List UInt8} {dims idx : List Nat}
  {count k : Nat}

theorem byteCount_eq_ok_iff :
    byteCount dims = .ok count ↔ ¬Overflows dims ∧ count = Sample.size * volume dims := by
  rw [byteCount,Overflows,← size?_eq_none_iff]
  cases hsize : size? dims with
  | none => simp
  | some n =>
    obtain rfl := volume_of_size? hsize
    rw [Option.bind_some,bytes?]
    split <;> simp_all [eq_comm]

/-- An axis is empty, and the others cannot be addressed together. -/
def Hollow (dims : List Nat) : Prop :=
  0 ∈ dims ∧ 2 ^ 63 - 1 < volume (dims.filter (· != 0))

theorem addressable_iff_not_hollow (h : ¬Overflows dims) :
    addressable dims = true ↔ ¬Hollow dims := by
  have hbound : signedBound = 2 ^ 63 := rfl
  rw [addressable,decide_eq_true_iff,Hollow,not_and,not_lt]
  constructor
  · exact fun hlt _ => by omega
  · intro hle
    by_cases h0 : 0 ∈ dims
    · have := hle h0
      omega
    · have hfilter : dims.filter (· != 0) = dims := List.filter_eq_self.mpr fun d hd => by
        have hne : d ≠ 0 := fun hz => h0 (hz ▸ hd)
        simpa using hne
      have hbytes := not_le.mp (not_or.mp h).2
      rw [hfilter]
      exact lt_of_le_of_lt (Nat.le_mul_of_pos_left _ (by decide)) hbytes

theorem offset_columnMajor_eq_sum (h : idx.length = dims.length) :
    Axis.offset (Axis.columnMajor k dims) idx =
      k * ∑ a ∈ Finset.range dims.length, idx.getD a 0 * volume (dims.take a) := by
  induction dims generalizing k idx with
  | nil => rfl
  | cons d ds ih =>
    cases idx with
    | nil => cases h
    | cons i is =>
      rw [Axis.columnMajor,Axis.offset,ih (Nat.succ_inj.mp h),List.length_cons,
        Finset.sum_range_succ',Nat.mul_add,Finset.mul_sum,Finset.mul_sum,Nat.add_comm]
      congr 1
      · refine Finset.sum_congr rfl fun a _ => ?_
        rw [List.getD_cons_succ,List.take_succ_cons,volume]
        ring
      · rw [List.getD_cons_zero,List.take_zero,volume]
        ring

theorem shapeIn_eq (h : s.content? (headerPath base) = some text.toUTF8) :
    shapeIn s base = (Header.read text.toList).mapError (.invalidHeader (headerPath base)) := by
  have htext : ByteArray.utf8Decode? text.toUTF8 = some text.toList.toArray := by
    rw [← String.ofList_toList (s := text),String.toUTF8_eq_toByteArray,String.toByteArray_ofList,
      List.utf8Decode?_utf8Encode,String.ofList_toList]
  rw [shapeIn,h,Option.bind_some,htext]

theorem read_of_error (h : s.content? (headerPath base) = some text.toUTF8) {f : Header.Fault}
    (hread : Header.read text.toList = .error f) :
    read s base = .ok (.error (.invalidHeader (headerPath base) f)) := by
  rw [read,shapeIn_eq h,hread]
  rfl

theorem read_of_ok (h : s.content? (headerPath base) = some text.toUTF8)
    (hread : Header.read text.toList = .ok dims) :
    read s base = (byteCount dims).map (imageIn s base dims) := by
  rw [read,shapeIn_eq h,hread]
  rfl

theorem imageIn_of_short (h : s.content? (dataPath base) = some bytes.toByteArray)
    (hlt : bytes.length < count) :
    imageIn s base dims count = .error (.truncated (dataPath base) count bytes.length) := by
  rw [imageIn,h]
  simp only [List.toList_data_toByteArray]
  exact if_pos hlt

theorem imageIn_of_le (h : s.content? (dataPath base) = some bytes.toByteArray)
    (hle : count ≤ bytes.length) : imageIn s base dims count =
      match ofColumnMajor? dims (Sample.decode (bytes.take count)) with
      | some g => .ok g
      | none => .error (.unaddressable dims) := by
  rw [imageIn,h]
  simp only [List.toList_data_toByteArray]
  exact if_neg (Nat.not_lt_of_le hle)

theorem imageIn_ne_invalidHeader {path : String} {f : Header.Fault} :
    imageIn s base dims count ≠ .error (.invalidHeader path f) := by
  unfold imageIn
  split
  · exact nofun
  · dsimp only
    split
    · exact nofun
    · split <;> exact nofun

/-- Bytes behind the ones that are asked for are not looked at. -/
theorem imageIn_congr (h : s.content? (dataPath base) = some bytes.toByteArray)
    (h' : s'.content? (dataPath base) = some bytes'.toByteArray)
    (htake : bytes'.take count = bytes.take count) :
    imageIn s' base dims count = imageIn s base dims count := by
  have hlength := congrArg List.length htake
  rw [List.length_take,List.length_take] at hlength
  rcases Nat.lt_or_ge bytes.length count with hlt | hle
  · rw [List.take_of_length_le (by omega),List.take_of_length_le (by omega)] at htake
    subst htake
    rw [imageIn_of_short h hlt,imageIn_of_short h' hlt]
  · rw [imageIn_of_le h hle,imageIn_of_le h' (by omega),htake]

theorem length_decode_take (hle : Sample.size * k ≤ bytes.length) :
    (Sample.decode (bytes.take (Sample.size * k))).length = k := by
  rw [Sample.length_decode,List.length_take,Nat.min_eq_left hle,
    Nat.mul_div_cancel_left k (by decide)]

theorem imageIn_of_not_addressable (h : s.content? (dataPath base) = some bytes.toByteArray)
    (hle : count ≤ bytes.length) (haddr : ¬addressable dims = true) :
    imageIn s base dims count = .error (.unaddressable dims) := by
  have hnone : ofColumnMajor? dims (Sample.decode (bytes.take count)) = none :=
    dif_neg fun hok => haddr hok.2
  rw [imageIn_of_le h hle,hnone]

theorem exists_imageIn (h : s.content? (dataPath base) = some bytes.toByteArray)
    (hle : Sample.size * volume dims ≤ bytes.length) (haddr : addressable dims = true) :
    ∃ g, imageIn s base dims (Sample.size * volume dims) = .ok g ∧
      ofColumnMajor? dims (Sample.decode (bytes.take (Sample.size * volume dims))) = some g := by
  obtain ⟨g,hg⟩ : ∃ g, ofColumnMajor? dims
      (Sample.decode (bytes.take (Sample.size * volume dims))) = some g :=
    ⟨_,dif_pos ⟨length_decode_take hle,haddr⟩⟩
  exact ⟨g,by rw [imageIn_of_le h hle,hg],hg⟩

theorem imageIn_eq_truncated_iff (h : s.content? (dataPath base) = some bytes.toByteArray)
    {path : String} {expected found : Nat} :
    imageIn s base dims count = .error (.truncated path expected found) ↔
      bytes.length < count ∧ path = dataPath base ∧ expected = count ∧ found = bytes.length := by
  rcases Nat.lt_or_ge bytes.length count with hlt | hle
  · rw [imageIn_of_short h hlt]
    simp [hlt,eq_comm]
  · rw [imageIn_of_le h hle]
    cases ofColumnMajor? dims (Sample.decode (bytes.take count)) <;> simp [Nat.not_lt_of_le hle]

theorem imageIn_eq_unaddressable_iff (h : s.content? (dataPath base) = some bytes.toByteArray)
    (hfits : ¬Overflows dims) {ds : List Nat} :
    imageIn s base dims (Sample.size * volume dims) = .error (.unaddressable ds) ↔
      Hollow dims ∧ ds = dims := by
  have haddr := addressable_iff_not_hollow hfits
  by_cases hhollow : Hollow dims
  · have hle : Sample.size * volume dims ≤ bytes.length := by
      rw [volume_eq_zero hhollow.1]
      exact Nat.zero_le _
    rw [imageIn_of_not_addressable h hle fun ha => haddr.mp ha hhollow]
    simp [hhollow,eq_comm]
  · rcases Nat.lt_or_ge bytes.length (Sample.size * volume dims) with hlt | hle
    · rw [imageIn_of_short h hlt]
      simp [hhollow]
    · obtain ⟨g,hg,_⟩ := exists_imageIn h hle (haddr.mpr hhollow)
      rw [hg]
      simp [hhollow]

/-- The elements of an array that is read stand in the data file with the first axis varying
fastest. -/
theorem exists_imageIn_stored (h : s.content? (dataPath base) = some bytes.toByteArray)
    (hle : Sample.size * volume dims ≤ bytes.length) (haddr : addressable dims = true) :
    ∃ g, imageIn s base dims (Sample.size * volume dims) = .ok g ∧ g.shape = dims ∧
      ∀ idx (hi : Inside g.shape idx), Sample.StoredAt bytes (Sample.size *
        ∑ a ∈ Finset.range dims.length, idx.getD a 0 * volume (dims.take a)) (g.entry idx hi) := by
  obtain ⟨g,himage,hg⟩ := exists_imageIn h hle haddr
  obtain ⟨hshape,hentry⟩ := entry_of_ofColumnMajor hg
  refine ⟨g,himage,hshape,fun idx hi => ?_⟩
  have hstored := Sample.storedAt_decode (hentry idx hi)
  rw [offset_columnMajor_eq_sum (hi.length_eq.trans (congrArg List.length hshape)),
    Nat.one_mul] at hstored
  exact hstored.of_take

theorem exists_unique_says_iff :
    (∃! dims, Header.Says text.toList dims) ↔ ¬Header.Malformed text.toList := by
  rw [← Header.exists_read_eq_error_iff]
  simp only [← Header.read_eq_ok_iff]
  cases Header.read text.toList <;> simp [ExistsUnique]

/-- Reading answers for every header and all data. The header is refused exactly if it has no line
that counts or a word on that line is no numeral. Else its sizes decide, as long as they do not
overflow: the data are too short, or the shape cannot be addressed, or an array is read with its
elements at their places. Lines before the one that counts, all that is behind it, and bytes that
are not asked for, change nothing. -/
theorem read_outcome (hheader : s.content? (headerPath base) = some text.toUTF8)
    (hdata : s.content? (dataPath base) = some bytes.toByteArray) :
    ((∃ f, read s base = .ok (.error (.invalidHeader (headerPath base) f))) ↔
      Header.Malformed text.toList) ∧
    ((∃! dims, Header.Says text.toList dims) ↔ ¬Header.Malformed text.toList) ∧
    (∀ dims, Header.Says text.toList dims → ¬Overflows dims →
      (∀ path expected found, read s base = .ok (.error (.truncated path expected found)) ↔
        bytes.length < 8 * volume dims ∧ path = dataPath base ∧ expected = 8 * volume dims ∧
          found = bytes.length) ∧
      (∀ ds, read s base = .ok (.error (.unaddressable ds)) ↔ Hollow dims ∧ ds = dims) ∧
      (8 * volume dims ≤ bytes.length → ¬Hollow dims →
        ∃ g, read s base = .ok (.ok g) ∧ g.shape = dims ∧ ∀ idx (hi : Inside g.shape idx),
          Sample.StoredAt bytes
            (8 * ∑ a ∈ Finset.range dims.length, idx.getD a 0 * volume (dims.take a))
            (g.entry idx hi))) ∧
    ∀ (s' : Store) (text' : String) (bytes' : List UInt8) (line : List Char),
      s'.content? (headerPath base) = some text'.toUTF8 →
      s'.content? (dataPath base) = some bytes'.toByteArray →
      Header.FirstLine text.toList line → Header.FirstLine text'.toList line →
      (∀ dims, Header.Says text.toList dims →
        bytes'.take (8 * volume dims) = bytes.take (8 * volume dims)) →
      read s' base = read s base := by
  refine ⟨?_,exists_unique_says_iff,fun dims htold hfits => ?_,?_⟩
  · rw [← Header.exists_read_eq_error_iff]
    cases hread : Header.read text.toList with
    | error f => exact iff_of_true ⟨f,read_of_error hheader hread⟩ ⟨f,rfl⟩
    | ok dims =>
      refine iff_of_false ?_ (by simp)
      rintro ⟨f,hf⟩
      rw [read_of_ok hheader hread] at hf
      obtain ⟨count,_,himage⟩ := Checked.map_eq_ok.mp hf
      exact imageIn_ne_invalidHeader himage
  · have hread : read s base = .ok (imageIn s base dims (Sample.size * volume dims)) := by
      rw [read_of_ok hheader (Header.read_eq_ok_iff.mpr htold),
        byteCount_eq_ok_iff.mpr ⟨hfits,rfl⟩]
      rfl
    simp only [hread,Except.ok.injEq]
    refine ⟨fun path expected found => imageIn_eq_truncated_iff hdata,
      fun ds => imageIn_eq_unaddressable_iff hdata hfits,fun hle hhollow => ?_⟩
    exact exists_imageIn_stored hdata hle ((addressable_iff_not_hollow hfits).mpr hhollow)
  · intro s' text' bytes' line hheader' hdata' hline hline' hbytes
    have hsame : Header.read text'.toList = Header.read text.toList :=
      hline'.read_eq.trans hline.read_eq.symm
    cases hread : Header.read text.toList with
    | error f => rw [read_of_error hheader hread,read_of_error hheader' (hsame.trans hread)]
    | ok dims =>
      rw [read_of_ok hheader hread,read_of_ok hheader' (hsame.trans hread)]
      cases hcount : byteCount dims with
      | error d => rfl
      | ok count =>
        obtain ⟨_,rfl⟩ := byteCount_eq_ok_iff.mp hcount
        exact congrArg Except.ok
          (imageIn_congr hdata hdata' (hbytes dims (Header.read_eq_ok_iff.mp hread)))

/-- A header with all that is passed over: a comment, a blank line, blanks before and behind, a plus
sign, a leading zero, a size of one at the end, and a line behind it that is no line of sizes. -/
def surroundedText : String :=
  "# two by two\n \n\t+2  02 1\r\nx 1"

def surroundedBytes : List UInt8 :=
  List.replicate 8 0 ++ [0,0,128,63,0,0,0,192] ++ List.replicate 19 7

def surroundedStore : Store :=
  (Store.empty.put ["a.hdr"] (.file surroundedText.toUTF8)).put ["a.cfl"]
    (.file surroundedBytes.toByteArray)

/-- The bytes behind the first 32 ones are not asked for. -/
theorem read_surrounded : Header.Says surroundedText.toList [2,2] ∧
    ∃ g, read surroundedStore "a" = .ok (.ok g) ∧ g.shape = [2,2] ∧
      ∀ hi : Inside g.shape [1,0], Sample.StoredAt surroundedBytes 8 (g.entry [1,0] hi) := by
  have hheader : surroundedStore.content? (headerPath "a") = some surroundedText.toUTF8 := by
    decide +kernel
  have hdata : surroundedStore.content? (dataPath "a") = some surroundedBytes.toByteArray := by
    decide +kernel
  have hread : Header.read surroundedText.toList = .ok [2,2] := by
    decide +kernel
  have htold := Header.read_eq_ok_iff.mp hread
  have hcount : byteCount [2,2] = .ok 32 := rfl
  obtain ⟨_,_,hanswer⟩ :=
    (read_outcome hheader hdata).2.2.1 [2,2] htold (byteCount_eq_ok_iff.mp hcount).1
  obtain ⟨g,hg,hshape,hentry⟩ := hanswer (by decide) (by simp [Hollow])
  exact ⟨htold,g,hg,hshape,hentry [1,0]⟩

end LinearInverse.Cfl
