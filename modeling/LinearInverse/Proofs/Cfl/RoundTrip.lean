import LinearInverse.Proofs.Cfl.Header
import LinearInverse.Proofs.Cfl.Sample
import LinearInverse.Proofs.Cfl.Store
import LinearInverse.Proofs.Grid.Layout

namespace LinearInverse.Cfl
open Grid

/-- `dims` is `shape` without axes of size one at its end. An axis is put in where there is none. -/
def Reduced (shape dims : List Nat) : Prop :=
  shape = [] ∧ dims = [1] ∨ ∃ n, shape = dims ++ List.replicate n 1

/-- A multi-index with zeros on the axes that were dropped. -/
def padded (rank : Nat) (idx : List Nat) : List Nat :=
  (idx ++ List.replicate rank 0).take rank

theorem padded_append {n : Nat} {ds idx : List Nat} (h : idx.length = ds.length) :
    padded (ds ++ List.replicate n 1).length idx = idx ++ List.replicate n 0 := by
  rw [padded,List.length_append,List.length_replicate,← h,List.take_length_add_append,
    List.take_replicate,Nat.min_eq_left (Nat.le_add_left n idx.length)]

theorem reduced_trim (shape : List Nat) : Reduced shape (Header.trim (Header.sizes shape)) := by
  cases shape with
  | nil => exact .inl ⟨rfl,rfl⟩
  | cons d ds => exact .inr (Header.exists_trim (List.cons_ne_nil d ds)).2

namespace Reduced
variable {shape dims idx : List Nat}

theorem volume_eq (h : Reduced shape dims) : volume dims = volume shape := by
  rcases h with ⟨rfl,rfl⟩ | ⟨n,rfl⟩
  · rfl
  · rw [volume_append,volume_ones,Nat.mul_one]

theorem addressable_eq (h : Reduced shape dims) : addressable dims = addressable shape := by
  rcases h with ⟨rfl,rfl⟩ | ⟨n,rfl⟩
  · rfl
  · have hones : (List.replicate n 1).filter (· != 0) = List.replicate n 1 :=
      List.filter_replicate_of_pos rfl
    rw [addressable,addressable,List.filter_append,hones,volume_append,volume_ones,Nat.mul_one]

/-- The dropped axes do not move an entry. -/
theorem inside_padded (h : Reduced shape dims) (hi : Inside dims idx) :
    Inside shape (padded shape.length idx) ∧
      Axis.offset (Axis.columnMajor 1 shape) (padded shape.length idx) =
        Axis.offset (Axis.columnMajor 1 dims) idx := by
  rcases h with ⟨rfl,rfl⟩ | ⟨n,rfl⟩
  · cases idx with
    | nil => exact hi.elim
    | cons i is =>
      obtain ⟨hlt,htail⟩ := hi
      obtain rfl : i = 0 := Nat.lt_one_iff.mp hlt
      cases is with
      | nil => exact ⟨trivial,rfl⟩
      | cons j js => exact htail.elim
  · have hlen : idx.length = (Axis.columnMajor 1 dims).length := by
      have hsizes := congrArg List.length (Axis.sizes_columnMajor 1 dims)
      rw [Axis.sizes,List.length_map] at hsizes
      rw [hi.length_eq,hsizes]
    rw [padded_append hi.length_eq,columnMajor_append,offset_append hlen,offset_zeros]
    exact ⟨hi.append (inside_ones n),rfl⟩

end Reduced

/-- An array as it comes back from a file: without the axes of size one at its end, and with all
parts at single precision. -/
structure Restored (g g' : Image) : Prop where
  shape : Reduced g.shape g'.shape
  least : Header.Least g'.shape
  entry : ∀ idx (h : Inside g'.shape idx), ∃ h' : Inside g.shape (padded g.shape.length idx),
    g'.entry idx h = ⟨Sample.widen (Sample.narrow (g.entry _ h').re),
      Sample.widen (Sample.narrow (g.entry _ h').im)⟩

/-- A shape that can be addressed, with stored entries in fewer bytes than a file can have. -/
structure Storable (shape : List Nat) : Prop where
  addressable : addressable shape = true
  bytes : Sample.size * volume shape < signedBound

theorem storable_of_allocatable {shape : List Nat} (h : allocatable Cplx.size shape = true) :
    Storable shape := by
  obtain ⟨haddr,hbytes⟩ := Bool.and_eq_true_iff.mp h
  refine ⟨haddr,?_⟩
  unfold bytes? at hbytes
  split at hbytes
  next hlt =>
    refine Nat.lt_of_le_of_lt (Nat.mul_le_mul_right _ ?_) hlt
    decide
  next => cases hbytes

theorem byteCount_eq_ok {dims : List Nat} {n : Nat} (h : addressable dims = true) :
    byteCount dims = .ok n ↔
      Sample.size * volume dims < signedBound ∧ n = Sample.size * volume dims := by
  rw [byteCount,size?_of_addressable h,Option.bind_some,bytes?]
  split
  next n' hn =>
    split at hn
    next hlt =>
      cases hn
      simp [hlt,eq_comm]
    next => cases hn
  next hn =>
    split at hn
    next => cases hn
    next hlt => simp [hlt]

/-- The files of an array under a basename. -/
structure Holds (s : Store) (base : String) (g : Image) : Prop where
  header : s.content? (headerPath base) = some (String.ofList (Header.write g.shape)).toUTF8
  data : s.content? (dataPath base) = some (Sample.encode g.columnEntries).toByteArray

variable {s t u : Store} {a b base name : String} {g g' : Image}

theorem Holds.shapeIn_eq (h : Holds s base g) (hs : addressable g.shape = true) :
    shapeIn s base = .ok (Header.trim (Header.sizes g.shape)) := by
  have htext : ByteArray.utf8Decode? (String.ofList (Header.write g.shape)).toUTF8 =
      some (Header.write g.shape).toArray := by
    rw [String.toUTF8_eq_toByteArray,String.toByteArray_ofList,List.utf8Decode?_utf8Encode]
  rw [shapeIn,h.header,Option.bind_some,htext]
  simp only [Header.read_write fun d hd => lt_wordBound hs hd]
  rfl

/-- An array is read from its files. -/
theorem Holds.exists_read (h : Holds s base g) (hs : Storable g.shape) :
    ∃ g', read s base = .ok (.ok g') ∧ Restored g g' := by
  have hred := reduced_trim g.shape
  generalize hdims : Header.trim (Header.sizes g.shape) = dims at hred
  have hleast : Header.Least dims := by
    rw [← hdims]
    exact (Header.exists_trim (Header.sizes_ne_nil g.shape)).1
  have haddr : addressable dims = true := hred.addressable_eq.trans hs.addressable
  have hcount : byteCount dims = .ok (Sample.size * volume dims) :=
    (byteCount_eq_ok haddr).mpr ⟨by rw [hred.volume_eq]; exact hs.bytes,rfl⟩
  have hstored : (Sample.encode g.columnEntries).toByteArray.data.toList =
      Sample.encode g.columnEntries := List.toList_data_toByteArray
  have hlen : (Sample.encode g.columnEntries).length = Sample.size * volume dims := by
    rw [Sample.length_encode,length_columnEntries,hred.volume_eq]
  have hdata : (g.columnEntries.map Sample.keptParts).length = volume dims := by
    rw [List.length_map,length_columnEntries,hred.volume_eq]
  obtain ⟨g',hg'⟩ : ∃ g', ofColumnMajor? dims (g.columnEntries.map Sample.keptParts) = some g' :=
    ⟨_,dif_pos ⟨hdata,haddr⟩⟩
  obtain ⟨hshape,hentry⟩ := entry_of_ofColumnMajor hg'
  refine ⟨g',?_,?_⟩
  · have himage : imageIn s base dims (Sample.size * volume dims) = .ok g' := by
      rw [imageIn,h.data]
      simp only [hstored]
      rw [if_neg (by omega),← hlen,List.take_length,Sample.decode_encode,hg']
    rw [read,h.shapeIn_eq hs.addressable,hdims]
    simp only [hcount]
    exact congrArg Except.ok himage
  · refine ⟨by rwa [hshape],by rwa [hshape],fun idx hi => ?_⟩
    have hi' : Inside dims idx := by rwa [← hshape]
    obtain ⟨hinside,hoffset⟩ := hred.inside_padded hi'
    refine ⟨hinside,?_⟩
    have h1 := hentry idx hi
    rw [List.getElem?_map,← hoffset,getElem?_columnEntries g hinside] at h1
    exact (Option.some.inj h1).symm

/-- An array with nothing to drop, whose parts are all at single precision. -/
structure Single (g : Image) : Prop where
  least : Header.Least g.shape
  storable : Storable g.shape
  parts : ∀ idx (h : Inside g.shape idx), ∃ a b, g.entry idx h = ⟨Sample.widen a,Sample.widen b⟩

theorem least_of_shapeIn {dims : List Nat} (h : shapeIn s base = .ok dims) :
    Header.Least dims := by
  unfold shapeIn at h
  split at h
  next => cases h
  next text _ =>
    cases htext : Header.read text.toList with
    | error e => rw [htext] at h; cases h
    | ok ds =>
      rw [htext] at h
      cases h
      exact Header.least_of_read htext

theorem exists_bytes {dims : List Nat} {count : Nat} (h : imageIn s base dims count = .ok g) :
    ∃ bytes, ofColumnMajor? dims (Sample.decode bytes) = some g := by
  unfold imageIn at h
  split at h
  next => cases h
  next =>
    simp only at h
    split at h
    next => cases h
    next =>
      split at h
      next hg =>
        cases h
        exact ⟨_,hg⟩
      next => cases h

theorem single_of_read (h : read s base = .ok (.ok g)) : Single g := by
  unfold read at h
  split at h
  next => cases h
  next dims hdims =>
    obtain ⟨count,hcount,himage⟩ := Checked.map_eq_ok.mp h
    obtain ⟨bytes,hbytes⟩ := exists_bytes himage
    have haddr := addressable_of_ofColumnMajor hbytes
    obtain ⟨rfl,hentry⟩ := entry_of_ofColumnMajor hbytes
    exact ⟨least_of_shapeIn hdims,⟨haddr,((byteCount_eq_ok haddr).mp hcount).1⟩,
      fun idx hi => Sample.exists_of_mem_decode (List.mem_of_getElem? (hentry idx hi))⟩

/-- The same shape and entries, as far as these are numbers. -/
structure Reproduced (g g' : Image) : Prop where
  shape : g'.shape = g.shape
  entry : ∀ idx (h : Inside g.shape idx), ∃ h' : Inside g'.shape idx,
    (¬Sample.IsNaN (g.entry idx h).re → (g'.entry idx h').re = (g.entry idx h).re) ∧
      (¬Sample.IsNaN (g.entry idx h).im → (g'.entry idx h').im = (g.entry idx h).im)

theorem padded_length (h : idx.length = n) : padded n idx = idx := by
  rw [padded,← h,List.take_left]

theorem Restored.reproduced (h : Restored g g') (hg : Single g) : Reproduced g g' := by
  have hshape : g'.shape = g.shape := by
    rcases h.shape with ⟨hnil,_⟩ | ⟨n,hn⟩
    · exact absurd hnil hg.least.1
    · exact (hg.least.eq h.least.1 hn).symm
  refine ⟨hshape,fun idx hi => ?_⟩
  have hi' : Inside g'.shape idx := by rwa [hshape]
  have hpad : padded g.shape.length idx = idx := padded_length hi.length_eq
  obtain ⟨hin,hentry⟩ := h.entry idx hi'
  simp only [hpad] at hentry
  obtain ⟨a,b,hab⟩ := hg.parts idx hi
  refine ⟨hi',?_⟩
  rw [hentry,hab]
  exact ⟨fun hn => congrArg Sample.widen (Sample.narrow_widen hn),
    fun hn => congrArg Sample.widen (Sample.narrow_widen hn)⟩

theorem write_eq_ok : write s base g = (t,.ok ()) ↔ ∃ u,
    s.write? (headerPath base) (String.ofList (Header.write g.shape)).toUTF8 = some u ∧
      u.write? (dataPath base) (Sample.encode g.columnEntries).toByteArray = some t := by
  unfold write
  cases s.write? (headerPath base) (String.ofList (Header.write g.shape)).toUTF8 with
  | none => simp
  | some u =>
    cases hu : u.write? (dataPath base) (Sample.encode g.columnEntries).toByteArray with
    | none => simp [hu]
    | some v => simp [hu]

theorem place?_write (h : write s base g = (t,.ok ())) (path : String) :
    t.place? path = s.place? path := by
  obtain ⟨u,hheader,hdata⟩ := write_eq_ok.mp h
  rw [Store.place?_write? hdata,Store.place?_write? hheader]

/-- The data file, the header and nothing else have a new content. -/
theorem content?_write (h : write s name g = (t,.ok ())) (path : String) : t.content? path =
    if s.place? path = s.place? (dataPath name) then
      some (Sample.encode g.columnEntries).toByteArray
    else if s.place? path = s.place? (headerPath name) then
      some (String.ofList (Header.write g.shape)).toUTF8
    else s.content? path := by
  obtain ⟨u,hheader,hdata⟩ := write_eq_ok.mp h
  rw [Store.content?_write? hdata,Store.content?_write? hheader,Store.place?_write? hheader,
    Store.place?_write? hheader]

/-- No directory is in the way of the two files. -/
def Writable (s : Store) (base : String) : Prop :=
  (∃ p, s.place? (headerPath base) = some p ∧ s.isDirectory p = false) ∧
    ∃ q, s.place? (dataPath base) = some q ∧ s.isDirectory q = false

theorem writable_write (h : write s name g = (t,.ok ())) : Writable t base ↔ Writable s base := by
  have hplace := place?_write h
  obtain ⟨u,hheader,hdata⟩ := write_eq_ok.mp h
  simp only [Writable,hplace,isDirectory_write? hdata,isDirectory_write? hheader]

theorem exists_write_iff (g : Image) : (∃ t, write s base g = (t,.ok ())) ↔ Writable s base := by
  constructor
  · rintro ⟨t,h⟩
    obtain ⟨u,hheader,hdata⟩ := write_eq_ok.mp h
    have hq := (exists_write?_iff _).mp ⟨t,hdata⟩
    simp only [Store.place?_write? hheader,isDirectory_write? hheader] at hq
    exact ⟨(exists_write?_iff _).mp ⟨u,hheader⟩,hq⟩
  · rintro ⟨hp,hq⟩
    obtain ⟨u,hheader⟩ :=
      (exists_write?_iff (String.ofList (Header.write g.shape)).toUTF8).mpr hp
    have hq' : ∃ q, u.place? (dataPath base) = some q ∧ u.isDirectory q = false := by
      simpa only [Store.place?_write? hheader,isDirectory_write? hheader] using hq
    obtain ⟨t,hdata⟩ := (exists_write?_iff _).mpr hq'
    exact ⟨t,write_eq_ok.mpr ⟨u,hheader,hdata⟩⟩

theorem sameFile_self (h : write s base g = (t,.ok ())) : SameFile s base base := by
  obtain ⟨u,hheader,_⟩ := write_eq_ok.mp h
  obtain ⟨p,hp,_⟩ := Store.write?_eq_some hheader
  exact ⟨p,hp,hp⟩

theorem sameFile_write (h : write s name g = (t,.ok ())) : SameFile t a b ↔ SameFile s a b := by
  simp only [SameFile,place?_write h]

theorem holds_write (h : write s name g = (t,.ok ())) (hsame : SameFile s name base) :
    Holds t base g := by
  obtain ⟨q,hq,hq'⟩ := hsame.exists_data
  obtain ⟨p,hp,hp'⟩ := hsame
  constructor
  · have hne : s.place? (headerPath base) ≠ s.place? (dataPath name) := by
      rw [hp']
      exact (place?_header_ne_data hp').symm
    rw [content?_write h,if_neg hne,if_pos (hp'.trans hp.symm)]
  · rw [content?_write h,if_pos (hq'.trans hq.symm)]

/-- The files under other basenames stay as they are. -/
theorem Holds.write (hh : Holds s base g) (h : write s name g' = (t,.ok ()))
    (hother : ¬SameFile s name base) : Holds t base g := by
  obtain ⟨p,hp⟩ := exists_place hh.header
  obtain ⟨q,hq⟩ := exists_place hh.data
  constructor
  · have hdata : s.place? (headerPath base) ≠ s.place? (dataPath name) := by
      rw [hp]
      exact (place?_header_ne_data hp).symm
    have hheader : s.place? (headerPath base) ≠ s.place? (headerPath name) := by
      intro heq
      exact hother ⟨p,heq.symm.trans hp,hp⟩
    rw [content?_write h,if_neg hdata,if_neg hheader]
    exact hh.header
  · have hdata : s.place? (dataPath base) ≠ s.place? (dataPath name) := by
      intro heq
      exact hother (sameFile_of_data (heq.symm.trans hq) hq)
    have hheader : s.place? (dataPath base) ≠ s.place? (headerPath name) := by
      intro heq
      exact place?_header_ne_data (heq.symm.trans hq) hq
    rw [content?_write h,if_neg hdata,if_neg hheader]
    exact hh.data

/-- The arrays are written under their basenames one after the other, and every write succeeds. -/
inductive Written : Store → List (String × Image) → Store → Prop where
  | nil (s : Store) : Written s [] s
  | cons {s t u : Store} {base : String} {g : Image} {ws : List (String × Image)}
      (head : write s base g = (t,.ok ())) (tail : Written t ws u) : Written s ((base,g)::ws) u

variable {ws : List (String × Image)}

theorem Holds.written (hh : Holds s base g) (h : Written s ws t)
    (hother : ∀ w ∈ ws, ¬SameFile s w.1 base) : Holds t base g := by
  induction h with
  | nil => exact hh
  | cons head tail ih =>
    refine ih (hh.write head (hother _ List.mem_cons_self)) fun w hw => ?_
    rw [sameFile_write head]
    exact hother w (List.mem_cons_of_mem _ hw)

/-- The last of the writes that lead to the same files is the one that counts. -/
theorem Written.exists_last (h : Written s ws t) (hsome : ∃ w ∈ ws, SameFile s w.1 base) :
    ∃ pre name g post, ws = pre ++ (name,g)::post ∧ SameFile s name base ∧
      (∀ w ∈ post, ¬SameFile s w.1 base) ∧ Holds t base g := by
  induction h with
  | nil => simp at hsome
  | @cons s u t name g' ws head tail ih =>
    by_cases hlater : ∃ w ∈ ws, SameFile s w.1 base
    · obtain ⟨pre,other,g,post,rfl,hsame,hpost,hholds⟩ := ih (by simpa only [sameFile_write head])
      refine ⟨(name,g') :: pre,other,g,post,rfl,(sameFile_write head).mp hsame,?_,hholds⟩
      simpa only [sameFile_write head] using hpost
    · have hnone : ∀ w ∈ ws, ¬SameFile s w.1 base := fun w hw hs => hlater ⟨w,hw,hs⟩
      have hfirst : SameFile s name base := by
        obtain ⟨w,hw,hs⟩ := hsome
        rcases List.mem_cons.mp hw with rfl | hw
        · exact hs
        · exact absurd hs (hnone w hw)
      refine ⟨[],name,g',ws,rfl,hfirst,hnone,(holds_write head hfirst).written tail ?_⟩
      simpa only [sameFile_write head] using hnone

theorem Written.sameFile_self (h : Written s ws t) (hb : base ∈ ws.map Prod.fst) :
    SameFile s base base := by
  induction h with
  | nil => cases hb
  | cons head tail ih =>
    rcases List.mem_cons.mp hb with rfl | hb
    · exact Cfl.sameFile_self head
    · exact (sameFile_write head).mp (ih hb)

/-- Whether writes succeed is a matter of the paths alone. -/
theorem exists_written_iff : (∃ t, Written s ws t) ↔ ∀ w ∈ ws, Writable s w.1 := by
  induction ws generalizing s with
  | nil => exact ⟨fun _ => nofun,fun _ => ⟨s,.nil s⟩⟩
  | cons w ws ih =>
    obtain ⟨base,g⟩ := w
    rw [List.forall_mem_cons]
    constructor
    · rintro ⟨t,h⟩
      cases h with
      | cons head tail =>
        refine ⟨(exists_write_iff g).mp ⟨_,head⟩,fun w hw => ?_⟩
        exact (writable_write head).mp (ih.mp ⟨t,tail⟩ w hw)
    · rintro ⟨hw,hws⟩
      obtain ⟨u,hu⟩ := (exists_write_iff g).mpr hw
      obtain ⟨t,ht⟩ := ih.mpr fun w hw => (writable_write hu).mpr (hws w hw)
      exact ⟨t,.cons hu ht⟩

/-- After any number of writes an array is read under each basename that was used: the last one
that was written to its place, at single precision and without the axes that are dropped. Writes
to other places leave it alone, and basenames that do not end in the same name lead to different
places. And an array that was read once comes back as it is. -/
theorem read_written (h : Written s ws t)
    (ha : ∀ w ∈ ws, allocatable Cplx.size w.2.shape = true) :
    (∀ base ∈ ws.map Prod.fst, ∃ pre name g post, ws = pre ++ (name,g)::post ∧
      location name = location base ∧ (∀ w ∈ post, location w.1 ≠ location base) ∧
      ∃ g', read t base = .ok (.ok g') ∧ Restored g g') ∧
    (∀ a b, location a = location b → (pathNames a).getLast? = (pathNames b).getLast?) ∧
    ∀ u v base name g, read u name = .ok (.ok g) → write u base g = (v,.ok ()) →
      ∃ g', read v base = .ok (.ok g') ∧ Reproduced g g' := by
  refine ⟨fun base hb => ?_,fun a b => getLast?_of_location,fun u v base name g hread hwrite => ?_⟩
  · have hsame : ∀ w ∈ ws, SameFile s w.1 base ↔ location w.1 = location base :=
      fun w hw => sameFile_iff (h.sameFile_self (List.mem_map_of_mem hw)) (h.sameFile_self hb)
    obtain ⟨w,hw,rfl⟩ := List.mem_map.mp hb
    obtain ⟨pre,name,g,post,rfl,hname,hpost,hholds⟩ := h.exists_last ⟨w,hw,(hsame w hw).mpr rfl⟩
    have hlast : (name,g) ∈ pre ++ (name,g)::post := by simp
    refine ⟨pre,name,g,post,rfl,(hsame _ hlast).mp hname,fun w' hw' h => ?_,
      hholds.exists_read (storable_of_allocatable (ha _ hlast))⟩
    exact hpost w' hw' ((hsame w' (by simp [hw'])).mpr h)
  · have hg := single_of_read hread
    obtain ⟨g',hg',hrestored⟩ := (holds_write hwrite (sameFile_self hwrite)).exists_read hg.storable
    exact ⟨g',hg',hrestored.reproduced hg⟩

/-- Two entries below each other. -/
def column : Image where
  axes := [⟨2,1⟩,⟨1,2⟩]
  data := #[⟨0x3FE0000000000000,0⟩,⟨0x3FF0000000000000,0⟩]
  stored := fun _ => by decide

/-- The double next to one, and no axes. -/
def point : Image where
  axes := []
  data := #[⟨0x3FF0000000000001,0⟩]
  stored := fun _ => by decide

/-- The second path leads to the files of the first one. -/
theorem read_overwritten : ∃ t g', Written .empty [("a",column),("./a",point)] t ∧
    read t "a" = .ok (.ok g') ∧ g'.shape = [1] ∧
    ∀ h, g'.entry [0] h = ⟨0x3FF0000000000000,0⟩ := by
  have hheader : Store.empty.place? (headerPath "a") = some ["a.hdr"] := by decide +kernel
  have hheader' : Store.empty.place? (headerPath "./a") = some ["a.hdr"] := by decide +kernel
  have hdata : Store.empty.place? (dataPath "a") = some ["a.cfl"] := by decide +kernel
  have hdata' : Store.empty.place? (dataPath "./a") = some ["a.cfl"] := by decide +kernel
  have hwritable : ∀ w ∈ [("a",column),("./a",point)], Writable .empty w.1 := by
    simp only [List.forall_mem_cons]
    exact ⟨⟨⟨_,hheader,rfl⟩,_,hdata,rfl⟩,⟨⟨_,hheader',rfl⟩,_,hdata',rfl⟩,nofun⟩
  obtain ⟨t,ht⟩ := exists_written_iff.mpr hwritable
  have hmade : ∀ w ∈ [("a",column),("./a",point)], allocatable Cplx.size w.2.shape = true := by
    simp only [List.forall_mem_cons]
    exact ⟨by decide,by decide,nofun⟩
  obtain ⟨pre,name,g,post,hws,_,hpost,g',hread,hrestored⟩ :=
    (read_written ht hmade).1 "a" List.mem_cons_self
  have hlast : g = point := by
    cases pre with
    | nil =>
      cases hws
      have hplace : location "./a" = location "a" :=
        (eq_destination hheader').symm.trans (eq_destination hheader)
      exact absurd hplace (hpost _ List.mem_cons_self)
    | cons w pre =>
      cases pre with
      | nil => cases hws; rfl
      | cons w' pre => cases pre <;> cases hws
  subst hlast
  have hshape : g'.shape = [1] := by
    rcases hrestored.shape with ⟨_,hone⟩ | ⟨n,hn⟩
    · exact hone
    · exact absurd (List.append_eq_nil_iff.mp hn.symm).1 hrestored.least.1
  refine ⟨t,g',ht,hread,hshape,fun h => ?_⟩
  obtain ⟨_,hentry⟩ := hrestored.entry [0] h
  have hre : Sample.kept 0x3FF0000000000001 = 0x3FF0000000000000 := by decide
  have him : Sample.kept 0 = 0 := by decide
  rw [hentry,← hre]
  exact congrArg (Cplx.mk _) him

end LinearInverse.Cfl
