import LinearInverse.Cfl.File
import LinearInverse.Proofs.Text

namespace LinearInverse.Cfl

/-- What a path is continued with: four bytes, none of them a slash or zero. -/
structure Extension (ext : String) : Prop where
  bytes : ext.utf8ByteSize = 4
  length : ext.toList.length = 4
  plain : ∀ c ∈ ext.toList, (c == '/') = false ∧ c ≠ '\x00'

theorem plain_of_all {cs : List Char} (h : cs.all (fun c => c != '/' && c != '\x00') = true) :
    ∀ c ∈ cs, (c == '/') = false ∧ c ≠ '\x00' := by
  simpa [List.all_eq_true] using h

theorem extension_header : Extension ".hdr" :=
  ⟨by decide,by decide,plain_of_all (by decide +kernel)⟩

theorem extension_data : Extension ".cfl" :=
  ⟨by decide,by decide,plain_of_all (by decide +kernel)⟩

variable {s t : Store} {a b ext : String}

/-- The last name of a path, which the extension is added to. -/
theorem exists_pathNames (base : String) : ∃ names name,
    pathNames base = names ++ [name] ∧
      ∀ ext, Extension ext → pathNames (base ++ ext) = names ++ [name ++ ext] := by
  obtain ⟨ts,t,ht⟩ := Text.exists_splitWhere_append (· == '/') base.toList
  refine ⟨ts.map String.ofList,String.ofList t,?_,fun ext he => ?_⟩
  · have h := ht [] nofun
    rw [List.append_nil,List.append_nil] at h
    rw [pathNames,h,List.map_append,List.map_singleton]
  · rw [pathNames,String.toList_append,ht _ fun c hc => (he.plain c hc).1,List.map_append,
      List.map_singleton,String.ofList_append,String.ofList_toList]

theorem Extension.isName_iff (he : Extension ext) (name : String) :
    isName (name ++ ext) = true ↔ name.utf8ByteSize + 4 ≤ 255 ∧ '\x00' ∉ name.toList := by
  have hext : '\x00' ∉ ext.toList := fun h => (he.plain _ h).2 rfl
  rw [isName,String.utf8ByteSize_append,he.bytes,String.toList_append,Bool.and_eq_true,
    decide_eq_true_eq,Bool.not_eq_true',← Bool.not_eq_true,List.contains_iff_mem,List.mem_append,
    or_iff_left hext]

/-- The directory that a name leads to from another one, if it leads anywhere. -/
def turn (d : Place) (name : String) : Place :=
  if name = "" ∨ name = "." then d else if name = ".." then d.tail else name :: d

/-- A name with an extension is none of those that lead elsewhere. -/
theorem Extension.not_special (he : Extension ext) (name : String) :
    ¬(name ++ ext = "" ∨ name ++ ext = ".") ∧ name ++ ext ≠ ".." := by
  have hlen : (name ++ ext).toList.length = name.toList.length + 4 := by
    rw [String.toList_append,List.length_append,he.length]
  have hother : ∀ other : String, other.toList.length < 4 → name ++ ext ≠ other := by
    intro other hlt h
    rw [h] at hlen
    omega
  refine ⟨?_,hother ".." (by decide)⟩
  rintro (h | h)
  · exact hother "" (by decide) h
  · exact hother "." (by decide) h

theorem Extension.turn_eq (he : Extension ext) (d : Place) (name : String) :
    turn d (name ++ ext) = (name ++ ext) :: d := by
  obtain ⟨hstay,hback⟩ := he.not_special name
  rw [turn,if_neg hstay,if_neg hback]

theorem Extension.follow_eq (he : Extension ext) (s : Store) (d : Place) (name : String) :
    s.follow d (name ++ ext) =
      if s.isDirectory d = true ∧ isName (name ++ ext) = true then some ((name ++ ext) :: d)
      else none := by
  obtain ⟨hstay,hback⟩ := he.not_special name
  rw [Store.follow,if_neg hstay,if_neg hback]
  cases s.isDirectory d <;> cases isName (name ++ ext) <;> rfl

theorem Extension.isPath_iff (he : Extension ext) (base : String) :
    isPath (base ++ ext) = true ↔ base.utf8ByteSize + 4 ≤ 4095 := by
  rw [isPath,String.utf8ByteSize_append,he.bytes,decide_eq_true_eq]

/-- Where a path leads with an extension is a matter of the folder and the name there that it
leads to without. -/
theorem exists_stem (s : Store) (base : String) : ∃ stem : Option (Place × String),
    ∀ ext, Extension ext → s.place? (base ++ ext) = stem.map fun p => (p.2 ++ ext) :: p.1 := by
  obtain ⟨names,name,_,hnames⟩ := exists_pathNames base
  have hplace : ∀ ext, Extension ext → s.place? (base ++ ext) =
      if base.utf8ByteSize + 4 ≤ 4095 then
        (s.reach? names).bind fun d => s.follow d (name ++ ext)
      else none := by
    intro ext he
    rw [Store.place?,hnames ext he,Store.reach?,List.foldlM_append]
    simp only [he.isPath_iff,List.foldlM_cons,List.foldlM_nil,bind_pure]
    rfl
  by_cases hpath : base.utf8ByteSize + 4 ≤ 4095
  · cases hd : s.reach? names with
    | none =>
      refine ⟨none,fun ext he => ?_⟩
      rw [hplace ext he,if_pos hpath,hd]
      rfl
    | some d =>
      by_cases hok : s.isDirectory d = true ∧ name.utf8ByteSize + 4 ≤ 255 ∧ '\x00' ∉ name.toList
      · refine ⟨some (d,name),fun ext he => ?_⟩
        rw [hplace ext he,if_pos hpath,hd,Option.bind_some,he.follow_eq,
          if_pos ⟨hok.1,(he.isName_iff name).mpr hok.2⟩]
        rfl
      · refine ⟨none,fun ext he => ?_⟩
        rw [hplace ext he,if_pos hpath,hd,Option.bind_some,he.follow_eq,
          if_neg fun h => hok ⟨h.1,(he.isName_iff name).mp h.2⟩]
        rfl
  · refine ⟨none,fun ext he => ?_⟩
    rw [hplace ext he,if_neg hpath]
    rfl

theorem isDirectory_write? {path : String} {c : ByteArray} (h : s.write? path c = some t)
    (p : Place) : t.isDirectory p = s.isDirectory p := by
  obtain ⟨q,_,hq,rfl⟩ := Store.write?_eq_some h
  exact Store.isDirectory_put_file hq p

/-- A path can be written to whatever the content. -/
theorem exists_write?_iff {path : String} (c : ByteArray) : (∃ t, s.write? path c = some t) ↔
    ∃ p, s.place? path = some p ∧ s.isDirectory p = false := by
  constructor
  · rintro ⟨t,h⟩
    obtain ⟨p,hp,hd,_⟩ := Store.write?_eq_some h
    exact ⟨p,hp,hd⟩
  · rintro ⟨p,hp,hd⟩
    refine ⟨s.put p (.file c),?_⟩
    rw [Store.write?,hp]
    simp [hd]

theorem exists_place {path : String} {c : ByteArray} (h : s.content? path = some c) :
    ∃ p, s.place? path = some p := by
  cases hp : s.place? path with
  | some p => exact ⟨p,rfl⟩
  | none => simp [Store.content?,hp] at h

/-- Two basenames lead to the same header. -/
def SameFile (s : Store) (a b : String) : Prop :=
  ∃ p, s.place? (headerPath a) = some p ∧ s.place? (headerPath b) = some p

theorem concat_inj {d d' : Place} {ext' : String} (he : Extension ext) (he' : Extension ext')
    (h : (a ++ ext) :: d = (b ++ ext') :: d') : a = b ∧ ext = ext' ∧ d = d' := by
  obtain ⟨hname,hd⟩ := List.cons.inj h
  have hlist := congrArg String.toList hname
  rw [String.toList_append,String.toList_append] at hlist
  obtain ⟨ha,hext⟩ := List.append_inj' hlist (he.length.trans he'.length.symm)
  exact ⟨String.toList_inj.mp ha,String.toList_inj.mp hext,hd⟩

/-- No path leads to a header and to a data file. -/
theorem place?_header_ne_data {p : Place} (ha : s.place? (headerPath a) = some p) :
    s.place? (dataPath b) ≠ some p := by
  intro hb
  obtain ⟨stem,hstem⟩ := exists_stem s a
  obtain ⟨stem',hstem'⟩ := exists_stem s b
  rw [headerPath,hstem _ extension_header] at ha
  rw [dataPath,hstem' _ extension_data] at hb
  obtain ⟨q,_,hq⟩ := Option.map_eq_some_iff.mp ha
  obtain ⟨q',_,hq'⟩ := Option.map_eq_some_iff.mp hb
  obtain ⟨_,hext,_⟩ := concat_inj extension_header extension_data (hq.trans hq'.symm)
  exact absurd hext (by decide)

/-- Paths that lead to one file for one extension do so for every other one. -/
theorem place?_of_place? {ext' : String} (he : Extension ext) (he' : Extension ext') {p : Place}
    (ha : s.place? (a ++ ext) = some p) (hb : s.place? (b ++ ext) = some p) :
    ∃ q, s.place? (a ++ ext') = some q ∧ s.place? (b ++ ext') = some q := by
  obtain ⟨stem,hstem⟩ := exists_stem s a
  obtain ⟨stem',hstem'⟩ := exists_stem s b
  rw [hstem _ he] at ha
  rw [hstem' _ he] at hb
  obtain ⟨⟨d,name⟩,hd,hp⟩ := Option.map_eq_some_iff.mp ha
  obtain ⟨⟨d',name'⟩,hd',hp'⟩ := Option.map_eq_some_iff.mp hb
  obtain ⟨rfl,_,rfl⟩ := concat_inj he he (hp.trans hp'.symm)
  refine ⟨(name ++ ext') :: d,?_,?_⟩
  · rw [hstem _ he',hd]
    rfl
  · rw [hstem' _ he',hd']
    rfl

theorem SameFile.exists_data (h : SameFile s a b) :
    ∃ q, s.place? (dataPath a) = some q ∧ s.place? (dataPath b) = some q := by
  obtain ⟨p,ha,hb⟩ := h
  exact place?_of_place? extension_header extension_data ha hb

theorem sameFile_of_data {q : Place} (ha : s.place? (dataPath a) = some q)
    (hb : s.place? (dataPath b) = some q) : SameFile s a b :=
  place?_of_place? extension_data extension_header ha hb

/-- Where a path leads, if anywhere. The store has no say in this. -/
def destination (path : String) : Place :=
  (pathNames path).foldl turn []

theorem follow_eq_some {d p : Place} {name : String} (h : s.follow d name = some p) :
    p = turn d name := by
  unfold Store.follow at h
  split at h
  next => cases h
  next =>
    split at h
    next hstay =>
      rw [turn,if_pos hstay]
      exact (Option.some.inj h).symm
    next hstay =>
      rw [turn,if_neg hstay]
      split at h
      next hback =>
        rw [if_pos hback]
        cases d with
        | nil => cases h
        | cons _ d => exact (Option.some.inj h).symm
      next hback =>
        rw [if_neg hback]
        split at h
        next => exact (Option.some.inj h).symm
        next => cases h

theorem foldlM_follow {names : List String} {d p : Place}
    (h : names.foldlM s.follow d = some p) : p = names.foldl turn d := by
  induction names generalizing d with
  | nil => exact (Option.some.inj h).symm
  | cons name names ih =>
    obtain ⟨d',hd,h⟩ := Option.bind_eq_some_iff.mp h
    rw [ih h,follow_eq_some hd]
    rfl

theorem eq_destination {path : String} {p : Place} (h : s.place? path = some p) :
    p = destination path := by
  unfold Store.place? at h
  split at h
  next => exact foldlM_follow h
  next => cases h

/-- The place of an array in any store that has one for it. -/
def location (base : String) : Place :=
  destination (headerPath base)

theorem sameFile_iff (ha : SameFile s a a) (hb : SameFile s b b) :
    SameFile s a b ↔ location a = location b := by
  constructor
  · rintro ⟨p,hp,hq⟩
    exact (eq_destination hp).symm.trans (eq_destination hq)
  · intro h
    obtain ⟨p,hp,_⟩ := ha
    obtain ⟨q,hq,_⟩ := hb
    obtain rfl : p = q := (eq_destination hp).trans (h.trans (eq_destination hq).symm)
    exact ⟨p,hp,hq⟩

theorem exists_location (base : String) : ∃ names name,
    pathNames base = names ++ [name] ∧ location base = (name ++ ".hdr") :: names.foldl turn [] := by
  obtain ⟨names,name,hbase,hname⟩ := exists_pathNames base
  refine ⟨names,name,hbase,?_⟩
  rw [location,destination,headerPath,hname _ extension_header,List.foldl_append,List.foldl_cons,
    List.foldl_nil,extension_header.turn_eq]

/-- Only paths that end in the same name can lead to the same place. -/
theorem getLast?_of_location (h : location a = location b) :
    (pathNames a).getLast? = (pathNames b).getLast? := by
  obtain ⟨names,name,ha,hloc⟩ := exists_location a
  obtain ⟨names',name',hb,hloc'⟩ := exists_location b
  rw [hloc,hloc'] at h
  obtain ⟨rfl,_⟩ := concat_inj extension_header extension_header h
  rw [ha,hb,List.getLast?_concat,List.getLast?_concat]

end LinearInverse.Cfl
