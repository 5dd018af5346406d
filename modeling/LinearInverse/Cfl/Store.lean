import LinearInverse.Text.Blank

namespace LinearInverse.Cfl

inductive Node where
  | file (content : ByteArray)
  | directory

/-- The names on the way down from where paths begin, the last one first. -/
abbrev Place := List String

/-- The names between the slashes of a path. -/
def pathNames (path : String) : List String :=
  (Text.splitWhere (· == '/') path.toList).map String.ofList

/-- Paths have at most 4095 bytes. -/
def isPath (path : String) : Bool :=
  path.utf8ByteSize ≤ 4095

/-- Names have at most 255 bytes, none of them zero. -/
def isName (name : String) : Bool :=
  name.utf8ByteSize ≤ 255 && !name.toList.contains '\x00'

/-- A path is followed from directory to directory, and where it leads is a place. Paths that lead
to one place name one file. All begin at the root, which a slash in front does not change, and none
leads out of the store. -/
structure Store where
  node? : Place → Option Node

namespace Store

def empty : Store := ⟨fun p => if p.isEmpty then some .directory else none⟩

def isDirectory (s : Store) (p : Place) : Bool :=
  match s.node? p with
  | some .directory => true
  | _ => false

def put (s : Store) (p : Place) (n : Node) : Store :=
  ⟨fun q => if q = p then some n else s.node? q⟩

/-- Only directories lead on. An empty name and a dot stay there, and two dots go back. -/
def follow (s : Store) (p : Place) (name : String) : Option Place :=
  if !s.isDirectory p then none
  else if name = "" ∨ name = "." then some p
  else if name = ".." then p.tail?
  else if isName name then some (name :: p)
  else none

/-- Where names lead, whether or not something is there yet. -/
def reach? (s : Store) (names : List String) : Option Place :=
  names.foldlM s.follow []

def place? (s : Store) (path : String) : Option Place :=
  if isPath path then s.reach? (pathNames path) else none

def content? (s : Store) (path : String) : Option ByteArray :=
  match (s.place? path).bind s.node? with
  | some (.file c) => some c
  | _ => none

/-- Replaces the content of a file or makes a new one. -/
def write? (s : Store) (path : String) (content : ByteArray) : Option Store :=
  match s.place? path with
  | some p => if s.isDirectory p then none else some (s.put p (.file content))
  | none => none

/-- Only where nothing is yet. Slashes at the end of the path are allowed. -/
def createDirectory? (s : Store) (path : String) : Option Store :=
  let names := ((pathNames path).reverse.dropWhile (· == "")).reverse
  match if isPath path then s.reach? names else none with
  | some p => if (s.node? p).isNone then some (s.put p .directory) else none
  | none => none

theorem isDirectory_put_file {s : Store} {p : Place} (h : s.isDirectory p = false) (q : Place) :
    (s.put p (.file c)).isDirectory q = s.isDirectory q := by
  by_cases hq : q = p
  · subst q
    rw [h]
    simp [isDirectory,put]
  · simp [isDirectory,put,hq]

theorem follow_put_file {s : Store} {p : Place} (h : s.isDirectory p = false) :
    (s.put p (.file c)).follow = s.follow := by
  funext q name
  simp [follow,isDirectory_put_file h]

theorem write?_eq_some {s t : Store} (h : s.write? path c = some t) :
    ∃ p, s.place? path = some p ∧ s.isDirectory p = false ∧ t = s.put p (.file c) := by
  unfold write? at h
  split at h
  · next p hp =>
    split at h
    · simp at h
    · next hd => exact ⟨p,hp,by simpa using hd,(Option.some.inj h).symm⟩
  · simp at h

/-- Paths lead where they led before. -/
theorem place?_write? {s t : Store} (h : s.write? path c = some t) (other : String) :
    t.place? other = s.place? other := by
  obtain ⟨p,_,hd,rfl⟩ := write?_eq_some h
  simp [place?,reach?,follow_put_file hd]

/-- What was written is read back by the paths that lead to its place, and by no other. -/
theorem content?_write? {s t : Store} (h : s.write? path c = some t) (other : String) :
    t.content? other =
      if s.place? other = s.place? path then some c else s.content? other := by
  have hp := place?_write? h other
  obtain ⟨p,hs,hd,rfl⟩ := write?_eq_some h
  rw [content?,hp,hs]
  cases ho : s.place? other with
  | none => simp [content?,ho]
  | some q => by_cases hq : q = p <;> simp [content?,ho,put,hq]

end Store

end LinearInverse.Cfl
