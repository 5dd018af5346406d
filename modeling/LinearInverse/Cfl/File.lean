import LinearInverse.Cfl.Header
import LinearInverse.Cfl.Sample
import LinearInverse.Cfl.Store
import LinearInverse.Grid.Basic

namespace LinearInverse.Cfl

inductive FileError where
  | io (path : String)
  | invalidHeader (path : String) (fault : Header.Fault)
  | truncated (path : String) (expected found : Nat)
  | unaddressable (dims : List Nat)
  deriving DecidableEq, Repr

/-- The text, where it is this library's own. -/
def FileError.message? : FileError → Option String
  | io _ => none
  | invalidHeader p f => some ("Invalid header " ++ p ++ ": " ++ f.message)
  | truncated p e f =>
    some ("Truncated data file " ++ p ++ ": expected " ++ toString e ++ " bytes, found " ++
      toString f)
  | unaddressable _ => none

/-- Arrays hold bit patterns of doubles, so that what a file has in place of a number is kept. -/
abbrev Image := Grid (Cplx UInt64)

/-- The header has the shape, the data file the elements with the first axis fastest. -/
def headerPath (base : String) : String := base ++ ".hdr"

def dataPath (base : String) : String := base ++ ".cfl"

/-- A header has to be UTF-8. -/
def shapeIn (s : Store) (base : String) : Except FileError (List Nat) :=
  match (s.content? (headerPath base)).bind ByteArray.utf8Decode? with
  | none => .error (.io (headerPath base))
  | some text => (Header.read text.toList).mapError (.invalidHeader (headerPath base))

/-- Bytes that a shape asks for, below the size of any file. -/
def byteCount (dims : List Nat) : Checked UInt64 Nat :=
  match (Grid.size? dims).bind (Grid.bytes? Sample.size) with
  | some n => .ok n
  | none => .error .sizeOverflow

/-- Bytes behind the ones that are asked for are not looked at. Memory is taken to have room for
every data file that exists, and for its elements, which take twice its bytes. -/
def imageIn (s : Store) (base : String) (dims : List Nat) (count : Nat) :
    Except FileError Image :=
  match s.content? (dataPath base) with
  | none => .error (.io (dataPath base))
  | some content =>
    let stored := content.data.toList
    if stored.length < count then .error (.truncated (dataPath base) count stored.length)
    else match Grid.ofColumnMajor? dims (Sample.decode (stored.take count)) with
      | some g => .ok g
      | none => .error (.unaddressable dims)

/-- The size is computed before the data file is opened. -/
def read (s : Store) (base : String) : Checked UInt64 (Except FileError Image) :=
  match shapeIn s base with
  | .error e => .ok (.error e)
  | .ok dims => (byteCount dims).map (imageIn s base dims)

/-- The header is written first, and stays if the data cannot be written. -/
def write (s : Store) (base : String) (g : Image) : Store × Except FileError Unit :=
  match s.write? (headerPath base) (String.ofList (Header.write g.shape)).toUTF8 with
  | none => (s,.error (.io (headerPath base)))
  | some s =>
    match s.write? (dataPath base) (Sample.encode g.columnEntries).toByteArray with
    | none => (s,.error (.io (dataPath base)))
    | some s => (s,.ok ())

end LinearInverse.Cfl
