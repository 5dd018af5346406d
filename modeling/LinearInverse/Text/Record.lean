namespace LinearInverse.Text

def commaSeparated (parts : List String) : String :=
  String.intercalate ", " parts

def list (parts : List String) : String :=
  "[" ++ commaSeparated parts ++ "]"

def sizes (dims : List Nat) : String :=
  list (dims.map toString)

/-- Braces are written as character codes. -/
def braced (inner : String) : String :=
  "\x7b " ++ inner ++ " \x7d"

def field (f : String × String) : String :=
  f.1 ++ ": " ++ f.2

def record (name : String) (fields : List (String × String)) : String :=
  name ++ " " ++ braced (commaSeparated (fields.map field))

/-- A record of which only some fields are written. -/
def openRecord (name : String) (fields : List (String × String)) : String :=
  name ++ " " ++ braced (commaSeparated (fields.map field ++ [".."]))

/-- For names, which hold nothing that has to be escaped. -/
def quoted (text : String) : String :=
  "\"" ++ text ++ "\""

def bool (b : Bool) : String :=
  if b then "true" else "false"

def optional (write : β → String) : Option β → String
  | some v => "Some(" ++ write v ++ ")"
  | none => "None"

end LinearInverse.Text
