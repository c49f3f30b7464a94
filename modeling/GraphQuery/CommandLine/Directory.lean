namespace GraphQuery.CommandLine

/-! A directory of files, and what is found at a path. Of what lies above the
directory nothing is known but that it consists of directories. -/

inductive PathFault where
  | missing
  | notDirectory
  | isDirectory
  | nameTooLong
  | zeroCharacter
deriving DecidableEq, Repr

def PathFault.message : PathFault → String
  | .missing => "No such file or directory (os error 2)"
  | .notDirectory => "Not a directory (os error 20)"
  | .isDirectory => "Is a directory (os error 21)"
  | .nameTooLong => "File name too long (os error 36)"
  | .zeroCharacter => "file name contained an unexpected NUL byte"

/-- A place is told by the names that lead to it from the directory. -/
inductive Place where
  | inside (names : List String)
  | outside
deriving DecidableEq, Repr

/-- The texts of the files, each with the names that lead to it. The file that
was written last is the first one. -/
structure Directory where
  files : List (List String × String)

namespace Directory

/-! ## Names -/

def parts (path : String) : List String := path.splitOn "/"

def staysInPlace (part : String) : Bool := part == "" || part == "."

def nameLimit : Nat := 255

def pathLimit : Nat := 4095

/-! ## Contents -/

def ofFiles (files : List (String × String)) : Directory :=
  ⟨(files.map fun file =>
    ((parts file.1).filter fun part => !staysInPlace part, file.2)).reverse⟩

def file? (names : List String) (directory : Directory) : Option String :=
  (directory.files.find? fun file => file.1 == names).map Prod.snd

def holds (names : List String) (directory : Directory) : Bool :=
  names.isEmpty || directory.files.any fun file => names.isPrefixOf file.1

/-! ## Paths -/

/-- Where one more part of a path leads. Nothing comes after a file, not even an
empty part. -/
def follow (directory : Directory) (place : Place) (part : String) : Except PathFault Place :=
  match place with
  | .outside =>
      if staysInPlace part || part == ".." then .ok .outside
      else if nameLimit < part.utf8ByteSize then .error .nameTooLong
      else .error .missing
  | .inside names =>
      if (directory.file? names).isSome then .error .notDirectory
      else if staysInPlace part then .ok (.inside names)
      else if part == ".." then
        .ok (if names.isEmpty then .outside else .inside names.dropLast)
      else if nameLimit < part.utf8ByteSize then .error .nameTooLong
      else if directory.holds (names ++ [part]) then .ok (.inside (names ++ [part]))
      else .error .missing

def start (path : String) : Place :=
  if path.toList.head? = some '/' then .outside else .inside []

def read (directory : Directory) (path : String) : Except PathFault String := do
  if path.toList.contains '\x00' then .error .zeroCharacter
  else if path.isEmpty then .error .missing
  else if pathLimit < path.utf8ByteSize then .error .nameTooLong
  else
    match ← (parts path).foldlM directory.follow (start path) with
    | .outside => .error .isDirectory
    | .inside names =>
        match directory.file? names with
        | some text => .ok text
        | none => .error .isDirectory

end Directory

end GraphQuery.CommandLine
