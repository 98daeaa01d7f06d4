import Arbor.Path

/-!
# Directories

A directory holds files and no further directories. Paths are followed from it part by part (`Directory.walk`). They
may lead to the directories above it, in which nothing can be found. `Directory.read` and `Directory.write` say what
the end of a path has to be.
-/

namespace Arbor

/-- Files, by name. -/
structure Directory where
  files : List (String × ByteArray)

/-- What a part of a path leads to. -/
inductive Place where
  /-- The directory from which paths start. -/
  | home
  /-- A directory above it. -/
  | above
  | file (content : ByteArray)

namespace Place

/-- The place from which a path is followed. -/
def start (path : String) : Place := if Path.isAbsolute path then above else home

end Place

namespace Directory

/-- The directory without files. -/
def empty : Directory := ⟨[]⟩

/-- The content of a file. -/
def find? (d : Directory) (name : String) : Option ByteArray := (d.files.find? (·.1 == name)).map (·.2)

/-- The directory with a file of this content, and all others as they are. -/
def put (d : Directory) (name : String) (content : ByteArray) : Directory :=
  ⟨(name, content) :: d.files.filter (·.1 != name)⟩

/-- What the directory has under a name. -/
def lookup (d : Directory) (name : String) : Except FileFault Place :=
  match d.find? name with
  | some content => .ok (.file content)
  | none => .error .missing

/-- Follows one part of a path. From a file no part leads on, not even `.`. -/
def step (d : Directory) (p : Place) (part : String) : Except FileFault Place :=
  match p with
  | .file _ => .error .notDirectory
  | p =>
    if part == "." then .ok p
    else if part == ".." then .ok .above
    else if Path.maxName < part.utf8ByteSize then .error .nameTooLong
    else match p with
      | .home => d.lookup part
      | _ => .error .missing

/-- Follows the parts of a path. -/
def walk (d : Directory) (p : Place) (parts : List String) : Except FileFault Place := parts.foldlM d.step p

/-- The content of the file that a path leads to. -/
def read (d : Directory) (path : String) : Except FileFault ByteArray := do
  Path.check path
  match ← d.walk (.start path) (Path.parts path) with
  | .file content => if Path.endsInSlash path then throw .notDirectory else return content
  | _ => throw .isDirectory

/-- The name under which a new file can be written to a path, once everything before its last part is known to be
there. A slash at the end asks for a directory, whatever the last part is. -/
def target (d : Directory) (path : String) : Except FileFault String := do
  Path.check path
  let parts := Path.parts path
  match ← d.walk (.start path) parts.dropLast, parts.getLast? with
  | .file _, _ => throw .notDirectory
  | _, none => throw .isDirectory
  | p, some name =>
    if name == "." || name == ".." || Path.endsInSlash path then throw .isDirectory
    else if Path.maxName < name.utf8ByteSize then throw .nameTooLong
    else match p with
      | .home => return name
      | _ => throw .missing

/-- The directory after the file that a path leads to has been given a content. -/
def write (d : Directory) (path : String) (content : ByteArray) : Except FileFault Directory := do
  let name ← d.target path
  return d.put name content

end Directory

/-- The text of a file. -/
def textOf (content : ByteArray) : Except FileFault String :=
  match String.fromUTF8? content with
  | some text => .ok text
  | none => .error .notText

end Arbor
