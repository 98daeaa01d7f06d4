import Arbor.Error

/-!
# Paths

A path is a text whose parts are separated by slashes. The part `.` leads nowhere and the part `..` to the directory
above; all others are names. A slash in front starts at the topmost directory.
-/

namespace Arbor

namespace Path

/-- The parts between the slashes. -/
def parts (path : String) : List String :=
  ((path.toList.splitOn '/').map String.ofList).filter (· != "")

/-- Whether the path starts at the topmost directory. -/
def isAbsolute (path : String) : Bool := path.toList.head? == some '/'

/-- Whether a slash follows the last part, which then has to be a directory. -/
def endsInSlash (path : String) : Bool := path.toList.getLast? == some '/'

/-- The last part that leads anywhere, if that is a name. -/
def fileName? (path : String) : Option String :=
  match ((parts path).filter (· != ".")).getLast? with
  | none => none
  | some name => if name == ".." then none else some name

/-- What stands behind the last point of the file name, if something stands before that point. -/
def extension? (path : String) : Option String := do
  let name ← fileName? path
  let behind := (name.toList.reverse.takeWhile (· != '.')).reverse
  let before := name.length - behind.length
  if 1 < before then some (String.ofList behind) else none

/-- The greatest length of a path, in bytes. -/
def maxLength : Nat := 4095

/-- The greatest length of a name, in bytes. -/
def maxName : Nat := 255

/-- Accepts a path that can be followed at all. -/
def check (path : String) : Except FileFault Unit :=
  if path.toList.contains '\x00' then .error .nullInName
  else if maxLength < path.utf8ByteSize then .error .nameTooLong
  else if path.isEmpty then .error .missing
  else .ok ()

end Path

end Arbor
