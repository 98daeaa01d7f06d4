import Arbor.Export.Obj
import Arbor.Path
import Arbor.Tree.Json

/-!
# Files of trees

The extension of a path decides the format of the file (`Format.ofPath?`).
-/

namespace Arbor

/-- The form in which a tree is written to a file. -/
inductive Format where
  | obj
  | json
deriving DecidableEq, Repr

namespace Format

/-- The format that is taken where none is asked for. -/
def standard : Format := obj

/-- The format that a path asks for. -/
def ofPath? (path : String) : Option Format :=
  match Path.extension? path with
  | some "obj" => some obj
  | some "json" => some json
  | _ => none

/-- The extension of its files. -/
def extension : Format → String
  | obj => "obj"
  | json => "json"

/-- Its name for users. -/
def name : Format → String
  | obj => "OBJ (baked leaves)"
  | json => "JSON (raw buffers)"

/-- The file of a tree. -/
def render : Format → Tree → String
  | obj, t => Obj.text t
  | json, t => t.toJson.pretty

end Format

end Arbor
