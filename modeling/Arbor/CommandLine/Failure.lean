import Arbor.Error.Message

/-!
# Failures

What ends a run of the program before its work is done, and how it is reported: a headline and, where there are any, the
causes behind it.
-/

namespace Arbor

/-- What made the program fail. -/
inductive Failure where
  | plain (error : Error Float)
  /-- The definition at a path is of no use. -/
  | loading (path : String) (error : Error Float)
  /-- A path asks for no known format. -/
  | unsupportedOutput (path : String)
deriving Repr

namespace Failure

/-- The failure in a line. -/
def headline : Failure → String
  | plain error => error.message
  | loading path _ => "loading " ++ path
  | unsupportedOutput path => "unsupported output extension: " ++ path ++ " (expected .obj or .json)"

/-- What lies behind the failure, the nearest cause first. -/
def causes : Failure → List String
  | plain error => error.causes
  | loading _ error => error.message :: error.causes
  | unsupportedOutput _ => []

/-- A text whose first line follows `first`, and all others `further`. -/
def indent (first further text : String) : String :=
  first ++ ("\n" ++ further).intercalate ((text.toList.splitOn '\n').map String.ofList)

/-- The lines of the causes; they are numbered if there are several. -/
def causeLines : List String → List String
  | [] => []
  | [cause] => [indent "    " "    " cause]
  | causes => causes.zipIdx.map fun (cause, i) =>
    let number := toString i
    indent ("".pushn ' ' (5 - number.length) ++ number ++ ": ") "       " cause

/-- The report of a failure. -/
def report (f : Failure) : String :=
  let causes := if f.causes.isEmpty then "" else "\n\nCaused by:\n" ++ "\n".intercalate (causeLines f.causes)
  "Error: " ++ f.headline ++ causes ++ "\n"

end Failure

end Arbor
