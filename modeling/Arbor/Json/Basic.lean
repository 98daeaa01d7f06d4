import Arbor.Error
import Arbor.Rounding

/-!
# JSON values

A JSON value, as a text gives it. A text need not be JSON to its end, and what stands before its first fault can still
be of the wrong shape; so a value can end in a fault. `Json.unreadable` and `Json.broken` mark faults inside a value,
and an array or an object keeps the fault, if any, that is met while it is passed over (`Json.fault?`). The values
that the library itself makes have no faults: `Json.list` and `Json.record`.
-/

namespace Arbor

namespace Json

/-- A number. Whole numbers keep all their digits. -/
inductive Number where
  | integer (n : Int)
  | double (x : Float)
  | single (x : Float32)
deriving DecidableEq, Repr

/-- The name of a member, or the fault in it. -/
abbrev Key := Except JsonFault String

end Json

/-- A JSON value. -/
inductive Json where
  | null
  | bool (b : Bool)
  | number (n : Json.Number)
  | string (s : String)
  | array (items : List Json) (fault : Option JsonFault)
  | object (members : List (Json.Key × Json)) (fault : Option JsonFault)
  /-- A whole value, no use to a reader: half a character in a string, or a number beyond all doubles. -/
  | unreadable (fault : JsonFault)
  /-- Where the text stops being JSON: the fault for a reader of the value, and for one that only passes over it. -/
  | broken (read skipped : JsonFault)
deriving Repr

namespace Json

/-- An array without faults. -/
def list (items : List Json) : Json := .array items none

/-- An object without faults. -/
def record (members : List (String × Json)) : Json := .object (members.map fun (name, v) => (.ok name, v)) none

/-- A whole number. -/
def natural (n : Nat) : Json := .number (.integer n)

/-- A double; what is not a finite number is written as null. -/
def double (x : Float) : Json := if x.isFinite then .number (.double x) else .null

/-- A single; what is not a finite number is written as null. -/
def single (x : Float32) : Json := if x.isFinite then .number (.single x) else .null

/-- The fault met while passing over a value. -/
def fault? : Json → Option JsonFault
  | array _ fault => fault
  | object _ fault => fault
  | broken _ skipped => some skipped
  | _ => none

end Json

end Arbor
