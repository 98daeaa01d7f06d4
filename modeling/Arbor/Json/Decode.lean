import Arbor.Json.Reader

/-!
# Reading values of a known shape

Each reader goes through a value in the order of the text and reports the first fault that it meets, be it a fault of
the text or a part of the wrong shape.

A record is written as an object, or as an array of its fields in their order (`Json.record?`). In an object, members
of unknown names are passed over, and a known name must not come twice.
-/

namespace Arbor

namespace Json

/-- The fault of a value that has another shape than expected. A fault of the text comes first. -/
def mismatch {β : Type} : Json → Except JsonFault β
  | unreadable fault => .error fault
  | broken read _ => .error read
  | _ => .error .mismatched

/-- A number. -/
def number? : Json → Except JsonFault Number
  | number n => .ok n
  | v => v.mismatch

/-- A double. -/
def double? (v : Json) : Except JsonFault Float := do return (← v.number?).toDouble

/-- A single. -/
def single? (v : Json) : Except JsonFault Float32 := do return (← v.number?).toSingle

/-- A whole number below a limit. -/
def below? (limit : Nat) (v : Json) : Except JsonFault Nat := do
  match ← v.number? with
  | .integer n => if 0 ≤ n ∧ n < limit then .ok n.toNat else .error .mismatched
  | _ => .error .mismatched

/-- A whole number of 32 bits. -/
def word? (v : Json) : Except JsonFault Nat := v.below? UInt32.size

/-- A whole number of 64 bits. -/
def count? (v : Json) : Except JsonFault Nat := v.below? UInt64.size

/-- A string. -/
def string? : Json → Except JsonFault String
  | string s => .ok s
  | v => v.mismatch

/-- A string of one character. -/
def char? (v : Json) : Except JsonFault Char := do
  match (← v.string?).toList with
  | [c] => .ok c
  | _ => .error .mismatched

/-- Null, or a value. -/
def option? {β : Type} (read : Json → Except JsonFault β) : Json → Except JsonFault (Option β)
  | null => .ok none
  | v => do return some (← read v)

/-- The end of a container. -/
def closed : Option JsonFault → Except JsonFault Unit
  | none => .ok ()
  | some fault => .error fault

/-- An array of any length. -/
def array? {β : Type} (read : Json → Except JsonFault β) : Json → Except JsonFault (List β)
  | array items fault => do
    let values ← items.mapM read
    closed fault
    return values
  | v => v.mismatch

/-- Passes over a value. -/
def skip (v : Json) : Except JsonFault Unit := closed v.fault?

/-- A field of a record, and how its value changes the record. -/
structure Field (σ : Type) where
  name : String
  /-- An object must have the field. -/
  inObject : Bool
  /-- An array must have the field. -/
  inArray : Bool
  set : σ → Json → Except JsonFault σ

namespace Field

variable {σ : Type}

/-- A field that a record must have. -/
def required {β : Type} (name : String) (read : Json → Except JsonFault β) (set : σ → β → σ) : Field σ :=
  ⟨name, true, true, fun s v => do return set s (← read v)⟩

/-- A field that a record may leave out. -/
def optional {β : Type} (name : String) (read : Json → Except JsonFault β) (set : σ → β → σ) : Field σ :=
  ⟨name, false, false, fun s v => do return set s (← read v)⟩

/-- Reads the members of an object; `seen` holds the known names so far. -/
def readMembers (fields : List (Field σ)) (fault : Option JsonFault) (seen : List String) (s : σ) :
    List (Key × Json) → Except JsonFault σ
  | [] => do
    closed fault
    if fields.all fun f => !f.inObject || seen.contains f.name then return s else throw .mismatched
  | (key, v) :: rest => do
    let name ← key
    match fields.find? (·.name == name) with
    | none =>
      v.skip
      readMembers fields fault seen s rest
    | some f =>
      if seen.contains name then throw .mismatched
      let s ← f.set s v
      readMembers fields fault (name :: seen) s rest

/-- Reads the items of an array as the fields of a record. -/
def readItems (fault : Option JsonFault) (s : σ) : List (Field σ) → List Json → Except JsonFault σ
  | [], [] => do
    closed fault
    return s
  | [], _ :: _ => .error .malformed
  | f :: fields, [] => do
    closed fault
    if f.inArray then throw .mismatched
    readItems fault s fields []
  | f :: fields, v :: rest => do
    let s ← f.set s v
    readItems fault s fields rest

end Field

/-- A record with these fields; what it leaves out stays as it is in `start`. -/
def record? {σ : Type} (fields : List (Field σ)) (start : σ) : Json → Except JsonFault σ
  | object members fault => Field.readMembers fields fault [] start members
  | array items fault => Field.readItems fault start fields items
  | v => v.mismatch

end Json

end Arbor
