import Arbor.Decimal.Text
import Arbor.Json.Basic

/-!
# Writing values

`Json.compact` writes a value without blanks, `Json.pretty` with one part of a container on each line. Numbers have
the fewest digits that read back, and doubles and singles differ in where an exponent comes in.
-/

namespace Arbor

namespace Json

/-- The style of doubles. -/
def doubleStyle : DecimalStyle := ⟨.even, some (-5, 15), true, "null", "null"⟩

/-- The style of singles. -/
def singleStyle : DecimalStyle := ⟨.even, some (-6, 12), true, "null", "null"⟩

/-- The text of a number. -/
def Number.text : Number → String
  | .integer n => toString n
  | .double x => doubleStyle.text x.binary
  | .single x => singleStyle.text x.binary

/-- A digit of base sixteen. -/
def hexDigit (n : Nat) : Char := Char.ofNat (if n < 10 then n + 48 else n + 87)

/-- A character inside a string. -/
def escaped (c : Char) : String :=
  match c with
  | '"' => "\\\""
  | '\\' => "\\\\"
  | '\x08' => "\\b"
  | '\x0c' => "\\f"
  | '\n' => "\\n"
  | '\r' => "\\r"
  | '\t' => "\\t"
  | c =>
    if c.toNat < 0x20 then "\\u00" ++ String.ofList [hexDigit (c.toNat / 16), hexDigit (c.toNat % 16)]
    else String.singleton c

/-- A string in quotes. -/
def quote (s : String) : String := s.foldl (fun text c => text ++ escaped c) "\"" ++ "\""

/-- The text of a name; a faulty one has none. -/
def keyText : Key → String
  | .ok name => quote name
  | .error _ => ""

mutual

/-- Writes a value behind a text, without blanks. What a text does not hold as a whole has no text. -/
def compactOnto (text : String) : Json → String
  | null => text ++ "null"
  | bool b => text ++ if b then "true" else "false"
  | number n => text ++ n.text
  | string s => text ++ quote s
  | array items _ => compactItems (text ++ "[") true items ++ "]"
  | object members _ => compactMembers (text ++ "\x7b") true members ++ "\x7d"
  | unreadable _ => text
  | broken _ _ => text

/-- Writes items behind a text. -/
def compactItems (text : String) (first : Bool) : List Json → String
  | [] => text
  | v :: rest => compactItems (compactOnto (if first then text else text ++ ",") v) false rest

/-- Writes members behind a text. -/
def compactMembers (text : String) (first : Bool) : List (Key × Json) → String
  | [] => text
  | (key, v) :: rest =>
    compactMembers (compactOnto ((if first then text else text ++ ",") ++ keyText key ++ ":") v) false rest

end

/-- A line break, and two blanks for each open container. -/
def newLine (depth : Nat) : String := "\n".pushn ' ' (2 * depth)

mutual

/-- Writes a value behind a text, inside so many containers. -/
def prettyOnto (depth : Nat) (text : String) : Json → String
  | null => text ++ "null"
  | bool b => text ++ if b then "true" else "false"
  | number n => text ++ n.text
  | string s => text ++ quote s
  | array items _ =>
    if items.isEmpty then text ++ "[]"
    else prettyItems (depth + 1) (text ++ "[") true items ++ newLine depth ++ "]"
  | object members _ =>
    if members.isEmpty then text ++ "\x7b\x7d"
    else prettyMembers (depth + 1) (text ++ "\x7b") true members ++ newLine depth ++ "\x7d"
  | unreadable _ => text
  | broken _ _ => text

/-- Writes items behind a text, each on a line. -/
def prettyItems (depth : Nat) (text : String) (first : Bool) : List Json → String
  | [] => text
  | v :: rest =>
    prettyItems depth (prettyOnto depth ((if first then text else text ++ ",") ++ newLine depth) v) false rest

/-- Writes members behind a text, each on a line. -/
def prettyMembers (depth : Nat) (text : String) (first : Bool) : List (Key × Json) → String
  | [] => text
  | (key, v) :: rest =>
    prettyMembers depth
      (prettyOnto depth ((if first then text else text ++ ",") ++ newLine depth ++ keyText key ++ ": ") v) false rest

end

/-- The text of a value, without blanks. -/
def compact (v : Json) : String := compactOnto "" v

/-- The text of a value, with one part of a container on each line. -/
def pretty (v : Json) : String := prettyOnto 0 "" v

end Json

end Arbor
