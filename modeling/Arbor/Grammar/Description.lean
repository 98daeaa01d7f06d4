import Arbor.Grammar

/-!
# Productions in words

A literal production is described by its text in quotes, with every character that has no shape of its own written as
an escape. Texts are taken to be ASCII, beyond which nothing is escaped.
-/

namespace Arbor

namespace Production

/-- A number in base sixteen. -/
def hexText (n : Nat) : String := String.ofList (Nat.toDigits 16 n)

/-- A character inside a description. -/
def escaped (c : Char) : String :=
  match c with
  | '"' => "\\\""
  | '\\' => "\\\\"
  | '\n' => "\\n"
  | '\r' => "\\r"
  | '\t' => "\\t"
  | '\x00' => "\\0"
  | c =>
    if c.toNat < 0x20 || c.toNat == 0x7f then "\\u\x7b" ++ hexText c.toNat ++ "\x7d" else String.singleton c

/-- The description of a production. -/
def describe {α : Type} : Production α → String
  | literal text => "Literal(\"" ++ String.join (text.toList.map escaped) ++ "\")"
  | generator _ => "Generator(..)"

end Production

end Arbor
