import Arbor.Json.Number

/-!
# The tokens of a JSON text

`Token.ofText` cuts a text into tokens, up to the first place where that is not possible. A fault can be told from two
sides: a reader of the value may stop earlier than one that only passes over it, or for another reason.
-/

namespace Arbor

namespace Json

/-- A piece of a JSON text. -/
inductive Token where
  | openArray
  | closeArray
  | openObject
  | closeObject
  | comma
  | colon
  /-- A whole string. -/
  | text (s : Key)
  /-- Any other whole value. -/
  | word (v : Json)
  /-- Where the text stops being JSON, inside a string or elsewhere. -/
  | broken (isText : Bool) (read skipped : JsonFault)
deriving Repr

namespace Token

/-- A token, and the characters behind it. -/
abbrev Step := Token × List Char

/-- No token: both readers meet the same fault. -/
def fail (isText : Bool) (fault : JsonFault) : Step := (.broken isText fault fault, [])

/-- Reads the rest of a word that stands for a value. -/
def keyword (value : Json) : (expected : List Char) → List Char → Step
  | [], cs => (.word value, cs)
  | _ :: _, [] => fail false .unfinished
  | e :: expected, c :: cs => if c = e then keyword value expected cs else fail false .malformed

/-! ## Numbers -/

/-- The value of a decimal digit. -/
def digit (c : Char) : Nat := c.toNat - '0'.toNat

/-- The digits at the front, and what is behind them. -/
def digits (cs : List Char) : List Nat × List Char :=
  ((cs.takeWhile Char.isDigit).map digit, cs.dropWhile Char.isDigit)

/-- A missing digit: a reader tells the end of the text from a wrong character, one that passes over does not. -/
def missingDigit (rest : List Char) : Step :=
  (.broken false (if rest.isEmpty then .unfinished else .malformed) .malformed, [])

/-- The token of a numeral. -/
def ofNumeral (n : Numeral) : Token :=
  match Number.ofNumeral? n with
  | some v => .word (.number v)
  | none => .word (.unreadable .malformed)

/-- Reads the exponent, if there is one. -/
def exponent (n : Numeral) : List Char → Step
  | c :: cs =>
    if c = 'e' ∨ c = 'E' then
      let (negative, cs) := match cs with
        | '+' :: rest => (false, rest)
        | '-' :: rest => (true, rest)
        | _ => (false, cs)
      let (ds, rest) := digits cs
      if ds.isEmpty then missingDigit rest else (ofNumeral { n with exponent := some (negative, ds) }, rest)
    else (ofNumeral n, c :: cs)
  | [] => (ofNumeral n, [])

/-- Reads the fraction, if there is one, and what follows. -/
def fraction (n : Numeral) : List Char → Step
  | '.' :: cs =>
    let (ds, rest) := digits cs
    if ds.isEmpty then missingDigit rest else exponent { n with fraction := some ds } rest
  | cs => exponent n cs

/-- Reads a number behind its sign. A leading zero stands alone. -/
def unsigned (negative : Bool) (cs : List Char) : Step :=
  let (ds, rest) := digits cs
  match ds with
  | [] => missingDigit rest
  | [d] => fraction ⟨negative, [d], none, none⟩ rest
  | d :: ds => if d = 0 then fail false .malformed else fraction ⟨negative, d :: ds, none, none⟩ rest

/-! ## Strings -/

/-- What a string is made of: characters, halves of characters, and its end. -/
inductive Unit where
  | close
  | char (c : Char)
  | half (n : Nat)
deriving Repr

/-- The value of a hexadecimal digit. -/
def hexDigit? (c : Char) : Option Nat :=
  if c.isDigit then some (digit c)
  else if 'a' ≤ c ∧ c ≤ 'f' then some (c.toNat - 'a'.toNat + 10)
  else if 'A' ≤ c ∧ c ≤ 'F' then some (c.toNat - 'A'.toNat + 10)
  else none

/-- The value of four hexadecimal digits at the front, and what is behind them. Fewer than four bytes are too few,
whatever they are. -/
def hex (cs : List Char) : Except JsonFault (Nat × List Char) :=
  let four := cs.take 4
  match four.mapM hexDigit? with
  | some [a, b, c, d] => .ok (((a * 16 + b) * 16 + c) * 16 + d, cs.drop 4)
  | _ => .error (if (String.ofList four).utf8ByteSize < 4 then .unfinished else .malformed)

/-- Reads an escape behind its backslash. -/
def escape : List Char → Except JsonFault (Unit × List Char)
  | [] => .error .unfinished
  | c :: cs =>
    match c with
    | '"' => .ok (.char '"', cs)
    | '\\' => .ok (.char '\\', cs)
    | '/' => .ok (.char '/', cs)
    | 'b' => .ok (.char '\x08', cs)
    | 'f' => .ok (.char '\x0c', cs)
    | 'n' => .ok (.char '\n', cs)
    | 'r' => .ok (.char '\r', cs)
    | 't' => .ok (.char '\t', cs)
    | 'u' => do
      let (n, cs) ← hex cs
      return (if 0xd800 ≤ n ∧ n < 0xe000 then .half n else .char (Char.ofNat n), cs)
    | _ => .error .malformed

/-- Reads one part of a string. -/
def unit : List Char → Except JsonFault (Unit × List Char)
  | [] => .error .unfinished
  | c :: cs =>
    if c = '"' then .ok (.close, cs)
    else if c = '\\' then escape cs
    else if c.toNat < 0x20 then .error .malformed
    else .ok (.char c, cs)

/-- The part of a string that has been read. -/
structure Draft where
  /-- The characters, the last one first. -/
  chars : List Char
  /-- The first half of a character, whose second half has to follow. -/
  pending : Option Nat
  /-- The first fault. -/
  fault : Option JsonFault
deriving Repr

namespace Draft

/-- Half a character was left alone. -/
def settle (d : Draft) : Draft :=
  match d.pending with
  | none => d
  | some _ => { d with pending := none, fault := d.fault <|> some .malformed }

/-- Takes in a character. -/
def addChar (d : Draft) (c : Char) : Draft := { d.settle with chars := c :: d.chars }

/-- Takes in half a character. -/
def addHalf (d : Draft) (n : Nat) : Draft :=
  match d.pending with
  | some high =>
    if 0xdc00 ≤ n then
      { d with chars := Char.ofNat ((high - 0xd800) * 0x400 + (n - 0xdc00) + 0x10000) :: d.chars, pending := none }
    else d.settle
  | none => if 0xdc00 ≤ n then { d with fault := d.fault <|> some .malformed } else { d with pending := some n }

/-- The string, if it has no fault. -/
def finish (d : Draft) : Key :=
  match d.settle.fault with
  | none => .ok (String.ofList d.chars.reverse)
  | some fault => .error fault

end Draft

/-- Reads the rest of a string; `fuel` bounds the number of its parts. -/
def string (d : Draft) : (fuel : Nat) → List Char → Step
  | 0, _ => fail true .unfinished
  | fuel + 1, cs =>
    match unit cs with
    | .error fault => (.broken true (d.fault.getD fault) fault, [])
    | .ok (.close, rest) => (.text d.finish, rest)
    | .ok (.char c, rest) => string (d.addChar c) fuel rest
    | .ok (.half n, rest) => string (d.addHalf n) fuel rest

/-! ## Texts -/

/-- Whether a character may stand between tokens. -/
def isBlank (c : Char) : Bool := c = ' ' || c = '\n' || c = '\t' || c = '\r'

/-- Reads the token that starts with a character; `fuel` exceeds the number of characters behind it. -/
def start (fuel : Nat) (c : Char) (cs : List Char) : Step :=
  match c with
  | '[' => (.openArray, cs)
  | ']' => (.closeArray, cs)
  | '\x7b' => (.openObject, cs)
  | '\x7d' => (.closeObject, cs)
  | ',' => (.comma, cs)
  | ':' => (.colon, cs)
  | '"' => string ⟨[], none, none⟩ fuel cs
  | 'n' => keyword .null ['u', 'l', 'l'] cs
  | 't' => keyword (.bool true) ['r', 'u', 'e'] cs
  | 'f' => keyword (.bool false) ['a', 'l', 's', 'e'] cs
  | '-' => unsigned true cs
  | _ => if c.isDigit then unsigned false (c :: cs) else fail false .malformed

/-- The tokens of a text, before those already read; `fuel` bounds their number. -/
def readAll (tokens : Array Token) : (fuel : Nat) → List Char → Array Token
  | 0, _ => tokens
  | fuel + 1, cs =>
    match cs.dropWhile isBlank with
    | [] => tokens
    | c :: rest =>
      let (token, rest) := start (fuel + 1) c rest
      readAll (tokens.push token) fuel rest

/-- The tokens of a text. -/
def ofText (text : String) : List Token :=
  let cs := text.toList
  (readAll #[] (cs.length + 1) cs).toList

end Token

end Json

end Arbor
