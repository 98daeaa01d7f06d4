import Arbor.Decimal.Shortest

/-!
# Numbers as text

A `DecimalStyle` says how a format writes the digits that `Binary.shortest` finds.
-/

namespace Arbor

/-- How numbers are written. -/
structure DecimalStyle where
  tie : Tie
  /-- The powers of ten of a first digit for which no exponent is written; none if an exponent never is. -/
  plain : Option (Int × Int)
  /-- Whether a whole number written without an exponent ends in `.0`. -/
  point : Bool
  notANumber : String
  infinity : String
deriving DecidableEq, Repr

namespace DecimalStyle

/-- The style of messages and object files: digits only, however many. -/
def digitsOnly : DecimalStyle := ⟨.up, none, false, "NaN", "inf"⟩

/-- The text of so many zeros. -/
def zeros (n : Nat) : String := "".pushn '0' n

/-- Digits of which the first stands for `10 ^ first` and the last for `10 ^ last`, without an exponent. -/
def plainText (s : DecimalStyle) (digits : String) (first last : Int) : String :=
  if 0 ≤ last then digits ++ zeros last.toNat ++ if s.point then ".0" else ""
  else if 0 ≤ first then
    let whole := first.toNat + 1
    (digits.take whole).toString ++ "." ++ (digits.drop whole).toString
  else "0." ++ zeros (-first - 1).toNat ++ digits

/-- Digits of which the first stands for `10 ^ first`, with that power as an exponent. -/
def exponentText (digits : String) (first : Int) : String :=
  let rest := (digits.drop 1).toString
  (digits.take 1).toString ++ (if rest.isEmpty then "" else "." ++ rest) ++ "e"
    ++ (if first < 0 then "-" else "+") ++ toString first.natAbs

/-- The text of a positive decimal. -/
def decimalText (s : DecimalStyle) (d : Decimal) : String :=
  let digits := toString d.digits
  let first := d.exponent + digits.length - 1
  match s.plain with
  | none => s.plainText digits first d.exponent
  | some (low, high) =>
    if low ≤ first ∧ first ≤ high then s.plainText digits first d.exponent else exponentText digits first

/-- The text of a number. -/
def text (s : DecimalStyle) : Binary → String
  | .notANumber => s.notANumber
  | .infinite negative => (if negative then "-" else "") ++ s.infinity
  | .finite negative mantissa exponent narrow =>
    let sign := if negative then "-" else ""
    if mantissa = 0 then sign ++ if s.point then "0.0" else "0"
    else sign ++ s.decimalText (Binary.shortest s.tie mantissa exponent narrow)

end DecimalStyle

end Arbor
