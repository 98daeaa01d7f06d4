import Arbor.Json.Basic

/-!
# Reading numbers

Digits become a whole number where one of 64 bits holds them. All other numbers become doubles: the leading digits
that 64 bits hold, times or divided by one power of ten (`Number.ofParts?`). That is not always the nearest double.
-/

namespace Arbor

namespace Json

/-- The digits of a number in a text. -/
structure Numeral where
  negative : Bool
  whole : List Nat
  /-- The digits behind the point, if there is one. -/
  fraction : Option (List Nat)
  /-- The sign and the digits behind the exponent mark, if there is one. -/
  exponent : Option (Bool × List Nat)
deriving DecidableEq, Repr

namespace Number

/-- The greatest whole number of 64 bits. -/
def limit : Nat := UInt64.size - 1

/-- Appends digits while 64 bits hold the result, and gives the digits left over. -/
def takeDigits (significand : Nat) : List Nat → Nat × List Nat
  | [] => (significand, [])
  | d :: rest =>
    if limit < significand * 10 + d then (significand, d :: rest) else takeDigits (significand * 10 + d) rest

/-- A power of ten, for exponents up to 308. -/
def powerOfTen (n : Nat) : Float := Float.ofScientific 1 false n

/-- Multiplies by a power of ten, in steps of at most 308; none where the result is beyond all doubles. Three steps
make every number zero. -/
def scale? (f : Float) (exponent : Int) : (steps : Nat) → Option Float
  | 0 => some f
  | steps + 1 =>
    if 308 < exponent then if f == 0.0 then some f else none
    else if 0 ≤ exponent then
      let g := f * powerOfTen exponent.toNat
      if g.isFinite then some g else none
    else if -308 ≤ exponent then some (f / powerOfTen (-exponent).toNat)
    else if f == 0.0 then some f
    else scale? (f / powerOfTen 308) (exponent + 308) steps

/-- The double of a sign, a significand of 64 bits and a power of ten. -/
def ofParts? (negative : Bool) (significand : Nat) (exponent : Int) : Option Number :=
  (scale? (Float.ofNat significand) exponent 4).map fun f => .double (if negative then -f else f)

/-- The value of decimal digits. -/
def ofDigits (digits : List Nat) : Nat := digits.foldl (fun n d => n * 10 + d) 0

/-- The number that a numeral stands for; none where it is beyond all doubles. -/
def ofNumeral? (n : Numeral) : Option Number :=
  let (significand, left) := takeDigits 0 n.whole
  match n.fraction, n.exponent with
  | none, none =>
    if left.isEmpty ∧ n.negative = false then some (.integer significand)
    else if left.isEmpty ∧ 0 < significand ∧ significand ≤ 1 <<< 63 then some (.integer (-significand))
    else ofParts? n.negative significand left.length
  | fraction, exponent =>
    let fraction := fraction.getD []
    let (significand, unused) := takeDigits significand fraction
    let shift : Int := left.length - (fraction.length - unused.length : Nat)
    match exponent with
    | none => ofParts? n.negative significand shift
    | some (negative, digits) =>
      let size := ofDigits digits
      if 1 <<< 31 ≤ size then
        if significand ≠ 0 ∧ negative = false then none else ofParts? n.negative 0 0
      else ofParts? n.negative significand (if negative then shift - size else shift + size)

/-- The nearest double. -/
def toDouble : Number → Float
  | integer n => Float.ofInt n
  | double x => x
  | single x => x.toFloat

/-- The nearest single. -/
def toSingle : Number → Float32
  | integer n => n.toSingle
  | double x => x.toSingle
  | single x => x

end Number

end Json

end Arbor
