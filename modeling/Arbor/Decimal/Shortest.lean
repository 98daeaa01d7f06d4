/-!
# The fewest digits that read back

A binary floating-point number is `mantissa * 2 ^ exponent`. All reals between the middles to its two neighbours round
to it, the middles themselves if the mantissa is even. `Binary.shortest` looks for a multiple of a power of ten in that
interval (`Window`), on the coarsest grid that has one; of two such multiples it takes the nearer.
-/

namespace Arbor

/-- What the bits of a floating-point number stand for. -/
inductive Binary where
  | notANumber
  | infinite (negative : Bool)
  /-- A number of the size `mantissa * 2 ^ exponent`; `narrow` if its lower neighbour is only half as far away as its
  upper one. -/
  | finite (negative : Bool) (mantissa : Nat) (exponent : Int) (narrow : Bool)
deriving DecidableEq, Repr

/-- Where a number goes that lies in the middle between two decimals. -/
inductive Tie where
  | even
  | up
deriving DecidableEq, Repr

/-- The number `digits * 10 ^ exponent`. -/
structure Decimal where
  digits : Nat
  exponent : Int
deriving DecidableEq, Repr

namespace Binary

/-- Reads the fields of a format with so many fraction bits, whose exponent field is biased. -/
def ofFields (negative : Bool) (exponent fraction fractionBits exponentLimit : Nat) (bias : Int) : Binary :=
  if exponent = exponentLimit then if fraction = 0 then infinite negative else notANumber
  else if exponent = 0 then finite negative fraction (1 - bias - fractionBits) false
  else
    finite negative (fraction + (1 <<< fractionBits)) (exponent - bias - fractionBits)
      (decide (fraction = 0 ∧ 1 < exponent))

end Binary

/-- The reals that round to a number, seen from a grid: the number lies `value / unit` steps above zero, and the ends
of its interval `low / unit` and `high / unit`. -/
structure Window where
  low : Nat
  value : Nat
  high : Nat
  unit : Nat
  /-- The ends round to the number, too. -/
  closed : Bool
deriving DecidableEq, Repr

namespace Window

/-- The window of `mantissa * 2 ^ exponent` on the grid of `10 ^ k`. -/
def ofBinary (mantissa : Nat) (exponent : Int) (narrow : Bool) (k : Int) : Window :=
  let up := Nat.pow 10 (-k).toNat <<< (exponent - 2).toNat
  { low := (4 * mantissa - if narrow then 1 else 2) * up
    value := 4 * mantissa * up
    high := (4 * mantissa + 2) * up
    unit := Nat.pow 10 k.toNat <<< (2 - exponent).toNat
    closed := mantissa % 2 = 0 }

/-- The same reals on the grid that is ten times as fine. -/
def finer (w : Window) : Window := { w with low := w.low * 10, value := w.value * 10, high := w.high * 10 }

/-- The neighbour of the number on the grid that rounds to it; the nearer one if both do. -/
def point? (tie : Tie) (w : Window) : Option Nat :=
  let below := w.value / w.unit
  let above := below + 1
  let belowIn := w.low < below * w.unit ∨ (w.closed ∧ w.low = below * w.unit)
  let aboveIn := above * w.unit < w.high ∨ (w.closed ∧ above * w.unit = w.high)
  let rest := w.value % w.unit
  if belowIn ∧ aboveIn then
    if 2 * rest < w.unit then some below
    else if w.unit < 2 * rest then some above
    else match tie with
      | .even => some (if below % 2 = 0 then below else above)
      | .up => some above
  else if belowIn then some below
  else if aboveIn then some above
  else none

/-- Tries the grid of `10 ^ k`, on which the window is, and then finer ones. -/
def search (tie : Tie) (w : Window) : (tries : Nat) → (k : Int) → Decimal
  | 0, k => ⟨0, k⟩
  | tries + 1, k =>
    match w.point? tie with
    | some digits => ⟨digits, k⟩
    | none => search tie w.finer tries (k - 1)

end Window

/-- The decimal with the fewest digits that rounds to `mantissa * 2 ^ exponent`. The first grid is coarser than the
number, and thirty grids on there are more digits than any number of 53 binary digits needs. -/
def Binary.shortest (tie : Tie) (mantissa : Nat) (exponent : Int) (narrow : Bool) : Decimal :=
  let k := (mantissa.log2 + 1 + exponent) * 30103 / 100000 + 1
  (Window.ofBinary mantissa exponent narrow k).search tie 30 k

end Arbor

/-- What a double stands for. -/
def Float.binary (x : Float) : Arbor.Binary :=
  let bits := x.toBits
  .ofFields (bits >>> 63 == 1) ((bits >>> 52) &&& 0x7ff).toNat (bits &&& 0xfffffffffffff).toNat 52 2047 1023

/-- What a single stands for. -/
def Float32.binary (x : Float32) : Arbor.Binary :=
  let bits := x.toBits
  .ofFields (bits >>> 31 == 1) ((bits >>> 23) &&& 0xff).toNat (bits &&& 0x7fffff).toNat 23 255 127
