/-!
# The numbers a tree is grown with

`Scalar` lists the operations that growing, walking and placing need of a number. The program runs on doubles
(`instScalarFloat`); the same definitions can be read over any other kind of number, an exact ordered field among
them, because nothing below this module looks inside a number.

`Scalar.npow` is the power by repeated squaring, in the fixed order of multiplications that decides its rounding.
`Scalar.decay` is what a factor leaves at a depth; up to depth `2 ^ 31` it is that power (`Scalar.decay_of_lt`).
-/

namespace Arbor

/-- The arithmetic of lengths, angles, positions and odds. -/
class Scalar (α : Type) extends Add α, Sub α, Mul α, Div α, Neg α, BEq α, LT α, LE α where
  decLt : DecidableLT α
  decLe : DecidableLE α
  ofNat : Nat → α
  isFinite : α → Bool
  sqrt : α → α
  sin : α → α
  cos : α → α
  /-- One degree in radians. -/
  degree : α
  /-- A squared length that is not above this one belongs to no direction. -/
  tiny : α

namespace Scalar

instance {α : Type} [Scalar α] : DecidableLT α := decLt

instance {α : Type} [Scalar α] : DecidableLE α := decLe

scoped instance (priority := low) literal {α : Type} [Scalar α] {n : Nat} : OfNat α n := ⟨ofNat n⟩

variable {α : Type} [Scalar α]

/-- Multiplies `acc` by the square powers of `x` that the binary digits of `n` select, lowest digit first. -/
def npowOnto (acc x : α) (n : Nat) : α :=
  let acc := if n % 2 = 1 then acc * x else acc
  if n < 2 then acc else npowOnto acc (x * x) (n / 2)
termination_by n

/-- The power `x ^ n`. -/
def npow (x : α) (n : Nat) : α := npowOnto 1 x n

/-- The power `x ^ k`; below zero it is one divided by the power of the opposite exponent. -/
def zpow (x : α) (k : Int) : α := if k < 0 then 1 / npow x k.natAbs else npow x k.natAbs

/-- The power of a factor at a depth. Exponents have 32 bits, one of them for the sign, so depths that differ by
`2 ^ 32` leave the same. -/
def decay (factor : α) (depth : Nat) : α := zpow factor (Int.bmod depth 4294967296)

theorem decay_of_lt (factor : α) {depth : Nat} (h : depth < 2147483648) : decay factor depth = npow factor depth := by
  have hb : Int.bmod depth 4294967296 = depth := by
    rw [Int.bmod_def]
    omega
  rw [decay, zpow, hb, if_neg (by omega), Int.natAbs_natCast]

/-- An angle in degrees, in radians. -/
def radians (degrees : α) : α := degrees * degree

/-- The terms added up from the left, starting at zero. -/
def sum (terms : List α) : α := terms.foldl (· + ·) 0

end Scalar

/-- Doubles. -/
instance instScalarFloat : Scalar Float where
  decLt := inferInstance
  decLe := inferInstance
  ofNat := Float.ofNat
  isFinite := Float.isFinite
  sqrt := Float.sqrt
  sin := Float.sin
  cos := Float.cos
  degree := 0.017453292519943295
  tiny := 1e-24

/-- Singles. -/
instance instScalarFloat32 : Scalar Float32 where
  decLt := inferInstance
  decLe := inferInstance
  ofNat := Float32.ofNat
  isFinite := Float32.isFinite
  sqrt := Float32.sqrt
  sin := Float32.sin
  cos := Float32.cos
  degree := 0.017453292
  tiny := 1e-24

end Arbor
