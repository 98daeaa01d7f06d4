import Arbor.Scalar

/-!
# Vectors in space

The coordinates of a vector are combined in a fixed order (`dot` adds from the left), since that order decides how a
result is rounded.
-/

namespace Arbor

open scoped Scalar

/-- A vector, or a point. -/
structure Vec3 (α : Type) where
  x : α
  y : α
  z : α
deriving DecidableEq, Repr

namespace Vec3

/-- The coordinates in order. -/
def toList {α : Type} (v : Vec3 α) : List α := [v.x, v.y, v.z]

variable {α : Type} [Scalar α]

@[inline] instance : Add (Vec3 α) := ⟨fun v w => ⟨v.x + w.x, v.y + w.y, v.z + w.z⟩⟩

/-- The vector of no length. -/
def zero : Vec3 α := ⟨0, 0, 0⟩

/-- The first axis: to the right of a turtle that has not turned. -/
def right : Vec3 α := ⟨1, 0, 0⟩

/-- The second axis: ahead of a turtle that has not turned. -/
def forward : Vec3 α := ⟨0, 1, 0⟩

/-- The third axis: above a turtle that has not turned. -/
def up : Vec3 α := ⟨0, 0, 1⟩

/-- A multiple of a vector. -/
@[inline] def scale (v : Vec3 α) (k : α) : Vec3 α := ⟨v.x * k, v.y * k, v.z * k⟩

/-- A vector with every coordinate divided. -/
@[inline] def divide (v : Vec3 α) (k : α) : Vec3 α := ⟨v.x / k, v.y / k, v.z / k⟩

/-- The scalar product. -/
@[inline] def dot (v w : Vec3 α) : α := v.x * w.x + v.y * w.y + v.z * w.z

/-- The vector product. -/
@[inline] def cross (v w : Vec3 α) : Vec3 α :=
  ⟨v.y * w.z - w.y * v.z, v.z * w.x - w.z * v.x, v.x * w.y - w.x * v.y⟩

/-- Whether every coordinate equals zero, of either sign. -/
@[inline] def isZero (v : Vec3 α) : Bool := v.x == 0 && v.y == 0 && v.z == 0

end Vec3

/-- Whether a squared length is too small, or not finite, and so leaves no direction. -/
@[inline] def Scalar.directionless {α : Type} [Scalar α] (squaredLength : α) : Bool :=
  decide (squaredLength ≤ tiny) || !isFinite squaredLength

/-- The vector of length one in the same direction, or zero where there is no direction. -/
@[inline] def Vec3.direction {α : Type} [Scalar α] (v : Vec3 α) : Vec3 α :=
  let squared := v.dot v
  if Scalar.directionless squared then zero else v.divide (Scalar.sqrt squared)

end Arbor
