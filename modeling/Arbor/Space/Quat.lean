import Arbor.Space.Vec3

/-!
# Orientations

Orientations are quaternions. `rotate` is defined for every quaternion, also for one whose length is not one.
-/

namespace Arbor

open scoped Scalar

/-- A quaternion `x i + y j + z k + w`. -/
structure Quat (α : Type) where
  x : α
  y : α
  z : α
  w : α
deriving DecidableEq, Repr

namespace Quat

/-- The four parts in order, the real one last. -/
def toList {α : Type} (q : Quat α) : List α := [q.x, q.y, q.z, q.w]

variable {α : Type} [Scalar α]

/-- The orientation of a turtle that has not turned. -/
def identity : Quat α := ⟨0, 0, 0, 1⟩

/-- The orientation reached by `q` and then, in the turned frame, `r`. -/
@[specialize] def compose (q r : Quat α) : Quat α where
  x := q.w * r.x + q.x * r.w + q.y * r.z - q.z * r.y
  y := q.w * r.y - q.x * r.z + q.y * r.w + q.z * r.x
  z := q.w * r.z + q.x * r.y - q.y * r.x + q.z * r.w
  w := q.w * r.w - q.x * r.x - q.y * r.y - q.z * r.z

/-- The imaginary part. -/
@[specialize] def imaginary (q : Quat α) : Vec3 α := ⟨q.x, q.y, q.z⟩

/-- The vector `v` turned by `q`. -/
@[specialize] def rotate (q : Quat α) (v : Vec3 α) : Vec3 α :=
  let b := q.imaginary
  v.scale (q.w * q.w - b.dot b) + b.scale (v.dot b * 2) + (b.cross v).scale (q.w * 2)

/-- The quaternion of length one with the same orientation, or the identity where there is none. -/
@[specialize] def normalize (q : Quat α) : Quat α :=
  let squared := q.x * q.x + q.y * q.y + q.z * q.z + q.w * q.w
  if Scalar.directionless squared then identity
  else
    let k := 1 / Scalar.sqrt squared
    ⟨q.x * k, q.y * k, q.z * k, q.w * k⟩

/-- The turn by an angle in radians about an axis of length one. -/
@[specialize] def ofAxisAngle (axis : Vec3 α) (angle : α) : Quat α :=
  let half := angle / 2
  let v := axis.scale (Scalar.sin half)
  ⟨v.x, v.y, v.z, Scalar.cos half⟩

/-- The turn by an angle in degrees about an axis of any length; without an axis there is no turn. -/
@[specialize] def turn (axis : Vec3 α) (degrees : α) : Quat α :=
  let axis := axis.direction
  if axis.isZero then identity else ofAxisAngle axis (Scalar.radians degrees)

/-- Turns about the first, the second and the third axis, each in the frame left by the one before; in radians. This is
the product of the three turns, multiplied out. The order of its terms decides the signs of zeros: of doubles, a turn by
nothing is `(0, -0, 0, 1)`. -/
@[specialize] def ofEuler (a b c : α) : Quat α :=
  let sinA := Scalar.sin (a / 2)
  let cosA := Scalar.cos (a / 2)
  let sinB := Scalar.sin (-b / 2)
  let cosB := Scalar.cos (-b / 2)
  let sinC := Scalar.sin (c / 2)
  let cosC := Scalar.cos (c / 2)
  let cc := cosC * cosA
  let cs := cosC * sinA
  let sc := sinC * cosA
  let ss := sinC * sinA
  ⟨cosB * cs - sinB * sc, (cosB * ss + sinB * cc) * -1, cosB * sc - sinB * cs, cosB * cc + sinB * ss⟩

/-- What lies ahead of a turtle in this orientation. -/
@[specialize] def heading (q : Quat α) : Vec3 α := q.rotate .forward

end Quat

end Arbor
