import Arbor.Error
import Arbor.Scalar

/-!
# Settings and their limits

`Setting` holds the three tests that a number in a section of settings may have to pass; `Habit` is the section that
shapes symbols while they are produced.
-/

namespace Arbor

open scoped Scalar

variable {α : Type} [Scalar α]

namespace Setting

/-- Accepts a finite number that is not below zero. -/
def nonNegative (name : String) (value : α) : Except (SettingFault α) Unit :=
  if Scalar.isFinite value ∧ ¬value < 0 then .ok () else .error (.negative name value)

/-- Accepts a number that is not above one. -/
def atMostOne (name : String) (value : α) : Except (SettingFault α) Unit :=
  if 1 < value then .error (.aboveOne name value) else .ok ()

/-- Accepts a finite number. -/
def finite (name : String) (value : α) : Except (SettingFault α) Unit :=
  if Scalar.isFinite value then .ok () else .error (.infinite name value)

end Setting

/-- How a grammar grows: steps and radii at depth zero, what each depth leaves of them, turns, and how much of it all
is left to chance. -/
structure Habit (α : Type) where
  baseLength : α
  baseRadius : α
  lengthFalloff : α
  radiusFalloff : α
  /-- Degrees. -/
  branchAngle : α
  variability : α
deriving DecidableEq, Repr

namespace Habit

/-- The habit of a grammar that states none. -/
def standard : Habit Float where
  baseLength := 1.0
  baseRadius := 0.1
  lengthFalloff := 0.8
  radiusFalloff := 0.7
  branchAngle := 25.0
  variability := 0.0

/-- Accepts a habit whose numbers are all usable. -/
def check (h : Habit α) : Except (SettingFault α) Unit := do
  Setting.nonNegative "base_length" h.baseLength
  Setting.nonNegative "base_radius" h.baseRadius
  Setting.nonNegative "length_falloff" h.lengthFalloff
  Setting.nonNegative "radius_falloff" h.radiusFalloff
  Setting.nonNegative "variability" h.variability
  Setting.atMostOne "variability" h.variability
  Setting.finite "branch_angle" h.branchAngle

end Habit

end Arbor
