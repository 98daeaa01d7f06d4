import Arbor.Scalar
import Mathlib.Order.Basic

/-!
# The order of doubles

Two finite doubles can be compared in one way only: one is not below the other if that is at most the one
(`Double.not_lt_iff`, `Double.not_le_iff`).
-/

namespace Arbor
namespace Double

open Float.Model Float.Model.UnpackedFloat

theorem lt_iff {x y : Float} : x < y ↔ x.toModel.unpack.lt y.toModel.unpack = true :=
  decide_eq_true_iff (p := x.toModel < y.toModel)

theorem le_iff {x y : Float} : x ≤ y ↔ x.toModel.unpack.le y.toModel.unpack = true :=
  decide_eq_true_iff (p := x.toModel ≤ y.toModel)

/-- Exponents decide before mantissas, from either side. -/
theorem swap_compare (e f : Int) (m n : Nat) :
    ((compare e f).then (compare m n)).swap = (compare f e).then (compare n m) := by
  have he : (compare e f).swap = compare f e := Std.OrientedOrd.eq_swap.symm
  have hm : (compare m n).swap = compare n m := Std.OrientedOrd.eq_swap.symm
  rw [Ordering.swap_then, he, hm]

/-- Two finite numbers are compared, and the other way round with the opposite result. -/
theorem compare_of_isFinite {u v : UnpackedFloat} (hu : u.isFinite = true) (hv : v.isFinite = true) :
    ∃ o, u.compare v = some o ∧ v.compare u = some o.swap := by
  cases u with
  | notANumber => cases hu
  | infinity s => cases hu
  | zero s =>
    cases v with
    | notANumber => cases hv
    | infinity s => cases hv
    | zero t => exact ⟨.eq, rfl, rfl⟩
    | finite t n f hn =>
      cases t with
      | negative => exact ⟨.gt, rfl, rfl⟩
      | positive => exact ⟨.lt, rfl, rfl⟩
  | finite s m e hm =>
    cases v with
    | notANumber => cases hv
    | infinity s => cases hv
    | zero t =>
      cases s with
      | negative => exact ⟨.lt, rfl, rfl⟩
      | positive => exact ⟨.gt, rfl, rfl⟩
    | finite t n f hn =>
      cases s with
      | negative =>
        cases t with
        | negative => exact ⟨_, rfl, congrArg some (congrArg Ordering.swap (swap_compare e f m n).symm)⟩
        | positive => exact ⟨.lt, rfl, rfl⟩
      | positive =>
        cases t with
        | negative => exact ⟨.gt, rfl, rfl⟩
        | positive => exact ⟨_, rfl, congrArg some (swap_compare e f m n).symm⟩

/-- **Of two finite doubles, one is not below the other if the other is at most the one.** -/
theorem not_lt_iff {x y : Float} (hx : x.isFinite = true) (hy : y.isFinite = true) : ¬x < y ↔ y ≤ x := by
  obtain ⟨o, hxy, hyx⟩ := compare_of_isFinite (u := x.toModel.unpack) (v := y.toModel.unpack) hx hy
  rw [lt_iff, le_iff, UnpackedFloat.lt, UnpackedFloat.le, hxy, hyx]
  cases o <;> decide

theorem not_le_iff {x y : Float} (hx : x.isFinite = true) (hy : y.isFinite = true) : ¬x ≤ y ↔ y < x := by
  obtain ⟨o, hxy, hyx⟩ := compare_of_isFinite (u := x.toModel.unpack) (v := y.toModel.unpack) hx hy
  rw [lt_iff, le_iff, UnpackedFloat.lt, UnpackedFloat.le, hxy, hyx]
  cases o <;> decide

end Double
end Arbor
