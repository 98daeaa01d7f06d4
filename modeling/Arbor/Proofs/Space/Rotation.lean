import Arbor.Proofs.Exact
import Arbor.Space.Quat
import Mathlib.Tactic.LinearCombination
import Mathlib.Tactic.Ring

/-!
# Rotations over exact numbers

A quaternion of length one is a versor. Over exact numbers its rotation preserves scalar products
(`Quat.Versor.inner_rotate`), and the turns of a turtle are versors (`Quat.versor_turn`), as are products of versors
(`Quat.Versor.compose`); normalizing leaves a versor as it is (`Quat.Versor.normalize`), and so does taking the direction
of a vector of length one (`Vec3.direction_of_inner`). Of the functions that a field does not have, this takes the root of
one, a bound for what is too small, and for turns that sine and cosine are the coordinates of a point of the circle.
-/

namespace Arbor

open Scalar (Functions ofField)

variable {K : Type} [Field K] [LinearOrder K]

/-- A quaternion of length one. -/
def Quat.Versor (q : Quat K) : Prop := q.x * q.x + q.y * q.y + q.z * q.z + q.w * q.w = 1

/-! ## Vectors -/

namespace Vec3

/-- The scalar product of exact vectors. -/
def inner (v w : Vec3 K) : K := v.x * w.x + v.y * w.y + v.z * w.z

/-- A vector of length one is its own direction. -/
theorem direction_of_inner {f : Functions K} (hsqrt : f.sqrt 1 = 1) (htiny : f.tiny < 1) {v : Vec3 K}
    (h : v.inner v = 1) : @direction K (ofField f) v = v := by
  have hdirected : (decide (v.inner v ≤ f.tiny) || !true) = false := by
    rw [h, decide_eq_false (not_le.mpr htiny)]
    rfl
  have hquotient : @divide K (ofField f) v (f.sqrt (v.inner v)) = v := by
    rw [h, hsqrt]
    show (⟨v.x / 1, v.y / 1, v.z / 1⟩ : Vec3 K) = v
    rw [div_one, div_one, div_one]
  show (if (decide (v.inner v ≤ f.tiny) || !true) = true then @zero K (ofField f) else
    @divide K (ofField f) v (f.sqrt (v.inner v))) = v
  rw [hdirected, hquotient]
  rfl

end Vec3

namespace Quat

/-! ## Rotations -/

/-- A rotated vector, coordinate by coordinate. -/
theorem rotate_ofField (f : Functions K) (q : Quat K) (v : Vec3 K) :
    let squared := q.w * q.w - (q.x * q.x + q.y * q.y + q.z * q.z)
    let along := (v.x * q.x + v.y * q.y + v.z * q.z) * 2
    @rotate K (ofField f) q v =
      ⟨v.x * squared + q.x * along + (q.y * v.z - v.y * q.z) * (q.w * 2),
        v.y * squared + q.y * along + (q.z * v.x - v.z * q.x) * (q.w * 2),
        v.z * squared + q.z * along + (q.x * v.y - v.x * q.y) * (q.w * 2)⟩ := by
  intro squared along
  have htwo : ((2 : ℕ) : K) = 2 := Nat.cast_ofNat
  show (⟨_ + q.x * (_ * ((2 : ℕ) : K)) + _ * (q.w * ((2 : ℕ) : K)),
    _ + q.y * (_ * ((2 : ℕ) : K)) + _ * (q.w * ((2 : ℕ) : K)),
    _ + q.z * (_ * ((2 : ℕ) : K)) + _ * (q.w * ((2 : ℕ) : K))⟩ : Vec3 K) = _
  rw [htwo]
  rfl

/-- **A rotation multiplies scalar products by the fourth power of the length of its quaternion.** -/
theorem inner_rotate (f : Functions K) (q : Quat K) (v w : Vec3 K) :
    (@rotate K (ofField f) q v).inner (@rotate K (ofField f) q w) =
      (q.x * q.x + q.y * q.y + q.z * q.z + q.w * q.w) ^ 2 * v.inner w := by
  rw [rotate_ofField, rotate_ofField, Vec3.inner, Vec3.inner]
  ring

/-- **The rotation of a versor preserves scalar products.** -/
theorem Versor.inner_rotate {q : Quat K} (hq : q.Versor) (f : Functions K) (v w : Vec3 K) :
    (@rotate K (ofField f) q v).inner (@rotate K (ofField f) q w) = v.inner w := by
  rw [Quat.inner_rotate, hq, one_pow, one_mul]

/-- What a rotated vector has along the heading is what the vector had ahead. -/
theorem Versor.inner_heading {q : Quat K} (hq : q.Versor) (f : Functions K) (v : Vec3 K) :
    (@rotate K (ofField f) q v).inner (@heading K (ofField f) q) = v.y := by
  have hforward : v.inner (@Vec3.forward K (ofField f)) =
      v.x * ((0 : ℕ) : K) + v.y * ((1 : ℕ) : K) + v.z * ((0 : ℕ) : K) := rfl
  refine (hq.inner_rotate f v (@Vec3.forward K (ofField f))).trans ?_
  rw [hforward, Nat.cast_zero, Nat.cast_one]
  ring

/-! ## Products -/

/-- The length of a product is the product of the lengths. -/
theorem Versor.compose {q r : Quat K} (hq : q.Versor) (hr : r.Versor) (f : Functions K) :
    (@compose K (ofField f) q r).Versor := by
  have hcompose : @Quat.compose K (ofField f) q r =
      ⟨q.w * r.x + q.x * r.w + q.y * r.z - q.z * r.y, q.w * r.y - q.x * r.z + q.y * r.w + q.z * r.x,
        q.w * r.z + q.x * r.y - q.y * r.x + q.z * r.w, q.w * r.w - q.x * r.x - q.y * r.y - q.z * r.z⟩ := rfl
  rw [Versor] at hq hr ⊢
  rw [hcompose]
  linear_combination (r.x * r.x + r.y * r.y + r.z * r.z + r.w * r.w) * hq + hr

/-- A versor is normal. -/
theorem Versor.normalize {q : Quat K} (hq : q.Versor) {f : Functions K} (hsqrt : f.sqrt 1 = 1) (htiny : f.tiny < 1) :
    @normalize K (ofField f) q = q := by
  rw [Versor] at hq
  have hdirected : (decide (q.x * q.x + q.y * q.y + q.z * q.z + q.w * q.w ≤ f.tiny) || !true) = false := by
    rw [hq, decide_eq_false (not_le.mpr htiny)]
    rfl
  have hfactor : ((1 : ℕ) : K) / f.sqrt (q.x * q.x + q.y * q.y + q.z * q.z + q.w * q.w) = 1 := by
    rw [hq, hsqrt, Nat.cast_one, div_one]
  have hnormalize : @Quat.normalize K (ofField f) q =
      if (decide (q.x * q.x + q.y * q.y + q.z * q.z + q.w * q.w ≤ f.tiny) || !true) = true then @identity K (ofField f)
      else
        let k := ((1 : ℕ) : K) / f.sqrt (q.x * q.x + q.y * q.y + q.z * q.z + q.w * q.w)
        ⟨q.x * k, q.y * k, q.z * k, q.w * k⟩ := rfl
  rw [hnormalize, hdirected, hfactor, if_neg Bool.false_ne_true]
  simp only [mul_one]

/-! ## Turns -/

theorem versor_identity (f : Functions K) : (@identity K (ofField f)).Versor := by
  show ((0 : ℕ) : K) * ((0 : ℕ) : K) + ((0 : ℕ) : K) * ((0 : ℕ) : K) + ((0 : ℕ) : K) * ((0 : ℕ) : K) +
    ((1 : ℕ) : K) * ((1 : ℕ) : K) = 1
  rw [Nat.cast_zero, Nat.cast_one]
  ring

/-- **A turn about an axis of length one is a versor.** -/
theorem versor_turn {f : Functions K} (hsqrt : f.sqrt 1 = 1) (htiny : f.tiny < 1)
    (hcircle : ∀ x, f.cos x * f.cos x + f.sin x * f.sin x = 1) {axis : Vec3 K} (haxis : axis.inner axis = 1)
    (degrees : K) : (@turn K (ofField f) axis degrees).Versor := by
  unfold turn
  simp only [Vec3.direction_of_inner hsqrt htiny haxis]
  split
  · exact versor_identity f
  · have hturn (angle : K) : @ofAxisAngle K (ofField f) axis angle =
        ⟨axis.x * f.sin (angle / ((2 : ℕ) : K)), axis.y * f.sin (angle / ((2 : ℕ) : K)),
          axis.z * f.sin (angle / ((2 : ℕ) : K)), f.cos (angle / ((2 : ℕ) : K))⟩ := rfl
    rw [hturn, Versor]
    rw [Vec3.inner] at haxis
    generalize (@Scalar.radians K (ofField f) degrees) / ((2 : ℕ) : K) = half
    linear_combination f.sin half * f.sin half * haxis + hcircle half

end Quat
end Arbor
