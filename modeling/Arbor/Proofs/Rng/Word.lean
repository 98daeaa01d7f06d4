import Mathlib.Data.UInt
import Mathlib.Tactic.LinearCombination

/-!
# Words mixed without loss

A word with its own shift taken into it is the word of no other (`UInt32.xorShift_injective`), and neither is its
product with an invertible factor (`UInt32.mul_left_injective_of_inverse`).
-/

namespace Arbor

open scoped UInt32.CommRing

/-- A shift to the right leaves only zero as it is. -/
theorem UInt32.eq_zero_of_shiftRight_eq {x k : UInt32} (hpos : 0 < k) (hlt : k < 32) (h : x >>> k = x) : x = 0 := by
  have hk : k.toNat % 32 = k.toNat := Nat.mod_eq_of_lt (UInt32.lt_iff_toNat_lt.mp hlt)
  have hquotient : x.toNat / 2 ^ k.toNat = x.toNat := by
    rw [← Nat.shiftRight_eq_div_pow, ← hk, ← UInt32.toNat_shiftRight, h]
  have hpow : 1 < 2 ^ k.toNat := Nat.one_lt_two_pow (Nat.ne_of_gt (UInt32.lt_iff_toNat_lt.mp hpos))
  by_contra hne
  have hx : 0 < x.toNat := Nat.pos_of_ne_zero fun h0 => hne (UInt32.toNat_inj.mp h0)
  have := Nat.div_lt_self hx hpow
  omega

/-- **A word is known from its exclusive or with its own shift.** Two words with the same one differ by a word that is
its own shift. -/
theorem UInt32.xorShift_injective {k : UInt32} (hpos : 0 < k) (hlt : k < 32) :
    Function.Injective fun x : UInt32 => x ^^^ (x >>> k) := by
  intro x y h
  have hmixed : x ^^^ (x >>> k) = y ^^^ (y >>> k) := h
  have hshift : (x ^^^ y) >>> k = x ^^^ y := by
    rw [UInt32.shiftRight_xor, ← UInt32.xor_eq_zero_iff]
    calc (x >>> k) ^^^ (y >>> k) ^^^ (x ^^^ y)
        = (x ^^^ (x >>> k)) ^^^ (y ^^^ (y >>> k)) := by ac_rfl
      _ = 0 := by rw [hmixed, UInt32.xor_self]
  exact UInt32.xor_eq_zero_iff.mp (UInt32.eq_zero_of_shiftRight_eq hpos hlt hshift)

/-- A word is known from its product with a factor that has an inverse. -/
theorem UInt32.mul_left_injective_of_inverse {factor inverse : UInt32} (h : factor * inverse = 1) :
    Function.Injective fun x : UInt32 => x * factor := by
  intro x y hxy
  have hproduct : x * factor = y * factor := hxy
  linear_combination inverse * hproduct + (y - x) * h

end Arbor
