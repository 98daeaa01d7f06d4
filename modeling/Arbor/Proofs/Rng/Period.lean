import Arbor.Rng
import Arbor.Proofs.Rng.Word
import Mathlib.Data.Finite.Prod
import Mathlib.Dynamics.PeriodicPts.Lemmas

/-!
# The period of the generator

Every state of a generator has exactly one predecessor (`Rng.next_bijective`), and the counter register tells how many
words have been drawn, up to a multiple of `2 ^ 32` (`Rng.d_skip`). So a generator comes back to each of its states, and
never in fewer than `2 ^ 32` steps (`Rng.never_collapses`).
-/

namespace Arbor
namespace Rng

/-- There are finitely many states. -/
instance : Finite Rng :=
  .of_injective (fun g : Rng => (g.a.toFin, g.b.toFin, g.c.toFin, g.d.toFin)) fun g h heq => by
    cases g
    cases h
    simpa [UInt32.toFin_inj] using heq

/-! ## One word -/

/-- A word and its shift by three places are nine times the word. -/
theorem add_shiftLeft_three (w : UInt32) : w + (w <<< 3) = w * 9 := by
  have hshift : (w <<< 3).toNat = w.toNat * 8 % 4294967296 := by
    rw [UInt32.toNat_shiftLeft, Nat.shiftLeft_eq]
    rfl
  have hnine : w.toNat + w.toNat * 8 = w.toNat * 9 := by omega
  apply UInt32.toNat_inj.mp
  rw [UInt32.toNat_add, UInt32.toNat_mul, hshift, Nat.add_mod_mod, hnine]
  rfl

/-- Two states with the same successor are the same. The counter and the second and third registers are read back first,
each from one register of the successor; then the word, and from it the first register. -/
theorem next_injective : Function.Injective fun g : Rng => g.next.2 := by
  rintro ⟨a, b, c, d⟩ ⟨a', b', c', d'⟩ h
  simp only [next, mk.injEq] at h
  obtain ⟨hb, hc, hword, hd⟩ := h
  obtain rfl : d = d' := by simpa using hd
  obtain rfl : b = b' := UInt32.xorShift_injective (k := 9) (by decide) (by decide) hb
  obtain rfl : c = c' := by
    rw [add_shiftLeft_three, add_shiftLeft_three] at hc
    have hinverse : (9 : UInt32) * 954437177 = 1 := by decide
    exact UInt32.mul_left_injective_of_inverse hinverse hc
  obtain rfl : a = a' := by simpa using hword
  rfl

/-- **Every state has exactly one predecessor.** -/
theorem next_bijective : Function.Bijective fun g : Rng => g.next.2 := Finite.injective_iff_bijective.mp next_injective

/-! ## Many words -/

theorem skip_eq_iterate (g : Rng) (n : Nat) : g.skip n = (fun g : Rng => g.next.2)^[n] g := by
  induction n with
  | zero => rfl
  | succ n ih => rw [skip_succ, ih, Function.iterate_succ_apply']

/-- The counter counts the words. -/
theorem d_skip (g : Rng) (n : Nat) : (g.skip n).d = g.d + UInt32.ofNat n := by
  induction n with
  | zero => exact (UInt32.add_zero _).symm
  | succ n ih =>
    have hstep : (g.skip (n + 1)).d = (g.skip n).d + 1 := rfl
    rw [hstep, ih, UInt32.ofNat_add, UInt32.add_assoc]
    rfl

/-- States that are equal have equally many words behind them, up to a multiple of `2 ^ 32`. -/
theorem modEq_of_skip_eq {g : Rng} {m n : Nat} (h : g.skip m = g.skip n) : m ≡ n [MOD 4294967296] := by
  have hcounter : g.d + UInt32.ofNat m = g.d + UInt32.ofNat n := by rw [← d_skip, ← d_skip, h]
  have hcount : UInt32.ofNat m = UInt32.ofNat n := by simpa using hcounter
  have := congrArg UInt32.toNat hcount
  rwa [UInt32.toNat_ofNat', UInt32.toNat_ofNat'] at this

/-- Every state comes back. -/
theorem exists_skip_eq (g : Rng) : ∃ n, 0 < n ∧ g.skip n = g := by
  obtain ⟨n, hpos, hn⟩ := next_injective.mem_periodicPts g
  exact ⟨n, hpos, (skip_eq_iterate g n).trans hn⟩

/-- **The generator never collapses.** Every state has exactly one predecessor, comes back, and only ever after a
multiple of `2 ^ 32` words; so the first `2 ^ 32` states of a seed are all different. -/
theorem never_collapses :
    (Function.Bijective fun g : Rng => g.next.2) ∧
    (∀ g : Rng, (∃ n, 0 < n ∧ g.skip n = g) ∧ ∀ n, 0 < n → g.skip n = g → 4294967296 ∣ n) ∧
    ∀ (seed : String) (i j : Nat), i < j → j ≤ 4294967295 → (ofSeed seed).skip i ≠ (ofSeed seed).skip j := by
  refine ⟨next_bijective, fun g => ⟨exists_skip_eq g, fun n _ hn => ?_⟩, fun seed i j hij hj heq => ?_⟩
  · exact (Nat.modEq_zero_iff_dvd).mp (modEq_of_skip_eq (n := 0) hn)
  · have := modEq_of_skip_eq heq
    rw [Nat.ModEq, Nat.mod_eq_of_lt (by omega), Nat.mod_eq_of_lt (by omega)] at this
    omega

/-- The generator of a seed comes back to its start, and its first state and its state `2 ^ 32 - 1` words on differ. -/
theorem never_collapses_willow : (∃ n, 4294967296 ≤ n ∧ (ofSeed "willow").skip n = ofSeed "willow") ∧
    (ofSeed "willow").skip 0 ≠ (ofSeed "willow").skip 4294967295 := by
  obtain ⟨-, hperiod, hseed⟩ := never_collapses
  obtain ⟨⟨n, hpos, hn⟩, hdvd⟩ := hperiod (ofSeed "willow")
  exact ⟨⟨n, Nat.le_of_dvd hpos (hdvd n hpos hn), hn⟩, hseed "willow" 0 4294967295 (by decide) (by decide)⟩

end Rng
end Arbor
