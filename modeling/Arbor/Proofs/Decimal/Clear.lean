import Arbor.Proofs.Decimal.Fractions
import Arbor.Proofs.Decimal.Shortest

/-!
# Shortest decimals keep clear of the middles

The shortest decimal of a single lies between the middles to its neighbours. A reader that is off by a few parts in
`2 ^ 53` must not come to a middle, or beyond it. On a grid that is finer than the window the point is well inside
(`Binary.shortest_nearest`). On a coarser one, a point and a middle are the products of a power of ten and of a power of
two with factors below `2 ^ 25`; such products are equal or keep apart (`grid_apart`), with one exception, the decimal
`7038531e-32`. So the shortest decimal of every other single keeps clear of the middles (`Binary.shortest_clear`).
-/

namespace Arbor

/-! ## Powers of ten and of two -/

/-- The power `5 ^ k` divided by two to this exponent is from two to four. -/
def fiveScale (k : Int) : Int := k * 23219281 / 10000000 - 1

/-- The numerator of that quotient. -/
def fiveUp (k : Int) : Nat := 5 ^ k.toNat * 2 ^ (-fiveScale k).toNat

/-- The denominator of that quotient. -/
def fiveDown (k : Int) : Nat := 5 ^ (-k).toNat * 2 ^ (fiveScale k).toNat

/-- The fence around the quotient, drawn with denominators up to `2 ^ 25`. -/
def fiveFence (k : Int) : Fence := Fence.walk (fiveUp k) (fiveDown k) (2 ^ 25) 2000 ⟨0, 1, 1, 1⟩

/-- The quotient has a small denominator, or its fence keeps apart from it, with one exception. -/
def Separate (k : Int) : Prop :=
  fiveUp k * 2 ^ 25 < 4 * fiveDown k * 33554431 ∧
    (-11 ≤ k ∧ k ≤ 11 ∧ fiveDown k ≤ 2 ^ 26 ∨
      (fiveFence k).Encloses (fiveUp k) (fiveDown k) (2 ^ 25) ∧
        (9 * ((fiveFence k).p * fiveUp k) < 2 ^ 55 * ((fiveFence k).q * fiveDown k - (fiveFence k).p * fiveUp k) ∨
          k = -32) ∧
        9 * ((fiveFence k).p' * fiveUp k) < 2 ^ 55 * ((fiveFence k).p' * fiveUp k - (fiveFence k).q' * fiveDown k))

instance (k : Int) : Decidable (Separate k) := inferInstanceAs (Decidable (_ ∧ (_ ∨ _)))

theorem separate_all : ∀ i < 85, Separate ((i : Nat) - 46) := by decide +kernel

theorem separate {k : Int} (hlow : -46 ≤ k) (hhigh : k ≤ 38) : Separate k := by
  obtain ⟨i, hi⟩ := Int.eq_ofNat_of_zero_le (show 0 ≤ k + 46 by omega)
  obtain rfl : k = i - 46 := by omega
  exact separate_all i (by omega)

theorem fiveUp_pos (k : Int) : 0 < fiveUp k := by
  unfold fiveUp
  positivity

theorem fiveDown_pos (k : Int) : 0 < fiveDown k := by
  unfold fiveDown
  positivity

theorem fiveDown_mul (k : Int) : (fiveDown k : ℚ) * 5 ^ k = fiveUp k * 2 ^ fiveScale k := by
  have hfive := Window.zpow_mul_toNat (a := 5) (by norm_num) k
  have htwo := Window.zpow_mul_toNat (a := 2) (by norm_num) (fiveScale k)
  unfold fiveDown fiveUp
  push_cast
  calc (5 : ℚ) ^ (-k).toNat * 2 ^ (fiveScale k).toNat * 5 ^ k
      = 5 ^ k * 5 ^ (-k).toNat * 2 ^ (fiveScale k).toNat := by ring
    _ = 5 ^ k.toNat * (2 ^ fiveScale k * 2 ^ (-fiveScale k).toNat) := by rw [hfive, htwo]
    _ = 5 ^ k.toNat * 2 ^ (-fiveScale k).toNat * 2 ^ fiveScale k := by ring

theorem ten_zpow_mul (k : Int) : (fiveDown k : ℚ) * 10 ^ k = fiveUp k * 2 ^ (fiveScale k + k) := by
  rw [show (10 : ℚ) = 5 * 2 by norm_num, mul_zpow, ← mul_assoc, fiveDown_mul, zpow_add₀ (by norm_num), mul_assoc]

/-! ## Decimals and middles on a coarse grid -/

section Grid

variable {k q : Int} {d n : Nat}

/-- A grid no finer than about two steps of a power of two has that power beside it or below. -/
theorem le_fiveScale (hlow : -46 ≤ k) (hhigh : k ≤ 38) (hcoarse : (2 : ℚ) ^ (q + 1) * (1 - 1 / 2 ^ 25) ≤ 10 ^ k) :
    q ≤ fiveScale k + k := by
  have hdown : (0 : ℚ) < fiveDown k := by exact_mod_cast fiveDown_pos k
  have hup : (fiveUp k : ℚ) * 2 ^ 25 < 4 * fiveDown k * 33554431 := by exact_mod_cast (separate hlow hhigh).1
  have hbelow : (10 : ℚ) ^ k < 2 ^ (fiveScale k + k + 2) * (1 - 1 / 2 ^ 25) := by
    rw [← mul_lt_mul_iff_right₀ hdown, ten_zpow_mul, zpow_add₀ (by norm_num) (fiveScale k + k)]
    have hscale : (0 : ℚ) < 2 ^ (fiveScale k + k) := by positivity
    calc (fiveUp k : ℚ) * 2 ^ (fiveScale k + k) = fiveUp k * 2 ^ 25 / 2 ^ 25 * 2 ^ (fiveScale k + k) := by ring
      _ < 4 * fiveDown k * 33554431 / 2 ^ 25 * 2 ^ (fiveScale k + k) :=
        mul_lt_mul_of_pos_right (div_lt_div_of_pos_right hup (by norm_num)) hscale
      _ = fiveDown k * (2 ^ (fiveScale k + k) * 2 ^ (2 : Int) * (1 - 1 / 2 ^ 25)) := by
        norm_num
        ring
  have hpowers := lt_of_mul_lt_mul_right (hcoarse.trans_lt hbelow) (by norm_num)
  have := (zpow_lt_zpow_iff_right₀ (by norm_num)).mp hpowers
  omega

/-- The exception has no other shape. -/
theorem eq_of_exception {m : Nat} (hn : 0 < n) (hn' : n < 2 ^ 25) (h : m * 22841339 = 7038531 * n) :
    m = 7038531 ∧ n = 22841339 := by
  have hcoprime : Nat.Coprime 22841339 7038531 := by decide +kernel
  obtain ⟨c, rfl⟩ := hcoprime.dvd_of_dvd_mul_left (Dvd.intro_left m h)
  obtain rfl : c = 1 := by omega
  omega

/-- **On a coarse grid, decimals and middles are equal or apart,** with one exception. -/
theorem grid_apart (hlow : -46 ≤ k) (hhigh : k ≤ 38) (hn : 0 < n) (hn' : n < 2 ^ 25)
    (hcoarse : (2 : ℚ) ^ (q + 1) * (1 - 1 / 2 ^ 25) ≤ 10 ^ k) :
    ¬Close (n * 2 ^ q) (d * 10 ^ k) ∨ ((d * 10 ^ k : ℚ) = n * 2 ^ q ∧ -11 ≤ k ∧ k ≤ 11) ∨
      (d = 7038531 ∧ k = -32 ∧ n = 22841339 ∧ q = -108) := by
  obtain ⟨a, ha⟩ := Int.eq_ofNat_of_zero_le (Int.sub_nonneg_of_le (le_fiveScale hlow hhigh hcoarse))
  have hdown : (0 : ℚ) < fiveDown k := by exact_mod_cast fiveDown_pos k
  have hc : (0 : ℚ) < 2 ^ q / fiveDown k := by positivity
  have hmiddle : (n * 2 ^ q : ℚ) = 2 ^ q / fiveDown k * (n * fiveDown k : ℕ) := by
    push_cast
    field_simp
  have hdecimal : (d * 10 ^ k : ℚ) = 2 ^ q / fiveDown k * (d * 2 ^ a * fiveUp k : ℕ) := by
    have hten : (10 : ℚ) ^ k = fiveUp k * (2 ^ a * 2 ^ q) / fiveDown k := by
      rw [eq_div_iff hdown.ne', mul_comm, ten_zpow_mul, ← zpow_natCast, ← zpow_add₀ (by norm_num), ← ha, sub_add_cancel]
    rw [hten]
    push_cast
    ring
  rw [hmiddle, hdecimal]
  have happart : Apart (d * 2 ^ a) n (fiveUp k) (fiveDown k) ∨
      (d * 2 ^ a * fiveUp k = n * fiveDown k ∧ -11 ≤ k ∧ k ≤ 11) ∨
      (d * 2 ^ a = 7038531 ∧ k = -32 ∧ n = 22841339) := by
    rcases (separate hlow hhigh).2 with ⟨hl, hh, hsmall⟩ | ⟨hfence, hend, hend'⟩
    · by_cases heq : d * 2 ^ a * fiveUp k = n * fiveDown k
      · exact Or.inr (Or.inl ⟨heq, hl, hh⟩)
      · exact Or.inl (apart_of_ne hn'.le hsmall heq)
    · rcases Fence.apart_or_end (n := d * 2 ^ a) hfence (fiveUp_pos k) hn' with h | h | h
      · exact Or.inl h
      · rcases hend with hend | rfl
        · exact Or.inl (Fence.apart_low hn hend h)
        · have hfence : fiveFence (-32) = ⟨7038531, 22841339, 4466801, 14495598⟩ := by decide +kernel
          rw [hfence] at h
          obtain ⟨hm, rfl⟩ := eq_of_exception hn hn' h
          exact Or.inr (Or.inr ⟨hm, rfl, rfl⟩)
      · exact Or.inl (Fence.apart_high hn hend' h)
  rcases happart with h | ⟨h, hl, hh⟩ | ⟨h, rfl, rfl⟩
  · exact Or.inl (h.not_close hc)
  · exact Or.inr (Or.inl ⟨by rw [h], hl, hh⟩)
  · -- an odd number is no multiple of two
    obtain rfl : a = 0 := by
      by_contra hne
      obtain ⟨b, rfl⟩ := Nat.exists_eq_succ_of_ne_zero hne
      rw [Nat.pow_succ, ← Nat.mul_assoc] at h
      omega
    have hscale : fiveScale (-32) = -76 := by decide
    rw [Nat.pow_zero, Nat.mul_one] at h
    exact Or.inr (Or.inr ⟨h, rfl, rfl, by omega⟩)

end Grid

/-! ## The point that is found -/

namespace Window

variable {w : Window} {tie : Tie} {p : Nat}

/-- **In a symmetric window, the point that is found is the nearest one on its grid.** -/
theorem point?_nearest (hw : w.Proper) (hmiddle : w.low + w.high = 2 * w.value) (h : w.point? tie = some p) :
    2 * (p * w.unit) ≤ 2 * w.value + w.unit ∧ 2 * w.value ≤ 2 * (p * w.unit) + w.unit := by
  obtain ⟨hbelow, habove⟩ := hw.between
  have hsplit : w.value / w.unit * w.unit + w.value % w.unit = w.value := Nat.div_add_mod' _ _
  have hnext : (w.value / w.unit + 1) * w.unit = w.value / w.unit * w.unit + w.unit := Nat.succ_mul _ _
  simp only [point?] at h
  split at h
  case isTrue =>
    split at h
    case isTrue hlt =>
      obtain rfl := Option.some.inj h
      omega
    split at h
    case isTrue hgt =>
      obtain rfl := Option.some.inj h
      omega
    cases tie <;> simp only at h
    · obtain rfl := Option.some.inj h
      split <;> omega
    · obtain rfl := Option.some.inj h
      omega
  case isFalse hboth =>
    split at h
    case isTrue hin =>
      obtain rfl := Option.some.inj h
      have hout : ¬(w.value / w.unit + 1) * w.unit < w.high := fun hlt => hboth ⟨hin, Or.inl hlt⟩
      have hlow : w.low ≤ w.value / w.unit * w.unit := hin.elim Nat.le_of_lt fun heq => heq.2.le
      omega
    case isFalse hout =>
      split at h
      case isTrue hin =>
        obtain rfl := Option.some.inj h
        have hout : ¬w.low < w.value / w.unit * w.unit := fun hlt => hout (Or.inl hlt)
        have hhigh : (w.value / w.unit + 1) * w.unit ≤ w.high := hin.elim Nat.le_of_lt fun heq => heq.2.le
        omega
      case isFalse => cases h

end Window

/-- A power of two is below a power of ten if their exponents are as three and a third to one. -/
theorem two_zpow_le {n x : Int} (hpos : 0 ≤ x → 31 * x ≤ 100 * n) (hneg : x ≤ 0 → 3 * x ≤ 10 * n) :
    (2 : ℚ) ^ x ≤ 10 ^ n := by
  rcases Int.le_total 0 x with hx | hx
  · refine le_of_pow_le_pow_left₀ (n := 100) (by decide) (by positivity) ?_
    calc ((2 : ℚ) ^ x) ^ 100 = (2 ^ 100) ^ x := by rw [← zpow_natCast, ← zpow_natCast, ← zpow_mul, ← zpow_mul, mul_comm]
      _ ≤ (10 ^ 31) ^ x := zpow_le_zpow_left₀ hx (by norm_num) (by norm_num)
      _ = 10 ^ (31 * x) := by rw [zpow_mul]; norm_cast
      _ ≤ 10 ^ (n * 100) := zpow_le_zpow_right₀ (by norm_num) (by have := hpos hx; omega)
      _ = (10 ^ n) ^ 100 := by rw [zpow_mul]; norm_cast
  · obtain ⟨y, rfl⟩ := Int.exists_eq_neg_ofNat hx
    refine le_of_pow_le_pow_left₀ (n := 10) (by decide) (by positivity) ?_
    calc ((2 : ℚ) ^ (-(y : Int))) ^ 10 = ((2 ^ 10) ^ y)⁻¹ := by rw [zpow_neg, zpow_natCast, inv_pow, ← pow_mul, ← pow_mul, mul_comm]
      _ ≤ ((10 ^ 3) ^ y)⁻¹ := inv_anti₀ (by positivity) (pow_le_pow_left₀ (by norm_num) (by norm_num) y)
      _ = 10 ^ (3 * -(y : Int)) := by rw [zpow_mul, zpow_neg, zpow_natCast]; norm_cast
      _ ≤ 10 ^ (n * 10) := zpow_le_zpow_right₀ (by norm_num) (by have := hneg hx; omega)
      _ = (10 ^ n) ^ 10 := by rw [zpow_mul]; norm_cast

namespace Binary

variable {m : Nat} {e : Int}

/-- **The shortest decimal is the nearest one on its grid,** unless the window is lopsided. -/
theorem shortest_nearest (tie : Tie) (hpos : 0 < m) (hm : m < 2 ^ 53) (hlow : -1074 ≤ e) (hhigh : e ≤ 971) :
    let d := shortest tie m e false
    |(d.digits * 10 ^ d.exponent : ℚ) - m * 2 ^ e| ≤ 10 ^ d.exponent / 2 := by
  obtain ⟨j, p, hshortest, hfound, -⟩ := shortest_first tie false hpos hm hlow hhigh
  have hproper := Window.proper_iterate (Window.proper_ofBinary hpos e
    (((m.log2 + 1 : Nat) + e) * 30103 / 100000 + 1) false) j
  obtain ⟨c, hc, hquarter, hunit⟩ := Window.grid_scale e (((m.log2 + 1 : Nat) + e) * 30103 / 100000 + 1) j
  intro d
  simp only [d, hshortest]
  generalize ((m.log2 + 1 : Nat) + e) * 30103 / 100000 + 1 = k at *
  obtain ⟨hup, hdown⟩ := Window.point?_nearest hproper (by
    rw [Window.iterate_finer, Window.ofBinary_eq]
    simp only [Bool.false_eq_true, if_false, ← Nat.add_mul, ← Nat.mul_assoc]
    congr 2
    omega) hfound
  rw [Window.iterate_finer, Window.ofBinary_eq] at hup hdown
  simp only at hup hdown
  have hvalue : (m * 2 ^ e : ℚ) = ((4 * m * Window.quarter e k * 10 ^ j : ℕ) : ℚ) * c := by
    have hfour : (2 : ℚ) ^ e = 4 * 2 ^ (e - 2) := by
      rw [zpow_sub₀ (by norm_num)]
      norm_num
      ring
    rw [hfour, ← hquarter]
    push_cast
    ring
  have hpoint : (p * 10 ^ (k - j) : ℚ) = ((p * Window.unitOf e k : ℕ) : ℚ) * c := by
    rw [← hunit]
    push_cast
    ring
  have hup' : 2 * ((p * Window.unitOf e k : ℕ) : ℚ) ≤ 2 * (4 * m * Window.quarter e k * 10 ^ j : ℕ) + Window.unitOf e k := by
    exact_mod_cast hup
  have hdown' : 2 * ((4 * m * Window.quarter e k * 10 ^ j : ℕ) : ℚ) ≤ 2 * (p * Window.unitOf e k : ℕ) + Window.unitOf e k := by
    exact_mod_cast hdown
  rw [hvalue, hpoint, ← hunit, ← sub_mul, abs_mul, abs_of_pos hc, mul_div_right_comm]
  refine mul_le_mul_of_nonneg_right ?_ hc.le
  rw [abs_le]
  constructor <;> linarith

/-- The grid that is ten times as coarse has steps of more than half the last binary digit. -/
theorem shortest_fine (tie : Tie) (hpos : 0 < m) (hm : m < 2 ^ 53) (hlow : -149 ≤ e) (hhigh : e ≤ 104) :
    (2 : ℚ) ^ (e - 1) < 10 ^ ((shortest tie m e false).exponent + 1) := by
  have hdoubles : -1074 ≤ e ∧ e ≤ 971 := by omega
  obtain ⟨j, p, hshortest, -, hbefore⟩ := shortest_first tie false hpos hm hdoubles.1 hdoubles.2
  have hbits : m.log2 + 1 ≤ 53 := (Nat.log2_lt hpos.ne').mpr hm
  obtain ⟨k, hk⟩ : ∃ k, ((m.log2 + 1 : Nat) + e) * 30103 / 100000 + 1 = k := ⟨_, rfl⟩
  rw [hk] at hshortest hbefore
  rw [hshortest]
  cases j with
  | zero =>
    -- the first grid is coarser than the number
    have hle : (2 : ℚ) ^ e ≤ 10 ^ (k - (0 : Nat) + 1) := two_zpow_le (by omega) (by omega)
    exact (zpow_lt_zpow_right₀ (by norm_num) (by omega)).trans_le hle
  | succ j =>
    -- a grid with smaller steps would have had a point
    have hproper := Window.proper_iterate (Window.proper_ofBinary hpos e k false) j
    have hcoarse := mt (@Window.point?_isSome _ tie hproper) (by simp [hbefore j (Nat.lt_succ_self j)])
    rw [Window.iterate_finer, Window.ofBinary_eq] at hcoarse
    obtain ⟨c, hc, hquarter, hunit⟩ := Window.grid_scale e k j
    have hstep : 2 * (Window.quarter e k * 10 ^ j) < Window.unitOf e k := by
      have hhalf : 4 * m * Window.quarter e k * 10 ^ j - (4 * m - 2) * Window.quarter e k * 10 ^ j =
          2 * (Window.quarter e k * 10 ^ j) := by
        rw [← Nat.sub_mul, ← Nat.sub_mul, Nat.mul_assoc]
        congr 1
        omega
      simpa only [Bool.false_eq_true, if_false, hhalf, not_le] using hcoarse
    have hstep' : 2 * ((Window.quarter e k * 10 ^ j : ℕ) : ℚ) < Window.unitOf e k := by exact_mod_cast hstep
    have hexponent : k - (j + 1 : Nat) + 1 = k - j := by omega
    rw [hexponent, ← hunit]
    calc (2 : ℚ) ^ (e - 1) = 2 * 2 ^ (e - 2) := by rw [← zpow_one_add₀ (by norm_num)]; congr 1; omega
      _ = 2 * (Window.quarter e k * 10 ^ j : ℕ) * c := by rw [← hquarter, mul_assoc]
      _ < Window.unitOf e k * c := mul_lt_mul_of_pos_right hstep' hc

/-! ## Singles -/

/-- Neither a middle between a number and a neighbour, nor so close to it that a reader may take it for one; or exactly
a middle, with a small power of ten. -/
def ClearOf (middle : ℚ) (d : Decimal) : Prop :=
  ¬Close middle (d.digits * 10 ^ d.exponent) ∨
    ((d.digits * 10 ^ d.exponent : ℚ) = middle ∧ -11 ≤ d.exponent ∧ d.exponent ≤ 11)

/-- A decimal that a reader of doubles can deal with. -/
structure Handy (d : Decimal) : Prop where
  pos : 0 < d.digits
  lt : d.digits < 2 ^ 53
  low : -46 ≤ d.exponent
  high : d.exponent ≤ 38

/-- The lower neighbour of a power of two is near, so that the window is lopsided. There are few such singles. -/
def narrowClear (e : Int) : Bool :=
  let d := shortest .even (2 ^ 23) e true
  0 < d.digits ∧ d.digits < 2 ^ 53 ∧ -46 ≤ d.exponent ∧ d.exponent ≤ 38 ∧
    Apart d.digits (2 ^ 25 - 1) (Window.unitOf e d.exponent) (Window.quarter e d.exponent) ∧
    Apart d.digits (2 ^ 25 + 2) (Window.unitOf e d.exponent) (Window.quarter e d.exponent)

theorem narrowClear_all : ∀ i < 253, narrowClear ((i : Nat) - 148) = true := by decide +kernel

theorem narrowClear_of_le (hlow : -148 ≤ e) (hhigh : e ≤ 104) : narrowClear e = true := by
  obtain ⟨i, hi⟩ := Int.eq_ofNat_of_zero_le (show 0 ≤ e + 148 by omega)
  obtain rfl : e = i - 148 := by omega
  exact narrowClear_all i (by omega)

section Even

variable (hpos : 0 < m) (hm : m < 2 ^ 24) (hlow : -149 ≤ e) (hhigh : e ≤ 104)

include hpos hm hlow hhigh

theorem shortest_handy_even : Handy (shortest .even m e false) := by
  have hdoubles : m < 2 ^ 53 ∧ -1074 ≤ e ∧ e ≤ 971 := by omega
  have hnear := shortest_near .even false hpos hdoubles.1 hdoubles.2.1 hdoubles.2.2
  have hnearest := shortest_nearest .even hpos hdoubles.1 hdoubles.2.1 hdoubles.2.2
  have hfine := shortest_fine .even hpos hdoubles.1 hlow hhigh
  generalize shortest .even m e false = d at *
  have hm' : (m : ℚ) ≤ 2 ^ 24 := by exact_mod_cast hm.le
  have hone : (1 : ℚ) ≤ m := by exact_mod_cast hpos
  have hstep : (0 : ℚ) < 10 ^ d.exponent := by positivity
  have hhalf : (0 : ℚ) < 2 ^ (e - 1) := by positivity
  have htwo : (2 : ℚ) ^ e = 2 * 2 ^ (e - 1) := by rw [← zpow_one_add₀ (by norm_num), add_sub_cancel]
  have hscaled : (m : ℚ) * 2 ^ (e - 1) ≤ 2 ^ 24 * 2 ^ (e - 1) := mul_le_mul_of_nonneg_right hm' hhalf.le
  rw [htwo, abs_le] at hnearest
  have hdigits : 0 < d.digits := by
    by_contra hzero
    obtain hzero : d.digits = 0 := by omega
    have hlow : (0 : ℚ) < (4 * m - if false = true then 1 else 2) * 2 ^ (e - 2) := by
      refine mul_pos ?_ (by positivity)
      norm_num
      linarith
    rcases hnear.1 with h | ⟨-, h⟩ <;> simp only [hzero, Nat.cast_zero, zero_mul] at h <;> linarith
  have hdigits' : (1 : ℚ) ≤ d.digits := by exact_mod_cast hdigits
  have hten : (d.digits : ℚ) * 10 ^ d.exponent ≥ 10 ^ d.exponent := le_mul_of_one_le_left hstep.le hdigits'
  rw [zpow_add_one₀ (by norm_num)] at hfine
  refine ⟨hdigits, ?_, ?_, ?_⟩
  · have hbound : (d.digits : ℚ) * 10 ^ d.exponent < 2 ^ 53 * 10 ^ d.exponent := by linarith
    exact_mod_cast lt_of_mul_lt_mul_right hbound hstep.le
  · have hleast : (2 : ℚ) ^ (-150 : Int) ≤ 2 ^ (e - 1) := zpow_le_zpow_right₀ (by norm_num) (by omega)
    have hpower : (10 : ℚ) ^ (-47 : Int) < 10 ^ d.exponent := by
      have : (10 : ℚ) ^ (-47 : Int) * 10 ≤ 2 ^ (-150 : Int) := by norm_num
      linarith
    have := (zpow_lt_zpow_iff_right₀ (by norm_num)).mp hpower
    omega
  · have hgreatest : (2 : ℚ) ^ (e - 1) ≤ 2 ^ (103 : Int) := zpow_le_zpow_right₀ (by norm_num) (by omega)
    have hpower : (10 : ℚ) ^ d.exponent < 10 ^ (39 : Int) := by
      have : (2 : ℚ) ^ 26 * 2 ^ (103 : Int) < 10 ^ (39 : Int) := by norm_num
      linarith
    have := (zpow_lt_zpow_iff_right₀ (by norm_num)).mp hpower
    omega

/-- A middle lies half a binary digit beside the number, and the decimal at most half a step of its grid. -/
theorem shortest_clear_even (n : Nat) (hn : n = 2 * m - 1 ∨ n = 2 * m + 1) :
    ClearOf (n * 2 ^ (e - 1)) (shortest .even m e false) ∨ (m = 11420669 ∧ e = -107) := by
  have hhandy := shortest_handy_even hpos hm hlow hhigh
  have hnearest := shortest_nearest .even hpos (hm.trans (by decide)) (by omega : -1074 ≤ e) (by omega)
  by_cases hcoarse : (2 : ℚ) ^ (e - 1 + 1) * (1 - 1 / 2 ^ 25) ≤ 10 ^ (shortest .even m e false).exponent
  · rcases grid_apart (d := (shortest .even m e false).digits) hhandy.low hhandy.high (by omega : 0 < n) (by omega)
      hcoarse with h | h | ⟨hd, hk, hn', he⟩
    · exact Or.inl (Or.inl h)
    · exact Or.inl (Or.inr h)
    · obtain rfl : e = -107 := by omega
      rcases hn with rfl | rfl
      · obtain rfl : m = 11420670 := by omega
        have heval : shortest .even 11420670 (-107) false = ⟨70385313, -33⟩ := by decide +kernel
        rw [heval] at hk
        cases hk
      · exact Or.inr ⟨by omega, rfl⟩
  · refine Or.inl (Or.inl fun hclose => ?_)
    generalize shortest .even m e false = d at *
    have hm' : (m : ℚ) + 1 ≤ 2 ^ 24 := by exact_mod_cast hm
    have hhalf : (0 : ℚ) < 2 ^ (e - 1) := by positivity
    have htwo : (2 : ℚ) ^ e = 2 * 2 ^ (e - 1) := by rw [← zpow_one_add₀ (by norm_num), add_sub_cancel]
    have hscaled : ((m : ℚ) + 1) * 2 ^ (e - 1) ≤ 2 ^ 24 * 2 ^ (e - 1) := mul_le_mul_of_nonneg_right hm' hhalf.le
    rw [sub_add_cancel, htwo, not_le] at hcoarse
    rw [htwo, abs_le] at hnearest
    rw [Close, abs_le] at hclose
    rcases hn with rfl | rfl
    · have hcast : ((2 * m - 1 : ℕ) : ℚ) = 2 * m - 1 := by rw [Nat.cast_sub (by omega)]; push_cast; rfl
      rw [hcast] at hclose
      linarith
    · push_cast at hclose
      linarith

end Even

section Narrow

variable (hlow : -148 ≤ e) (hhigh : e ≤ 104)

include hlow hhigh

theorem shortest_handy_narrow : Handy (shortest .even (2 ^ 23) e true) := by
  have hcheck := narrowClear_of_le hlow hhigh
  simp only [narrowClear, decide_eq_true_eq] at hcheck
  exact ⟨hcheck.1, hcheck.2.1, hcheck.2.2.1, hcheck.2.2.2.1⟩

theorem shortest_clear_narrow (n : Nat) (hn : n = 2 ^ 25 - 1 ∨ n = 2 ^ 25 + 2) :
    ClearOf (n * 2 ^ (e - 2)) (shortest .even (2 ^ 23) e true) := by
  have hcheck := narrowClear_of_le hlow hhigh
  simp only [narrowClear, decide_eq_true_eq] at hcheck
  obtain ⟨-, -, -, -, hbelow, habove⟩ := hcheck
  generalize shortest .even (2 ^ 23) e true = d at *
  obtain ⟨c, hc, hquarter, hunit⟩ := Window.grid_scale e d.exponent 0
  have happart : Apart d.digits n (Window.unitOf e d.exponent) (Window.quarter e d.exponent) := by
    rcases hn with rfl | rfl
    · exact hbelow
    · exact habove
  have hclear := happart.not_close hc
  have hmiddle : c * (n * Window.quarter e d.exponent : ℕ) = n * 2 ^ (e - 2) := by
    rw [← hquarter]
    push_cast
    ring
  have hdecimal : c * (d.digits * Window.unitOf e d.exponent : ℕ) = d.digits * 10 ^ d.exponent := by
    rw [Nat.cast_zero, sub_zero] at hunit
    rw [← hunit]
    push_cast
    ring
  rw [hmiddle, hdecimal] at hclear
  exact Or.inl hclear

end Narrow

variable {narrow : Bool}

/-- The shortest decimal of a single has few digits and a small exponent. -/
theorem shortest_handy (hs : Stored 23 (-149) m e narrow) (hpos : 0 < m) (hhigh : e ≤ 104) :
    Handy (shortest .even m e narrow) := by
  cases hnarrow : narrow with
  | false => exact shortest_handy_even hpos hs.lt hs.least_le hhigh
  | true =>
    obtain ⟨rfl, he⟩ := hs.narrow_iff.mp hnarrow
    exact shortest_handy_narrow (by omega) hhigh

/-- **The shortest decimal of a single is clear of the middles to its neighbours,** with one exception. -/
theorem shortest_clear (hs : Stored 23 (-149) m e narrow) (hpos : 0 < m) (hhigh : e ≤ 104)
    (hexception : ¬(m = 11420669 ∧ e = -107)) :
    ClearOf ((4 * m - if narrow then 1 else 2) * 2 ^ (e - 2)) (shortest .even m e narrow) ∧
      ClearOf ((4 * m + 2) * 2 ^ (e - 2)) (shortest .even m e narrow) := by
  cases hnarrow : narrow with
  | false =>
    have htwo : (2 : ℚ) ^ (e - 1) = 2 * 2 ^ (e - 2) := by
      rw [← zpow_one_add₀ (by norm_num)]
      congr 1
      omega
    have hclear := fun n hn => (shortest_clear_even hpos hs.lt hs.least_le hhigh n hn).resolve_right hexception
    have hlow := hclear (2 * m - 1) (Or.inl rfl)
    have hhigh := hclear (2 * m + 1) (Or.inr rfl)
    rw [Nat.cast_sub (by omega), htwo] at hlow
    rw [htwo] at hhigh
    push_cast at hlow hhigh
    refine ⟨?_, ?_⟩
    · convert hlow using 1
      norm_num
      ring
    · convert hhigh using 1
      ring
  | true =>
    obtain ⟨rfl, he⟩ := hs.narrow_iff.mp hnarrow
    have hclear := shortest_clear_narrow (e := e) (by omega) hhigh
    have hlow := hclear (2 ^ 25 - 1) (Or.inl rfl)
    have hhigh := hclear (2 ^ 25 + 2) (Or.inr rfl)
    norm_num at hlow hhigh ⊢
    exact ⟨hlow, hhigh⟩

end Binary

end Arbor
