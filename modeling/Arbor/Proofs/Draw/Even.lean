import Arbor.Proofs.Draw
import Mathlib.Algebra.Order.Floor.Div
import Mathlib.Data.Set.Card
import Mathlib.Order.Interval.Finset.Nat

/-!
# Whole numbers are drawn evenly

A whole number is drawn by cutting the range of all words into as many parts as there are numbers, one for each of them
in order (`Draw.run_integer`). Part `j` holds the words between two multiples of `2 ^ 32`, each divided by the number of
parts and rounded up (`mul_div_eq_iff`), and such parts differ by no more than one word (`ceilDiv_add_sub`). So every
number belongs to the same number of words, up to one (`Draw.ncard_integerOf`), and a choice among items takes the item
of such a number as it is (`Draw.run_choice`).
-/

namespace Arbor

/-! ## Equal parts -/

section Parts

variable {n span : Nat}

/-- Part `j` of `span` parts begins at a multiple of `n`, divided by `span` and rounded up, and ends before the next. -/
theorem mul_div_eq_iff (hn : 0 < n) (hspan : 0 < span) {w j : Nat} :
    w * span / n = j ↔ (j * n) ⌈/⌉ span ≤ w ∧ w < ((j + 1) * n) ⌈/⌉ span := by
  have hbelow (a : Nat) : a ⌈/⌉ span ≤ w ↔ a ≤ w * span := by
    rw [ceilDiv_le_iff_le_mul hspan, Nat.mul_comm]
  rw [← not_le, hbelow, hbelow, not_le, ← Nat.le_div_iff_mul_le hn, ← Nat.div_lt_iff_lt_mul hn]
  omega

/-- **Parts of a range differ by one at most.** -/
theorem ceilDiv_add_sub (hspan : 0 < span) (a : Nat) :
    (a + n) ⌈/⌉ span - a ⌈/⌉ span = n / span ∨ (a + n) ⌈/⌉ span - a ⌈/⌉ span = n ⌈/⌉ span := by
  have hnext : a + n + span - 1 = a + span - 1 + n := by omega
  have hup : n + span - 1 = n + (span - 1) := by omega
  have hlast : (span - 1) / span = 0 := Nat.div_eq_of_lt (by omega)
  have hkept : (span - 1) % span = span - 1 := Nat.mod_eq_of_lt (by omega)
  have hrest : (a + span - 1) % span < span := Nat.mod_lt _ hspan
  rw [Nat.ceilDiv_eq_add_pred_div, Nat.ceilDiv_eq_add_pred_div, Nat.ceilDiv_eq_add_pred_div, hnext, hup,
    Nat.add_div hspan, Nat.add_div hspan (a := n), hlast, hkept]
  generalize n / span = quotient, (a + span - 1) / span = before
  -- the part is longer by one only if `n` leaves a rest, and then `n / span` is rounded up
  by_cases hone : span ≤ (a + span - 1) % span + n % span
  · rw [if_pos hone, if_pos (by omega)]
    exact Or.inr (by omega)
  · rw [if_neg hone]
    exact Or.inl (by omega)

/-- So many words there are in a range. -/
theorem ncard_words {a b : Nat} (hb : b ≤ 4294967296) : {w : UInt32 | a ≤ w.toNat ∧ w.toNat < b}.ncard = b - a := by
  have himage : UInt32.toNat '' {w : UInt32 | a ≤ w.toNat ∧ w.toNat < b} = Finset.Ico a b := by
    ext m
    rw [Finset.mem_coe, Finset.mem_Ico]
    constructor
    · rintro ⟨w, hw, rfl⟩
      exact hw
    · rintro ⟨ha, hlt⟩
      have hm : (UInt32.ofNat m).toNat = m := Nat.mod_eq_of_lt (hlt.trans_le hb)
      exact ⟨UInt32.ofNat m, by rw [Set.mem_ofPred_eq, hm]; exact ⟨ha, hlt⟩, hm⟩
  rw [← Set.ncard_image_of_injective _ fun _ _ => UInt32.toNat_inj.mp, himage, Set.ncard_coe_finset, Nat.card_Ico]

end Parts

namespace Draw

/-! ## The words of a number -/

/-- Every word is the next of some generator. -/
theorem exists_next_eq (word : UInt32) : ∃ rng : Rng, rng.next.1 = word := by
  refine ⟨⟨word - 1, 0, 0, 0⟩, ?_⟩
  show word - 1 + 0 + (0 + 1) = word
  simp

/-- The lowest word stands for the lowest number, the highest word for the highest. -/
theorem integerOf_ends {low high : Int} (h : low ≤ high) (hnear : high - low + 1 ≤ 4294967296) :
    integerOf low high 0 = low ∧ integerOf low high 4294967295 = high := by
  have hzero : (0 : UInt32).toNat = 0 := rfl
  have hlast : (4294967295 : UInt32).toNat = 4294967295 := rfl
  rw [integerOf, integerOf, hzero, hlast]
  omega

/-- **Every number belongs to the same number of words,** up to one. -/
theorem ncard_integerOf {low high k : Int} (hlow : low ≤ k) (hhigh : k ≤ high) {span : Nat}
    (hspan : high - low + 1 = span) :
    {word : UInt32 | integerOf low high word = k}.ncard = 4294967296 / span ∨
      {word : UInt32 | integerOf low high word = k}.ncard = 4294967296 ⌈/⌉ span := by
  obtain ⟨j, rfl⟩ := Int.le.dest hlow
  have hpos : 0 < span := by omega
  have hfits : ((j + 1) * 4294967296) ⌈/⌉ span ≤ 4294967296 := by
    rw [ceilDiv_le_iff_le_mul hpos]
    exact Nat.mul_le_mul_right _ (by omega)
  have hwords : {word : UInt32 | integerOf low high word = low + j} =
      {word : UInt32 | (j * 4294967296) ⌈/⌉ span ≤ word.toNat ∧ word.toNat < ((j + 1) * 4294967296) ⌈/⌉ span} := by
    ext word
    rw [Set.mem_ofPred_eq, Set.mem_ofPred_eq, integerOf_eq_iff hspan, mul_div_eq_iff (by decide) hpos]
  rw [hwords, ncard_words hfits, Nat.succ_mul]
  exact ceilDiv_add_sub hpos _

/-! ## Choices -/

/-- A choice takes the item of a whole number; no number is beyond the last item. -/
theorem run_choice {β : Type} {items : List β} (hne : items ≠ []) (hnear : items.length ≤ 2097152) (rng : Rng) :
    ∃ (i : Nat) (hi : i < items.length), scaled rng.next.1 items.length / 4294967296 = i ∧
      (integer 0 (items.length - 1)).run rng = ((i : Int), rng.next.2) ∧
      (choice items).run rng = (some items[i], rng.next.2) := by
  have hpos : 0 < items.length := List.length_pos_iff.mpr hne
  have hspan : ((items.length : Int) - 1) - 0 + 1 = items.length := by omega
  have hi : rng.next.1.toNat * items.length / 4294967296 < items.length :=
    Nat.div_lt_of_lt_mul (Nat.mul_lt_mul_of_pos_right rng.next.1.toNat_lt hpos)
  have hnumber : integerOf 0 (items.length - 1) rng.next.1 = 0 + (rng.next.1.toNat * items.length / 4294967296 : ℕ) :=
    (integerOf_eq_iff hspan).mpr rfl
  refine ⟨_, hi, by rw [scaled_of_lt _ hnear], ?_, ?_⟩
  · rw [run_integer (by omega) (by omega), hnumber, Int.zero_add]
  · have hindex : (index? items.length).run rng =
        (some (rng.next.1.toNat * items.length / 4294967296), rng.next.2) := by
      have hrun : (index? items.length).run rng =
          (some (min (scaled rng.next.1 items.length / 4294967296) (items.length - 1)), rng.next.2) := by
        rw [index?, if_neg (by omega)]
        rfl
      rw [hrun, scaled_of_lt _ hnear, Nat.min_eq_left (by omega)]
    rw [choice, StateT.run_bind, hindex]
    show ((some _).bind (items[·]?), rng.next.2) = _
    rw [Option.bind_some, List.getElem?_eq_getElem hi]

/-- **Whole numbers are drawn evenly.** As long as no more than `2 ^ 21` numbers lie between the bounds, a draw takes one
word and gives its number, which no rounding disturbs. Every word can come, each stands for a number within the bounds,
the lowest for the lower bound and the highest for the upper one, and the words of any number are as many as those of any
other, up to one. A choice among as many items takes the item of such a number, which is never beyond the last. -/
theorem integer_evenly :
    (∀ low high : Int, low ≤ high → high - low + 1 ≤ 2097152 →
      (∀ rng : Rng, (integer low high).run rng = (integerOf low high rng.next.1, rng.next.2)) ∧
      (∀ word : UInt32, (∃ rng : Rng, rng.next.1 = word) ∧
        low ≤ integerOf low high word ∧ integerOf low high word ≤ high) ∧
      integerOf low high 0 = low ∧ integerOf low high 4294967295 = high ∧
      ∀ k, low ≤ k → k ≤ high →
        let span := (high - low + 1).toNat
        let words := {word : UInt32 | integerOf low high word = k}.ncard
        words = 4294967296 / span ∨ words = 4294967296 ⌈/⌉ span) ∧
    ∀ {β : Type} (items : List β), items ≠ [] → items.length ≤ 2097152 → ∀ rng : Rng,
      ∃ (i : Nat) (hi : i < items.length), scaled rng.next.1 items.length / 4294967296 = i ∧
        (integer 0 (items.length - 1)).run rng = ((i : Int), rng.next.2) ∧
        (choice items).run rng = (some items[i], rng.next.2) := by
  refine ⟨fun low high h hnear => ?_, fun items hne hnear rng => run_choice hne hnear rng⟩
  obtain ⟨hfirst, hlast⟩ := integerOf_ends h (by omega)
  refine ⟨run_integer h hnear, fun word => ⟨exists_next_eq word, integerOf_bounds h word⟩, hfirst, hlast,
    fun k hlow hhigh => ?_⟩
  exact ncard_integerOf hlow hhigh (Int.toNat_of_nonneg (by omega)).symm

/-- A die. Six does not divide `2 ^ 32`, so some of its faces have one word more than others. -/
theorem integer_evenly_die :
    let rng := Rng.ofSeed "dice"
    (integer 1 6).run rng = (integerOf 1 6 rng.next.1, rng.next.2) ∧
    ({word : UInt32 | integerOf 1 6 word = 4}.ncard = 715827882 ∨
      {word : UInt32 | integerOf 1 6 word = 4}.ncard = 715827883) ∧
    ∃ face : Nat, (integer 0 5).run rng = ((face : Int), rng.next.2) ∧
      (choice [1, 2, 3, 4, 5, 6]).run rng = ([1, 2, 3, 4, 5, 6][face]?, rng.next.2) := by
  intro rng
  obtain ⟨hnumber, hchoice⟩ := integer_evenly
  obtain ⟨hrun, -, -, -, hwords⟩ := hnumber 1 6 (by decide) (by decide)
  obtain ⟨face, hface, -, hdrawn, htaken⟩ := hchoice [1, 2, 3, 4, 5, 6] (by decide) (by decide) rng
  exact ⟨hrun rng, hwords 4 (by decide) (by decide), face, hdrawn, by rw [htaken, List.getElem?_eq_getElem hface]⟩

end Draw
end Arbor
