import Arbor.Json.Printer
import Arbor.Proofs.Decimal.Reading
import Arbor.Proofs.Json.Numeral

/-!
# The tokens of numbers

A style writes a decimal plainly or with an exponent; either way its text is a writing of the digits, with at most some
zeros behind them (`Writing.for_decimalText`). The characters of a number are one token, whatever comes behind them that
cannot go on with a number (`Token.spelled_number`), and for a natural number of 64 bits it is the token of that number
(`Token.spelled_natural`).
-/

namespace Arbor
namespace Json

open DecimalStyle

/-- A number is written for a decimal, perhaps with zeros behind its digits and then a point before the last of them. -/
structure Writing.For (w : Writing) (d : Decimal) (high : Int) : Prop where
  proper : w.Proper
  marked : w.fraction.isSome ∨ w.exponent.isSome
  exponent : ∀ e ∈ w.exponent, Nat.ofDigitChars 10 e.2 0 < 2 ^ 31
  digits : ∃ zeros : Nat, Nat.ofDigitChars 10 w.digits 0 = d.digits * 10 ^ zeros ∧ w.scale = d.exponent - zeros ∧
    (zeros = 0 ∨ (w.scale = -1 ∧ d.digits * 10 ^ zeros < 10 ^ (high + 2).toNat))

theorem digitChar_ne_zero : ∀ n < 10, 0 < n → n.digitChar ≠ '0' := by decide

/-- A positive number does not begin with a zero. -/
theorem leading_toDigits {n : Nat} (hpos : 0 < n) : ∃ c cs, Nat.toDigits 10 n = c :: cs ∧ c ≠ '0' := by
  induction n using Nat.strong_induction_on with
  | _ n ih =>
    rw [Nat.toDigits_eq_if (by decide)]
    split
    case isTrue hlt => exact ⟨_, [], rfl, digitChar_ne_zero n hlt hpos⟩
    case isFalse hge =>
      obtain ⟨c, cs, hcs, hc⟩ := ih (n / 10) (by omega) (by omega)
      exact ⟨c, cs ++ [(n % 10).digitChar], by rw [hcs, List.cons_append], hc⟩

namespace Writing

variable {s : DecimalStyle} {low high : Int} {d : Decimal}

theorem length_toString (n : Nat) : (toString n).length = (Nat.toDigits 10 n).length := by
  rw [← String.length_toList, toList_toString]

/-! ### The four layouts -/

/-- Zeros down to the ones, and one behind the point. -/
theorem for_whole {n : Nat} (hpos : 0 < d.digits) (hn : d.exponent = n)
    (hhigh : d.exponent + (Nat.toDigits 10 d.digits).length - 1 ≤ high) :
    Writing.For ⟨Nat.toDigits 10 d.digits ++ List.replicate n '0', some ['0'], none⟩ d high where
  proper := by
    obtain ⟨c, cs, hcs, hc⟩ := leading_toDigits hpos
    refine ⟨List.forall_mem_append.mpr ⟨isDigit_toDigits _, isDigit_replicate_zero n⟩, ?_, by simp, by simp⟩
    exact ⟨c, cs ++ List.replicate n '0', by rw [hcs]; rfl, Or.inr hc⟩
  marked := Or.inl rfl
  exponent := by simp
  digits := by
    refine ⟨n + 1, ?_, by simp [scale, hn], Or.inr ⟨by simp [scale], ?_⟩⟩
    · simp only [Writing.digits, Option.getD_some, List.append_assoc]
      rw [← List.replicate_one, List.replicate_append_replicate, Nat.ofDigitChars_append,
        Nat.ofDigitChars_replicate_zero, Nat.ofDigitChars_ten_toDigits, Nat.mul_comm]
    · have hlt : d.digits < 10 ^ (Nat.toDigits 10 d.digits).length :=
        (Nat.length_toDigits_le_iff (by decide) Nat.length_toDigits_pos).mp le_rfl
      calc d.digits * 10 ^ (n + 1) < 10 ^ (Nat.toDigits 10 d.digits).length * 10 ^ (n + 1) :=
            Nat.mul_lt_mul_of_pos_right hlt (by positivity)
        _ = 10 ^ ((Nat.toDigits 10 d.digits).length + (n + 1)) := (Nat.pow_add _ _ _).symm
        _ ≤ 10 ^ (high + 2).toNat := Nat.pow_le_pow_right (by decide) (by omega)

/-- A point between the digits. -/
theorem for_split {k : Nat} (hpos : 0 < d.digits) (hlast : d.exponent < 0)
    (hk : d.exponent + (Nat.toDigits 10 d.digits).length = k + 1) : Writing.For
      ⟨(Nat.toDigits 10 d.digits).take (k + 1), some ((Nat.toDigits 10 d.digits).drop (k + 1)), none⟩ d high where
  proper := by
    obtain ⟨c, cs, hcs, hc⟩ := leading_toDigits hpos
    refine ⟨fun a ha => isDigit_toDigits _ a (List.mem_of_mem_take ha), ⟨c, cs.take k, by rw [hcs]; rfl, Or.inr hc⟩,
      fun fs hfs => ?_, by simp⟩
    obtain rfl := Option.some.inj hfs
    refine ⟨fun hnil => ?_, fun a ha => isDigit_toDigits _ a (List.mem_of_mem_drop ha)⟩
    have := List.drop_eq_nil_iff.mp hnil
    omega
  marked := Or.inl rfl
  exponent := by simp
  digits := by
    refine ⟨0, ?_, ?_, Or.inl rfl⟩
    · simp only [Writing.digits, Option.getD_some, List.take_append_drop, Nat.ofDigitChars_ten_toDigits, Nat.pow_zero,
        Nat.mul_one]
    · simp only [scale, Option.getD_some, List.length_drop]
      omega

/-- Zeros between the point and the digits. -/
theorem for_below {k : Nat} (hk : d.exponent + (Nat.toDigits 10 d.digits).length = -k) :
    Writing.For ⟨['0'], some (List.replicate k '0' ++ Nat.toDigits 10 d.digits), none⟩ d high where
  proper := by
    refine ⟨by simp, ⟨'0', [], rfl, Or.inl rfl⟩, fun fs hfs => ?_, by simp⟩
    obtain rfl := Option.some.inj hfs
    exact ⟨by simp [Nat.toDigits_ne_nil], List.forall_mem_append.mpr ⟨isDigit_replicate_zero k, isDigit_toDigits _⟩⟩
  marked := Or.inl rfl
  exponent := by simp
  digits := by
    refine ⟨0, ?_, ?_, Or.inl rfl⟩
    · simp only [Writing.digits, Option.getD_some]
      rw [← List.append_assoc, Nat.ofDigitChars_append, ← List.replicate_one, List.replicate_append_replicate,
        Nat.ofDigitChars_replicate_zero, Nat.mul_zero, Nat.ofDigitChars_ten_toDigits, Nat.pow_zero, Nat.mul_one]
    · simp only [scale, Option.getD_some, List.length_append, List.length_replicate]
      omega

/-- The digits behind the first one, if there are any. -/
def fractionOf (cs : List Char) : Option (List Char) := if cs = [] then none else some cs

theorem getD_fractionOf (cs : List Char) : (fractionOf cs).getD [] = cs := by
  unfold fractionOf
  split
  case isTrue h => exact h.symm
  case isFalse => rfl

/-- One digit before the point, and an exponent. -/
theorem for_scientific {first : Int} {c : Char} {cs : List Char} (hcs : Nat.toDigits 10 d.digits = c :: cs)
    (hfirst : d.exponent + cs.length = first) (hbound : first.natAbs < 2 ^ 31) : Writing.For
      ⟨[c], fractionOf cs, some (decide (first < 0), Nat.toDigits 10 first.natAbs)⟩ d high where
  proper := by
    have hdigit : ∀ a ∈ c :: cs, a.isDigit = true := hcs ▸ isDigit_toDigits d.digits
    refine ⟨fun a ha => hdigit a ?_, ⟨c, [], rfl, Or.inl rfl⟩, fun fs hfs => ?_, fun e he => ?_⟩
    · rw [List.mem_singleton.mp ha]
      exact List.mem_cons_self
    · simp only [fractionOf, Option.mem_def, Option.ite_none_left_eq_some, Option.some.injEq] at hfs
      obtain ⟨hne, rfl⟩ := hfs
      exact ⟨hne, fun a ha => hdigit a (List.mem_cons_of_mem _ ha)⟩
    · obtain rfl := Option.some.inj he
      exact ⟨Nat.toDigits_ne_nil, isDigit_toDigits _⟩
  marked := Or.inr rfl
  exponent e he := by
    obtain rfl := Option.some.inj he
    rwa [Nat.ofDigitChars_ten_toDigits]
  digits := by
    refine ⟨0, ?_, ?_, Or.inl rfl⟩
    · simp only [Writing.digits, getD_fractionOf, List.singleton_append, ← hcs, Nat.ofDigitChars_ten_toDigits,
        Nat.pow_zero, Nat.mul_one]
    · simp only [scale, getD_fractionOf, Nat.ofDigitChars_ten_toDigits, decide_eq_true_eq]
      split <;> omega

/-! ### The text of a decimal -/

theorem for_plainText (hpoint : s.point = true) (hpos : 0 < d.digits)
    (hhigh : d.exponent + (toString d.digits).length - 1 ≤ high) : ∃ w : Writing, w.For d high ∧
      (s.plainText (toString d.digits) (d.exponent + (toString d.digits).length - 1) d.exponent).toList = w.chars := by
  have hlength := length_toString d.digits
  rw [hlength] at hhigh ⊢
  simp only [plainText, hpoint, if_true]
  split
  case isTrue hlast =>
    obtain ⟨n, hn⟩ := Int.eq_ofNat_of_zero_le hlast
    refine ⟨_, for_whole hpos hn hhigh, ?_⟩
    rw [String.toList_append, String.toList_append, toList_toString, toList_zeros, hn]
    simp [chars, fractionChars, exponentChars]
  case isFalse hlast =>
    split
    case isTrue hfirst =>
      obtain ⟨k, hk⟩ := Int.eq_ofNat_of_zero_le hfirst
      refine ⟨_, @for_split high d k hpos (by omega) (by omega), ?_⟩
      rw [hk, toList_point, toList_toString]
      simp [chars, fractionChars, exponentChars]
    case isFalse hfirst =>
      obtain ⟨k, hk⟩ := Int.eq_ofNat_of_zero_le
        (show 0 ≤ -(d.exponent + (Nat.toDigits 10 d.digits).length - 1) - 1 by omega)
      refine ⟨_, @for_below high d k (by omega), ?_⟩
      rw [hk, String.toList_append, String.toList_append, toList_toString, toList_zeros]
      simp [chars, fractionChars, exponentChars]

theorem for_exponentText (hpos : 0 < d.digits)
    (hfirst : (d.exponent + (toString d.digits).length - 1).natAbs < 2 ^ 31) : ∃ w : Writing, w.For d high ∧
      (exponentText (toString d.digits) (d.exponent + (toString d.digits).length - 1)).toList = w.chars := by
  obtain ⟨c, cs, hcs, -⟩ := leading_toDigits hpos
  have hlength : (toString d.digits).length = cs.length + 1 := by rw [length_toString, hcs]; rfl
  obtain ⟨first, hfirst'⟩ : ∃ first, d.exponent + (toString d.digits).length - 1 = first := ⟨_, rfl⟩
  rw [hfirst'] at hfirst ⊢
  refine ⟨_, for_scientific hcs (by omega) hfirst, ?_⟩
  have htake : ((toString d.digits).take 1).toString.toList = [c] := by
    have hcopy : ((toString d.digits).take 1).toString.toList = (toString d.digits).toList.take 1 :=
      String.toList_copy_take
    rw [hcopy, toList_toString, hcs]
    rfl
  have hdrop : ((toString d.digits).drop 1).toString.toList = cs := by
    have hcopy : ((toString d.digits).drop 1).toString.toList = (toString d.digits).toList.drop 1 :=
      String.toList_copy_drop
    rw [hcopy, toList_toString, hcs]
    rfl
  have hempty : ((toString d.digits).drop 1).toString.isEmpty = true ↔ cs = [] := by
    rw [String.isEmpty_iff, ← String.toList_eq_nil_iff, hdrop]
  have hrest : (if ((toString d.digits).drop 1).toString.isEmpty then ""
      else "." ++ ((toString d.digits).drop 1).toString).toList = fractionChars (fractionOf cs) := by
    simp only [hempty, fractionOf]
    split
    case isTrue => rfl
    case isFalse =>
      rw [String.toList_append, hdrop]
      rfl
  have hsign : (if first < 0 then "-" else "+").toList = [if decide (first < 0) then '-' else '+'] := by
    simp only [decide_eq_true_eq]
    split <;> rfl
  simp only [exponentText, String.toList_append, htake, hrest, hsign, toList_toString]
  simp [chars, exponentChars]

/-- **What a style writes for a positive decimal is a writing of it.** -/
theorem for_decimalText (hplain : s.plain = some (low, high)) (hpoint : s.point = true) (hpos : 0 < d.digits)
    (hfirst : (d.exponent + (Nat.toDigits 10 d.digits).length - 1).natAbs < 2 ^ 31) :
    ∃ w : Writing, w.For d high ∧ (s.decimalText d).toList = w.chars := by
  simp only [decimalText, hplain]
  split
  case isTrue hrange => exact for_plainText hpoint hpos hrange.2
  case isFalse => exact for_exponentText hpos (by rwa [length_toString])

end Writing

/-! ## Tokens -/

namespace Token

/-- These characters are read as a token, if what follows cannot go on with a number. -/
def Spelled (cs : List Char) (t : Token) : Prop :=
  ∃ c rest, cs = c :: rest ∧ isBlank c = false ∧
    ∀ fuel behind, rest.length < fuel → Ends behind → start fuel c (rest ++ behind) = (t, behind)

theorem start_digit {c : Char} (hc : c.isDigit = true) (fuel : Nat) (cs : List Char) :
    start fuel c cs = unsigned false (c :: cs) := by
  unfold start
  split
  case h_12 => rw [if_pos hc]
  all_goals exact absurd hc (by decide)

theorem not_isBlank_of_isDigit {c : Char} (hc : c.isDigit = true) : isBlank c = false := by
  have hne : ∀ d : Char, d.isDigit = false → c ≠ d := fun d hd h => by simp [h, hd] at hc
  simp [isBlank, hne]

/-- **A number is a token.** -/
theorem spelled_number {w : Writing} (hw : w.Proper) (negative : Bool) :
    Spelled ((if negative then ['-'] else []) ++ w.chars) (ofNumeral (w.numeral negative)) := by
  cases negative with
  | true => exact ⟨'-', w.chars, rfl, rfl, fun fuel behind _ hbehind => unsigned_chars hw hbehind true⟩
  | false =>
    obtain ⟨c, cs, hwhole, -⟩ := hw.leading
    have hdigit : c.isDigit = true := hw.whole c (hwhole ▸ List.mem_cons_self)
    obtain ⟨rest, hrest⟩ : ∃ rest, w.chars = c :: rest := by simp [Writing.chars, hwhole]
    refine ⟨c, rest, hrest, not_isBlank_of_isDigit hdigit, fun fuel behind _ hbehind => ?_⟩
    rw [start_digit hdigit, ← List.cons_append, ← hrest]
    exact unsigned_chars hw hbehind false

end Token

/-- **Natural numbers of 64 bits are read back.** -/
theorem Token.spelled_natural {n : Nat} (hn : n ≤ Number.limit) :
    Spelled (Number.text (.integer n)).toList (.word (.natural n)) := by
  have hproper : Writing.Proper ⟨Nat.toDigits 10 n, none, none⟩ := by
    refine ⟨isDigit_toDigits n, ?_, by simp, by simp⟩
    rcases Nat.eq_zero_or_pos n with rfl | hpos
    · exact ⟨'0', [], rfl, Or.inl rfl⟩
    · obtain ⟨c, cs, hcs, hc⟩ := leading_toDigits hpos
      exact ⟨c, cs, hcs, Or.inr hc⟩
  have hread : ofNumeral (Writing.numeral ⟨Nat.toDigits 10 n, none, none⟩ false) = .word (.natural n) := by
    have htake := @Number.takeDigits_map_digit (Nat.toDigits 10 n) 0 (by rwa [Nat.ofDigitChars_ten_toDigits])
    rw [Nat.ofDigitChars_ten_toDigits] at htake
    simp only [ofNumeral, Number.ofNumeral?, Writing.numeral, htake, Option.map_none]
    rfl
  have hspelled := spelled_number hproper false
  rw [hread] at hspelled
  have hchars : (Number.text (.integer n)).toList = [] ++ Writing.chars ⟨Nat.toDigits 10 n, none, none⟩ := by
    have htext : Number.text (.integer n) = toString n := rfl
    rw [htext, toList_toString]
    simp [Writing.chars, Writing.fractionChars, Writing.exponentChars]
  rw [hchars]
  exact hspelled

end Json
end Arbor
