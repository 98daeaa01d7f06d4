import Arbor.Decimal.Text

/-!
# The characters of a number

Whatever the style, a number is written with digits, a point, signs and the `e` of an exponent, or it is one of the two
words of its style (`text_numeral`). In a format with separators of its own, numbers can therefore be told apart.
-/

namespace Arbor

theorem toList_pushn (s : String) (c : Char) (n : Nat) : (s.pushn c n).toList = s.toList ++ List.replicate n c := by
  rw [String.pushn_eq_repeat_push]
  induction n with
  | zero => simp [Nat.repeat]
  | succ n ih => rw [Nat.repeat, String.toList_push, ih, List.append_assoc, ← List.replicate_succ']

namespace DecimalStyle

/-- The characters that numbers are written with. -/
def isNumeral (c : Char) : Bool := c.isDigit || c == '.' || c == '-' || c == '+' || c == 'e'

/-- A text of such characters. -/
def Numeral (s : String) : Prop := ∀ c ∈ s.toList, isNumeral c = true

instance (s : String) : Decidable (Numeral s) := List.decidableBAll _ s.toList

theorem Numeral.append {s t : String} (hs : Numeral s) (ht : Numeral t) : Numeral (s ++ t) := by
  intro c hc
  rw [String.toList_append] at hc
  exact (List.mem_append.mp hc).elim (hs c) (ht c)

theorem Numeral.take {s : String} (h : Numeral s) (n : Nat) : Numeral (s.take n).toString := by
  intro c hc
  exact h c (List.mem_of_mem_take (String.toList_copy_take ▸ hc))

theorem Numeral.drop {s : String} (h : Numeral s) (n : Nat) : Numeral (s.drop n).toString := by
  intro c hc
  exact h c (List.mem_of_mem_drop (String.toList_copy_drop ▸ hc))

theorem numeral_toString (n : Nat) : Numeral (toString n) := by
  intro c hc
  rw [Nat.toString_eq_ofList_toDigits, String.toList_ofList] at hc
  have hdigit := Nat.isDigit_of_mem_toDigits (by decide) (by decide) hc
  simp only [isNumeral, hdigit, Bool.true_or]

theorem toList_zeros (n : Nat) : (zeros n).toList = List.replicate n '0' := toList_pushn "" '0' n

theorem numeral_zeros (n : Nat) : Numeral (zeros n) := by
  intro c hc
  rw [toList_zeros] at hc
  rw [List.eq_of_mem_replicate hc]
  decide

theorem numeral_ite {p : Prop} [Decidable p] {s t : String} (hs : Numeral s) (ht : Numeral t) :
    Numeral (if p then s else t) := by
  split
  · exact hs
  · exact ht

theorem numeral_plainText (s : DecimalStyle) {digits : String} (h : Numeral digits) (first last : Int) :
    Numeral (s.plainText digits first last) := by
  unfold plainText
  refine numeral_ite ?_ (numeral_ite ?_ ?_)
  · exact (h.append (numeral_zeros _)).append (numeral_ite (by decide) (by decide))
  · exact ((h.take _).append (by decide)).append (h.drop _)
  · exact (Numeral.append (by decide) (numeral_zeros _)).append h

theorem numeral_exponentText {digits : String} (h : Numeral digits) (first : Int) :
    Numeral (exponentText digits first) := by
  unfold exponentText
  have hrest : Numeral (if (digits.drop 1).toString.isEmpty then "" else "." ++ (digits.drop 1).toString) :=
    numeral_ite (by decide) (Numeral.append (by decide) (h.drop 1))
  have hsign : Numeral (if first < 0 then "-" else "+") := numeral_ite (by decide) (by decide)
  exact ((((h.take 1).append hrest).append (by decide)).append hsign).append (numeral_toString _)

theorem numeral_decimalText (s : DecimalStyle) (d : Decimal) : Numeral (s.decimalText d) := by
  have hdigits := numeral_toString d.digits
  unfold decimalText
  cases s.plain with
  | none => exact numeral_plainText s hdigits _ _
  | some range => exact numeral_ite (numeral_plainText s hdigits _ _) (numeral_exponentText hdigits _)

/-- **A number is written with the characters of numbers,** apart from the words for the numbers that are none. -/
theorem text_numeral (s : DecimalStyle) (x : Binary) :
    s.text x = s.notANumber ∨ (∃ sign, Numeral sign ∧ s.text x = sign ++ s.infinity) ∨ Numeral (s.text x) := by
  have hsign : ∀ negative : Bool, Numeral (if negative then "-" else "") := fun negative =>
    numeral_ite (by decide) (by decide)
  cases x with
  | notANumber => exact Or.inl rfl
  | infinite negative => exact Or.inr (Or.inl ⟨_, hsign negative, rfl⟩)
  | finite negative mantissa exponent narrow =>
    refine Or.inr (Or.inr (numeral_ite ?_ ?_))
    · exact (hsign negative).append (numeral_ite (by decide) (by decide))
    · exact (hsign negative).append (numeral_decimalText s _)

end DecimalStyle
end Arbor
