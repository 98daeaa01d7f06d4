import Arbor.Json.Token
import Mathlib.Data.List.TakeWhile
import Mathlib.Tactic.Ring

/-!
# Numbers in a text

A number is written as digits, perhaps with a fraction and an exponent (`Writing`). It ends where a character cannot go
on with a number (`Token.Ends`), and up to there it is read as the numeral that was written (`Token.unsigned_chars`). As
long as 64 bits hold its digits, the numeral stands for these digits times a power of ten
(`Number.ofNumeral?_numeral`).
-/

namespace Arbor
namespace Json

/-! ## Digits -/

namespace Number

theorem ofDigits_map_digit (cs : List Char) (n : Nat) :
    (cs.map Token.digit).foldl (fun n d => n * 10 + d) n = Nat.ofDigitChars 10 cs n := by
  induction cs generalizing n with
  | nil => rfl
  | cons c cs ih =>
    rw [List.map_cons, List.foldl_cons, ih, Nat.ofDigitChars_cons, Nat.mul_comm]
    rfl

theorem le_ofDigitChars (cs : List Char) (n : Nat) : n ≤ Nat.ofDigitChars 10 cs n := by
  induction cs generalizing n with
  | nil => simp
  | cons c cs ih =>
    rw [Nat.ofDigitChars_cons]
    exact le_trans (by omega) (ih _)

/-- All digits are taken if 64 bits hold them. -/
theorem takeDigits_map_digit {cs : List Char} {n : Nat} (h : Nat.ofDigitChars 10 cs n ≤ limit) :
    takeDigits n (cs.map Token.digit) = (Nat.ofDigitChars 10 cs n, []) := by
  induction cs generalizing n with
  | nil => simp [takeDigits]
  | cons c cs ih =>
    have hcons : Nat.ofDigitChars 10 (c :: cs) n = Nat.ofDigitChars 10 cs (n * 10 + Token.digit c) := by
      rw [Nat.ofDigitChars_cons, Nat.mul_comm]
      rfl
    rw [hcons] at h ⊢
    have hfits : ¬limit < n * 10 + Token.digit c := not_lt.mpr ((le_ofDigitChars cs _).trans h)
    rw [List.map_cons, takeDigits, if_neg hfits, ih h]

end Number

/-! ## Writings -/

/-- How a number is written, without its sign. -/
structure Writing where
  whole : List Char
  fraction : Option (List Char)
  /-- The sign and the digits of the exponent. -/
  exponent : Option (Bool × List Char)

namespace Writing

/-- Digits where digits have to be, and no zero in front. -/
structure Proper (w : Writing) : Prop where
  whole : ∀ c ∈ w.whole, c.isDigit = true
  leading : ∃ c cs, w.whole = c :: cs ∧ (cs = [] ∨ c ≠ '0')
  fraction : ∀ cs ∈ w.fraction, cs ≠ [] ∧ ∀ c ∈ cs, c.isDigit = true
  exponent : ∀ e ∈ w.exponent, e.2 ≠ [] ∧ ∀ c ∈ e.2, c.isDigit = true

/-- The characters of an exponent. -/
def exponentChars : Option (Bool × List Char) → List Char
  | none => []
  | some (negative, cs) => 'e' :: (if negative then '-' else '+') :: cs

/-- The characters of a fraction, with the point. -/
def fractionChars : Option (List Char) → List Char
  | none => []
  | some cs => '.' :: cs

/-- The characters of a number. -/
def chars (w : Writing) : List Char := w.whole ++ fractionChars w.fraction ++ exponentChars w.exponent

/-- What is written. -/
def numeral (w : Writing) (negative : Bool) : Numeral :=
  ⟨negative, w.whole.map Token.digit, w.fraction.map (·.map Token.digit),
    w.exponent.map fun e => (e.1, e.2.map Token.digit)⟩

/-- The digits of a number. -/
def digits (w : Writing) : List Char := w.whole ++ w.fraction.getD []

/-- The power of ten of its last digit. -/
def scale (w : Writing) : Int :=
  (match w.exponent with
    | none => 0
    | some (negative, cs) => if negative then -Nat.ofDigitChars 10 cs 0 else Nat.ofDigitChars 10 cs 0) -
    (w.fraction.getD []).length

end Writing

namespace Token

/-! ## Reading -/

/-- What follows a number cannot go on with it. -/
def Ends (cs : List Char) : Prop := ∀ c ∈ cs.head?, c.isDigit = false ∧ c ≠ '.' ∧ c ≠ 'e' ∧ c ≠ 'E'

theorem digits_append {cs rest : List Char} (hcs : ∀ c ∈ cs, c.isDigit = true)
    (hrest : ∀ c ∈ rest.head?, c.isDigit = false) : digits (cs ++ rest) = (cs.map digit, rest) := by
  have htake : rest.takeWhile Char.isDigit = [] := by
    cases rest with
    | nil => rfl
    | cons c rest => exact List.takeWhile_cons_of_neg (by simp [hrest c rfl])
  have hdrop : rest.dropWhile Char.isDigit = rest := by
    cases rest with
    | nil => rfl
    | cons c rest => exact List.dropWhile_cons_of_neg (by simp [hrest c rfl])
  rw [digits, List.takeWhile_append_of_pos hcs, List.dropWhile_append_of_pos hcs, htake, hdrop, List.append_nil]

variable {w : Writing} {rest : List Char}

theorem head_exponentChars (hrest : Ends rest) :
    ∀ c ∈ (Writing.exponentChars w.exponent ++ rest).head?, c.isDigit = false := by
  cases he : w.exponent with
  | none => exact fun c hc => (hrest c hc).1
  | some e => simp [Writing.exponentChars]

theorem head_fractionChars (hrest : Ends rest) :
    ∀ c ∈ (Writing.fractionChars w.fraction ++ (Writing.exponentChars w.exponent ++ rest)).head?, c.isDigit = false := by
  cases hf : w.fraction with
  | none => exact head_exponentChars hrest
  | some cs => simp [Writing.fractionChars]

theorem exponent_chars (hw : w.Proper) (hrest : Ends rest) (n : Numeral) (hn : n.exponent = none) :
    exponent n (Writing.exponentChars w.exponent ++ rest) =
      (ofNumeral { n with exponent := w.exponent.map fun e => (e.1, e.2.map digit) }, rest) := by
  obtain ⟨negative, whole, fraction, exponent⟩ := n
  obtain rfl : exponent = none := hn
  cases he : w.exponent with
  | none =>
    cases rest with
    | nil => rfl
    | cons c rest =>
      obtain ⟨-, -, he, hE⟩ := hrest c rfl
      exact if_neg (by simp [he, hE])
  | some e =>
    obtain ⟨hne, hdigits⟩ := hw.exponent e he
    have hread := digits_append hdigits fun c hc => (hrest c hc).1
    have hne' : (e.2.map digit).isEmpty = false := by simpa using hne
    obtain ⟨sign, cs⟩ := e
    cases sign <;> simp [Writing.exponentChars, Token.exponent, hread, hne']

theorem fraction_chars (hw : w.Proper) (hrest : Ends rest) (n : Numeral) (hn : n.fraction = none ∧ n.exponent = none) :
    fraction n (Writing.fractionChars w.fraction ++ (Writing.exponentChars w.exponent ++ rest)) =
      (ofNumeral { n with
        fraction := w.fraction.map (·.map digit), exponent := w.exponent.map fun e => (e.1, e.2.map digit) }, rest) := by
  obtain ⟨negative, whole, fraction, exponent⟩ := n
  obtain ⟨rfl, rfl⟩ : fraction = none ∧ exponent = none := hn
  cases hf : w.fraction with
  | none =>
    have hpoint : ∀ cs, Writing.exponentChars w.exponent ++ rest ≠ '.' :: cs := by
      intro cs heq
      cases he : w.exponent with
      | none =>
        rw [he] at heq
        exact (hrest '.' (by rw [show rest = _ from heq]; rfl)).2.1 rfl
      | some e => simp [he, Writing.exponentChars] at heq
    have hskip : Token.fraction ⟨negative, whole, none, none⟩ (Writing.exponentChars w.exponent ++ rest) =
        Token.exponent ⟨negative, whole, none, none⟩ (Writing.exponentChars w.exponent ++ rest) := by
      unfold Token.fraction
      split
      case h_1 cs heq => exact absurd heq (hpoint cs)
      case h_2 => rfl
    exact hskip.trans (exponent_chars hw hrest _ rfl)
  | some cs =>
    obtain ⟨hne, hdigits⟩ := hw.fraction cs hf
    have hread : digits (cs ++ (Writing.exponentChars w.exponent ++ rest)) =
        (cs.map digit, Writing.exponentChars w.exponent ++ rest) := digits_append hdigits (head_exponentChars hrest)
    have hne' : (cs.map digit).isEmpty = false := by simpa using hne
    show Token.fraction _ ('.' :: (cs ++ (Writing.exponentChars w.exponent ++ rest))) = _
    simp only [Token.fraction, hread, hne', Bool.false_eq_true, if_false]
    exact exponent_chars hw hrest _ rfl

/-- **A number is read as it was written,** up to its end. -/
theorem unsigned_chars (hw : w.Proper) (hrest : Ends rest) (negative : Bool) :
    unsigned negative (w.chars ++ rest) = (ofNumeral (w.numeral negative), rest) := by
  have hread : digits (w.chars ++ rest) =
      (w.whole.map digit, Writing.fractionChars w.fraction ++ (Writing.exponentChars w.exponent ++ rest)) := by
    rw [Writing.chars, List.append_assoc, List.append_assoc]
    exact digits_append hw.whole (head_fractionChars hrest)
  obtain ⟨c, cs, hwhole, hleading⟩ := hw.leading
  have hfraction : fraction ⟨negative, w.whole.map digit, none, none⟩
      (Writing.fractionChars w.fraction ++ (Writing.exponentChars w.exponent ++ rest)) =
      (ofNumeral (w.numeral negative), rest) := fraction_chars hw hrest _ ⟨rfl, rfl⟩
  rw [unsigned, hread]
  rw [hwhole, List.map_cons] at hfraction ⊢
  cases cs with
  | nil => exact hfraction
  | cons d ds =>
    have hdigit : c.isDigit = true := hw.whole c (hwhole ▸ List.mem_cons_self)
    have hzero : digit c ≠ 0 := by
      have hne : c.toNat ≠ '0'.toNat := fun h => (hleading.resolve_left (by simp)) (Char.toNat_inj.mp h)
      have hlow : '0'.toNat ≤ c.toNat := (Char.isDigit_iff_toNat.mp hdigit).1
      exact Nat.sub_ne_zero_of_lt (lt_of_le_of_ne hlow hne.symm)
    exact (if_neg hzero).trans hfraction

end Token

/-- **A numeral stands for its digits times a power of ten.** -/
theorem Number.ofNumeral?_numeral {w : Writing} (hpart : w.fraction.isSome ∨ w.exponent.isSome) (negative : Bool)
    (hdigits : Nat.ofDigitChars 10 w.digits 0 ≤ limit)
    (hexponent : ∀ e ∈ w.exponent, Nat.ofDigitChars 10 e.2 0 < 2 ^ 31) :
    ofNumeral? (w.numeral negative) = ofParts? negative (Nat.ofDigitChars 10 w.digits 0) w.scale := by
  rw [Writing.digits, Nat.ofDigitChars_append] at hdigits ⊢
  have hwhole := takeDigits_map_digit ((le_ofDigitChars _ _).trans hdigits)
  have hfraction := takeDigits_map_digit hdigits
  obtain ⟨whole, fraction, exponent⟩ := w
  cases exponent with
  | none =>
    obtain ⟨cs, rfl⟩ := Option.isSome_iff_exists.mp (hpart.resolve_right (by simp))
    simp only [Option.getD_some] at hwhole hfraction ⊢
    simp only [ofNumeral?, Writing.numeral, hwhole, Option.map_some, Option.map_none, Option.getD_some, hfraction,
      Writing.scale, List.length_map, List.length_nil, Nat.sub_zero]
    rfl
  | some e =>
    obtain ⟨sign, cs⟩ := e
    have hsize : ofDigits (cs.map Token.digit) = Nat.ofDigitChars 10 cs 0 := ofDigits_map_digit cs 0
    have hsmall : ¬1 <<< 31 ≤ Nat.ofDigitChars 10 cs 0 := not_le.mpr (hexponent _ rfl)
    cases fraction with
    | none =>
      simp only [Option.getD_none] at hwhole hfraction ⊢
      simp only [ofNumeral?, Writing.numeral, hwhole, Option.map_some, Option.map_none, Option.getD_none, takeDigits,
        Writing.scale, List.length_nil, Nat.sub_zero, hsize, if_neg hsmall]
      cases sign <;> simp
    | some fs =>
      simp only [Option.getD_some] at hwhole hfraction ⊢
      simp only [ofNumeral?, Writing.numeral, hwhole, Option.map_some, Option.getD_some, hfraction,
        Writing.scale, List.length_map, List.length_nil, Nat.sub_zero, hsize, if_neg hsmall]
      cases sign <;> simp [sub_eq_add_neg, add_comm]

end Json
end Arbor
