import Arbor.Decimal.Text
import Arbor.Proofs.Decimal.Characters
import Arbor.Proofs.Decimal.Shortest
import Mathlib.Data.List.TakeWhile

/-!
# Numbers are read back

A reader of numbers knows the words for those that have no digits, a sign, digits and a point (`read`). What is written
with digits only is read as a decimal that rounds to the number it was written for (`denotes_text`).
-/

namespace Arbor
namespace DecimalStyle

/-! ## The reader -/

/-- The number that digits stand for. -/
def readDigits (cs : List Char) : Option Nat :=
  if cs ≠ [] ∧ cs.all Char.isDigit then some (Nat.ofDigitChars 10 cs 0) else none

/-- The number that digits stand for, with a point or without. -/
def readMagnitude (cs : List Char) : Option ℚ :=
  let whole := cs.takeWhile Char.isDigit
  match cs.dropWhile Char.isDigit with
  | [] => (readDigits whole).map fun n : Nat => (n : ℚ)
  | '.' :: fraction => (readDigits (whole ++ fraction)).map fun n : Nat => (n : ℚ) / 10 ^ fraction.length
  | _ => none

/-- Whether a number has a minus sign, and its size. -/
def readSigned (text : String) : Option (Bool × ℚ) :=
  match text.toList with
  | '-' :: cs => (readMagnitude cs).map fun q => (true, q)
  | cs => (readMagnitude cs).map fun q => (false, q)

/-- What a text says. -/
inductive Reading where
  | notANumber
  | infinite (negative : Bool)
  | finite (negative : Bool) (size : ℚ)

/-- Reads a number, or one of the words for those that have no digits. -/
def read (text : String) : Option Reading :=
  if text = "NaN" then some .notANumber
  else if text = "inf" then some (.infinite false)
  else if text = "-inf" then some (.infinite true)
  else (readSigned text).map fun r => .finite r.1 r.2

/-- What is read rounds to a number. -/
def Reading.RoundsTo : Reading → Binary → Prop
  | .notANumber, .notANumber => True
  | .infinite negative, .infinite negative' => negative = negative'
  | .finite negative size, .finite negative' mantissa exponent narrow =>
    negative = negative' ∧ Binary.Near mantissa exponent narrow size
  | _, _ => False

/-- A text stands for a number. -/
def Denotes (text : String) (x : Binary) : Prop := ∃ r, read text = some r ∧ r.RoundsTo x

section Reader

variable {cs whole fraction : List Char}

theorem readDigits_of_isDigit (hne : cs ≠ []) (h : ∀ c ∈ cs, c.isDigit = true) :
    readDigits cs = some (Nat.ofDigitChars 10 cs 0) := if_pos ⟨hne, List.all_eq_true.mpr h⟩

theorem readMagnitude_whole (hne : cs ≠ []) (h : ∀ c ∈ cs, c.isDigit = true) :
    readMagnitude cs = some (Nat.ofDigitChars 10 cs 0 : ℚ) := by
  have htake : cs.takeWhile Char.isDigit = cs := List.takeWhile_eq_self_iff.mpr h
  have hdrop : cs.dropWhile Char.isDigit = [] := List.dropWhile_eq_nil_iff.mpr h
  simp only [readMagnitude, htake, hdrop, readDigits_of_isDigit hne h, Option.map_some]

theorem readMagnitude_point (hne : whole ++ fraction ≠ []) (hwhole : ∀ c ∈ whole, c.isDigit = true)
    (hfraction : ∀ c ∈ fraction, c.isDigit = true) :
    readMagnitude (whole ++ '.' :: fraction) =
      some ((Nat.ofDigitChars 10 (whole ++ fraction) 0 : ℚ) / 10 ^ fraction.length) := by
  have htake : (whole ++ '.' :: fraction).takeWhile Char.isDigit = whole := by
    rw [List.takeWhile_append_of_pos hwhole]
    simp
  have hdrop : (whole ++ '.' :: fraction).dropWhile Char.isDigit = '.' :: fraction := by
    rw [List.dropWhile_append_of_pos hwhole]
    simp
  have hall : ∀ c ∈ whole ++ fraction, c.isDigit = true := fun c hc =>
    (List.mem_append.mp hc).elim (hwhole c) (hfraction c)
  simp only [readMagnitude, htake, hdrop, readDigits_of_isDigit hne hall, Option.map_some]

theorem readSigned_of_readMagnitude {s : String} {q : ℚ} (h : readMagnitude s.toList = some q) (negative : Bool) :
    readSigned ((if negative then "-" else "") ++ s) = some (negative, q) := by
  cases negative with
  | true =>
    have hlist : ("-" ++ s).toList = '-' :: s.toList := by simp
    simp only [readSigned, if_true, hlist, h, Option.map_some]
  | false =>
    have hlist : ("" ++ s).toList = s.toList := by simp
    simp only [readSigned, Bool.false_eq_true, if_false, hlist]
    split
    case h_1 cs hminus =>
      rw [hminus] at h
      simp [readMagnitude] at h
    case h_2 => rw [h, Option.map_some]

/-- Words have no digits, so a text that is read as digits is none of them. -/
theorem read_of_readSigned {text : String} {negative : Bool} {size : ℚ}
    (h : readSigned text = some (negative, size)) : read text = some (.finite negative size) := by
  have hword : ∀ word ∈ ["NaN", "inf", "-inf"], text ≠ word := by
    rintro word hword rfl
    simp only [List.mem_cons, List.not_mem_nil, or_false] at hword
    rcases hword with rfl | rfl | rfl <;> simp [readSigned, readMagnitude] at h
  simp only [List.forall_mem_cons] at hword
  rw [read, if_neg hword.1, if_neg hword.2.1, if_neg hword.2.2.1, h]
  rfl

end Reader

/-! ## Decimals -/

theorem isDigit_toDigits (n : Nat) : ∀ c ∈ Nat.toDigits 10 n, c.isDigit = true := fun _ hc =>
  Nat.isDigit_of_mem_toDigits (by decide) (by decide) hc

theorem toList_toString (n : Nat) : (toString n).toList = Nat.toDigits 10 n := by
  rw [Nat.toString_eq_ofList_toDigits, String.toList_ofList]

theorem isDigit_replicate_zero (n : Nat) : ∀ c ∈ List.replicate n '0', c.isDigit = true := fun c hc => by
  rw [List.eq_of_mem_replicate hc]
  decide

theorem readDigits_repr (n : Nat) : readDigits n.repr.toList = some n := by
  rw [show n.repr.toList = Nat.toDigits 10 n from toList_toString n,
    readDigits_of_isDigit Nat.toDigits_ne_nil (isDigit_toDigits n), Nat.ofDigitChars_ten_toDigits]

theorem toList_point (s : String) (n : Nat) :
    ((s.take n).toString ++ "." ++ (s.drop n).toString).toList = s.toList.take n ++ '.' :: s.toList.drop n := by
  have htake : (s.take n).toString.toList = s.toList.take n := String.toList_copy_take
  have hdrop : (s.drop n).toString.toList = s.toList.drop n := String.toList_copy_drop
  rw [String.toList_append, String.toList_append, htake, hdrop, List.append_assoc]
  rfl

/-- **Digits and zeros are read as the decimal they were written for.** -/
theorem readMagnitude_plainText (digits : Nat) (last : Int) :
    readMagnitude (digitsOnly.plainText (toString digits) (last + (toString digits).length - 1) last).toList =
      some ((digits : ℚ) * 10 ^ last) := by
  have hlist := toList_toString digits
  have hlength : (toString digits).length = (Nat.toDigits 10 digits).length := by rw [← String.length_toList, hlist]
  have hpos : 0 < (Nat.toDigits 10 digits).length := Nat.length_toDigits_pos
  have hdigit := isDigit_toDigits digits
  unfold plainText
  split
  case isTrue hlast =>
    obtain ⟨n, rfl⟩ := Int.eq_ofNat_of_zero_le hlast
    have htext : (toString digits ++ zeros n ++ if digitsOnly.point then ".0" else "").toList =
        Nat.toDigits 10 digits ++ List.replicate n '0' := by
      rw [String.toList_append, String.toList_append, hlist, toList_zeros]
      exact List.append_nil _
    rw [Int.toNat_natCast, htext, readMagnitude_whole (by simp [Nat.toDigits_ne_nil])
      (List.forall_mem_append.mpr ⟨hdigit, isDigit_replicate_zero n⟩), Nat.ofDigitChars_append,
      Nat.ofDigitChars_replicate_zero, Nat.ofDigitChars_ten_toDigits, zpow_natCast]
    push_cast
    rw [mul_comm]
  case isFalse hlast =>
    obtain ⟨n, rfl⟩ := Int.exists_eq_neg_ofNat (by omega : last ≤ 0)
    rw [zpow_neg, zpow_natCast, ← div_eq_mul_inv]
    split
    case isTrue hfirst =>
      have hlen : (Nat.toDigits 10 digits).length - ((-(n : Int) + (toString digits).length - 1).toNat + 1) = n := by
        omega
      rw [toList_point, hlist, readMagnitude_point (by simp [Nat.toDigits_ne_nil])
        (fun c hc => hdigit c (List.mem_of_mem_take hc)) (fun c hc => hdigit c (List.mem_of_mem_drop hc)),
        List.take_append_drop, Nat.ofDigitChars_ten_toDigits, List.length_drop, hlen]
    case isFalse hfirst =>
      have htext : ∀ k, ("0." ++ zeros k ++ toString digits).toList =
          ['0'] ++ '.' :: (List.replicate k '0' ++ Nat.toDigits 10 digits) := by
        intro k
        rw [String.toList_append, String.toList_append, hlist, toList_zeros, List.append_assoc]
        rfl
      rw [htext, readMagnitude_point (by simp) (by simp) (List.forall_mem_append.mpr ⟨isDigit_replicate_zero _, hdigit⟩),
        ← List.append_assoc, Nat.ofDigitChars_append, ← List.replicate_one, List.replicate_append_replicate,
        Nat.ofDigitChars_replicate_zero, Nat.mul_zero, Nat.ofDigitChars_ten_toDigits, List.length_append,
        List.length_replicate]
      congr 3
      omega

/-! ## Numbers -/

/-- **A number of a format no wider than doubles is read back from its text.** -/
theorem denotes_text {x : Binary} {fractionBits : Nat} {least greatest : Int} (h : x.OfFormat fractionBits least greatest)
    (hbits : fractionBits ≤ 52) (hlow : -1074 ≤ least) (hhigh : greatest ≤ 971) : Denotes (digitsOnly.text x) x := by
  cases x with
  | notANumber => exact ⟨.notANumber, rfl, trivial⟩
  | infinite negative =>
    refine ⟨.infinite negative, ?_, rfl⟩
    cases negative <;> rfl
  | finite negative mantissa exponent narrow =>
    obtain ⟨hstored, hgreatest⟩ := h
    have hmantissa : mantissa < 2 ^ 53 :=
      hstored.lt.trans_le (Nat.pow_le_pow_right (by decide) (Nat.succ_le_succ hbits))
    have htext : digitsOnly.text (.finite negative mantissa exponent narrow) =
        (if negative then "-" else "") ++ if mantissa = 0 then "0" else
          digitsOnly.decimalText (Binary.shortest .up mantissa exponent narrow) := by
      rw [apply_ite ((if negative then "-" else "") ++ ·)]
      rfl
    rw [htext]
    by_cases hzero : mantissa = 0
    · subst hzero
      have hread : readMagnitude "0".toList = some (0 : ℚ) := by
        rw [readMagnitude_whole (by simp) (by simp)]
        rfl
      rw [if_pos rfl]
      exact ⟨_, read_of_readSigned (readSigned_of_readMagnitude hread negative), rfl, Binary.near_zero exponent narrow⟩
    · have hpos := Nat.pos_of_ne_zero hzero
      rw [if_neg hzero]
      exact ⟨_, read_of_readSigned (readSigned_of_readMagnitude (readMagnitude_plainText _ _) negative), rfl,
        Binary.shortest_near .up narrow hpos hmantissa (hlow.trans hstored.least_le) (hgreatest.trans hhigh)⟩

end DecimalStyle
end Arbor
