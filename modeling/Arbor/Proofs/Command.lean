import Arbor.Symbol

/-!
# The letters of the commands

Every command but the idle one has a single letter (`letter_ofChar`), so that counting its letter counts the command
(`ofChar_eq_iff`).
-/

namespace Arbor
namespace Command

/-- The one character that stands for a command. -/
def letter : Command → Option Char
  | forward => some 'F'
  | turn .up true => some '+'
  | turn .up false => some '-'
  | turn .right true => some '^'
  | turn .right false => some '&'
  | turn .forward true => some '/'
  | turn .forward false => some '\\'
  | push => some '['
  | pop => some ']'
  | leaf => some 'L'
  | idle => none

theorem letter_ofChar (c : Char) : (ofChar c).letter = some c ∨ ofChar c = idle := by
  unfold ofChar
  split
  all_goals first | exact Or.inl rfl | exact Or.inr rfl

theorem ofChar_of_letter {command : Command} {c : Char} (h : command.letter = some c) : ofChar c = command := by
  unfold letter at h
  split at h
  all_goals cases h
  all_goals rfl

/-- A command is given by its letter and by no other character. -/
theorem ofChar_eq_iff {command : Command} {c d : Char} (h : command.letter = some d) :
    ofChar c = command ↔ c = d := by
  constructor
  · rintro rfl
    rcases letter_ofChar c with hc | hc
    · exact Option.some.inj (hc.symm.trans h)
    · rw [hc] at h; cases h
  · rintro rfl
    exact ofChar_of_letter h

end Command

/-- The steps of a sentence are its symbols `F`. -/
theorem Symbol.command_eq_forward {α : Type} {s : Symbol α} : s.command = .forward ↔ s.tag = 'F' :=
  Command.ofChar_eq_iff rfl

/-- The symbols have the same character. -/
def Symbol.Alike {α β : Type} (s : Symbol α) (t : Symbol β) : Prop := s.tag = t.tag

theorem Symbol.Alike.command {α β : Type} {s : Symbol α} {t : Symbol β} (h : s.Alike t) : s.command = t.command :=
  congrArg Command.ofChar h

end Arbor
