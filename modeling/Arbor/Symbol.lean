import Arbor.Scalar

/-!
# Symbols and the commands they stand for

A sentence is a list of symbols, each a character with optional numbers. `Command.ofChar` is the one place that gives
characters their meaning: nine of them move the turtle, two open and close a branch, and all others stand for growth
that is still to come.
-/

namespace Arbor

/-- An axis of the turtle's own frame. -/
inductive Axis where
  | up
  | right
  | forward
deriving DecidableEq, Repr

/-- What a symbol tells the turtle. -/
inductive Command where
  | forward
  | turn (axis : Axis) (positive : Bool)
  | push
  | pop
  | leaf
  | idle
deriving DecidableEq, Repr

namespace Command

/-- The meaning of a character. -/
def ofChar : Char → Command
  | 'F' => forward
  | '+' => turn .up true
  | '-' => turn .up false
  | '^' => turn .right true
  | '&' => turn .right false
  | '/' => turn .forward true
  | '\\' => turn .forward false
  | '[' => push
  | ']' => pop
  | 'L' => leaf
  | _ => idle

/-- The number of open brackets after a command; closing more than was opened leaves zero. -/
def nest : Command → Nat → Nat
  | push, depth => depth + 1
  | pop, depth => depth - 1
  | _, depth => depth

/-- The number of open brackets after a command in a word of 64 bits, which opening wraps. -/
def nestWrapping : Command → UInt64 → UInt64
  | push, depth => depth + 1
  | pop, depth => if depth = 0 then 0 else depth - 1
  | _, depth => depth

/-- Whether a command turns the turtle. -/
def isTurn : Command → Bool
  | turn _ _ => true
  | _ => false

/-- Whether a command opens or closes a branch. -/
def isBracket : Command → Bool
  | push => true
  | pop => true
  | _ => false

end Command

/-- A character, with a step length, an angle in degrees and a leaf size where they are known. -/
structure Symbol (α : Type) where
  tag : Char
  length : Option α
  angle : Option α
  size : Option α
deriving DecidableEq, Repr

namespace Symbol

variable {α : Type}

/-- A character without numbers. -/
def bare (tag : Char) : Symbol α := ⟨tag, none, none, none⟩

/-- A step of the given length. -/
def forward (length : α) : Symbol α := ⟨'F', some length, none, none⟩

/-- A turn by the given angle. -/
def turn (tag : Char) (angle : α) : Symbol α := ⟨tag, none, some angle, none⟩

/-- A leaf of the given size. -/
def leaf (size : α) : Symbol α := ⟨'L', none, none, some size⟩

/-- What the symbol tells the turtle. -/
def command (s : Symbol α) : Command := Command.ofChar s.tag

/-- The characters of a sentence. -/
def text (sentence : List (Symbol α)) : String := String.ofList (sentence.map tag)

end Symbol

end Arbor
