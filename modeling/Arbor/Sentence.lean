import Arbor.Habit
import Arbor.Rng
import Arbor.Symbol
import Arbor.Transducer

/-!
# Reading a text as a sentence

Each character becomes one symbol. Steps and turns get their numbers from the habit, the depth at which they stand
and, if the habit has any variability, one draw each (`Symbol.create`); nothing else draws.

The depth of a reading is a word of 64 bits (`Sentence.parseWrapping`). A grammar reads its texts at depths that count
the brackets of a sentence, and these no word has to wrap for (`Sentence.parse`).
-/

namespace Arbor

open scoped Scalar

variable {α : Type} [Scalar α]

/-- A factor between `1 - variability` and `1 + variability`. Without variability it is one, and nothing is drawn. -/
def Draw.jitter (variability : α) : Draw α :=
  if variability == 0 then return 1
  else do
    let r ← Draw.unit
    return 1 + variability * (r - 1 / 2) * 2

/-- The symbol that a character makes at a depth. -/
def Symbol.create (habit : Habit α) (depth : Nat) (c : Char) : Draw (Symbol α) :=
  match Command.ofChar c with
  | .forward => do
    let factor ← Draw.jitter habit.variability
    return .forward (habit.baseLength * Scalar.decay habit.lengthFalloff depth * factor)
  | .turn _ _ => do
    let factor ← Draw.jitter habit.variability
    return .turn c (habit.branchAngle * factor)
  | .leaf => return .leaf 1
  | _ => return .bare c

/-- A place in a sentence: the number of open brackets, and the generator on arrival. -/
structure Cursor where
  depth : Nat
  rng : Rng
deriving DecidableEq, Repr

namespace Sentence

/-- Reads one character. -/
def read (habit : Habit α) : Transducer Cursor Char (Symbol α) := fun cursor c =>
  let (symbol, rng) := (Symbol.create habit cursor.depth c).run cursor.rng
  ([symbol], ⟨(Command.ofChar c).nest cursor.depth, rng⟩)

/-- The sentence that a text makes when it starts at a depth from which no word wraps. -/
def parse (habit : Habit α) (depth : Nat) (text : String) : Draw (List (Symbol α)) := fun rng =>
  let (symbols, cursor) := (read habit).run ⟨depth, rng⟩ text.toList
  (symbols, cursor.rng)

/-- Reads one character at a depth that wraps. -/
def readWrapping (habit : Habit α) : Transducer (UInt64 × Rng) Char (Symbol α) := fun (depth, rng) c =>
  let (symbol, rng) := (Symbol.create habit depth.toNat c).run rng
  ([symbol], (Command.ofChar c).nestWrapping depth, rng)

/-- The sentence that a text makes when it starts at any depth. -/
def parseWrapping (habit : Habit α) (depth : UInt64) (text : String) : Draw (List (Symbol α)) := fun rng =>
  let (symbols, _, rng) := (readWrapping habit).run (depth, rng) text.toList
  (symbols, rng)

end Sentence

end Arbor
