import Arbor.Sentence

/-!
# Grammars

A grammar is a start text, a list of weighted rules and a habit. The rules of one character form a group, in the
order in which they are listed (`Grammar.rulesFor`). `Grammar.ofRules` refuses a grammar in which some choice could
not be made.
-/

namespace Arbor

open scoped Scalar

/-- What a rule puts in the place of its symbol. -/
inductive Production (α : Type) where
  /-- A text, read afresh wherever the rule is used. -/
  | literal (text : String)
  /-- Symbols made from the replaced one, its depth and the habit. -/
  | generator (make : Symbol α → Nat → Habit α → Draw (List (Symbol α)))

/-- One way to replace the symbols of a character. -/
structure Rule (α : Type) where
  symbol : Char
  odds : α
  produce : Production α

/-- A start text, rules and a habit. -/
structure Grammar (α : Type) where
  start : String
  rules : List (Rule α)
  habit : Habit α

variable {α : Type} [Scalar α]

namespace Production

/-- The replacement of a symbol at a depth. -/
def apply (habit : Habit α) (depth : Nat) (replaced : Symbol α) : Production α → Draw (List (Symbol α))
  | literal text => Sentence.parse habit depth text
  | generator make => make replaced depth habit

end Production

namespace Rule

/-- The rules of one character, in their order. -/
def group (rules : List (Rule α)) (c : Char) : List (Rule α) := rules.filter (·.symbol == c)

/-- Puts a character in its place among increasing ones, unless it is there already. -/
def insertSymbol (c : Char) : List Char → List Char
  | [] => [c]
  | d :: rest =>
    if c < d then c :: d :: rest else if c = d then d :: rest else d :: insertSymbol c rest

/-- The characters that have rules, in increasing order. -/
def symbols (rules : List (Rule α)) : List Char := (rules.map symbol).foldr insertSymbol []

/-- The odds of all rules of a group, added up in their order. -/
def totalOdds (rules : List (Rule α)) (c : Char) : α := Scalar.sum ((group rules c).map odds)

/-- Accepts a rule with finite positive odds that does not rewrite a bracket. -/
def check (r : Rule α) : Except (GrammarFault α) Unit :=
  if Scalar.isFinite r.odds = false ∨ r.odds ≤ 0 then .error (.odds r.symbol r.odds)
  else if (Command.ofChar r.symbol).isBracket then .error (.bracket r.symbol)
  else .ok ()

/-- Accepts a group whose odds have a finite positive total. -/
def checkTotal (rules : List (Rule α)) (c : Char) : Except (GrammarFault α) Unit :=
  let total := totalOdds rules c
  if Scalar.isFinite total = false ∨ total ≤ 0 then .error (.totalOdds c total) else .ok ()

end Rule

namespace Grammar

/-- The grammar with these parts, if all its choices can be made. -/
def ofRules (start : String) (rules : List (Rule α)) (habit : Habit α) : Except (GrammarFault α) (Grammar α) := do
  if start.isEmpty then throw .emptyStart
  habit.check.mapError .setting
  rules.forM Rule.check
  (Rule.symbols rules).forM (Rule.checkTotal rules)
  return ⟨start, rules, habit⟩

/-- The grammar with another habit. -/
def withHabit (g : Grammar α) (habit : Habit α) : Except (GrammarFault α) (Grammar α) := do
  habit.check.mapError .setting
  return { g with habit := habit }

/-- The rules for a character, in their order. -/
def rulesFor (g : Grammar α) (c : Char) : List (Rule α) := Rule.group g.rules c

/-- The characters that have rules, in increasing order, each with its rules. -/
def groups (g : Grammar α) : List (Char × List (Rule α)) := (Rule.symbols g.rules).map fun c => (c, g.rulesFor c)

end Grammar

end Arbor
