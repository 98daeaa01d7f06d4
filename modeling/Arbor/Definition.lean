import Arbor.Definition.Section

/-!
# Definitions

A definition is the written form of a plan, with rules that are texts. What it leaves out has a standard value, except
that the walk takes its radii from the habit of the grammar.

`Definition.toJson` writes a definition and `Definition.ofJson` reads one; `Definition.plan` makes the plan.
-/

namespace Arbor

/-- A rule of a definition. -/
structure LiteralRule where
  symbol : Char
  odds : Float
  produce : String
deriving DecidableEq, Repr

namespace LiteralRule

/-- The fields of a rule, in their written order. -/
def fields : List (Json.Field LiteralRule) := [
  .required "match" Json.char? fun r c => { r with symbol := c },
  .optional "odds" Json.double? fun r x => { r with odds := x },
  .required "produce" Json.string? fun r text => { r with produce := text }]

/-- Reads a rule. -/
def ofJson : Json → Except JsonFault LiteralRule := Json.record? fields ⟨' ', 1.0, ""⟩

/-- The written form of a rule. -/
def toJson (r : LiteralRule) : Json :=
  .record [
    ("match", .string (String.singleton r.symbol)),
    ("odds", .double r.odds),
    ("produce", .string r.produce)]

/-- The rule of a grammar. -/
def rule (r : LiteralRule) : Rule Float := ⟨r.symbol, r.odds, .literal r.produce⟩

end LiteralRule

/-- The written form of a plan. -/
structure Definition where
  start : String
  rules : List LiteralRule
  habit : Habit Float
  iterations : Nat
  seed : String
  gait : Option (Gait Float)
  bark : Option (Bark Float)
  leafShape : Option (LeafShape Float)
  scatter : Option (LeafScatter Float)
deriving DecidableEq, Repr

namespace Definition

/-- The definition that says no more than its start text. -/
def ofStart (start : String) : Definition := ⟨start, [], .standard, 4, "sylva", none, none, none, none⟩

/-- The fields of a definition, in their written order. -/
def fields : List (Json.Field Definition) := [
  .required "axiom" Json.string? fun d text => { d with start := text },
  .optional "rules" (Json.array? LiteralRule.ofJson) fun d rules => { d with rules := rules },
  .optional "lsystem" Habit.ofJson fun d h => { d with habit := h },
  .optional "iterations" Json.word? fun d n => { d with iterations := n },
  .optional "seed" Json.string? fun d text => { d with seed := text },
  .optional "turtle" (Json.option? Gait.ofJson) fun d g => { d with gait := g },
  .optional "branch" (Json.option? Bark.ofJson) fun d b => { d with bark := b },
  .optional "leaf_shape" (Json.option? LeafShape.ofJson) fun d s => { d with leafShape := s },
  .optional "leaf_instances" (Json.option? LeafScatter.ofJson) fun d s => { d with scatter := s }]

/-- Reads a definition. -/
def ofJson : Json → Except JsonFault Definition := Json.record? fields (ofStart "")

/-- The written form of a part that may be left out. -/
def optionToJson {β : Type} (write : β → Json) : Option β → Json
  | none => .null
  | some v => write v

/-- The written form of a definition. -/
def toJson (d : Definition) : Json :=
  .record [
    ("axiom", .string d.start),
    ("rules", .list (d.rules.map LiteralRule.toJson)),
    ("lsystem", d.habit.toJson),
    ("iterations", .natural d.iterations),
    ("seed", .string d.seed),
    ("turtle", optionToJson Gait.toJson d.gait),
    ("branch", optionToJson Bark.toJson d.bark),
    ("leaf_shape", optionToJson LeafShape.toJson d.leafShape),
    ("leaf_instances", optionToJson LeafScatter.toJson d.scatter)]

/-- Reads a text. -/
def ofText (text : String) : Except (Error Float) Definition :=
  ((Json.Document.ofText text).decode ofJson).mapError .json

/-- The plan that a definition describes, if its grammar and its settings are accepted. -/
def plan (d : Definition) : Except (Error Float) (Plan Float) := do
  let grammar ← (Grammar.ofRules d.start (d.rules.map LiteralRule.rule) d.habit).mapError .grammar
  let p : Plan Float :=
    { grammar := grammar
      iterations := d.iterations
      seed := d.seed
      gait := d.gait.getD (.ofHabit grammar.habit)
      bark := d.bark.getD .standard
      leafShape := d.leafShape.getD .standard
      scatter := d.scatter.getD .standard }
  p.check.mapError .plan
  return p

end Definition

end Arbor
