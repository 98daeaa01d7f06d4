import Arbor.CommandLine.Invocation
import Arbor.CommandLine.Program
import Arbor.Definition
import Arbor.Export
import Arbor.Preset

/-!
# Subcommands

Every invocation is a program (`Invocation.program`). `sentence` and `generate` both fetch the plan of a source, and go to
its sentence and to its tree on separate ways. The counts of a tree are printed before its file is looked at, and the file is
created only once everything else has succeeded.

`Storage.runArgs` follows the program of some arguments to its end.
-/

namespace Arbor

namespace Source

/-- The plan of a definition, from the content of its file. -/
def ofContent (content : Except FileFault ByteArray) : Except (Error Float) (Plan Float) := do
  let text ← (content >>= textOf).mapError .file
  let definition ← Definition.ofText text
  definition.plan

/-- The plan that a source starts from. -/
def draft (s : Source) : Program (Plan Float) :=
  match s.definition with
  | some path => .read path fun content => .ofExcept ((ofContent content).mapError (.loading path))
  | none => .ofExcept ((Plan.preset (s.preset.getD "oak")).mapError .plain)

/-- The plan that a source describes. -/
def fetch (s : Source) : Program (Plan Float) := do
  let p ← s.draft
  return { p with seed := s.seed.getD p.seed, iterations := s.iterations.getD p.iterations }

end Source

/-- The plan with another number of vertices in a ring, where one is given. -/
def Plan.withRing (p : Plan Float) (ring : Option Nat) : Plan Float :=
  { p with bark := { p.bark with radialSegments := ring.getD p.bark.radialSegments } }

namespace Program

/-- The line of a preset in the list of all. -/
def presetLine (name : String) : Except Failure String := do
  let p ← (Plan.preset name).mapError .plain
  let column (width : Nat) (text : String) := text.pushn ' ' (width - text.length)
  return column 8 name ++ " axiom " ++ column 6 p.grammar.start ++ " " ++ toString p.iterations ++ " iterations\n"

/-- Lists the presets. -/
def presets : Program Unit := Preset.names.forM fun name => do say (← ofExcept (presetLine name))

/-- Prints the sentence of a plan. -/
def printSentence (p : Plan Float) : Program Unit := do
  ofExcept (p.check.mapError fun fault => .plain (.plan fault))
  let symbols ← ofExcept ((p.grammar.expandWithin Plan.maxSymbols p.iterations p.seed).mapError .plain)
  say (Symbol.text symbols ++ "\n")

/-- Prints the sentence of a source. -/
def sentence (source : Source) : Program Unit := do
  let p ← source.fetch
  printSentence p

/-- Writes a tree to a path, in the format of its extension. -/
def exportTree (t : Tree) (path : String) : Program Unit :=
  match Format.ofPath? path with
  | some format => save path (format.render t)
  | none => fail (.plain (.unknownExtension path))

/-- Writes a tree where that is asked for, and says so. -/
def deliver (t : Tree) : Option String → Program Unit
  | none => return
  | some path =>
    match Format.ofPath? path with
    | none => fail (.unsupportedOutput path)
    | some format => do
      exportTree t path
      say ("Exported " ++ format.name ++ " to: " ++ path ++ "\n")

/-- Grows the tree of a plan, prints its counts and writes it where that is asked for. -/
def growTree (p : Plan Float) (output : Option String) : Program Unit := do
  let t ← ofExcept ((Tree.ofPlan p).mapError .plain)
  say ("Seed:      " ++ p.seed ++ "\n")
  say ("Symbols:   " ++ toString t.stats.symbols ++ "\n")
  say ("Nodes:     " ++ toString t.stats.nodes ++ "\n")
  say ("Segments:  " ++ toString t.stats.segments ++ "\n")
  say ("Leaves:    " ++ toString t.stats.leaves ++ "\n")
  say ("Triangles: " ++ toString t.stats.triangles ++ "\n")
  deliver t output

/-- Grows the tree of a source. -/
def generate (source : Source) (output : Option String) (ring : Option Nat) : Program Unit := do
  let p ← source.fetch
  growTree (p.withRing ring) output

/-- The name of the program and its version. -/
def version : String := "sylva 0.1.0\n"

/-- How the program is used. -/
def usage : String :=
  "Usage: sylva <COMMAND>\n\nCommands:\n"
    ++ "  generate  Grow a tree, and write it where --output says\n"
    ++ "  sentence  Print the sentence of a tree\n"
    ++ "  presets   List the ready-made trees\n"

end Program

/-- The program of an invocation. -/
def Invocation.program : Invocation → Program Unit
  | version => .say Program.version
  | help => .say Program.usage
  | presets => .presets
  | sentence source => .sentence source
  | generate source output ring => .generate source output ring

/-- How a run of the program ended, and what it has left behind. -/
structure Ending (σ : Type) where
  code : UInt32
  stdout : String
  stderr : String
  left : σ

/-- How a program ends that has come to this result in this world. -/
def Ending.ofResult {σ : Type} : Except Failure Unit × World σ → Ending σ
  | (.ok (), w) => ⟨0, w.printed, "", w.files⟩
  | (.error failure, w) => ⟨1, w.printed, failure.report, w.files⟩

namespace Storage

variable {σ : Type}

/-- Runs an invocation. -/
def run (fs : Storage σ) (s : σ) (i : Invocation) : Ending σ := .ofResult (i.program.exec fs ⟨s, ""⟩)

/-- Runs the program with arguments. -/
def runArgs (fs : Storage σ) (s : σ) (args : List String) : Ending σ :=
  match Invocation.parse? args with
  | some i => fs.run s i
  | none => ⟨2, "", Program.usage, s⟩

end Storage

end Arbor
