/-!
# Invocations

The arguments of the program, from left to right: a subcommand, then options, each of which takes a value and may come
once. `Invocation.parse?` gives nothing where the arguments are of no use.
-/

namespace Arbor

/-- An option of a subcommand. -/
inductive Flag where
  | preset
  | definition
  | seed
  | iterations
  | output
  | radialSegments
deriving DecidableEq, Repr

/-- Where a plan comes from, and what replaces parts of it. -/
structure Source where
  preset : Option String
  definition : Option String
  seed : Option String
  iterations : Option Nat
deriving DecidableEq, Repr

/-- What the program is asked to do. -/
inductive Invocation where
  | version
  | help
  | presets
  | sentence (source : Source)
  | generate (source : Source) (output : Option String) (radialSegments : Option Nat)
deriving DecidableEq, Repr

/-- Options with their values, or the wish to be told about them. -/
inductive Options where
  | help
  | given (values : List (Flag × String))
deriving DecidableEq, Repr

namespace Flag

/-- The long name. -/
def long : Flag → String
  | preset => "preset"
  | definition => "definition"
  | seed => "seed"
  | iterations => "iterations"
  | output => "output"
  | radialSegments => "radial-segments"

/-- The letter, if there is one. -/
def short? : Flag → Option Char
  | preset => some 'p'
  | definition => some 'd'
  | seed => some 's'
  | iterations => some 'i'
  | output => some 'o'
  | radialSegments => none

/-- The options that say where a plan comes from. -/
def ofSource : List Flag := [preset, definition, seed, iterations]

/-- A whole number of 32 bits, with a sign or without. -/
def word? (text : String) : Option Nat :=
  let (negative, digits) := match text.toList with
    | '-' :: rest => (true, rest)
    | '+' :: rest => (false, rest)
    | cs => (false, cs)
  if digits.isEmpty || !digits.all Char.isDigit then none
  else
    let n := digits.foldl (fun n c => n * 10 + (c.toNat - '0'.toNat)) 0
    if n < UInt32.size && (!negative || n == 0) then some n else none

/-- Whether an option takes a value. -/
def accepts (f : Flag) (value : String) : Bool :=
  match f with
  | preset => true
  | seed => true
  | definition => value != ""
  | output => value != ""
  | iterations => (word? value).isSome
  | radialSegments => (word? value).isSome

end Flag

namespace Options

/-- Adds an option that has not been given yet. -/
def add? (values : List (Flag × String)) (f : Flag) (value : String) : Option (List (Flag × String)) :=
  if values.any (·.1 == f) || !f.accepts value then none else some (values ++ [(f, value)])

/-- Whether an argument can be the value of the option before it. -/
def isValue (arg : String) : Bool := arg == "-" || !arg.startsWith "-"

/-- An argument that starts an option, with the value that it holds itself. -/
inductive Opening where
  | help
  | option (f : Flag) (value : Option String)
deriving DecidableEq, Repr

/-- The option that an argument starts. -/
def open? (known : List Flag) (arg : String) : Option Opening :=
  match arg.toList with
  | '-' :: '-' :: long =>
    let name := String.ofList (long.takeWhile (· != '='))
    match long.dropWhile (· != '=') with
    | [] =>
      if name == "help" then some .help
      else (known.find? (·.long == name)).map fun f => .option f none
    | _ :: value => (known.find? (·.long == name)).map fun f => .option f (some (String.ofList value))
  | '-' :: letter :: rest =>
    if letter == 'h' then some .help
    else
      (known.find? (·.short? == some letter)).map fun f =>
        .option f <| match rest with
          | [] => none
          | '=' :: value => some (String.ofList value)
          | value => some (String.ofList value)
  | _ => none

/-- Reads the options of a subcommand that knows the given ones. -/
def parse? (known : List Flag) (values : List (Flag × String)) : List String → Option Options
  | [] => some (given values)
  | arg :: rest =>
    if arg == "--" then if rest.isEmpty then some (given values) else none
    else
      match open? known arg with
      | none => none
      | some .help => some help
      | some (.option f (some value)) =>
        match add? values f value with
        | none => none
        | some values => parse? known values rest
      | some (.option f none) =>
        match rest with
        | [] => none
        | value :: rest =>
          if isValue value then
            match add? values f value with
            | none => none
            | some values => parse? known values rest
          else none

/-- The value of an option. -/
def value? (values : List (Flag × String)) (f : Flag) : Option String := (values.find? (·.1 == f)).map (·.2)

/-- The source that options describe; a preset and a definition exclude each other. -/
def source? (values : List (Flag × String)) : Option Source :=
  let s : Source :=
    { preset := value? values .preset
      definition := value? values .definition
      seed := value? values .seed
      iterations := (value? values .iterations).bind Flag.word? }
  if s.preset.isSome && s.definition.isSome then none else some s

end Options

namespace Invocation

/-- Reads the arguments of a subcommand. -/
def ofSubcommand? (name : String) (args : List String) : Option Invocation :=
  match name with
  | "presets" => do
    match ← Options.parse? [] [] args with
    | .help => return help
    | .given _ => return presets
  | "sentence" => do
    match ← Options.parse? Flag.ofSource [] args with
    | .help => return help
    | .given values => return sentence (← Options.source? values)
  | "generate" => do
    match ← Options.parse? (Flag.ofSource ++ [.output, .radialSegments]) [] args with
    | .help => return help
    | .given values =>
      let source ← Options.source? values
      return generate source (Options.value? values .output)
        ((Options.value? values .radialSegments).bind Flag.word?)
  | "help" => match args with
    | [] => some help
    | [topic] => if ["generate", "sentence", "presets", "help"].contains topic then some help else none
    | _ => none
  | _ => none

/-- Reads the arguments of the program. -/
def parse? : List String → Option Invocation
  | [] => none
  | arg :: args =>
    if arg == "--version" || arg.startsWith "-V" then some version
    else if arg == "--help" || arg.startsWith "-h" then some help
    else ofSubcommand? arg args

end Invocation

end Arbor
