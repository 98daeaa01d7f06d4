/-!
# What can go wrong

Every refusal is a value that names its cause; the wording is kept apart, in `Arbor.Error.Message`.
-/

namespace Arbor

/-- Why a number in a section of settings is refused. -/
inductive SettingFault (α : Type) where
  /-- A number that has to be finite and not below zero. -/
  | negative (name : String) (value : α)
  | aboveOne (name : String) (value : α)
  | infinite (name : String) (value : α)
deriving DecidableEq, Repr

/-- Why a grammar is refused. -/
inductive GrammarFault (α : Type) where
  | emptyStart
  | setting (fault : SettingFault α)
  | odds (symbol : Char) (odds : α)
  | bracket (symbol : Char)
  | totalOdds (symbol : Char) (total : α)
deriving DecidableEq, Repr

/-- Why the plan of a tree is refused. -/
inductive PlanFault (α : Type) where
  | iterations (given : Nat)
  | radialSegments (given : Nat)
  | leafSegments
  | setting (fault : SettingFault α)
  | channel (value : α)
deriving DecidableEq, Repr

/-- Why a file cannot be read or written. -/
inductive FileFault where
  | missing
  | isDirectory
  | notDirectory
  | nameTooLong
  /-- The character of code zero in a path. -/
  | nullInName
  | notText
  | other (text : String)
deriving DecidableEq, Repr

/-- Why a text is not the JSON that was asked for. -/
inductive JsonFault where
  /-- The text ends too early. -/
  | unfinished
  /-- The text is not JSON. -/
  | malformed
  /-- The text is JSON, of another shape. -/
  | mismatched
deriving DecidableEq, Repr

/-- Everything that keeps a tree from being grown, read or written. -/
inductive Error (α : Type) where
  | grammar (fault : GrammarFault α)
  | plan (fault : PlanFault α)
  | sentenceTooLong (limit generation : Nat)
  | unknownPreset (name : String)
  | unknownExtension (path : String)
  | file (fault : FileFault)
  | json (fault : JsonFault)
deriving DecidableEq, Repr

end Arbor
