import Arbor.Decimal.Text
import Arbor.Error

/-!
# The wording of refusals

`Error.message` is the whole sentence for each error. `Error.causes` lists what lies behind it, in the words of the
part that failed.
-/

namespace Arbor

/-- A number in a message. -/
def numberText (x : Float) : String := DecimalStyle.digitsOnly.text x.binary

/-- A character in quotes. -/
def quoted (c : Char) : String := "'" ++ String.singleton c ++ "'"

namespace SettingFault

/-- The words for a refused number. -/
def message : SettingFault Float → String
  | .negative name value => name ++ " must be finite and non-negative, got " ++ numberText value
  | .aboveOne name value => name ++ " must be at most 1, got " ++ numberText value
  | .infinite name value => name ++ " must be finite, got " ++ numberText value

end SettingFault

namespace GrammarFault

/-- The words for a refused grammar. -/
def message : GrammarFault Float → String
  | .emptyStart => "axiom is empty"
  | .setting fault => fault.message
  | .odds symbol given =>
    "rule for " ++ quoted symbol ++ " has odds " ++ numberText given ++ ", expected a positive number"
  | .bracket symbol => "brackets cannot be rewritten (rule for " ++ quoted symbol ++ ")"
  | .totalOdds symbol total => "rules for " ++ quoted symbol ++ " have total odds " ++ numberText total

end GrammarFault

namespace PlanFault

/-- The words for a refused plan. -/
def message : PlanFault Float → String
  | .iterations given => "iterations must be at most 12, got " ++ toString given
  | .radialSegments given => "radial_segments must be at least 3, got " ++ toString given
  | .leafSegments => "leaf segments must be at least 1"
  | .setting fault => fault.message
  | .channel value => "leaf_instances.base_color channels must be in [0, 1], got " ++ numberText value

end PlanFault

namespace FileFault

/-- The words of the system. -/
def message : FileFault → String
  | .missing => "No such file or directory (os error 2)"
  | .isDirectory => "Is a directory (os error 21)"
  | .notDirectory => "Not a directory (os error 20)"
  | .nameTooLong => "File name too long (os error 36)"
  | .nullInName => "file name contained an unexpected NUL byte"
  | .notText => "stream did not contain valid UTF-8"
  | .other text => text

end FileFault

namespace JsonFault

/-- The words for a text that could not be read. -/
def message : JsonFault → String
  | .unfinished => "the text ends too early"
  | .malformed => "the text is not JSON"
  | .mismatched => "the value has another shape than expected"

end JsonFault

namespace Error

/-- The whole sentence for an error. -/
def message : Error Float → String
  | .grammar fault => "Invalid grammar: " ++ fault.message
  | .plan fault => "Invalid parameter: " ++ fault.message
  | .sentenceTooLong limit generation =>
    "Sentence exceeded " ++ toString limit ++ " symbols in generation " ++ toString generation
  | .unknownPreset name => "Unknown preset: " ++ name
  | .unknownExtension path => "Export failed: Unknown file extension: " ++ path
  | .file fault => "IO error: " ++ fault.message
  | .json fault => "JSON error: " ++ fault.message

/-- What lies behind an error. -/
def causes : Error Float → List String
  | .file fault => [fault.message]
  | .json fault => [fault.message]
  | _ => []

end Error

end Arbor
