import Arbor.Json.Decode
import Arbor.Plan

/-!
# Sections of a definition

The written form of the settings of a plan, and how they are read. A section may leave out any of its fields, which
then keep their standard values.
-/

namespace Arbor

/-- An array of three numbers. -/
def Rgb.ofJson : Json → Except JsonFault (Rgb Float)
  | .array items fault =>
    Json.Field.readItems fault (⟨0.0, 0.0, 0.0⟩ : Rgb Float) [
      .required "red" Json.double? fun c x => { c with red := x },
      .required "green" Json.double? fun c x => { c with green := x },
      .required "blue" Json.double? fun c x => { c with blue := x }] items
  | v => v.mismatch

/-- The written form of a color. -/
def Rgb.toJson (c : Rgb Float) : Json := .list (c.toList.map Json.double)

namespace Habit

/-- The fields of a habit, in their written order. -/
def fields : List (Json.Field (Habit Float)) := [
  .optional "base_length" Json.double? fun h x => { h with baseLength := x },
  .optional "base_radius" Json.double? fun h x => { h with baseRadius := x },
  .optional "length_falloff" Json.double? fun h x => { h with lengthFalloff := x },
  .optional "radius_falloff" Json.double? fun h x => { h with radiusFalloff := x },
  .optional "branch_angle" Json.double? fun h x => { h with branchAngle := x },
  .optional "variability" Json.double? fun h x => { h with variability := x }]

/-- Reads a habit. -/
def ofJson : Json → Except JsonFault (Habit Float) := Json.record? fields standard

/-- The written form of a habit. -/
def toJson (h : Habit Float) : Json :=
  .record [
    ("base_length", .double h.baseLength),
    ("base_radius", .double h.baseRadius),
    ("length_falloff", .double h.lengthFalloff),
    ("radius_falloff", .double h.radiusFalloff),
    ("branch_angle", .double h.branchAngle),
    ("variability", .double h.variability)]

end Habit

namespace Gait

/-- The fields of a gait, in their written order. -/
def fields : List (Json.Field (Gait Float)) := [
  .optional "base_radius" Json.double? fun g x => { g with baseRadius := x },
  .optional "radius_falloff" Json.double? fun g x => { g with radiusFalloff := x },
  .optional "default_length" Json.double? fun g x => { g with defaultLength := x },
  .optional "default_angle" Json.double? fun g x => { g with defaultAngle := x }]

/-- Reads a gait. -/
def ofJson : Json → Except JsonFault (Gait Float) := Json.record? fields standard

/-- The written form of a gait. -/
def toJson (g : Gait Float) : Json :=
  .record [
    ("base_radius", .double g.baseRadius),
    ("radius_falloff", .double g.radiusFalloff),
    ("default_length", .double g.defaultLength),
    ("default_angle", .double g.defaultAngle)]

end Gait

namespace Bark

/-- The fields of a bark, in their written order. -/
def fields : List (Json.Field (Bark Float)) := [
  .optional "radial_segments" Json.word? fun b n => { b with radialSegments := n },
  .optional "texture_scale" Json.double? fun b x => { b with textureScale := x }]

/-- Reads a bark. -/
def ofJson : Json → Except JsonFault (Bark Float) := Json.record? fields standard

/-- The written form of a bark. -/
def toJson (b : Bark Float) : Json :=
  .record [("radial_segments", .natural b.radialSegments), ("texture_scale", .double b.textureScale)]

end Bark

namespace LeafShape

/-- The fields of a leaf shape, in their written order. -/
def fields : List (Json.Field (LeafShape Float)) := [
  .optional "width" Json.double? fun s x => { s with width := x },
  .optional "length" Json.double? fun s x => { s with length := x },
  .optional "curvature" Json.double? fun s x => { s with curvature := x },
  .optional "segments" Json.word? fun s n => { s with segments := n }]

/-- Reads a leaf shape. -/
def ofJson : Json → Except JsonFault (LeafShape Float) := Json.record? fields standard

/-- The written form of a leaf shape. -/
def toJson (s : LeafShape Float) : Json :=
  .record [
    ("width", .double s.width),
    ("length", .double s.length),
    ("curvature", .double s.curvature),
    ("segments", .natural s.segments)]

end LeafShape

namespace LeafScatter

/-- The fields of a scatter, in their written order. -/
def fields : List (Json.Field (LeafScatter Float)) := [
  .optional "scale" Json.double? fun s x => { s with scale := x },
  .optional "size_variation" Json.double? fun s x => { s with sizeVariation := x },
  .optional "rotation_variation" Json.double? fun s x => { s with rotationVariation := x },
  .optional "base_color" Rgb.ofJson fun s c => { s with baseColor := c },
  .optional "color_variation" Json.double? fun s x => { s with colorVariation := x },
  .optional "seed_suffix" Json.string? fun s text => { s with seedSuffix := text }]

/-- Reads a scatter. -/
def ofJson : Json → Except JsonFault (LeafScatter Float) := Json.record? fields standard

/-- The written form of a scatter. -/
def toJson (s : LeafScatter Float) : Json :=
  .record [
    ("scale", .double s.scale),
    ("size_variation", .double s.sizeVariation),
    ("rotation_variation", .double s.rotationVariation),
    ("base_color", s.baseColor.toJson),
    ("color_variation", .double s.colorVariation),
    ("seed_suffix", .string s.seedSuffix)]

end LeafScatter

end Arbor
