import Arbor.Json.Decode
import Arbor.Json.Printer
import Arbor.Tree

/-!
# The written form of trees

A tree is written with all its buffers. Singles are written as singles, and what is not a finite number as null.
-/

namespace Arbor

namespace Mesh

/-- The fields of a mesh, in their written order. -/
def fields : List (Json.Field Mesh) := [
  .required "positions" (Json.array? Json.single?) fun m xs => { m with positions := xs.toArray },
  .required "normals" (Json.array? Json.single?) fun m xs => { m with normals := xs.toArray },
  .required "uvs" (Json.array? Json.single?) fun m xs => { m with uvs := xs.toArray },
  .required "indices" (Json.array? Json.word?) fun m ns => { m with indices := (ns.map UInt32.ofNat).toArray }]

/-- Reads a mesh. -/
def ofJson : Json → Except JsonFault Mesh := Json.record? fields empty

/-- The written form of a buffer of singles. -/
def bufferToJson (buffer : Array Float32) : Json := .list (buffer.toList.map Json.single)

/-- The written form of a mesh. -/
def toJson (m : Mesh) : Json :=
  .record [
    ("positions", bufferToJson m.positions),
    ("normals", bufferToJson m.normals),
    ("uvs", bufferToJson m.uvs),
    ("indices", .list (m.indices.toList.map fun i => .natural i.toNat))]

end Mesh

namespace Foliage

/-- The fields of a foliage, in their written order. -/
def fields : List (Json.Field Foliage) := [
  .required "matrices" (Json.array? Json.single?) fun f xs => { f with matrices := xs.toArray },
  .required "colors" (Json.array? Json.single?) fun f xs => { f with colors := xs.toArray },
  .required "count" Json.count? fun f n => { f with count := n }]

/-- Reads a foliage. -/
def ofJson : Json → Except JsonFault Foliage := Json.record? fields empty

/-- The written form of a foliage. -/
def toJson (f : Foliage) : Json :=
  .record [
    ("matrices", Mesh.bufferToJson f.matrices),
    ("colors", Mesh.bufferToJson f.colors),
    ("count", .natural f.count)]

end Foliage

namespace TreeStats

/-- The fields of the counts, in their written order. -/
def fields : List (Json.Field TreeStats) := [
  .required "triangle_count" Json.count? fun s n => { s with triangles := n },
  .required "segment_count" Json.count? fun s n => { s with segments := n },
  .required "leaf_count" Json.count? fun s n => { s with leaves := n },
  .required "symbol_count" Json.count? fun s n => { s with symbols := n },
  .required "node_count" Json.count? fun s n => { s with nodes := n }]

/-- Reads the counts. -/
def ofJson : Json → Except JsonFault TreeStats := Json.record? fields ⟨0, 0, 0, 0, 0⟩

/-- The written form of the counts. -/
def toJson (s : TreeStats) : Json :=
  .record [
    ("triangle_count", .natural s.triangles),
    ("segment_count", .natural s.segments),
    ("leaf_count", .natural s.leaves),
    ("symbol_count", .natural s.symbols),
    ("node_count", .natural s.nodes)]

end TreeStats

namespace Tree

/-- The fields of a tree, in their written order. The leaf mesh may be left out of an object, but not of an array. -/
def fields : List (Json.Field Tree) := [
  .required "branch_geometry" Mesh.ofJson fun t m => { t with branches := m },
  ⟨"leaf_geometry", false, true, fun t v => do return { t with leaf := ← Json.option? Mesh.ofJson v }⟩,
  .required "leaf_instances" Foliage.ofJson fun t f => { t with foliage := f },
  .required "stats" TreeStats.ofJson fun t s => { t with stats := s }]

/-- Reads a tree. -/
def ofJson : Json → Except JsonFault Tree := Json.record? fields ⟨.empty, none, .empty, ⟨0, 0, 0, 0, 0⟩⟩

/-- The written form of a tree. -/
def toJson (t : Tree) : Json :=
  .record [
    ("branch_geometry", t.branches.toJson),
    ("leaf_geometry", match t.leaf with | none => .null | some m => m.toJson),
    ("leaf_instances", t.foliage.toJson),
    ("stats", t.stats.toJson)]

/-- Reads a text. -/
def ofText (text : String) : Except (Error Float) Tree :=
  ((Json.Document.ofText text).decode ofJson).mapError .json

end Tree

end Arbor
