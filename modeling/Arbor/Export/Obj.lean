import Arbor.Decimal.Text
import Arbor.Tree

/-!
# Object files

An object file has a head of comments and up to two groups, the branches and the baked leaves. A group lists its
vertices, their places in the texture, their normals and its faces; faces count all vertices of the file from one on.
A mesh without positions has no group.
-/

namespace Arbor

namespace Obj

/-- A number of an object file. -/
def numberText (x : Float32) : String := DecimalStyle.digitsOnly.text x.binary

/-- The line of a vector. -/
def vectorLine (keyword : String) (v : Float32 × Float32 × Float32) : String :=
  keyword ++ " " ++ numberText v.1 ++ " " ++ numberText v.2.1 ++ " " ++ numberText v.2.2

/-- The line of a place in the texture. -/
def textureLine (uv : Float32 × Float32) : String := "vt " ++ numberText uv.1 ++ " " ++ numberText uv.2

/-- The corner of a face: the same number for its vertex, its place in the texture and its normal. -/
def corner (base index : UInt32) : String :=
  let n := toString (index + base + 1)
  n ++ "/" ++ n ++ "/" ++ n

/-- The line of a face. -/
def faceLine (base : UInt32) (t : UInt32 × UInt32 × UInt32) : String :=
  "f " ++ corner base t.1 ++ " " ++ corner base t.2.1 ++ " " ++ corner base t.2.2

/-- The lines of a group, with its vertices counted from `base` on. -/
def group (name : String) (m : Mesh) (base : UInt32) : List String :=
  if m.isEmpty then []
  else
    ["o " ++ name]
      ++ (triples m.positions).toList.map (vectorLine "v")
      ++ (pairs m.uvs).toList.map textureLine
      ++ (triples m.normals).toList.map (vectorLine "vn")
      ++ (triples m.indices).toList.map (faceLine base)
      ++ [""]

/-- The comments at the head. -/
def head (s : TreeStats) : List String := [
  "# Sylva OBJ Export",
  "# Segments: " ++ toString s.segments,
  "# Leaves: " ++ toString s.leaves,
  "# Triangles: " ++ toString s.triangles,
  ""]

/-- The lines of a tree. -/
def lines (t : Tree) : List String :=
  head t.stats
    ++ group "branches" t.branches 0
    ++ group "leaves" t.bakedLeaves (UInt32.ofNat t.branches.vertexCount)

/-- The object file of a tree. -/
def text (t : Tree) : String := (lines t).foldl (fun text line => text ++ line ++ "\n") ""

end Obj

end Arbor
