import Arbor.Mesh

/-!
# The shape of a leaf

One curved strip of quads serves all leaves of a tree. Its rows run from the stem to the tip and bow back on the way.
-/

namespace Arbor

/-- The measures of a leaf. -/
structure LeafShape (α : Type) where
  width : α
  length : α
  /-- How far the tip bows back, as a fraction of the length. -/
  curvature : α
  /-- Rows of quads. -/
  segments : Nat
deriving DecidableEq, Repr

namespace LeafShape

/-- The leaf of a tree that states none. -/
def standard : LeafShape Float := ⟨0.3, 0.5, 0.2, 3⟩

/-- The number of rows of quads, at least one. -/
def rows (s : LeafShape Float) : Nat := max s.segments 1

/-- The two vertices at a height `t` between the stem, zero, and the tip, one. -/
def edge (s : LeafShape Float) (t : Float) : List (Vertex Float) :=
  let y := t * s.length
  let z := s.curvature * t * t * s.length
  let normal := (Vec3.right.cross ⟨0.0, 1.0, 2.0 * s.curvature * t⟩).direction
  let half := s.width * 0.5
  [⟨⟨-half, y, z⟩, normal, 0.0, t⟩, ⟨⟨half, y, z⟩, normal, 1.0, t⟩]

/-- The vertices of all rows. -/
def vertices (s : LeafShape Float) : List (Vertex Float) :=
  (List.range (s.rows + 1)).flatMap fun row => s.edge (Float.ofNat row / Float.ofNat s.rows)

/-- The triangles of a strip of quads. -/
def indices (rows : Nat) : List UInt32 :=
  (List.range rows).flatMap fun row =>
    let a := UInt32.ofNat row * 2
    [a, a + 1, a + 2, a + 1, a + 3, a + 2]

/-- The leaf as a mesh. -/
def mesh (s : LeafShape Float) : Mesh := .ofVertices s.vertices (indices s.rows).toArray

end LeafShape

end Arbor
