import Arbor.Rounding
import Arbor.Space.Vec3

/-!
# Meshes

A mesh is four flat buffers: three singles a vertex for its position and three for its normal, two for its place in
the texture, and three vertex numbers a triangle. A mesh may come from outside, so the buffers need not fit together;
`Mesh.hasValidShape` says when they do.
-/

namespace Arbor

/-- The consecutive groups of three, without what is left over. -/
def triples {β : Type} (buffer : Array β) : Array (β × β × β) :=
  Array.ofFn fun i : Fin (buffer.size / 3) => (buffer[3 * i.val], buffer[3 * i.val + 1], buffer[3 * i.val + 2])

/-- The consecutive groups of two, without what is left over. -/
def pairs {β : Type} (buffer : Array β) : Array (β × β) :=
  Array.ofFn fun i : Fin (buffer.size / 2) => (buffer[2 * i.val], buffer[2 * i.val + 1])

/-- A corner of a surface: where it is, which way the surface faces there, and its place in the texture. -/
structure Vertex (α : Type) where
  position : Vec3 α
  normal : Vec3 α
  u : α
  v : α
deriving DecidableEq, Repr

/-- A buffer with the singles nearest to some numbers behind it. -/
def pushSingles (buffer : Array Float32) (xs : List Float) : Array Float32 :=
  xs.foldl (fun buffer x => buffer.push x.toSingle) buffer

@[simp] theorem toList_pushSingles (buffer : Array Float32) (xs : List Float) :
    (pushSingles buffer xs).toList = buffer.toList ++ xs.map Float.toSingle := by
  simp [pushSingles]

/-- Triangles in flat buffers. -/
structure Mesh where
  positions : Array Float32
  normals : Array Float32
  uvs : Array Float32
  indices : Array UInt32
deriving Repr

namespace Mesh

/-- The mesh without triangles. -/
def empty : Mesh := ⟨#[], #[], #[], #[]⟩

/-- The mesh with one more vertex, rounded to singles. -/
def push : Mesh → Vertex Float → Mesh
  | ⟨positions, normals, uvs, indices⟩, p =>
    ⟨pushSingles positions p.position.toList, pushSingles normals p.normal.toList, pushSingles uvs [p.u, p.v], indices⟩

/-- Packs vertices, and the corners of triangles. -/
def ofVertices (vertices : List (Vertex Float)) (indices : Array UInt32) : Mesh :=
  { vertices.foldl push empty with indices := indices }

theorem foldl_push_toList (m : Mesh) (vertices : List (Vertex Float)) :
    (vertices.foldl push m).positions.toList =
        m.positions.toList ++ vertices.flatMap (fun p => p.position.toList.map Float.toSingle)
      ∧ (vertices.foldl push m).normals.toList =
        m.normals.toList ++ vertices.flatMap (fun p => p.normal.toList.map Float.toSingle)
      ∧ (vertices.foldl push m).uvs.toList =
        m.uvs.toList ++ vertices.flatMap (fun p => [p.u, p.v].map Float.toSingle) := by
  induction vertices generalizing m with
  | nil => simp
  | cons p ps ih => simpa [push] using ih (m.push p)

/-- Vertices do not touch the triangles. -/
theorem foldl_push_with (m : Mesh) (vertices : List (Vertex Float)) (indices : Array UInt32) :
    vertices.foldl push { m with indices := indices } = { vertices.foldl push m with indices := indices } := by
  induction vertices generalizing m with
  | nil => rfl
  | cons p ps ih => exact ih (m.push p)

theorem indices_foldl_push (m : Mesh) (vertices : List (Vertex Float)) :
    (vertices.foldl push m).indices = m.indices := by
  induction vertices generalizing m with
  | nil => rfl
  | cons p ps ih => exact ih (m.push p)

theorem positions_ofVertices (vertices : List (Vertex Float)) (indices : Array UInt32) :
    (ofVertices vertices indices).positions.toList =
      vertices.flatMap fun p => p.position.toList.map Float.toSingle := by
  simpa [ofVertices, empty] using (foldl_push_toList empty vertices).1

theorem normals_ofVertices (vertices : List (Vertex Float)) (indices : Array UInt32) :
    (ofVertices vertices indices).normals.toList =
      vertices.flatMap fun p => p.normal.toList.map Float.toSingle := by
  simpa [ofVertices, empty] using (foldl_push_toList empty vertices).2.1

theorem uvs_ofVertices (vertices : List (Vertex Float)) (indices : Array UInt32) :
    (ofVertices vertices indices).uvs.toList = vertices.flatMap fun p => [p.u, p.v].map Float.toSingle := by
  simpa [ofVertices, empty] using (foldl_push_toList empty vertices).2.2

/-- The number of whole vertices. -/
def vertexCount (m : Mesh) : Nat := m.positions.size / 3

theorem vertexCount_foldl_push (m : Mesh) (vertices : List (Vertex Float)) :
    (vertices.foldl push m).vertexCount = m.vertexCount + vertices.length := by
  induction vertices generalizing m with
  | nil => rfl
  | cons p ps ih =>
    have hsize : (m.push p).positions.size = m.positions.size + 3 := by
      rw [← Array.length_toList, push, toList_pushSingles, List.length_append, Array.length_toList]
      rfl
    rw [List.foldl_cons, ih, vertexCount, vertexCount, hsize, List.length_cons]
    omega

/-- The number of whole triangles. -/
def triangleCount (m : Mesh) : Nat := m.indices.size / 3

/-- Whether there is no position at all. -/
def isEmpty (m : Mesh) : Bool := m.positions.isEmpty

/-- The positions of the vertices. -/
def points (m : Mesh) : Array (Vec3 Float32) :=
  Array.ofFn fun i : Fin (m.positions.size / 3) =>
    ⟨m.positions[3 * i.val], m.positions[3 * i.val + 1], m.positions[3 * i.val + 2]⟩

/-- Whether the lengths of the buffers agree and every index names a vertex. -/
def hasValidShape (m : Mesh) : Bool :=
  m.positions.size % 3 == 0
    && m.normals.size == m.positions.size
    && m.uvs.size == m.vertexCount * 2
    && m.indices.size % 3 == 0
    && m.indices.all fun i => decide (i.toNat < m.vertexCount)

/-- The indices counted on from another mesh's vertices. -/
def rebase (base : Nat) (indices : Array UInt32) : Array UInt32 := indices.map (· + UInt32.ofNat base)

/-- One mesh after the other, as one. -/
def append : Mesh → Mesh → Mesh
  | ⟨positions, normals, uvs, indices⟩, n =>
    let base := positions.size / 3
    ⟨positions ++ n.positions, normals ++ n.normals, uvs ++ n.uvs, indices ++ rebase base n.indices⟩

instance : Append Mesh := ⟨append⟩

theorem append_def (m n : Mesh) :
    m ++ n = ⟨m.positions ++ n.positions, m.normals ++ n.normals, m.uvs ++ n.uvs,
      m.indices ++ rebase m.vertexCount n.indices⟩ := rfl

/-- The smaller of two singles; a number that is none is passed over. -/
def lesser (a b : Float32) : Float32 := if b.isNaN then a else if a.isNaN || b < a then b else a

/-- The greater of two singles; a number that is none is passed over. -/
def greater (a b : Float32) : Float32 := if b.isNaN then a else if a.isNaN || a < b then b else a

/-- The greatest finite single. -/
def greatest : Float32 := Float32.ofBits 0x7f7fffff

/-- The corners of the smallest box with edges along the axes that holds all vertices; none without positions. -/
def bounds? (m : Mesh) : Option (Vec3 Float32 × Vec3 Float32) :=
  if m.isEmpty then none
  else
    let points := m.points
    let low := points.foldl (fun c p => ⟨lesser c.x p.x, lesser c.y p.y, lesser c.z p.z⟩)
      ⟨greatest, greatest, greatest⟩
    let high := points.foldl (fun c p => ⟨greater c.x p.x, greater c.y p.y, greater c.z p.z⟩)
      ⟨-greatest, -greatest, -greatest⟩
    some (low, high)

end Mesh

end Arbor
