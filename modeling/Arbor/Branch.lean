import Arbor.Habit
import Arbor.Mesh
import Arbor.Skeleton
import Arbor.Transducer

/-!
# Branches

Every segment of a skeleton becomes an open tube between two rings of vertices. Rings are not shared, so that each
tube has texture coordinates of its own; `v` goes on from the end of one tube to the start of the next
(`Branch.tubes`). A segment that names a missing node is left out.
-/

namespace Arbor

open scoped Scalar

/-- How branches are drawn. -/
structure Bark (α : Type) where
  /-- Vertices in a ring. -/
  radialSegments : Nat
  /-- Texture per unit of branch length. -/
  textureScale : α
deriving DecidableEq, Repr

/-- The bark of a tree that states none. -/
def Bark.standard : Bark Float := ⟨8, 1.0⟩

/-- The vertices of a circle, and the directions in which the surface faces there. -/
structure Ring (α : Type) where
  positions : List (Vec3 α)
  normals : List (Vec3 α)
deriving DecidableEq, Repr

/-- The part of a branch along one segment. -/
structure Tube (α : Type) where
  segment : Segment α
  start : Node α
  finish : Node α
  /-- Where the texture starts. -/
  vStart : α
  /-- Where the texture ends. -/
  vFinish : α
deriving DecidableEq, Repr

namespace Ring

/-- The directions to `n` points of a circle about the second axis, starting at the first axis. -/
def circle (n : Nat) : List (Vec3 Float) :=
  (List.range n).map fun i =>
    let angle := Float.ofNat i * 6.283185307179586 / Float.ofNat n
    ⟨angle.cos, 0.0, angle.sin⟩

variable {α : Type} [Scalar α]

/-- The circle about a center, across the heading of an orientation. -/
@[specialize] def around (directions : List (Vec3 α)) (center : Vec3 α) (orientation : Quat α) (radius : α) : Ring α where
  positions := directions.map fun d => center + (orientation.rotate d).scale radius
  normals := directions.map fun d => (orientation.rotate d).direction

/-- The vertices of a ring, at one height of the texture. -/
@[specialize] def vertices (r : Ring α) (v : α) : List (Vertex α) :=
  let count : α := Scalar.ofNat r.positions.length
  (r.positions.zip r.normals).zipIdx.map fun ((position, normal), i) =>
    ⟨position, normal, Scalar.ofNat i / count, v⟩

/-- The triangles between two rings of `n` vertices, numbered from `a` and from `b` on. -/
def connect (a b : UInt32) (n : Nat) : List UInt32 :=
  (List.range n).flatMap fun i =>
    let here := UInt32.ofNat i
    let next := UInt32.ofNat ((i + 1) % n)
    [a + here, b + here, a + next, a + next, b + here, b + next]

end Ring

namespace Tube

variable {α : Type} [Scalar α]

/-- The ring at the start. -/
@[specialize] def startRing (directions : List (Vec3 α)) (t : Tube α) : Ring α :=
  .around directions t.start.position t.start.orientation t.segment.startRadius

/-- The ring at the end. -/
@[specialize] def finishRing (directions : List (Vec3 α)) (t : Tube α) : Ring α :=
  .around directions t.finish.position t.finish.orientation t.segment.finishRadius

/-- The vertices of both rings. -/
@[specialize] def vertices (directions : List (Vec3 α)) (t : Tube α) : List (Vertex α) :=
  (t.startRing directions).vertices t.vStart ++ (t.finishRing directions).vertices t.vFinish

end Tube

namespace Branch

variable {α : Type} [Scalar α]

/-- Draws one segment, with the texture starting at `v`. -/
def tube (s : Skeleton α) (textureScale : α) : Transducer α (Segment α) (Tube α) := fun v segment =>
  match s.node? segment.start, s.node? segment.finish with
  | some start, some finish =>
    let vFinish := v + segment.length * textureScale
    ([⟨segment, start, finish, v, vFinish⟩], vFinish)
  | _, _ => ([], v)

/-- The tubes of all segments whose nodes exist. -/
def tubes (s : Skeleton α) (textureScale : α) : List (Tube α) :=
  ((tube s textureScale).run 0 s.segments.toList).1

/-- The vertices of all tubes. -/
def vertices (s : Skeleton α) (textureScale : α) (directions : List (Vec3 α)) : List (Vertex α) :=
  (tubes s textureScale).flatMap (Tube.vertices directions)

/-- The mesh with one more tube, whose vertices are counted on from those that are there. -/
def addTube (circle : List (Vec3 Float)) (n : Nat) (m : Mesh) (t : Tube Float) : Mesh :=
  let a := UInt32.ofNat m.vertexCount
  let m := (t.vertices circle).foldl Mesh.push m
  { m with indices := m.indices ++ Ring.connect a (a + UInt32.ofNat n) n }

/-- The branches of a skeleton. -/
def mesh (s : Skeleton Float) (bark : Bark Float) : Mesh :=
  let n := bark.radialSegments
  (tubes s bark.textureScale).foldl (addTube (Ring.circle n) n) .empty

end Branch

end Arbor
