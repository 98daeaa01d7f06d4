import Arbor.Habit
import Arbor.Mesh
import Arbor.Rng
import Arbor.Skeleton
import Arbor.Transducer

/-!
# Foliage

Each leaf of a skeleton becomes a transform of the shared leaf mesh and a color. They are drawn from a stream of their
own, seven draws a leaf: one for the size, three for the scatter, three for the color (`LeafScatter.place`).

`Foliage.bake` copies the shared mesh once for every transform.
-/

namespace Arbor

open scoped Scalar

/-- A color. -/
structure Rgb (α : Type) where
  red : α
  green : α
  blue : α
deriving DecidableEq, Repr

/-- The channels in order. -/
def Rgb.toList {α : Type} (c : Rgb α) : List α := [c.red, c.green, c.blue]

/-- How leaves differ from one another. -/
structure LeafScatter (α : Type) where
  scale : α
  /-- Sizes vary by this fraction, up and down. -/
  sizeVariation : α
  /-- Degrees about each axis, to both sides. -/
  rotationVariation : α
  baseColor : Rgb α
  /-- Each channel varies by this much, up and down. -/
  colorVariation : α
  /-- Appended to the seed of the tree. -/
  seedSuffix : String
deriving DecidableEq, Repr

/-- The scatter of a tree that states none. -/
def LeafScatter.standard : LeafScatter Float where
  scale := 1.0
  sizeVariation := 0.2
  rotationVariation := 15.0
  baseColor := ⟨0.24, 0.52, 0.16⟩
  colorVariation := 0.06
  seedSuffix := "-leaves"

/-- A placed leaf: its transform, four columns of four, and its color. -/
structure Placement (α : Type) where
  matrix : List α
  color : Rgb α
deriving DecidableEq, Repr

variable {α : Type} [Scalar α]

namespace Placement

/-- The columns of the transform that scales, then turns by a quaternion of length one, then moves. -/
def columns (scale : α) (q : Quat α) (position : Vec3 α) : List α :=
  let x2 := q.x + q.x
  let y2 := q.y + q.y
  let z2 := q.z + q.z
  let xx := q.x * x2
  let xy := q.x * y2
  let xz := q.x * z2
  let yy := q.y * y2
  let yz := q.y * z2
  let zz := q.z * z2
  let wx := q.w * x2
  let wy := q.w * y2
  let wz := q.w * z2
  let first := [1 - (yy + zz), xy + wz, xz - wy, 0]
  let second := [xy - wz, 1 - (xx + zz), yz + wx, 0]
  let third := [xz + wy, yz - wx, 1 - (xx + yy), 0]
  (first ++ second ++ third).map (· * scale) ++ position.toList ++ [1]

/-- The nearest number between zero and one. -/
def clamp (x : α) : α := if x < 0 then 0 else if 1 < x then 1 else x

end Placement

namespace LeafScatter

/-- Varies one channel. -/
def channel (s : LeafScatter α) (base : α) : Draw α := do
  let jitter ← Draw.between (-s.colorVariation) s.colorVariation
  return Placement.clamp (base + jitter)

/-- Places one leaf. -/
def place (s : LeafScatter α) (leaf : Leaf α) : Draw (Placement α) := do
  let factor ← Draw.between (1 - s.sizeVariation) (1 + s.sizeVariation)
  let a ← Draw.between (-s.rotationVariation) s.rotationVariation
  let b ← Draw.between (-s.rotationVariation) s.rotationVariation
  let c ← Draw.between (-s.rotationVariation) s.rotationVariation
  let scatter := Quat.ofEuler (Scalar.radians a) (Scalar.radians b) (Scalar.radians c)
  let rotation := (leaf.orientation.compose scatter).normalize
  let red ← s.channel s.baseColor.red
  let green ← s.channel s.baseColor.green
  let blue ← s.channel s.baseColor.blue
  return ⟨Placement.columns (leaf.size * factor * s.scale) rotation leaf.position, ⟨red, green, blue⟩⟩

/-- Places one leaf after another. -/
def placeNext (s : LeafScatter α) : Transducer Rng (Leaf α) (Placement α) := fun rng leaf =>
  let (placement, rng) := (s.place leaf).run rng
  ([placement], rng)

/-- Places the leaves of a tree with the given seed. -/
def placements (s : LeafScatter α) (seed : String) (leaves : List (Leaf α)) : List (Placement α) :=
  (s.placeNext.run (Rng.ofSeed (seed ++ s.seedSuffix)) leaves).1

end LeafScatter

/-- Transforms and colors in flat buffers: sixteen singles and three singles a leaf. -/
structure Foliage where
  matrices : Array Float32
  colors : Array Float32
  count : Nat
deriving Repr

namespace Foliage

/-- No leaves. -/
def empty : Foliage := ⟨#[], #[], 0⟩

/-- The foliage with one more leaf, rounded to singles. -/
def push : Foliage → Placement Float → Foliage
  | ⟨matrices, colors, count⟩, p => ⟨pushSingles matrices p.matrix, pushSingles colors p.color.toList, count + 1⟩

/-- Packs placed leaves. -/
def ofPlacements (placements : List (Placement Float)) : Foliage := placements.foldl push empty

theorem foldl_push_toList (f : Foliage) (placements : List (Placement Float)) :
    (placements.foldl push f).matrices.toList =
        f.matrices.toList ++ placements.flatMap (fun p => p.matrix.map Float.toSingle)
      ∧ (placements.foldl push f).colors.toList =
        f.colors.toList ++ placements.flatMap (fun p => p.color.toList.map Float.toSingle)
      ∧ (placements.foldl push f).count = f.count + placements.length := by
  induction placements generalizing f with
  | nil => simp
  | cons p ps ih =>
    obtain ⟨h₁, h₂, h₃⟩ := ih (f.push p)
    simp only [List.foldl_cons, h₁, h₂, h₃]
    simp [push]
    omega

theorem matrices_ofPlacements (placements : List (Placement Float)) :
    (ofPlacements placements).matrices.toList = placements.flatMap fun p => p.matrix.map Float.toSingle := by
  simpa [ofPlacements, empty] using (foldl_push_toList empty placements).1

theorem colors_ofPlacements (placements : List (Placement Float)) :
    (ofPlacements placements).colors.toList = placements.flatMap fun p => p.color.toList.map Float.toSingle := by
  simpa [ofPlacements, empty] using (foldl_push_toList empty placements).2.1

theorem count_ofPlacements (placements : List (Placement Float)) :
    (ofPlacements placements).count = placements.length := by
  simpa [ofPlacements, empty] using (foldl_push_toList empty placements).2.2

/-- The leaves of a skeleton. -/
def ofLeaves (scatter : LeafScatter Float) (seed : String) (leaves : List (Leaf Float)) : Foliage :=
  ofPlacements (scatter.placements seed leaves)

/-- The entries of a buffer from `start` up to `stop`, if they are there. -/
def slice? (buffer : Array Float32) (start stop : UInt64) : Option (Array Float32) :=
  if start ≤ stop ∧ stop.toNat ≤ buffer.size then some (buffer.extract start.toNat stop.toNat) else none

/-- The transform of leaf `i`. Places are words of 64 bits and wrap: `2 ^ 60` leaves on it is the same leaf again. -/
def matrix? (f : Foliage) (i : UInt64) : Option (Array Float32) := slice? f.matrices (i * 16) (i * 16 + 16)

/-- The color of leaf `i`. -/
def color? (f : Foliage) (i : UInt64) : Option (Array Float32) := slice? f.colors (i * 3) (i * 3 + 3)

/-- Group `i` of a buffer cut into groups of `n`, if it is there as a whole. -/
def block? (buffer : Array Float32) (n i : Nat) : Option (Array Float32) :=
  if n * i + n ≤ buffer.size then some (buffer.extract (n * i) (n * i + n)) else none

/-- As long as its place does not wrap, a leaf is found in its own group. -/
theorem slice?_eq_block? (buffer : Array Float32) {n i : UInt64} (h : n.toNat * i.toNat + n.toNat < UInt64.size) :
    slice? buffer (i * n) (i * n + n) = block? buffer n.toNat i.toNat := by
  have hstart : (i * n).toNat = n.toNat * i.toNat := by
    rw [UInt64.toNat_mul, Nat.mul_comm]
    exact Nat.mod_eq_of_lt (Nat.lt_of_le_of_lt (Nat.le_add_right _ _) h)
  have hstop : (i * n + n).toNat = n.toNat * i.toNat + n.toNat := by
    rw [UInt64.toNat_add, hstart, Nat.mod_eq_of_lt h]
  have hle : i * n ≤ i * n + n := by
    rw [UInt64.le_iff_toNat_le, hstop, hstart]
    omega
  unfold slice? block?
  rw [hstart, hstop]
  simp only [hle, true_and]

/-- Column `k` of a transform, without its last entry. -/
def column (matrix : Array Float32) (k : Nat) : Vec3 Float32 :=
  ⟨matrix.getD (4 * k) 0.0, matrix.getD (4 * k + 1) 0.0, matrix.getD (4 * k + 2) 0.0⟩

/-- A direction carried along by a transform. -/
def carryDirection (matrix : Array Float32) (v : Vec3 Float32) : Vec3 Float32 :=
  (column matrix 0).scale v.x + (column matrix 1).scale v.y + (column matrix 2).scale v.z

/-- A point carried along by a transform. -/
def carryPoint (matrix : Array Float32) (p : Vec3 Float32) : Vec3 Float32 := carryDirection matrix p + column matrix 3

/-- A direction made as long as one, by the reciprocal of its length, or zero where that is of no use. -/
def unitDirection (v : Vec3 Float32) : Vec3 Float32 :=
  let k := 1.0 / (v.dot v).sqrt
  if k.isFinite && 0.0 < k then v.scale k else .zero

/-- The three coordinates of every whole group, changed by a function. -/
def mapTriples (f : Vec3 Float32 → Vec3 Float32) (buffer : Array Float32) : Array Float32 :=
  (triples buffer).foldl (fun out (x, y, z) => (f ⟨x, y, z⟩).toList.foldl Array.push out) #[]

/-- The leaf mesh carried along by a transform. -/
def transform (matrix : Array Float32) (shape : Mesh) : Mesh where
  positions := mapTriples (carryPoint matrix) shape.positions
  normals := mapTriples (fun n => unitDirection (carryDirection matrix n)) shape.normals
  uvs := shape.uvs
  indices := shape.indices

/-- The number of leaves whose transforms are there, counted up to the first that is not. -/
def placed (f : Foliage) : Nat := min f.count (f.matrices.size / 16)

/-- All leaves as one mesh. The transforms are taken from their groups: none that is there has a place that wraps
(`slice?_eq_block?`). -/
def bake (shape : Mesh) (f : Foliage) : Mesh :=
  let matrices := (List.range f.placed).filterMap (block? f.matrices 16)
  matrices.foldl (fun baked matrix => baked ++ transform matrix shape) .empty

end Foliage

end Arbor
