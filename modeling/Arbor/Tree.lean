import Arbor.Plan

/-!
# Grown trees

A grown tree is the mesh of its branches, one shared leaf mesh with the transforms and colors of all leaves, and some
counts.
-/

namespace Arbor

/-- What a tree is made of, in numbers. -/
structure TreeStats where
  /-- Triangles of the branches, and of the leaf mesh once for every leaf. -/
  triangles : Nat
  segments : Nat
  leaves : Nat
  /-- Symbols in the sentence. -/
  symbols : Nat
  nodes : Nat
deriving DecidableEq, Repr

/-- A grown tree. -/
structure Tree where
  branches : Mesh
  /-- The shared leaf mesh; none for a tree without leaves. -/
  leaf : Option Mesh
  foliage : Foliage
  stats : TreeStats
deriving Repr

namespace Tree

/-- The tree of a skeleton whose sentence has a number of symbols. -/
def ofSkeleton (p : Plan Float) (skeleton : Skeleton Float) (symbols : Nat) : Tree :=
  let branches := Branch.mesh skeleton p.bark
  let foliage := Foliage.ofLeaves p.scatter p.seed skeleton.leaves.toList
  let leaf := if skeleton.leaves.isEmpty then none else some p.leafShape.mesh
  let leafTriangles := (leaf.map Mesh.triangleCount).getD 0 * foliage.count
  { branches := branches
    leaf := leaf
    foliage := foliage
    stats :=
      { triangles := branches.triangleCount + leafTriangles
        segments := skeleton.segments.size
        leaves := skeleton.leaves.size
        symbols := symbols
        nodes := skeleton.nodes.size } }

/-- Grows the tree of a plan. -/
def ofPlan (p : Plan Float) : Except (Error Float) Tree := do
  let (skeleton, symbols) ← p.skeleton
  return ofSkeleton p skeleton symbols

/-- All leaves as one mesh; empty for a tree without leaves. -/
def bakedLeaves (t : Tree) : Mesh := (t.leaf.map fun shape => t.foliage.bake shape).getD .empty

end Tree

end Arbor
