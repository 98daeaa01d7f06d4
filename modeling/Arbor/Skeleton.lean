import Arbor.Space.Quat

/-!
# Skeletons

A skeleton holds the nodes of a branching line, the segments between them and the leaves. Segments and parents name
nodes by their place in the list. `Skeleton.annotate` marks the ends and the forks, which follow from the segments
alone.
-/

namespace Arbor

/-- A point of the branching line. -/
structure Node (α : Type) where
  id : Nat
  position : Vec3 α
  orientation : Quat α
  radius : α
  /-- The node from which this one was reached; none for the root. -/
  parent : Option Nat
  /-- The number of branches that were open when the node was made. -/
  depth : Nat
  /-- No segment starts here. -/
  isTerminal : Bool
  /-- More than one segment starts here. -/
  isBranchPoint : Bool
deriving DecidableEq, Repr

/-- A straight piece between two nodes, with the numbers it was made with. -/
structure Segment (α : Type) where
  start : Nat
  finish : Nat
  length : α
  startRadius : α
  finishRadius : α
deriving DecidableEq, Repr

/-- Where a leaf sits. -/
structure Leaf (α : Type) where
  position : Vec3 α
  orientation : Quat α
  size : α
deriving DecidableEq, Repr

/-- The nodes, segments and leaves that a walk leaves behind. -/
structure Skeleton (α : Type) where
  nodes : Array (Node α)
  segments : Array (Segment α)
  leaves : Array (Leaf α)
deriving DecidableEq, Repr

namespace Skeleton

variable {α : Type}

/-- The node with an id. -/
def node? (s : Skeleton α) (id : Nat) : Option (Node α) := s.nodes[id]?

/-- The first node. -/
def root? (s : Skeleton α) : Option (Node α) := s.node? 0

/-- The ends of the segments that start at a node, in the order of the segments. -/
def children (s : Skeleton α) (id : Nat) : List Nat :=
  (s.segments.toList.filter (·.start == id)).map Segment.finish

/-- The greatest depth of a node. -/
def maxDepth (s : Skeleton α) : Nat := s.nodes.foldl (fun d n => max d n.depth) 0

/-- The number of nodes at which no segment starts. -/
def terminalCount (s : Skeleton α) : Nat := s.nodes.countP (·.isTerminal)

/-- The number of nodes at which more than one segment starts. -/
def branchPointCount (s : Skeleton α) : Nat := s.nodes.countP (·.isBranchPoint)

/-- For each node the number of segments that start there; a start out of range counts nowhere. -/
def outgoing (s : Skeleton α) : Array Nat :=
  s.segments.foldl (fun counts seg => counts.modify seg.start (· + 1)) (Array.replicate s.nodes.size 0)

/-- The skeleton with its ends and forks marked. -/
def annotate (s : Skeleton α) : Skeleton α :=
  { s with
    nodes := s.nodes.zipWith (fun n count => { n with isTerminal := count == 0, isBranchPoint := decide (1 < count) })
      s.outgoing }

end Skeleton

end Arbor
