import Arbor.Habit
import Arbor.Skeleton
import Arbor.Symbol

/-!
# The turtle

The turtle walks a sentence once, from left to right, and leaves a skeleton behind. A step makes a node and a segment,
a bracket saves the cursor or returns to the one saved last, and a leaf is put where the cursor stands. Returning when
nothing is saved changes nothing.
-/

namespace Arbor

open scoped Scalar

/-- What the turtle uses where a symbol has no number of its own, and the radii of the nodes it makes. -/
structure Gait (α : Type) where
  baseRadius : α
  radiusFalloff : α
  defaultLength : α
  /-- Degrees. -/
  defaultAngle : α
deriving DecidableEq, Repr

namespace Gait

/-- The gait of a turtle for which none is stated. -/
def standard : Gait Float where
  baseRadius := 0.1
  radiusFalloff := 0.7
  defaultLength := 1.0
  defaultAngle := 30.0

variable {α : Type} [Scalar α]

/-- The gait that takes its radii from a habit. -/
def ofHabit (h : Habit α) : Gait α := ⟨h.baseRadius, h.radiusFalloff, 1, 30⟩

/-- The radius of a node made at a depth. -/
def radiusAt (g : Gait α) (depth : Nat) : α := g.baseRadius * Scalar.decay g.radiusFalloff depth

end Gait

/-- Where the turtle stands. -/
structure Pose (α : Type) where
  position : Vec3 α
  orientation : Quat α
  radius : α
  /-- The number of branches that are open. -/
  depth : Nat
  /-- The id of the node at this place. -/
  node : Nat
deriving DecidableEq, Repr

/-- A walk in progress. -/
structure Turtle (α : Type) where
  gait : Gait α
  pose : Pose α
  /-- The places saved by open brackets, the latest first. -/
  saved : List (Pose α)
  skeleton : Skeleton α
deriving DecidableEq, Repr

variable {α : Type} [Scalar α]

/-- The direction of an axis in a frame that has not turned. -/
def Axis.vector : Axis → Vec3 α
  | up => .up
  | right => .right
  | forward => .forward

namespace Pose

/-- Turns by an angle in degrees about one of the turtle's own axes. -/
def turn (s : Pose α) (axis : Axis) (degrees : α) : Pose α :=
  { s with orientation := (s.orientation.compose (.turn axis.vector degrees)).normalize }

end Pose

namespace Turtle

/-- A turtle at the origin, with the root below it, that faces along the second axis. -/
def start (gait : Gait α) : Turtle α where
  gait := gait
  pose := ⟨.zero, .identity, gait.baseRadius, 0, 0⟩
  saved := []
  skeleton :=
    { nodes := #[⟨0, .zero, .identity, gait.baseRadius, none, 0, false, false⟩], segments := #[], leaves := #[] }

/-- Walks a step and makes the node and the segment of it. -/
def step (t : Turtle α) (length : α) : Turtle α :=
  let here := t.pose
  let startRadius := ((t.skeleton.node? here.node).map Node.radius).getD here.radius
  let position := here.position + here.orientation.heading.scale length
  let radius := t.gait.radiusAt here.depth
  let id := t.skeleton.nodes.size
  { t with
    pose := { here with position := position, radius := radius, node := id }
    skeleton :=
      { t.skeleton with
        nodes := t.skeleton.nodes.push
          ⟨id, position, here.orientation, radius, some here.node, here.depth, false, false⟩
        segments := t.skeleton.segments.push ⟨here.node, id, length, startRadius, radius⟩ } }

/-- Saves the place and opens a branch. -/
def push (t : Turtle α) : Turtle α :=
  { t with pose := { t.pose with depth := t.pose.depth + 1 }, saved := t.pose :: t.saved }

/-- Returns to the place saved last. -/
def pop (t : Turtle α) : Turtle α :=
  match t.saved with
  | [] => t
  | s :: rest => { t with pose := s, saved := rest }

/-- Puts a leaf at the place. -/
def sprout (t : Turtle α) (size : α) : Turtle α :=
  { t with skeleton :=
    { t.skeleton with leaves := t.skeleton.leaves.push ⟨t.pose.position, t.pose.orientation, size⟩ } }

/-- Carries out one symbol. -/
def apply (t : Turtle α) (s : Symbol α) : Turtle α :=
  match s.command with
  | .forward => t.step (s.length.getD t.gait.defaultLength)
  | .turn axis positive =>
    let angle := s.angle.getD t.gait.defaultAngle
    { t with pose := t.pose.turn axis (if positive then angle else -angle) }
  | .push => t.push
  | .pop => t.pop
  | .leaf => t.sprout (s.size.getD 1)
  | .idle => t

/-- The turtle after a whole sentence. -/
def walk (gait : Gait α) (sentence : List (Symbol α)) : Turtle α := sentence.foldl apply (start gait)

end Turtle

/-- The skeleton of a sentence. -/
def Skeleton.ofSentence (gait : Gait α) (sentence : List (Symbol α)) : Skeleton α :=
  (Turtle.walk gait sentence).skeleton.annotate

end Arbor
