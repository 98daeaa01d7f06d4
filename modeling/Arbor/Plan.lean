import Arbor.Branch
import Arbor.Expansion
import Arbor.Leaf.Foliage
import Arbor.Leaf.Shape
import Arbor.Turtle

/-!
# Plans

A plan is everything that one tree needs: a grammar, the number of generations, a seed and the settings of the walk,
the bark and the leaves. `Plan.check` refuses settings that would give broken meshes; `Plan.skeleton` grows the
sentence and walks it.
-/

namespace Arbor

open scoped Scalar

/-- Everything needed to grow one tree. -/
structure Plan (α : Type) where
  grammar : Grammar α
  iterations : Nat
  seed : String
  gait : Gait α
  bark : Bark α
  leafShape : LeafShape α
  scatter : LeafScatter α

namespace Plan

/-- The greatest number of generations. -/
def maxIterations : Nat := 12

/-- The greatest number of symbols in a sentence. -/
def maxSymbols : Nat := 2000000

/-- The plan with standard settings and a walk that fits the grammar. -/
def ofGrammar (g : Grammar Float) (iterations : Nat) : Plan Float where
  grammar := g
  iterations := iterations
  seed := "sylva"
  gait := .ofHabit g.habit
  bark := .standard
  leafShape := .standard
  scatter := .standard

variable {α : Type} [Scalar α]

/-- The plan with another grammar, from which the walk takes its radii. -/
def withGrammar (p : Plan α) (g : Grammar α) : Plan α :=
  { p with
    grammar := g
    gait := { p.gait with baseRadius := g.habit.baseRadius, radiusFalloff := g.habit.radiusFalloff } }

/-- Accepts a channel between zero and one. -/
def checkChannel (value : α) : Except (PlanFault α) Unit :=
  if 0 ≤ value ∧ value ≤ 1 then .ok () else .error (.channel value)

/-- The settings that have to be finite and not below zero. -/
def nonNegatives (p : Plan α) : List (String × α) := [
  ("turtle.base_radius", p.gait.baseRadius),
  ("turtle.radius_falloff", p.gait.radiusFalloff),
  ("turtle.default_length", p.gait.defaultLength),
  ("branch.texture_scale", p.bark.textureScale),
  ("leaf_shape.width", p.leafShape.width),
  ("leaf_shape.length", p.leafShape.length),
  ("leaf_instances.scale", p.scatter.scale),
  ("leaf_instances.size_variation", p.scatter.sizeVariation),
  ("leaf_instances.rotation_variation", p.scatter.rotationVariation),
  ("leaf_instances.color_variation", p.scatter.colorVariation)]

/-- The settings that have to be finite. -/
def finites (p : Plan α) : List (String × α) := [
  ("turtle.default_angle", p.gait.defaultAngle),
  ("leaf_shape.curvature", p.leafShape.curvature)]

/-- Accepts the numbers among the settings. -/
def checkSettings (p : Plan α) : Except (SettingFault α) Unit := do
  p.nonNegatives.forM fun (name, value) => Setting.nonNegative name value
  p.finites.forM fun (name, value) => Setting.finite name value
  Setting.atMostOne "leaf_instances.size_variation" p.scatter.sizeVariation

/-- Accepts a plan whose tree will be well formed. -/
def check (p : Plan α) : Except (PlanFault α) Unit := do
  if maxIterations < p.iterations then throw (.iterations p.iterations)
  if p.bark.radialSegments < 3 then throw (.radialSegments p.bark.radialSegments)
  if p.leafShape.segments < 1 then throw .leafSegments
  p.checkSettings.mapError .setting
  p.scatter.baseColor.toList.forM checkChannel

/-- The sentence of a plan that has been accepted. -/
def sentence (p : Plan α) : Except (Error α) (List (Symbol α)) := do
  p.check.mapError .plan
  p.grammar.expandWithin maxSymbols p.iterations p.seed

/-- The skeleton of a plan, and the number of symbols in its sentence. -/
def skeleton (p : Plan α) : Except (Error α) (Skeleton α × Nat) := do
  let sentence ← p.sentence
  return (.ofSentence p.gait sentence, sentence.length)

end Plan

end Arbor
