import Arbor.Plan

/-!
# Ready-made plans

Five plans with names. Users mostly change only the seed.
-/

namespace Arbor

namespace Preset

/-- The names of the plans. -/
def names : List String := ["oak", "pine", "willow", "bush", "fern"]

/-- The plan of a grammar with a seed of its own. -/
def plan (seed start : String) (rules : List (Rule Float)) (habit : Habit Float) (iterations : Nat) :
    Except (Error Float) (Plan Float) := do
  let grammar ← (Grammar.ofRules start rules habit).mapError .grammar
  return { Plan.ofGrammar grammar iterations with seed := seed }

/-- A broad crown with forked limbs. -/
def oak : Except (Error Float) (Plan Float) :=
  plan "oak" "FFFX"
    [⟨'X', 0.6, .literal "F[&+XL]//[&-XL]//[^XL]"⟩, ⟨'X', 0.4, .literal "F[&+XL]///[&-XL]"⟩]
    ⟨1.2, 0.25, 0.78, 0.62, 28.0, 0.2⟩ 4

/-- A tall trunk with whorls of drooping branches. -/
def pine : Except (Error Float) (Plan Float) := do
  let p ← plan "pine" "FFFFX"
    [⟨'X', 1.0, .literal "F[&&&L]///[&&&XL]///[&&&XL]///[&&&XL]X"⟩]
    ⟨0.9, 0.2, 0.7, 0.55, 32.0, 0.1⟩ 4
  return { p with
    leafShape := ⟨0.08, 0.6, 0.05, 2⟩
    scatter := { LeafScatter.standard with baseColor := ⟨0.12, 0.33, 0.18⟩ } }

/-- Arching limbs that hang back toward the ground. -/
def willow : Except (Error Float) (Plan Float) := do
  let p ← plan "willow" "FFX"
    [⟨'X', 0.5, .literal "F[&&XL]/[&&&XL]/F[&XL]"⟩, ⟨'X', 0.5, .literal "F[&&&XL]//[&&XL]"⟩,
      ⟨'F', 0.8, .literal "F"⟩, ⟨'F', 0.2, .literal "F&F"⟩]
    ⟨1.0, 0.22, 0.85, 0.6, 22.0, 0.25⟩ 4
  return { p with
    leafShape := ⟨0.12, 0.7, 0.4, 4⟩
    scatter := { LeafScatter.standard with baseColor := ⟨0.45, 0.62, 0.25⟩ } }

/-- A low, dense shrub without a trunk. -/
def bush : Except (Error Float) (Plan Float) := do
  let p ← plan "bush" "X"
    [⟨'X', 0.5, .literal "F[+XL][-XL][^XL][&XL]"⟩, ⟨'X', 0.5, .literal "F[/+XL][\\-XL]"⟩]
    ⟨0.5, 0.06, 0.85, 0.7, 35.0, 0.3⟩ 4
  return { p with
    bark := { Bark.standard with radialSegments := 5 }
    scatter := { LeafScatter.standard with scale := 0.6 } }

/-- Leaflet `i` of a frond: even ones grow to the left and odd ones to the right, and some go on growing. -/
def leaflet (habit : Habit Float) (depth i : Nat) : Draw (List (Symbol Float)) := do
  let turn ← Symbol.create habit (depth + 1) (if i % 2 = 0 then '+' else '-')
  let step ← Symbol.create habit (depth + 1) 'F'
  let grows ← Draw.chance 0.4
  let roll ← Symbol.create habit depth '/'
  return [.bare '[', turn, step] ++ (if grows then [.bare 'X'] else []) ++ [.leaf 0.8, .bare ']', roll]

/-- Leaflets from number `i` on. -/
def leaflets (habit : Habit Float) (depth : Nat) : (i count : Nat) → Draw (List (Symbol Float))
  | _, 0 => return []
  | i, count + 1 => do
    let first ← leaflet habit depth i
    let rest ← leaflets habit depth (i + 1) count
    return first ++ rest

/-- One node of a fern: a step, two to four leaflets, and a bud. -/
def frond : Production Float :=
  .generator fun _ depth habit => do
    let step ← Symbol.create habit depth 'F'
    let pitch ← Symbol.create habit depth '&'
    let count ← Draw.integer 2 4
    let leaves ← leaflets habit depth 0 count.toNat
    return [step, pitch] ++ leaves ++ [.bare 'X']

/-- A single frond. -/
def fern : Except (Error Float) (Plan Float) := do
  let p ← plan "fern" "X" [⟨'X', 1.0, frond⟩] ⟨0.4, 0.03, 0.9, 0.8, 50.0, 0.15⟩ 5
  return { p with
    bark := { Bark.standard with radialSegments := 4 }
    leafShape := ⟨0.15, 0.35, 0.3, 3⟩
    scatter := { LeafScatter.standard with baseColor := ⟨0.2, 0.55, 0.2⟩ } }

end Preset

/-- The plan with a name. -/
def Plan.preset (name : String) : Except (Error Float) (Plan Float) :=
  match name with
  | "oak" => Preset.oak
  | "pine" => Preset.pine
  | "willow" => Preset.willow
  | "bush" => Preset.bush
  | "fern" => Preset.fern
  | _ => .error (.unknownPreset name)

end Arbor
