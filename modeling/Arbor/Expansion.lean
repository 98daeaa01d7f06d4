import Arbor.Grammar

/-!
# Growing a sentence

A generation replaces every symbol that has rules (`Grammar.rewrite`). Draws are made strictly from left to right: for
each symbol first the choice of its rule, then whatever the production draws. Brackets stay, and they alone move the
depth at which productions are read.

* `Grammar.expand` grows a sentence through a number of generations.
* `Grammar.expandWithin` does the same under a limit on the number of symbols, which every generation has to keep.
-/

namespace Arbor

variable {α : Type} [Scalar α]

namespace Grammar

/-- What becomes of one symbol. -/
def replace (g : Grammar α) (depth : Nat) (s : Symbol α) : Draw (List (Symbol α)) := do
  match ← Draw.weighted Rule.odds (g.rulesFor s.tag) with
  | none => return [s]
  | some rule => rule.produce.apply g.habit depth s

/-- Rewrites one symbol. -/
def rewriteSymbol (g : Grammar α) : Transducer Cursor (Symbol α) (Symbol α) := fun cursor s =>
  if s.command.isBracket then ([s], { cursor with depth := s.command.nest cursor.depth })
  else
    let (out, rng) := (g.replace cursor.depth s).run cursor.rng
    (out, { cursor with rng := rng })

/-- One generation. -/
def rewrite (g : Grammar α) (sentence : List (Symbol α)) : Draw (List (Symbol α)) := fun rng =>
  let (out, cursor) := g.rewriteSymbol.run ⟨0, rng⟩ sentence
  (out, cursor.rng)

/-- One generation, given up as soon as it has more than `limit` symbols. -/
def rewriteWithin (g : Grammar α) (limit : Nat) (sentence : List (Symbol α)) (rng : Rng) :
    Option (List (Symbol α) × Rng) :=
  (g.rewriteSymbol.runWithin limit ⟨0, rng⟩ sentence).map fun (out, cursor) => (out, cursor.rng)

/-- The greatest length that a list of symbols can have. -/
def maxLength : Nat := 18446744073709551615

/-- One generation as a list can hold it: it is given up only above the greatest length, and then nothing is left of
the sentence. No list is so long. The generator that is handed back there is the one from before the generation, not the
one that its draws have reached. -/
def rewriteHeld (g : Grammar α) (sentence : List (Symbol α)) : Draw (List (Symbol α)) := fun rng =>
  (g.rewriteWithin maxLength sentence rng).getD ([], rng)

/-- The sentence before any generation. -/
def seedling (g : Grammar α) : Draw (List (Symbol α)) := Sentence.parse g.habit 0 g.start

/-- The sentence after a number of generations. -/
def grow (g : Grammar α) : Nat → Draw (List (Symbol α))
  | 0 => g.seedling
  | generation + 1 => do g.rewrite (← g.grow generation)

/-- The sentence that a seed gives after a number of generations. -/
def expand (g : Grammar α) (generations : Nat) (seed : String) : List (Symbol α) :=
  ((g.grow generations).run (Rng.ofSeed seed)).1

/-- Grows a sentence, which has reached generation `done`, through `n` more generations. -/
def growWithin (g : Grammar α) (limit done : Nat) (sentence : List (Symbol α)) (rng : Rng) :
    Nat → Except (Error α) (List (Symbol α))
  | 0 => .ok sentence
  | n + 1 =>
    match g.rewriteWithin limit sentence rng with
    | none => .error (.sentenceTooLong limit (done + 1))
    | some (sentence, rng) => growWithin g limit (done + 1) sentence rng n

/-- The sentence that a seed gives after a number of generations, none of which may exceed `limit` symbols. -/
def expandWithin (g : Grammar α) (limit generations : Nat) (seed : String) : Except (Error α) (List (Symbol α)) :=
  let (sentence, rng) := g.seedling.run (Rng.ofSeed seed)
  if limit < sentence.length then .error (.sentenceTooLong limit 0)
  else g.growWithin limit 0 sentence rng generations

end Grammar

end Arbor
