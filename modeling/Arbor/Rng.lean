import Arbor.Rounding
import Arbor.Scalar

/-!
# Random draws from a seed text

The UTF-16 units of the seed are folded into one word (`Seed.hash`), four mixed words of which start a generator of
four 32-bit registers (`Rng.ofSeed`). Each call of `Rng.next` gives one word; every random value below takes exactly
one word, in the order in which the values are asked for (`Draw`).
-/

/-- The UTF-16 code units of a character. -/
def Char.utf16 (c : Char) : List UInt16 :=
  if c.val < 0x10000 then [c.val.toUInt16]
  else
    let v : UInt32 := c.val - 0x10000
    [((v >>> 10) + 0xd800).toUInt16, ((v &&& 0x3ff) + 0xdc00).toUInt16]

namespace Arbor

namespace Seed

/-- Turns the bits of a word to the left, `k` places with `0 < k < 32`. -/
def rotate (w k : UInt32) : UInt32 := (w <<< k) ||| (w >>> (32 - k))

/-- Takes one unit of the seed into the running word. -/
def absorb (h : UInt32) (unit : UInt16) : UInt32 := rotate ((h ^^^ unit.toUInt32) * 3432918353) 13

/-- The word that a sequence of units is folded into. -/
def hash (units : List UInt16) : UInt32 := units.foldl absorb (1779033703 ^^^ UInt32.ofNat units.length)

/-- Spreads every bit of a word over all others. -/
def mix (h : UInt32) : UInt32 :=
  let h := (h ^^^ (h >>> 16)) * 2246822507
  let h := (h ^^^ (h >>> 13)) * 3266489909
  h ^^^ (h >>> 16)

end Seed

/-- A generator: three mixing registers and a counter `d`. -/
structure Rng where
  a : UInt32
  b : UInt32
  c : UInt32
  d : UInt32
deriving DecidableEq, Repr, Inhabited

/-- A random value, read off a generator that is handed on. -/
abbrev Draw := StateM Rng

namespace Rng

/-- The generator of a sequence of seed units. -/
def ofUnits (units : List UInt16) : Rng :=
  let a := Seed.mix (Seed.hash units)
  let b := Seed.mix a
  let c := Seed.mix b
  ⟨a, b, c, Seed.mix c⟩

/-- The generator of a seed text. -/
def ofSeed (seed : String) : Rng := ofUnits (seed.toList.flatMap Char.utf16)

/-- The next word, and the generator after it. -/
def next (g : Rng) : UInt32 × Rng :=
  let d := g.d + 1
  let word := g.a + g.b + d
  (word, ⟨g.b ^^^ (g.b >>> 9), g.c + (g.c <<< 3), Seed.rotate g.c 21 + word, d⟩)

/-- The generator after `n` words. -/
def skip (g : Rng) (n : Nat) : Rng := n.repeat (fun g => g.next.2) g

theorem skip_succ (g : Rng) (n : Nat) : g.skip (n + 1) = (g.skip n).next.2 := rfl

theorem skip_add (g : Rng) (m n : Nat) : g.skip (m + n) = (g.skip m).skip n := by
  induction n with
  | zero => rfl
  | succ n ih => exact congrArg (fun g => g.next.2) ih

/-- The registers in words. -/
def describe (g : Rng) : String :=
  "SeededRandom \x7b a: " ++ toString g.a ++ ", b: " ++ toString g.b ++ ", c: " ++ toString g.c
    ++ ", d: " ++ toString g.d ++ " \x7d"

end Rng

namespace Draw

open scoped Scalar

/-- One raw word. -/
def word : Draw UInt32 := fun g => g.next

/-- A word times `span`; the span and the product are rounded to 53 digits. -/
def scaled (word : UInt32) (span : Nat) : Nat :=
  (word.toNat * span.roundSignificant 53).roundSignificant 53

/-- A whole number in `low .. high`, both ends included. -/
def integer (low high : Int) : Draw Int := do
  let w ← word
  let span := high - low + 1
  return low + (span.sign * scaled w span.natAbs) / 4294967296

/-- An index below `n`; no draw is made when there is none. -/
def index? (n : Nat) : Draw (Option Nat) :=
  if n = 0 then return none
  else do
    let w ← word
    return some (min (scaled w n / 4294967296) (n - 1))

/-- One of the items; no draw is made when there is none. -/
def choice {β : Type} (items : List β) : Draw (Option β) := do
  let i ← index? items.length
  return i.bind (items[·]?)

variable {α : Type} [Scalar α]

/-- The fraction of `2 ^ 32` that a word stands for. -/
def fraction (word : UInt32) : α := (Scalar.ofNat word.toNat : α) / 4294967296

/-- A number in `[0, 1)`. -/
def unit : Draw α := do return fraction (← word)

/-- A number in `[low, high)`. -/
def between (low high : α) : Draw α := do
  let r ← unit
  return low + r * (high - low)

/-- True with probability `p`. -/
def chance (p : α) : Draw Bool := do
  let r : α ← unit
  return decide (r < p)

/-- The first item whose odds, added to those before it, exceed the threshold; the last item if none does. -/
def reached {β : Type} (odds : β → α) (threshold : α) : (total : α) → (last : β) → List β → β
  | _, last, [] => last
  | total, _, x :: rest =>
    let total := total + odds x
    if threshold < total then x else reached odds threshold total x rest

/-- One of the items, with probability in proportion to its odds. A single item is taken without a draw. -/
def weighted {β : Type} (odds : β → α) : List β → Draw (Option β)
  | [] => return none
  | [x] => return some x
  | x :: rest => do
    let r ← unit
    return some (reached odds (r * Scalar.sum ((x :: rest).map odds)) 0 x (x :: rest))

end Draw

end Arbor
