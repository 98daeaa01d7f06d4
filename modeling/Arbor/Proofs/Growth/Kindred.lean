import Arbor.Proofs.Growth.Choice
import Arbor.Proofs.Growth.Lockstep
import Arbor.Proofs.Sentence.Draws
import Arbor.Proofs.Transducer

/-!
# Grammars that differ in their numbers

The choice of rules and the variation of numbers share one random stream, so a number could decide which rule is taken
next. It does not: how much a symbol draws depends on its character and on whether there is any variability at all
(`rng_create`). So grammars with the same start, the same literal rules and variability in both or in neither
(`Grammar.Kindred`) stay at the same place of the stream, symbol by symbol and pass by pass
(`Kindred.rewriteSymbol`, `Kindred.rewrite`). They go in lockstep (`Kindred.lockstep`): their sentences have the same
characters, and a limit stops both at the same generation or none (`Kindred.expandWithin`).
-/

namespace Arbor

open scoped Scalar

/-! ## What a symbol draws -/

theorem Symbol.text_eq_of_alike {α β : Type} {xs : List (Symbol α)} {ys : List (Symbol β)}
    (h : List.Forall₂ Symbol.Alike xs ys) : Symbol.text xs = Symbol.text ys := by
  have htags : xs.map Symbol.tag = ys.map Symbol.tag := by
    induction h with
    | nil => rfl
    | cons h _ ih => rw [List.map_cons, List.map_cons, ih, show _ = _ from h]
  rw [Symbol.text, Symbol.text, htags]

variable {α : Type} [Scalar α]

/-- What a character draws depends on it and on whether there is any variability. -/
theorem rng_create {habit habit' : Habit α} (h : (habit.variability == 0) = (habit'.variability == 0)) (depth : Nat)
    (c : Char) (rng : Rng) :
    ((Symbol.create habit depth c).run rng).2 = ((Symbol.create habit' depth c).run rng).2 := by
  rw [rng_create_eq_skip, rng_create_eq_skip, Sentence.draws, Sentence.draws, h]

theorem alike_parse {habit habit' : Habit α} (h : (habit.variability == 0) = (habit'.variability == 0)) (depth : Nat)
    (text : String) (rng : Rng) :
    List.Forall₂ Symbol.Alike ((Sentence.parse habit depth text).run rng).1
        ((Sentence.parse habit' depth text).run rng).1 ∧
      ((Sentence.parse habit depth text).run rng).2 = ((Sentence.parse habit' depth text).run rng).2 := by
  have hread : ∀ cursor c c', c = c' →
      List.Forall₂ Symbol.Alike (Sentence.read habit cursor c).1 (Sentence.read habit' cursor c').1 ∧
        (Sentence.read habit cursor c).2 = (Sentence.read habit' cursor c').2 := by
    rintro cursor c _ rfl
    have htag : ((Symbol.create habit cursor.depth c).run cursor.rng).1.Alike
        ((Symbol.create habit' cursor.depth c).run cursor.rng).1 :=
      (tag_create habit cursor.depth c cursor.rng).trans (tag_create habit' cursor.depth c cursor.rng).symm
    exact ⟨.cons htag .nil, congrArg (Cursor.mk _) (rng_create h cursor.depth c cursor.rng)⟩
  have hsame : List.Forall₂ (· = ·) text.toList text.toList := List.forall₂_same.mpr fun _ _ => rfl
  obtain ⟨hout, hcursor⟩ := Transducer.run_forall₂ hread hsame ⟨depth, rng⟩
  exact ⟨hout, congrArg Cursor.rng hcursor⟩

namespace Grammar

/-- Grammars with the same start and the same literal rules, and with variability in both or in neither. -/
structure Kindred (g h : Grammar α) : Prop where
  start : g.start = h.start
  rules : g.rules = h.rules
  literal : ∀ r ∈ g.rules, ∃ text, r.produce = .literal text
  variability : (g.habit.variability == 0) = (h.habit.variability == 0)

namespace Kindred

variable {g h : Grammar α}

/-! ## One symbol -/

theorem rulesFor (hk : g.Kindred h) (c : Char) : g.rulesFor c = h.rulesFor c := by
  rw [Grammar.rulesFor, Grammar.rulesFor, hk.rules]

theorem replace (hk : g.Kindred h) {s t : Symbol α} (hs : s.Alike t) (depth : Nat) (rng : Rng) :
    List.Forall₂ Symbol.Alike ((g.replace depth s).run rng).1 ((h.replace depth t).run rng).1 ∧
      ((g.replace depth s).run rng).2 = ((h.replace depth t).run rng).2 := by
  have htag : s.tag = t.tag := hs
  unfold Grammar.replace
  rw [← htag, ← hk.rulesFor]
  rcases Draw.weighted_cases Rule.odds (g.rulesFor s.tag) rng with ⟨-, hrun⟩ | ⟨r, hr, rng', hrun⟩
  · rw [StateT.run_bind, StateT.run_bind, hrun]
    exact ⟨.cons hs .nil, rfl⟩
  · obtain ⟨text, hliteral⟩ := hk.literal r (mem_rulesFor.mp hr).1
    have hparse := alike_parse hk.variability depth text rng'
    rw [StateT.run_bind, StateT.run_bind, hrun]
    show List.Forall₂ _ ((r.produce.apply g.habit depth s).run rng').1 ((r.produce.apply h.habit depth t).run rng').1 ∧
      ((r.produce.apply g.habit depth s).run rng').2 = ((r.produce.apply h.habit depth t).run rng').2
    rw [hliteral]
    exact hparse

/-- **A symbol is replaced alike, and the cursors stay together.** -/
theorem rewriteSymbol (hk : g.Kindred h) (cursor : Cursor) (s t : Symbol α) (hs : s.Alike t) :
    List.Forall₂ Symbol.Alike (g.rewriteSymbol cursor s).1 (h.rewriteSymbol cursor t).1 ∧
      (g.rewriteSymbol cursor s).2 = (h.rewriteSymbol cursor t).2 := by
  have hcommand := hs.command
  obtain ⟨hout, hrng⟩ := hk.replace hs cursor.depth cursor.rng
  unfold Grammar.rewriteSymbol
  rw [← hcommand]
  cases s.command.isBracket with
  | true => exact ⟨.cons hs .nil, rfl⟩
  | false => exact ⟨hout, congrArg (Cursor.mk cursor.depth) hrng⟩

/-! ## Generations -/

theorem seedling (hk : g.Kindred h) (rng : Rng) :
    List.Forall₂ Symbol.Alike (g.seedling.run rng).1 (h.seedling.run rng).1 ∧
      (g.seedling.run rng).2 = (h.seedling.run rng).2 := by
  unfold Grammar.seedling
  rw [← hk.start]
  exact alike_parse hk.variability 0 g.start rng

/-- **A generation has the same characters and leaves the stream at the same place.** -/
theorem rewrite (hk : g.Kindred h) {xs ys : List (Symbol α)} (hxs : List.Forall₂ Symbol.Alike xs ys) (rng : Rng) :
    List.Forall₂ Symbol.Alike (g.rewrite xs rng).1 (h.rewrite ys rng).1 ∧
      (g.rewrite xs rng).2 = (h.rewrite ys rng).2 := by
  obtain ⟨hout, hcursor⟩ := Transducer.run_forall₂ hk.rewriteSymbol hxs ⟨0, rng⟩
  exact ⟨hout, congrArg Cursor.rng hcursor⟩

/-- **Kindred grammars go in lockstep,** with the same characters all along. -/
theorem lockstep (hk : g.Kindred h) : g.Lockstep h (List.Forall₂ Symbol.Alike) where
  length hxs := hxs.length_eq
  seedling := hk.seedling
  rewrite hxs := hk.rewrite hxs

/-- **The whole expansion stops at the same generation, or ends with the same characters.** -/
theorem expandWithin (hk : g.Kindred h) (limit n : Nat) (seed : String) :
    (∃ k ≤ n, g.expandWithin limit n seed = .error (.sentenceTooLong limit k) ∧
      h.expandWithin limit n seed = .error (.sentenceTooLong limit k)) ∨
    ∃ xs ys, g.expandWithin limit n seed = .ok xs ∧ h.expandWithin limit n seed = .ok ys ∧
      List.Forall₂ Symbol.Alike xs ys := hk.lockstep.expandWithin limit n seed

end Kindred
end Grammar

end Arbor
