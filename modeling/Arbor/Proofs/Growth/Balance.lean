import Arbor.Proofs.Acceptance
import Arbor.Proofs.Growth.Choice
import Arbor.Proofs.Walk.Depth

/-!
# Balanced grammars grow balanced sentences

A pass replaces each symbol at a depth of its own, by a block chosen at random. If all blocks are balanced, this moves
no bracket to another depth: what becomes of one symbol moves any depth as the symbol did (`Paired.rewriteSymbol`), and
so does what becomes of a sentence (`Paired.run_rewriteSymbol`). Brackets stay whatever rules there are for them; an
accepted grammar has none (`rulesFor_of_isBracket`).

On a balanced sentence the turtle returns only to places it has saved, and ends where none is left
(`Turtle.saved_ne_nil`, `Turtle.rest_of_balanced`).
-/

namespace Arbor

/-! ## The walk of a balanced sentence -/

namespace Turtle

variable {α : Type} [Scalar α] {sentence : List (Symbol α)}

/-- The turtle never comes to a closing bracket with nothing saved. -/
theorem saved_ne_nil (h : Balanced (sentence.map Symbol.tag)) (gait : Gait α) {i : Nat} {s : Symbol α}
    (hs : sentence[i]? = some s) (htag : s.tag = ']') : (walk gait (sentence.take i)).saved ≠ [] := by
  obtain ⟨hi, rfl⟩ := List.getElem?_eq_some_iff.mp hs
  have hbegins (k : Nat) : (sentence.take k).map Symbol.tag <+: sentence.map Symbol.tag :=
    (List.take_prefix k sentence).map _
  have hdepth := bracketDepth_add_count 0 _ fun p hp => h.opened p (hp.trans (hbegins i))
  -- with this bracket the beginning still closes no more than it opens
  have hnext := h.opened _ (hbegins (i + 1))
  rw [List.take_add_one, hs, Option.toList_some, List.map_append, List.map_singleton, htag, List.count_append,
    List.count_append] at hnext
  have hclose : [']'].count ']' = 1 := rfl
  have hopen : [']'].count '[' = 0 := rfl
  rw [← List.length_pos_iff, ← (sound_walk gait (sentence.take i)).depth, depth_walk]
  omega

/-- After a balanced sentence nothing is saved, and the turtle stands on a node of depth zero. -/
theorem rest_of_balanced (h : Balanced (sentence.map Symbol.tag)) (gait : Gait α) :
    (walk gait sentence).saved = [] ∧ (walk gait sentence).pose.depth = 0 ∧
      ∃ n, (walk gait sentence).skeleton.node? (walk gait sentence).pose.node = some n ∧ n.depth = 0 := by
  have hsound := sound_walk gait sentence
  have hdepth : (walk gait sentence).pose.depth = 0 := (depth_walk gait sentence).trans (h.bracketDepth 0)
  obtain ⟨n, hn, -, -, hle⟩ := hsound.stands
  rw [hdepth] at hle
  exact ⟨List.length_eq_zero_iff.mp (hsound.depth.symm.trans hdepth), hdepth, n, hn, Nat.le_zero.mp hle⟩

end Turtle

/-! ## Balanced grammars -/

variable {α : Type}

/-- Whatever the production puts has all its brackets in pairs. -/
def Production.Paired : Production α → Prop
  | literal text => Balanced text.toList
  | generator make => ∀ s depth habit rng, Balanced (((make s depth habit).run rng).1.map Symbol.tag)

/-- The start and all productions have their brackets in pairs. -/
structure Grammar.Paired (g : Grammar α) : Prop where
  start : Balanced g.start.toList
  rules : ∀ r ∈ g.rules, r.produce.Paired

variable [Scalar α]

theorem Production.Paired.apply {p : Production α} (hp : p.Paired) (habit : Habit α) (depth : Nat) (s : Symbol α)
    (rng : Rng) : Balanced (((p.apply habit depth s).run rng).1.map Symbol.tag) := by
  cases p with
  | literal text => exact (Sentence.tags_parse habit depth text rng).symm ▸ hp
  | generator make => exact hp s depth habit rng

namespace Grammar
namespace Paired

variable {g : Grammar α}

/-- What becomes of a symbol moves any depth as the symbol did. -/
theorem rewriteSymbol (hg : g.Paired) (cursor : Cursor) (s : Symbol α) (depth : Nat) :
    bracketDepth depth ((g.rewriteSymbol cursor s).1.map Symbol.tag) = bracketDepth depth [s.tag] := by
  rcases rewriteSymbol_cases g cursor s with ⟨-, hrun⟩ | ⟨-, -, hrun⟩ | ⟨hb, r, hr, rng', hrun⟩
  · rw [hrun]; rfl
  · rw [hrun]; rfl
  · rw [hrun, bracketDepth_of_isBracket_eq_false hb]
    exact ((hg.rules r (mem_rulesFor.mp hr).1).apply g.habit cursor.depth s rng').bracketDepth depth

/-- **What becomes of a sentence moves any depth as the sentence did,** wherever the pass starts. -/
theorem run_rewriteSymbol (hg : g.Paired) (cursor : Cursor) (sentence : List (Symbol α)) (depth : Nat) :
    bracketDepth depth ((g.rewriteSymbol.run cursor sentence).1.map Symbol.tag) =
      bracketDepth depth (sentence.map Symbol.tag) := by
  induction sentence generalizing cursor depth with
  | nil => rfl
  | cons s sentence ih =>
    rw [Transducer.run_cons, List.map_append, bracketDepth_append, hg.rewriteSymbol, ih, List.map_cons,
      ← bracketDepth_cons]

/-- Every generation is balanced. -/
theorem grow (hg : g.Paired) (rng : Rng) : ∀ n, Balanced (((g.grow n).run rng).1.map Symbol.tag)
  | 0 => (Sentence.tags_parse g.habit 0 g.start rng).symm ▸ hg.start
  | n + 1 => by
    refine balanced_iff.mpr fun depth => ?_
    have hrun := hg.run_rewriteSymbol ⟨0, ((g.grow n).run rng).2⟩ ((g.grow n).run rng).1 depth
    exact hrun.trans ((hg.grow rng n).bracketDepth depth)

/-- **Balanced grammars grow balanced trees.** Every sentence of every generation is balanced; walking it, the turtle
never returns with nothing saved, and it ends with nothing saved, at depth zero and on a node of depth zero. Brackets
need no assumption, since an accepted grammar has no rules for them. -/
theorem balanced_tree (hg : g.Paired) (n : Nat) (seed : String) (gait : Gait α) :
    let sentence := g.expand n seed
    let t := Turtle.walk gait sentence
    Balanced (sentence.map Symbol.tag) ∧
    (∀ i s, sentence[i]? = some s → s.tag = ']' → (Turtle.walk gait (sentence.take i)).saved ≠ []) ∧
    (t.saved = [] ∧ t.pose.depth = 0 ∧ ∃ n, t.skeleton.node? t.pose.node = some n ∧ n.depth = 0) ∧
    (ofRules g.start g.rules g.habit = .ok g → g.rulesFor '[' = [] ∧ g.rulesFor ']' = []) := by
  intro sentence t
  have hbalanced : Balanced (sentence.map Symbol.tag) := hg.grow (Rng.ofSeed seed) n
  exact ⟨hbalanced, fun i s hs htag => Turtle.saved_ne_nil hbalanced gait hs htag,
    Turtle.rest_of_balanced hbalanced gait,
    fun hok => ⟨rulesFor_of_isBracket hok rfl, rulesFor_of_isBracket hok rfl⟩⟩

end Paired

/-- A grammar that opens its branches in a text and, at random, in what is made symbol by symbol. -/
def hedge : Grammar Float where
  start := "F[X]X"
  rules := [
    ⟨'X', 2, .literal "F[+X]F"⟩,
    ⟨'X', 1, .generator fun s _ _ => do
      let more ← Draw.chance (0.5 : Float)
      return if more then [.bare '[', { s with tag := 'F' }, .bare ']', .bare 'X'] else [.leaf 1]⟩]
  habit := .standard

/-- The hedge meets the assumption, and three generations of it are walked to the end. -/
theorem balanced_tree_hedge : hedge.Paired ∧
    Balanced ((hedge.expand 3 "oak").map Symbol.tag) ∧ (Turtle.walk .standard (hedge.expand 3 "oak")).saved = [] := by
  have hg : hedge.Paired := by
    refine ⟨by decide +kernel, fun r hr => ?_⟩
    simp only [hedge, List.mem_cons, List.not_mem_nil, or_false] at hr
    rcases hr with rfl | rfl
    · show Balanced _
      decide +kernel
    · intro s depth habit rng
      show Balanced ((if (Draw.chance (0.5 : Float) rng).1 then _ else _ : List (Symbol Float)).map Symbol.tag)
      cases (Draw.chance (0.5 : Float) rng).1 with
      | true => show Balanced ['[', 'F', ']', 'X']; decide
      | false => show Balanced ['L']; decide
  obtain ⟨hbalanced, -, ⟨hsaved, -⟩, -⟩ := hg.balanced_tree 3 "oak" .standard
  exact ⟨hg, hbalanced, hsaved⟩

end Grammar
end Arbor
