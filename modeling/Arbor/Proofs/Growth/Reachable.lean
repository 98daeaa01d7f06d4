import Arbor.Proofs.Growth.Choice
import Arbor.Proofs.Growth.Lockstep
import Arbor.Proofs.Sentence.Reading
import Arbor.Tree

/-!
# Rules that are never used

A character occurs in some generation only if it is in the start, or in a text that the rules put in the place of such
a character (`Grammar.Reachable`). So no sentence leaves the reachable characters (`Twin.reachable_rewriteSymbol`), and
two grammars that have the same rules for each of them (`Grammar.Twin`) choose and draw the same, symbol by symbol
(`Twin.rewriteSymbol`) and pass by pass (`Twin.rewrite`), and go in lockstep (`Twin.lockstep`). How the rules of
different characters are mixed, and rules for characters that never occur, make no difference (`Twin.same_tree`).
-/

namespace Arbor
namespace Grammar

/-- The characters of the start and, with each, those of the texts that its rules put. -/
inductive Reachable {α : Type} (g : Grammar α) : Char → Prop
  | start {c : Char} : c ∈ g.start.toList → Reachable g c
  | rule {c d : Char} {r : Rule α} {text : String} : Reachable g c → r ∈ g.rulesFor c →
      r.produce = .literal text → d ∈ text.toList → Reachable g d

/-- Grammars with the same start and the same habit, whose texts are literal, and with the same rules in the same order
for every reachable character. -/
structure Twin {α : Type} (g h : Grammar α) : Prop where
  start : g.start = h.start
  habit : g.habit = h.habit
  literal : ∀ r ∈ g.rules, ∃ text, r.produce = .literal text
  rulesFor : ∀ c, g.Reachable c → g.rulesFor c = h.rulesFor c

variable {α : Type} [Scalar α]

namespace Twin

variable {g h : Grammar α}

/-! ## One symbol -/

/-- **A reachable symbol is replaced in the same way,** from every place of the stream. -/
theorem rewriteSymbol (ht : g.Twin h) {s : Symbol α} (hs : g.Reachable s.tag) (cursor : Cursor) :
    g.rewriteSymbol cursor s = h.rewriteSymbol cursor s := by
  unfold Grammar.rewriteSymbol Grammar.replace
  rw [ht.rulesFor s.tag hs, ht.habit]

/-- What becomes of a reachable symbol is reachable. -/
theorem reachable_rewriteSymbol (ht : g.Twin h) {s : Symbol α} (hs : g.Reachable s.tag) (cursor : Cursor) :
    ∀ s' ∈ (g.rewriteSymbol cursor s).1, g.Reachable s'.tag := by
  intro s' hs'
  rcases rewriteSymbol_cases g cursor s with ⟨-, hrun⟩ | ⟨-, -, hrun⟩ | ⟨-, r, hr, rng', hrun⟩
  · rw [hrun] at hs'
    rwa [List.mem_singleton.mp hs']
  · rw [hrun] at hs'
    rwa [List.mem_singleton.mp hs']
  · obtain ⟨text, hliteral⟩ := ht.literal r (mem_rulesFor.mp hr).1
    rw [hrun, hliteral] at hs'
    have htag := List.mem_map_of_mem hs' (f := Symbol.tag)
    exact .rule hs hr hliteral (Sentence.tags_parse g.habit cursor.depth text rng' ▸ htag)

/-! ## Generations -/

/-- **A generation of reachable symbols is the same, and is reachable.** -/
theorem rewrite (ht : g.Twin h) {sentence : List (Symbol α)} (hs : ∀ s ∈ sentence, g.Reachable s.tag) (rng : Rng) :
    g.rewrite sentence rng = h.rewrite sentence rng ∧ ∀ s ∈ (g.rewrite sentence rng).1, g.Reachable s.tag := by
  constructor
  · unfold Grammar.rewrite
    rw [Transducer.run_congr fun s hmem => ht.rewriteSymbol (hs s hmem)]
  · exact Transducer.forall_mem_run (fun s hmem => ht.reachable_rewriteSymbol (hs s hmem)) ⟨0, rng⟩

theorem seedling (ht : g.Twin h) (rng : Rng) :
    g.seedling.run rng = h.seedling.run rng ∧ ∀ s ∈ (g.seedling.run rng).1, g.Reachable s.tag := by
  constructor
  · unfold Grammar.seedling
    rw [ht.start, ht.habit]
  · intro s hs
    refine .start ?_
    rw [← Sentence.tags_parse g.habit 0 g.start rng]
    exact List.mem_map_of_mem hs

/-- **Twins go in lockstep,** with the same reachable sentence all along. -/
theorem lockstep (ht : g.Twin h) : g.Lockstep h fun xs ys => xs = ys ∧ ∀ s ∈ xs, g.Reachable s.tag where
  length hxs := congrArg List.length hxs.1
  seedling rng := by
    obtain ⟨hsame, hreach⟩ := ht.seedling rng
    exact ⟨⟨congrArg Prod.fst hsame, hreach⟩, congrArg Prod.snd hsame⟩
  rewrite := by
    rintro xs _ ⟨rfl, hxs⟩ rng
    obtain ⟨hsame, hreach⟩ := ht.rewrite hxs rng
    exact ⟨⟨congrArg Prod.fst hsame, hreach⟩, congrArg Prod.snd hsame⟩

theorem expandWithin (ht : g.Twin h) (limit n : Nat) (seed : String) :
    g.expandWithin limit n seed = h.expandWithin limit n seed := by
  rcases ht.lockstep.expandWithin limit n seed with ⟨k, -, hg, hh⟩ | ⟨xs, ys, hg, hh, hsame, -⟩
  · rw [hg, hh]
  · rw [hg, hh, hsame]

/-! ## Trees -/

/-- **Only the rules of reachable characters matter, and only their order within one character.** Two such grammars
give the same sentences with the same numbers after every number of generations, the same sentence or the same error
under every limit, and the same tree in every plan. -/
theorem same_tree {g h : Grammar Float} (ht : g.Twin h) :
    (∀ n seed, g.expand n seed = h.expand n seed) ∧
    (∀ limit n seed, g.expandWithin limit n seed = h.expandWithin limit n seed) ∧
    ∀ p : Plan Float, Tree.ofPlan { p with grammar := g } = Tree.ofPlan { p with grammar := h } := by
  refine ⟨fun n seed => (ht.lockstep.grow (Rng.ofSeed seed) n).1.1, ht.expandWithin, fun p => ?_⟩
  have hskeleton : Plan.skeleton { p with grammar := g } = Plan.skeleton { p with grammar := h } := by
    unfold Plan.skeleton Plan.sentence
    rw [ht.expandWithin]
    rfl
  unfold Tree.ofPlan
  rw [hskeleton]
  rfl

end Twin

/-- Two growing characters, each with rules of its own. -/
def copse : Grammar Float where
  start := "X"
  rules := [⟨'X', 2, .literal "F[+X]X"⟩, ⟨'X', 1, .literal "F"⟩, ⟨'F', 1, .literal "FF"⟩, ⟨'F', 3, .literal "F"⟩]
  habit := .standard

/-- The rules of the copse in another order, among rules for characters that it never comes to. -/
def mixedCopse : Grammar Float where
  start := "X"
  rules := [
    ⟨'F', 1, .literal "FF"⟩, ⟨'X', 2, .literal "F[+X]X"⟩, ⟨'Y', 1, .literal "YX"⟩, ⟨'F', 3, .literal "F"⟩,
    ⟨'Z', 5, .literal "]"⟩, ⟨'X', 1, .literal "F"⟩]
  habit := .standard

/-- The copse comes to five characters, and both grow the same. -/
theorem same_tree_copse : copse.Twin mixedCopse ∧ ∀ p : Plan Float,
    Tree.ofPlan { p with grammar := copse } = Tree.ofPlan { p with grammar := mixedCopse } := by
  have htexts : ∀ text ∈ ["F[+X]X", "F", "FF"], text.toList.all ['X', 'F', '[', '+', ']'].contains = true := by
    decide +kernel
  have hreach : ∀ c, copse.Reachable c → c ∈ ['X', 'F', '[', '+', ']'] := by
    intro c hc
    induction hc with
    | start hc =>
      obtain rfl : _ = 'X' := List.mem_singleton.mp hc
      decide
    | rule _ hr hproduce hd _ =>
      have hmem := (mem_rulesFor.mp hr).1
      simp only [copse, List.mem_cons, List.not_mem_nil, or_false] at hmem
      rcases hmem with rfl | rfl | rfl | rfl
      all_goals
        cases hproduce
        exact List.contains_iff_mem.mp (List.all_eq_true.mp (htexts _ (by simp)) _ hd)
  have ht : copse.Twin mixedCopse := by
    refine ⟨rfl, rfl, fun r hr => ?_, fun c hc => ?_⟩
    · simp only [copse, List.mem_cons, List.not_mem_nil, or_false] at hr
      rcases hr with rfl | rfl | rfl | rfl
      all_goals exact ⟨_, rfl⟩
    · have hmem := hreach c hc
      simp only [List.mem_cons, List.not_mem_nil, or_false] at hmem
      rcases hmem with rfl | rfl | rfl | rfl | rfl
      all_goals simp [Grammar.rulesFor, Rule.group, copse, mixedCopse]
  exact ⟨ht, ht.same_tree.2.2⟩

end Grammar
end Arbor
