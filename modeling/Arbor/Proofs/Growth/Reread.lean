import Arbor.Proofs.Double
import Arbor.Proofs.Growth.Choice
import Arbor.Proofs.Sentence.Settled

/-!
# Grown sentences read as themselves

The symbols of a sentence are made in different generations, each at the depth of the pass that made it, and are then
carried along. In an orderly grammar no later pass moves them to another depth, because every replacement is balanced:

* a pass over a settled symbol leaves a settled sentence and moves the depth as the symbol did
  (`Orderly.rewriteSymbol`), so a generation keeps sentences settled (`Orderly.rewrite`);
* hence a grown sentence is what its own text reads as, and its steps have the lengths of their own depths
  (`Orderly.reread`).
-/

namespace Arbor
namespace Grammar

open scoped Scalar

variable {α : Type} [Scalar α]

/-- Nothing is left to chance but the choice of rules, and every rule puts a balanced text. -/
structure Orderly (g : Grammar α) : Prop where
  still : (g.habit.variability == 0) = true
  balanced : ∀ r ∈ g.rules, ∃ text, r.produce = .literal text ∧ Balanced text.toList

namespace Orderly

variable {g : Grammar α}

/-! ## One symbol -/

/-- What a rule makes is settled at the depth where it is made, and is balanced. -/
theorem apply (hg : g.Orderly) {r : Rule α} (hr : r ∈ g.rules) (depth : Nat) (s : Symbol α) (rng : Rng) :
    ∃ out, (r.produce.apply g.habit depth s).run rng = (out, rng) ∧ Settled g.habit depth out ∧
      bracketDepth depth (out.map Symbol.tag) = depth := by
  obtain ⟨text, hproduce, hbalanced⟩ := hg.balanced r hr
  obtain ⟨out, hsettled, htags, hparse⟩ := settled_parse hg.still depth text
  refine ⟨out, ?_, hsettled, ?_⟩
  · rw [hproduce]; exact hparse rng
  · rw [htags]; exact hbalanced.bracketDepth depth

/-- A settled symbol leaves settled symbols, which move the depth as it did. -/
theorem rewriteSymbol (hg : g.Orderly) {depth : Nat} {s : Symbol α} (hs : s.Settled g.habit depth) (rng : Rng) :
    ∃ out rng', g.rewriteSymbol ⟨depth, rng⟩ s = (out, ⟨bracketDepth depth [s.tag], rng'⟩) ∧
      Settled g.habit depth out ∧ bracketDepth depth (out.map Symbol.tag) = bracketDepth depth [s.tag] := by
  rcases rewriteSymbol_cases g ⟨depth, rng⟩ s with ⟨-, hrun⟩ | ⟨hb, -, hrun⟩ | ⟨hb, r, hr, rng', hrun⟩
  · refine ⟨[s], rng, ?_, ⟨hs, trivial⟩, rfl⟩
    rw [hrun, ← nest_ofChar]; rfl
  · have hdepth := bracketDepth_of_isBracket_eq_false hb depth
    refine ⟨[s], rng, ?_, ⟨hs, trivial⟩, rfl⟩
    rw [hrun, hdepth]
  · have hdepth := bracketDepth_of_isBracket_eq_false hb depth
    obtain ⟨out, happly, hsettled, hout⟩ := hg.apply (mem_rulesFor.mp hr).1 depth s rng'
    refine ⟨out, rng', ?_, hsettled, hout.trans hdepth.symm⟩
    rw [hrun, happly, hdepth]

/-! ## One generation -/

/-- A pass over a settled sentence leaves a settled sentence, from whatever depth it starts. -/
theorem run_rewriteSymbol (hg : g.Orderly) : ∀ (sentence : List (Symbol α)) (depth : Nat) (rng : Rng),
    Settled g.habit depth sentence →
      ∃ out rng', g.rewriteSymbol.run ⟨depth, rng⟩ sentence =
          (out, ⟨bracketDepth depth (sentence.map Symbol.tag), rng'⟩) ∧
        Settled g.habit depth out ∧
        bracketDepth depth (out.map Symbol.tag) = bracketDepth depth (sentence.map Symbol.tag)
  | [], _, rng, _ => ⟨[], rng, rfl, trivial, rfl⟩
  | s :: sentence, depth, rng, ⟨hs, hrest⟩ => by
    obtain ⟨out₁, rng₁, hrun₁, hsettled₁, hdepth₁⟩ := hg.rewriteSymbol hs rng
    obtain ⟨out₂, rng₂, hrun₂, hsettled₂, hdepth₂⟩ := run_rewriteSymbol hg sentence _ rng₁ hrest
    have htail := bracketDepth_cons depth s.tag (sentence.map Symbol.tag)
    refine ⟨out₁ ++ out₂, rng₂, ?_, ?_, ?_⟩
    · rw [Transducer.run_cons, hrun₁, hrun₂, List.map_cons, htail]
    · -- the rest was settled at the depth behind `s`, where what replaces `s` ends as well
      rw [settled_append, hdepth₁]
      exact ⟨hsettled₁, hsettled₂⟩
    · rw [List.map_append, bracketDepth_append, hdepth₁, hdepth₂, List.map_cons, htail]

/-- **A generation keeps a sentence settled.** -/
theorem rewrite (hg : g.Orderly) {sentence : List (Symbol α)} (h : Settled g.habit 0 sentence) (rng : Rng) :
    Settled g.habit 0 (g.rewrite sentence rng).1 := by
  obtain ⟨out, rng', hrun, hsettled, -⟩ := hg.run_rewriteSymbol sentence 0 rng h
  have hout : (g.rewrite sentence rng).1 = out := congrArg Prod.fst hrun
  rwa [hout]

/-! ## All generations -/

/-- The start is settled, balanced or not, and so is every sentence that grows from it. -/
theorem grow (hg : g.Orderly) (rng : Rng) : ∀ n, Settled g.habit 0 ((g.grow n).run rng).1
  | 0 => by
    obtain ⟨sentence, hsettled, -, hparse⟩ := settled_parse hg.still 0 g.start
    have hstart : ((g.grow 0).run rng).1 = sentence := congrArg Prod.fst (hparse rng)
    rwa [hstart]
  | n + 1 => hg.rewrite (hg.grow rng n) _

/-- **A grown sentence is what its own text reads as,** symbol by symbol and with its numbers. So every step has the
length of the depth at which it ends up, whatever generation made it. -/
theorem reread {g : Grammar Float} (hg : g.Orderly) (n : Nat) (seed : String) :
    (∀ rng, (Sentence.parse g.habit 0 (Symbol.text (g.expand n seed))).run rng = (g.expand n seed, rng)) ∧
    ∀ i s, (g.expand n seed)[i]? = some s → s.tag = 'F' →
      let depth := bracketDepth 0 (((g.expand n seed).take i).map Symbol.tag)
      s.length = some (g.habit.baseLength * Scalar.decay g.habit.lengthFalloff depth) ∧
        (depth < 2147483648 → s.length = some (g.habit.baseLength * Scalar.npow g.habit.lengthFalloff depth)) := by
  have hsettled : Settled g.habit 0 (g.expand n seed) := hg.grow (Rng.ofSeed seed) n
  refine ⟨hsettled.parse, fun i s hs htag => ?_⟩
  have hlength := (hsettled.getElem? hs).length_eq hg.still (Symbol.command_eq_forward.mpr htag)
  have hone : s.length = some (g.habit.baseLength * Scalar.decay g.habit.lengthFalloff
      (bracketDepth 0 (((g.expand n seed).take i).map Symbol.tag))) :=
    hlength.trans (congrArg some (Double.mul_one _))
  refine ⟨hone, fun hdepth => ?_⟩
  rw [hone, Scalar.decay_of_lt g.habit.lengthFalloff hdepth]

end Orderly

/-- A grammar with branching rules and a start that closes what it never opened. -/
def thicket : Grammar Float where
  start := "]F[AF]][A"
  rules := [⟨'A', 1, .literal "F[+FA]FL"⟩, ⟨'F', 2, .literal "FF"⟩, ⟨'F', 1, .literal "F[-F]"⟩]
  habit := .standard

/-- After two generations of the thicket, its text reads as the sentence. -/
theorem reread_thicket : thicket.Orderly ∧ (thicket.expand 2 "oak").length = 61 ∧ ∀ rng,
    (Sentence.parse thicket.habit 0 (Symbol.text (thicket.expand 2 "oak"))).run rng = (thicket.expand 2 "oak", rng) := by
  have hg : thicket.Orderly := by
    refine ⟨by decide +kernel, fun r hr => ?_⟩
    simp only [thicket, List.mem_cons, List.not_mem_nil, or_false] at hr
    rcases hr with rfl | rfl | rfl
    · exact ⟨_, rfl, by decide +kernel⟩
    · exact ⟨_, rfl, by decide +kernel⟩
    · exact ⟨_, rfl, by decide +kernel⟩
  exact ⟨hg, by decide +kernel, (hg.reread 2 "oak").1⟩

end Grammar
end Arbor
