import Arbor.Proofs.Acceptance
import Arbor.Proofs.Growth.Pass
import Arbor.Proofs.Sentence.Reading
import Mathlib.Data.List.Nodup
import Mathlib.Logic.Function.Iterate

/-!
# Grammars that leave no choice

With at most one rule for each character, all of them literal, a grammar is a substitution on texts: each character with
a rule is replaced by the text of its rule, and all others stay (`Grammar.image`, `Grammar.substitute`). A generation
still draws from the stream, for the lengths and the angles, but what it draws does not get at the characters, and there
is no choice to draw for: the text of a pass is the substituted text (`Deterministic.tags_rewriteAt`), and the text of a
grown sentence is the start substituted once for each generation (`Deterministic.tags_grow`).

Without variability nothing is drawn at all, so that a pass is a plain value and not a random one
(`Deterministic.rewriteAt_pure`, `Deterministic.grow_pure`). `seed_ignored` puts both together.
-/

namespace Arbor
namespace Grammar

open scoped Scalar

variable {α : Type}

/-- What the rules put in the place of a character: the text of its rule, or the character itself if it has none. -/
def image (g : Grammar α) (c : Char) : List Char :=
  match g.rulesFor c with
  | ⟨_, _, .literal text⟩ :: _ => text.toList
  | _ => [c]

/-- A text with every character replaced at once. -/
def substitute (g : Grammar α) (cs : List Char) : List Char := cs.flatMap g.image

theorem image_of_rulesFor_eq_nil {g : Grammar α} {c : Char} (h : g.rulesFor c = []) : g.image c = [c] := by
  rw [image, h]

theorem image_of_rulesFor_eq_singleton {g : Grammar α} {c : Char} {r : Rule α} {text : String}
    (h : g.rulesFor c = [r]) (hliteral : r.produce = .literal text) : g.image c = text.toList := by
  obtain ⟨symbol, odds, produce⟩ := r
  obtain rfl : produce = .literal text := hliteral
  rw [image, h]

theorem image_of_notMem {g : Grammar α} {c : Char} (h : ∀ r ∈ g.rules, r.symbol ≠ c) : g.image c = [c] := by
  refine image_of_rulesFor_eq_nil (List.eq_nil_iff_forall_not_mem.mpr fun r hr => ?_)
  obtain ⟨hmem, hsymbol⟩ := mem_rulesFor.mp hr
  exact h r hmem hsymbol

/-- Where a rule has no rivals, it is the only one. -/
theorem rulesFor_eq_singleton {g : Grammar α} {c : Char} {r : Rule α} (hsingle : (g.rulesFor c).length ≤ 1)
    (hr : r ∈ g.rulesFor c) : g.rulesFor c = [r] := by
  obtain ⟨r', hrules⟩ := List.length_eq_one_iff.mp (Nat.le_antisymm hsingle (List.length_pos_of_mem hr))
  rw [hrules, List.mem_singleton] at hr
  rw [hrules, hr]

theorem image_of_mem {g : Grammar α} (hsingle : ∀ c, (g.rulesFor c).length ≤ 1) {r : Rule α} (hr : r ∈ g.rules)
    {text : String} (hliteral : r.produce = .literal text) : g.image r.symbol = text.toList :=
  image_of_rulesFor_eq_singleton (rulesFor_eq_singleton (hsingle r.symbol) (mem_rulesFor.mpr ⟨hr, rfl⟩)) hliteral

/-- Rules for pairwise different characters leave at most one for each. -/
theorem length_rulesFor_le_one {g : Grammar α} (h : (g.rules.map Rule.symbol).Nodup) (c : Char) :
    (g.rulesFor c).length ≤ 1 := by
  have hcount := List.nodup_iff_count_le_one.mp h c
  rwa [List.count, List.countP_map, List.countP_eq_length_filter] at hcount

/-- At most one rule for each character, all of them literal, and none for brackets. -/
structure Deterministic (g : Grammar α) : Prop where
  literal : ∀ r ∈ g.rules, ∃ text, r.produce = .literal text
  single : ∀ c, (g.rulesFor c).length ≤ 1
  bracket : ∀ c, (Command.ofChar c).isBracket = true → g.rulesFor c = []

namespace Deterministic

variable {g : Grammar α}

/-- A character has no rule and stays, or has one and becomes the text of it. -/
theorem image_cases (hg : g.Deterministic) (c : Char) :
    (g.rulesFor c = [] ∧ g.image c = [c]) ∨
      ∃ r text, g.rulesFor c = [r] ∧ r.produce = .literal text ∧ g.image c = text.toList := by
  by_cases hnil : g.rulesFor c = []
  · exact Or.inl ⟨hnil, image_of_rulesFor_eq_nil hnil⟩
  · obtain ⟨r, hr⟩ := List.exists_mem_of_ne_nil _ hnil
    obtain ⟨text, hliteral⟩ := hg.literal r (mem_rulesFor.mp hr).1
    have hone := rulesFor_eq_singleton (hg.single c) hr
    exact Or.inr ⟨r, text, hone, hliteral, image_of_rulesFor_eq_singleton hone hliteral⟩

variable [Scalar α]

/-- An accepted grammar has no rules for brackets, whatever habit it is grown with. -/
theorem of_accepted (haccepted : ofRules g.start g.rules g.habit = .ok g)
    (hliteral : ∀ r ∈ g.rules, ∃ text, r.produce = .literal text) (hsingle : ∀ c, (g.rulesFor c).length ≤ 1)
    (habit : Habit α) : Deterministic { g with habit := habit } where
  literal := hliteral
  single := hsingle
  bracket _ hc := rulesFor_of_isBracket haccepted hc

/-! ## Characters -/

/-- A replaced symbol has the characters of its image. -/
theorem tags_replace (hg : g.Deterministic) (depth : Nat) (s : Symbol α) (rng : Rng) :
    ((g.replace depth s).run rng).1.map Symbol.tag = g.image s.tag := by
  rcases hg.image_cases s.tag with ⟨hnil, himage⟩ | ⟨r, text, hsingle, hliteral, himage⟩
  · rw [himage, replace, hnil]
    rfl
  · rw [himage, replace, hsingle]
    show ((r.produce.apply g.habit depth s).run rng).1.map Symbol.tag = text.toList
    rw [hliteral]
    exact Sentence.tags_parse g.habit depth text rng

theorem tags_rewriteAt_singleton (hg : g.Deterministic) (depth : Nat) (s : Symbol α) (rng : Rng) :
    ((g.rewriteAt depth [s]).run rng).1.map Symbol.tag = g.image s.tag := by
  rw [rewriteAt_singleton]
  split
  next hb =>
    rw [image_of_rulesFor_eq_nil (hg.bracket s.tag hb)]
    rfl
  next => exact hg.tags_replace depth s rng

/-- **The text of a pass is the substituted text,** from every depth and from every place of the stream. -/
theorem tags_rewriteAt (hg : g.Deterministic) (sentence : List (Symbol α)) : ∀ (depth : Nat) (rng : Rng),
    ((g.rewriteAt depth sentence).run rng).1.map Symbol.tag = g.substitute (sentence.map Symbol.tag) := by
  induction sentence with
  | nil => exact fun _ _ => rfl
  | cons s sentence ih =>
    intro depth rng
    let front := (g.rewriteAt depth [s]).run rng
    let back := (g.rewriteAt (bracketDepth depth [s.tag]) sentence).run front.2
    calc ((g.rewriteAt depth (s :: sentence)).run rng).1.map Symbol.tag
        = (front.1 ++ back.1).map Symbol.tag := by rw [rewriteAt_cons]; rfl
      _ = g.image s.tag ++ g.substitute (sentence.map Symbol.tag) := by
        rw [List.map_append, hg.tags_rewriteAt_singleton, ih]
      _ = g.substitute ((s :: sentence).map Symbol.tag) := List.flatMap_cons.symm

/-- **The text of a grown sentence is the start, substituted once for each generation.** -/
theorem tags_grow (hg : g.Deterministic) (rng : Rng) :
    ∀ n, ((g.grow n).run rng).1.map Symbol.tag = g.substitute^[n] g.start.toList
  | 0 => Sentence.tags_parse g.habit 0 g.start rng
  | n + 1 => by
    have hpass := hg.tags_rewriteAt ((g.grow n).run rng).1 0 ((g.grow n).run rng).2
    rw [grow_succ, Function.iterate_succ_apply', ← hg.tags_grow rng n]
    exact hpass

/-! ## Draws -/

/-- Without variability, what becomes of a symbol does not depend on the stream, and leaves it as it is. -/
theorem replace_pure (hg : g.Deterministic) (hstill : (g.habit.variability == 0) = true) (depth : Nat)
    (s : Symbol α) : ∃ out, g.replace depth s = pure out := by
  rcases hg.image_cases s.tag with ⟨hnil, -⟩ | ⟨r, text, hsingle, hliteral, -⟩
  · refine ⟨[s], ?_⟩
    rw [replace, hnil]
    rfl
  · obtain ⟨sentence, -, -, hparse⟩ := settled_parse hstill depth text
    refine ⟨sentence, ?_⟩
    rw [replace, hsingle]
    show r.produce.apply g.habit depth s = _
    rw [hliteral]
    exact funext hparse

/-- **Without variability a pass is no random value.** -/
theorem rewriteAt_pure (hg : g.Deterministic) (hstill : (g.habit.variability == 0) = true)
    (sentence : List (Symbol α)) : ∀ depth, ∃ out, g.rewriteAt depth sentence = pure out := by
  induction sentence with
  | nil => exact fun depth => ⟨[], g.rewriteAt_nil depth⟩
  | cons s sentence ih =>
    intro depth
    have hsymbol : ∃ out, g.rewriteAt depth [s] = pure out := by
      rw [rewriteAt_singleton]
      split
      next => exact ⟨[s], rfl⟩
      next => exact hg.replace_pure hstill depth s
    obtain ⟨front, hfront⟩ := hsymbol
    obtain ⟨back, hback⟩ := ih (bracketDepth depth [s.tag])
    refine ⟨front ++ back, ?_⟩
    rw [rewriteAt_cons, hfront, hback, pure_bind, pure_bind]

/-- **Without variability the whole growth is no random value.** -/
theorem grow_pure (hg : g.Deterministic) (hstill : (g.habit.variability == 0) = true) :
    ∀ n, ∃ sentence, g.grow n = pure sentence
  | 0 => by
    obtain ⟨sentence, -, -, hparse⟩ := settled_parse hstill 0 g.start
    exact ⟨sentence, funext hparse⟩
  | n + 1 => by
    obtain ⟨sentence, hgrow⟩ := hg.grow_pure hstill n
    obtain ⟨out, hpass⟩ := hg.rewriteAt_pure hstill sentence 0
    refine ⟨out, ?_⟩
    rw [grow, hgrow, pure_bind]
    exact hpass

end Deterministic

variable [Scalar α]

/-- **A grammar that leaves no choice ignores the seed.** If an accepted grammar has at most one rule for each character
and all its rules are literal, the text after `n` generations is the start substituted `n` times, each character with a
rule by the text of the rule and each other by itself, for every seed and whatever numbers it is grown with. Without
variability all symbols are the same for every seed, numbers included, and the stream is left as it was found. -/
theorem seed_ignored {g : Grammar α} (haccepted : ofRules g.start g.rules g.habit = .ok g)
    (hliteral : ∀ r ∈ g.rules, ∃ text, r.produce = .literal text) (hsingle : ∀ c, (g.rulesFor c).length ≤ 1)
    (n : Nat) (habit : Habit α) :
    let grown : Grammar α := { g with habit := habit }
    (∀ r ∈ g.rules, ∀ text, r.produce = .literal text → g.image r.symbol = text.toList) ∧
    (∀ c, (∀ r ∈ g.rules, r.symbol ≠ c) → g.image c = [c]) ∧
    (∀ seed, Symbol.text (grown.expand n seed) = String.ofList (g.substitute^[n] g.start.toList)) ∧
    ((habit.variability == 0) = true → ∃ sentence,
      (∀ seed, grown.expand n seed = sentence) ∧ ∀ rng, (grown.grow n).run rng = (sentence, rng)) := by
  intro grown
  have hgrown : grown.Deterministic := .of_accepted haccepted hliteral hsingle habit
  refine ⟨fun r hr text => image_of_mem hsingle hr, fun c => image_of_notMem, fun seed => ?_, fun hstill => ?_⟩
  · have htags := hgrown.tags_grow (Rng.ofSeed seed) n
    rw [Symbol.text, expand, htags]
    rfl
  · obtain ⟨sentence, hgrow⟩ := hgrown.grow_pure hstill n
    have hrun : ∀ rng, (grown.grow n).run rng = (sentence, rng) := fun rng => by
      rw [hgrow]
      rfl
    exact ⟨sentence, fun seed => congrArg Prod.fst (hrun (Rng.ofSeed seed)), hrun⟩

/-- A grammar with a rule for steps and one for buds, whose text closes more than it opens. -/
def briar : Grammar Float where
  start := "X"
  rules := [⟨'X', 1, .literal "F[-X]]X"⟩, ⟨'F', 3, .literal "FF"⟩]
  habit := .standard

/-- Two generations of the briar have one text for every seed, jittered or not, and without jitter one list of
symbols. -/
theorem seed_ignored_briar :
    (∀ seed, Symbol.text (Grammar.expand { briar with habit := { Habit.standard with variability := 0.3 } } 2 seed) =
      "FF[-F[-X]]X]]F[-X]]X") ∧
    ∃ sentence, Symbol.text sentence = "FF[-F[-X]]X]]F[-X]]X" ∧ (∀ seed, briar.expand 2 seed = sentence) ∧
      ∀ rng, (briar.grow 2).run rng = (sentence, rng) := by
  have haccepted : ofRules briar.start briar.rules briar.habit = .ok briar :=
    ofRules_eq_ok_of_toBool (by decide +kernel)
  have hliteral : ∀ r ∈ briar.rules, ∃ text, r.produce = .literal text := by
    intro r hr
    simp only [briar, List.mem_cons, List.not_mem_nil, or_false] at hr
    rcases hr with rfl | rfl
    · exact ⟨_, rfl⟩
    · exact ⟨_, rfl⟩
  have hsingle : ∀ c, (briar.rulesFor c).length ≤ 1 := length_rulesFor_le_one (by decide +kernel)
  have htext : String.ofList (briar.substitute^[2] briar.start.toList) = "FF[-F[-X]]X]]F[-X]]X" := by decide +kernel
  obtain ⟨-, -, hjittered, -⟩ := seed_ignored haccepted hliteral hsingle 2 { Habit.standard with variability := 0.3 }
  obtain ⟨-, -, hplain, hstill⟩ := seed_ignored haccepted hliteral hsingle 2 .standard
  obtain ⟨sentence, hseed, hrun⟩ := hstill (by decide +kernel)
  refine ⟨fun seed => (hjittered seed).trans htext, sentence, ?_, hseed, hrun⟩
  calc Symbol.text sentence
      = Symbol.text (briar.expand 2 "oak") := by rw [← hseed "oak"]; rfl
    _ = _ := (hplain "oak").trans htext

end Grammar
end Arbor
