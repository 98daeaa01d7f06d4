import Arbor.Proofs.Draw
import Arbor.Proofs.Growth.Choice
import Arbor.Proofs.Growth.Limit
import Arbor.Proofs.Sentence.Reading

/-!
# How long a sentence can become

Which rule is taken is left to chance, but whatever takes the place of a character is part of one text
(`Grammar.Covered`). So a character stands for at most `largest texts k` symbols `k` generations later: for one if it
has no text, and otherwise for as many as its text with one generation less to go. Only characters that have texts
multiply, and weighing them apart from the others keeps the bound sharp.

What becomes of one symbol weighs no more than the symbol did with one more generation to go
(`Covered.weigh_rewriteSymbol`), and so does what becomes of a sentence (`Covered.weigh_run`); hence no generation is
longer than the start weighs (`Covered.length_grow`).
-/

namespace Arbor

/-! ## Weights -/

/-- The weight of all characters of a text. -/
def weigh (weight : Char → Nat) : List Char → Nat
  | [] => 0
  | c :: cs => weight c + weigh weight cs

theorem weigh_append (weight : Char → Nat) (cs ds : List Char) :
    weigh weight (cs ++ ds) = weigh weight cs + weigh weight ds := by
  induction cs with
  | nil => exact (Nat.zero_add _).symm
  | cons c cs ih => rw [List.cons_append, weigh, ih, weigh, Nat.add_assoc]

theorem weigh_le_weigh {weight weight' : Char → Nat} (h : ∀ c, weight c ≤ weight' c) (cs : List Char) :
    weigh weight cs ≤ weigh weight' cs := by
  induction cs with
  | nil => exact Nat.le_refl _
  | cons c cs ih => exact Nat.add_le_add (h c) ih

theorem length_le_weigh {weight : Char → Nat} (h : ∀ c, 1 ≤ weight c) (cs : List Char) : cs.length ≤ weigh weight cs := by
  induction cs with
  | nil => exact Nat.le_refl _
  | cons c cs ih =>
    rw [List.length_cons, Nat.add_comm]
    exact Nat.add_le_add (h c) ih

/-- What is left out weighs nothing. -/
theorem weigh_le_of_sublist (weight : Char → Nat) {cs ds : List Char} (h : cs.Sublist ds) :
    weigh weight cs ≤ weigh weight ds := by
  induction h with
  | slnil => exact Nat.le_refl _
  | cons d _ ih => exact Nat.le_trans ih (Nat.le_add_left _ _)
  | cons_cons d _ ih => exact Nat.add_le_add_left ih _

/-- The most symbols that a character can stand for after some generations, if what takes the place of a character is
part of its text. -/
def largest (texts : Char → Option (List Char)) : Nat → Char → Nat
  | 0, _ => 1
  | k + 1, c =>
    match texts c with
    | none => 1
    | some text => max 1 (weigh (largest texts k) text)

section

variable {texts : Char → Option (List Char)}

theorem largest_succ {c : Char} {text : List Char} (h : texts c = some text) (k : Nat) :
    largest texts (k + 1) c = max 1 (weigh (largest texts k) text) := by
  rw [largest, h]

theorem largest_of_none {c : Char} (h : texts c = none) : ∀ k, largest texts k c = 1
  | 0 => rfl
  | k + 1 => by rw [largest, h]

/-- A character stands for no fewer symbols when it has more generations to go. -/
theorem largest_le_succ : ∀ (k : Nat) (c : Char), largest texts k c ≤ largest texts (k + 1) c
  | k, c => by
    cases htext : texts c with
    | none => rw [largest_of_none htext, largest_of_none htext]
    | some text =>
      rw [largest_succ htext]
      cases k with
      | zero => exact Nat.le_max_left _ _
      | succ k =>
        have ih := weigh_le_weigh (largest_le_succ k) text
        rw [largest_succ htext]
        omega

theorem one_le_largest : ∀ (k : Nat) (c : Char), 1 ≤ largest texts k c
  | 0, _ => Nat.le_refl 1
  | k + 1, c => Nat.le_trans (one_le_largest k c) (largest_le_succ k c)

end

/-! ## Generations -/

variable {α : Type} [Scalar α]

namespace Grammar

/-- Whatever a rule puts in the place of its character is part of the text of this character. -/
def Covered (g : Grammar α) (texts : Char → Option (List Char)) : Prop :=
  ∀ r ∈ g.rules, ∃ text, texts r.symbol = some text ∧
    ∀ depth s, (r.produce.apply g.habit depth s).Always fun out => (out.map Symbol.tag).Sublist text

namespace Covered

variable {g : Grammar α} {texts : Char → Option (List Char)}

/-- What becomes of a symbol weighs no more than the symbol did one generation earlier. -/
theorem weigh_rewriteSymbol (hg : g.Covered texts) (k : Nat) (cursor : Cursor) (s : Symbol α) :
    weigh (largest texts k) ((g.rewriteSymbol cursor s).1.map Symbol.tag) ≤ largest texts (k + 1) s.tag := by
  rcases rewriteSymbol_cases g cursor s with ⟨-, hrun⟩ | ⟨-, -, hrun⟩ | ⟨-, r, hr, rng', hrun⟩
  · rw [hrun]
    exact largest_le_succ k s.tag
  · rw [hrun]
    exact largest_le_succ k s.tag
  · obtain ⟨hmem, hsymbol⟩ := mem_rulesFor.mp hr
    obtain ⟨text, htext, hout⟩ := hg r hmem
    rw [hrun, ← hsymbol, largest_succ htext]
    exact Nat.le_trans (weigh_le_of_sublist _ (hout cursor.depth s rng')) (Nat.le_max_right _ _)

/-- **What becomes of a sentence weighs no more than the sentence did one generation earlier.** -/
theorem weigh_run (hg : g.Covered texts) (k : Nat) (cursor : Cursor) (sentence : List (Symbol α)) :
    weigh (largest texts k) ((g.rewriteSymbol.run cursor sentence).1.map Symbol.tag) ≤
      weigh (largest texts (k + 1)) (sentence.map Symbol.tag) := by
  induction sentence generalizing cursor with
  | nil => exact Nat.le_refl _
  | cons s sentence ih =>
    rw [Transducer.run_cons, List.map_append, weigh_append]
    exact Nat.add_le_add (hg.weigh_rewriteSymbol k cursor s) (ih _)

/-- With `k` generations to go, generation `n` weighs no more than the start did with all of them to go. -/
theorem weigh_grow (hg : g.Covered texts) (rng : Rng) : ∀ n k,
    weigh (largest texts k) (((g.grow n).run rng).1.map Symbol.tag) ≤ weigh (largest texts (k + n)) g.start.toList
  | 0, k => by
    have htags : ((g.grow 0).run rng).1.map Symbol.tag = g.start.toList := Sentence.tags_parse g.habit 0 g.start rng
    rw [htags]
    exact Nat.le_refl _
  | n + 1, k => by
    have hrun := hg.weigh_run k ⟨0, ((g.grow n).run rng).2⟩ ((g.grow n).run rng).1
    have hgrown := hg.weigh_grow rng n (k + 1)
    rw [Nat.add_right_comm] at hgrown
    exact Nat.le_trans hrun hgrown

/-- **No generation up to the last is longer than the start weighs.** -/
theorem length_grow (hg : g.Covered texts) (rng : Rng) {m n : Nat} (h : m ≤ n) :
    ((g.grow m).run rng).1.length ≤ weigh (largest texts n) g.start.toList := by
  obtain ⟨k, rfl⟩ := Nat.exists_eq_add_of_le' h
  calc ((g.grow m).run rng).1.length
      = (((g.grow m).run rng).1.map Symbol.tag).length := (List.length_map Symbol.tag).symm
    _ ≤ weigh (largest texts k) (((g.grow m).run rng).1.map Symbol.tag) := length_le_weigh (one_le_largest k) _
    _ ≤ weigh (largest texts (k + m)) g.start.toList := hg.weigh_grow rng m k

end Covered
end Grammar
end Arbor
