import Arbor.Proofs.Growth.Choice
import Arbor.Proofs.Growth.Limit
import Arbor.Proofs.Sentence.Nesting

/-!
# A pass, part by part

A pass takes two things along from symbol to symbol, a depth and a place of the stream. The depth is that of the
brackets it has passed in the old sentence; what productions write does not count (`depth_run_rewriteSymbol`). So a part
of a sentence is rewritten on its own, from the depth at which it stands (`Grammar.rewriteAt`), and the next part goes
on where it has left the stream (`rewriteAt_append`). Brackets and symbols without rules are parts that stay and draw
nothing (`rewriteAt_stays`); any other symbol is replaced at its depth (`rewriteAt_replaced`).

A part whose brackets end at depth zero leaves no trace but in the stream: a pass over it and what follows is a pass over
it and then a pass over what follows (`pass_composes`).
-/

namespace Arbor
namespace Grammar

variable {α : Type} [Scalar α] (g : Grammar α)

/-- One generation of a part of a sentence that stands at a depth. -/
def rewriteAt (depth : Nat) (part : List (Symbol α)) : Draw (List (Symbol α)) := fun rng =>
  let (out, cursor) := g.rewriteSymbol.run ⟨depth, rng⟩ part
  (out, cursor.rng)

theorem rewriteAt_zero : g.rewriteAt 0 = g.rewrite := rfl

/-! ## The depth along a pass -/

theorem depth_rewriteSymbol (cursor : Cursor) (s : Symbol α) :
    (g.rewriteSymbol cursor s).2.depth = bracketDepth cursor.depth [s.tag] := by
  rcases rewriteSymbol_cases g cursor s with ⟨-, hrun⟩ | ⟨hb, -, hrun⟩ | ⟨hb, r, -, rng', hrun⟩
  · rw [hrun, ← nest_ofChar]
    rfl
  · rw [hrun, bracketDepth_of_isBracket_eq_false hb]
  · rw [hrun, bracketDepth_of_isBracket_eq_false hb]

/-- **A pass ends at the bracket depth of the old sentence,** whatever brackets it has written. -/
theorem depth_run_rewriteSymbol (cursor : Cursor) (sentence : List (Symbol α)) :
    (g.rewriteSymbol.run cursor sentence).2.depth = bracketDepth cursor.depth (sentence.map Symbol.tag) := by
  induction sentence generalizing cursor with
  | nil => rfl
  | cons s sentence ih => rw [Transducer.run_cons, ih, depth_rewriteSymbol, List.map_cons, ← bracketDepth_cons]

/-! ## Parts -/

@[simp] theorem rewriteAt_nil (depth : Nat) : g.rewriteAt depth [] = pure [] := rfl

/-- **The next part goes on where the part before has left the stream,** at its own depth. -/
theorem rewriteAt_append (depth : Nat) (s t : List (Symbol α)) :
    g.rewriteAt depth (s ++ t) = do
      let front ← g.rewriteAt depth s
      let back ← g.rewriteAt (bracketDepth depth (s.map Symbol.tag)) t
      return front ++ back := by
  funext rng
  have hdepth := depth_run_rewriteSymbol g ⟨depth, rng⟩ s
  show g.rewriteAt depth (s ++ t) rng = _
  rw [rewriteAt, Transducer.run_append, ← hdepth]
  rfl

theorem rewriteAt_cons (depth : Nat) (x : Symbol α) (t : List (Symbol α)) :
    g.rewriteAt depth (x :: t) = do
      let front ← g.rewriteAt depth [x]
      let back ← g.rewriteAt (bracketDepth depth [x.tag]) t
      return front ++ back := g.rewriteAt_append depth [x] t

/-! ## One symbol -/

theorem rewriteAt_singleton (depth : Nat) (x : Symbol α) :
    g.rewriteAt depth [x] = if x.command.isBracket then pure [x] else g.replace depth x := by
  funext rng
  show g.rewriteAt depth [x] rng = _
  rw [rewriteAt, Transducer.run_cons, rewriteSymbol]
  cases x.command.isBracket with
  | true => rfl
  | false =>
    simp only [Bool.false_eq_true, if_false, Transducer.run_nil, List.append_nil]
    rfl

/-- Brackets and symbols without rules stay as they are, and draw nothing. -/
theorem rewriteAt_stays {x : Symbol α} (h : x.command.isBracket = true ∨ g.rulesFor x.tag = []) (depth : Nat) :
    g.rewriteAt depth [x] = pure [x] := by
  rw [rewriteAt_singleton]
  split
  next => rfl
  next hb =>
    have hnil : g.rulesFor x.tag = [] := h.resolve_left hb
    rw [replace, hnil]
    rfl

/-- Any other symbol is replaced at its depth, and leaves the depth as it is. -/
theorem rewriteAt_replaced {x : Symbol α} (h : x.command.isBracket = false) (depth : Nat) :
    g.rewriteAt depth [x] = g.replace depth x ∧ bracketDepth depth [x.tag] = depth := by
  refine ⟨?_, bracketDepth_of_isBracket_eq_false h depth⟩
  rw [rewriteAt_singleton, h]
  rfl

/-! ## Whole sentences -/

/-- A pass whose result fits in a list is held in full. -/
theorem rewriteHeld_of_rewrite {sentence out : List (Symbol α)} {r r' : Rng} (h : g.rewrite sentence r = (out, r'))
    (hfit : out.length ≤ maxLength) : g.rewriteHeld sentence r = (out, r') := by
  have hlength : (g.rewrite sentence r).1.length ≤ maxLength := by
    rw [h]
    exact hfit
  rw [rewriteHeld_eq g hlength, h]

/-- **A pass composes along the sentence.** A part whose brackets end at depth zero is rewritten as if it stood alone, and
what follows as if it started there, from where the part has left the stream; all this is held in a list as long as the
result fits.

In between, at any place, a bracket or a symbol without rules stays with its numbers and draws nothing, any other symbol
is replaced at the depth of the brackets before it, and the rest is rewritten at the depth of the old brackets up to
there, whatever brackets have been written. -/
theorem pass_composes :
    (∀ (s t o₁ o₂ : List (Symbol α)) (r r₁ r₂ : Rng), bracketDepth 0 (s.map Symbol.tag) = 0 →
      g.rewrite s r = (o₁, r₁) → g.rewrite t r₁ = (o₂, r₂) →
        g.rewrite (s ++ t) r = (o₁ ++ o₂, r₂) ∧
        ((o₁ ++ o₂).length ≤ maxLength → g.rewriteHeld s r = (o₁, r₁) ∧ g.rewriteHeld t r₁ = (o₂, r₂) ∧
          g.rewriteHeld (s ++ t) r = (o₁ ++ o₂, r₂))) ∧
    ∀ (before : List (Symbol α)) (x : Symbol α) (after : List (Symbol α)) (r : Rng),
      let depth := bracketDepth 0 (before.map Symbol.tag)
      let front := g.rewrite before r
      let made := g.rewriteAt depth [x] front.2
      let back := g.rewriteAt (bracketDepth depth [x.tag]) after made.2
      g.rewrite (before ++ x :: after) r = (front.1 ++ (made.1 ++ back.1), back.2) ∧
      (x.command.isBracket = true ∨ g.rulesFor x.tag = [] → made = ([x], front.2)) ∧
      (x.command.isBracket = false → bracketDepth depth [x.tag] = depth ∧ made = (g.replace depth x).run front.2) := by
  refine ⟨fun s t o₁ o₂ r r₁ r₂ hs h₁ h₂ => ?_, fun before x after r => ?_⟩
  · have hpass : g.rewrite (s ++ t) r = (o₁ ++ o₂, r₂) := by
      have hparts := congrFun (g.rewriteAt_append 0 s t) r
      rw [hs, rewriteAt_zero] at hparts
      calc g.rewrite (s ++ t) r
          = ((g.rewrite s r).1 ++ (g.rewrite t (g.rewrite s r).2).1, (g.rewrite t (g.rewrite s r).2).2) := hparts
        _ = (o₁ ++ o₂, r₂) := by rw [h₁, h₂]
    refine ⟨hpass, fun hfit => ?_⟩
    have hlength := hfit
    rw [List.length_append] at hlength
    exact ⟨g.rewriteHeld_of_rewrite h₁ (by omega), g.rewriteHeld_of_rewrite h₂ (by omega),
      g.rewriteHeld_of_rewrite hpass hfit⟩
  · intro depth front made back
    refine ⟨?_, fun h => ?_, fun h => ?_⟩
    · rw [← rewriteAt_zero, rewriteAt_append, rewriteAt_cons]
      rfl
    · show g.rewriteAt depth [x] front.2 = _
      rw [g.rewriteAt_stays h]
      rfl
    · obtain ⟨hreplaced, hdepth⟩ := g.rewriteAt_replaced h depth
      exact ⟨hdepth, congrFun hreplaced front.2⟩

/-- A grammar with a choice of texts that open and close brackets on their own, and with symbols made by their depth. -/
def tangle : Grammar Float where
  start := "X"
  rules := [
    ⟨'X', 2, .literal "F["⟩, ⟨'X', 1, .literal "]]F"⟩,
    ⟨'Y', 1, .generator fun s depth _ => do
      let length ← Draw.unit
      return List.replicate depth (.bare '[') ++ [.forward length, s]⟩]
  habit := { Habit.standard with variability := 0.5 }

/-- The first part closes more than it opens and grows an open bracket; the second is rewritten from depth zero all the
same. In it the bud `Y` stands at depth one, though the text before it has opened one more. -/
theorem pass_composes_tangle :
    let s : List (Symbol Float) := "F][X]".toList.map .bare
    let t : List (Symbol Float) := "[XY]X".toList.map .bare
    let first := tangle.rewrite s (Rng.ofSeed "oak")
    let second := tangle.rewrite t first.2
    let opening := tangle.rewrite (t.take 2) first.2
    bracketDepth 0 (s.map Symbol.tag) = 0 ∧ Symbol.text first.1 = "F][F[]" ∧ Symbol.text second.1 = "[F[[FY]F[" ∧
      tangle.rewriteHeld (s ++ t) (Rng.ofSeed "oak") = (first.1 ++ second.1, second.2) ∧
      tangle.rewriteAt 1 [.bare 'Y'] opening.2 = (tangle.replace 1 (.bare 'Y')).run opening.2 ∧
      tangle.rewriteAt 0 [.bare '['] first.2 = ([.bare '['], first.2) := by
  intro s t first second opening
  have hclosed : bracketDepth 0 (s.map Symbol.tag) = 0 := by decide
  have hfirst : Symbol.text first.1 = "F][F[]" := by decide +kernel
  have hsecond : Symbol.text second.1 = "[F[[FY]F[" := by decide +kernel
  have hfit : (first.1 ++ second.1).length ≤ maxLength := by decide +kernel
  obtain ⟨hparts, hplaces⟩ := pass_composes tangle
  obtain ⟨-, hheld⟩ := hparts s t first.1 second.1 _ first.2 second.2 hclosed Prod.mk.eta.symm Prod.mk.eta.symm
  have hbud := ((hplaces (t.take 2) (.bare 'Y') (t.drop 3) first.2).2.2 rfl).2
  have hbracket (r : Rng) : tangle.rewriteAt 0 [.bare '['] r = ([.bare '['], r) :=
    (hplaces [] (.bare '[') [] r).2.1 (Or.inl rfl)
  exact ⟨hclosed, hfirst, hsecond, (hheld hfit).2.2, hbud, hbracket first.2⟩

end Grammar
end Arbor
