import Arbor.Proofs.Sentence.Nesting

/-!
# Sentences that read as themselves

A symbol is settled at a depth if its own character makes it again there, without a draw; a sentence is settled if
each of its symbols is, at the depth where it stands (`Settled`).

* A settled sentence is what its own text reads as (`Settled.parse`).
* Without variability, whatever is read is settled (`settled_parse`), and the steps of a settled sentence have the
  lengths of their own depths (`Settled.length_eq`).
-/

namespace Arbor

open scoped Scalar

variable {α : Type} [Scalar α]

/-- The character of the symbol makes it again at this depth, and draws nothing. -/
def Symbol.Settled (habit : Habit α) (depth : Nat) (s : Symbol α) : Prop :=
  ∀ rng, (Symbol.create habit depth s.tag).run rng = (s, rng)

/-- Every symbol is settled at the depth where it stands. -/
def Settled (habit : Habit α) : Nat → List (Symbol α) → Prop
  | _, [] => True
  | depth, s :: sentence => s.Settled habit depth ∧ Settled habit (bracketDepth depth [s.tag]) sentence

/-! ## Settled symbols -/

variable {habit : Habit α}

/-- A jitter takes one word, unless there is no variability. -/
theorem run_jitter (variability : α) (rng : Rng) : (Draw.jitter variability).run rng =
    if variability == 0 then (1, rng)
    else (1 + variability * (Draw.fraction rng.next.1 - 1 / 2) * 2, rng.next.2) := by
  unfold Draw.jitter
  by_cases h : (variability == 0) = true
  · rw [if_pos h, if_pos h]
    rfl
  · rw [if_neg h, if_neg h]
    rfl

/-- Without variability the factor is one. -/
theorem jitter_bind {β : Type} {variability : α} (h : (variability == 0) = true) (next : α → Draw β) (rng : Rng) :
    (Draw.jitter variability >>= next).run rng = (next 1).run rng := by
  rw [StateT.run_bind, run_jitter, if_pos h]
  rfl

/-- A character makes a symbol of its own. -/
theorem tag_create (habit : Habit α) (depth : Nat) (c : Char) (rng : Rng) :
    ((Symbol.create habit depth c).run rng).1.tag = c := by
  unfold Symbol.create
  cases hc : Command.ofChar c with
  | forward => exact ((Command.ofChar_eq_iff rfl).mp hc).symm
  | leaf => exact ((Command.ofChar_eq_iff rfl).mp hc).symm
  | turn axis positive => rfl
  | push | pop | idle => rfl

/-- Without variability, what a character makes depends on the depth alone. -/
theorem create_still (h : (habit.variability == 0) = true) (depth : Nat) (c : Char) :
    ∃ s : Symbol α, s.tag = c ∧ s.Settled habit depth := by
  have hpure : ∃ s : Symbol α, ∀ rng, (Symbol.create habit depth c).run rng = (s, rng) := by
    unfold Symbol.create
    cases Command.ofChar c with
    | forward => exact ⟨_, fun rng => jitter_bind h _ rng⟩
    | turn axis positive => exact ⟨_, fun rng => jitter_bind h _ rng⟩
    | leaf | push | pop | idle => exact ⟨_, fun rng => rfl⟩
  obtain ⟨s, hs⟩ := hpure
  have htag : s.tag = c := by
    have := tag_create habit depth c default
    rwa [hs] at this
  exact ⟨s, htag, fun rng => by rw [htag]; exact hs rng⟩

/-- A settled step has the length of its depth. -/
theorem Symbol.Settled.length_eq {s : Symbol α} {depth : Nat} (hs : s.Settled habit depth)
    (h : (habit.variability == 0) = true) (hstep : s.command = .forward) :
    s.length = some (habit.baseLength * Scalar.decay habit.lengthFalloff depth * 1) := by
  have hforward : Command.ofChar s.tag = .forward := hstep
  have hrun := hs default
  unfold Symbol.create at hrun
  simp only [hforward] at hrun
  rw [jitter_bind h] at hrun
  have hmade : Symbol.forward (habit.baseLength * Scalar.decay habit.lengthFalloff depth * 1) = s :=
    congrArg Prod.fst hrun
  rw [← hmade]; rfl

/-! ## Settled sentences -/

theorem settled_append (depth : Nat) (s t : List (Symbol α)) :
    Settled habit depth (s ++ t) ↔ Settled habit depth s ∧ Settled habit (bracketDepth depth (s.map Symbol.tag)) t := by
  induction s generalizing depth with
  | nil => exact iff_of_eq (true_and _).symm
  | cons x s ih =>
    have htail := bracketDepth_cons depth x.tag (s.map Symbol.tag)
    rw [List.cons_append, Settled, Settled, ih, List.map_cons, htail, and_assoc]

/-- A settled sentence has settled symbols. -/
theorem Settled.getElem? {depth : Nat} {sentence : List (Symbol α)} (h : Settled habit depth sentence) {i : Nat}
    {s : Symbol α} (hs : sentence[i]? = some s) :
    s.Settled habit (bracketDepth depth ((sentence.take i).map Symbol.tag)) := by
  obtain ⟨hi, rfl⟩ := List.getElem?_eq_some_iff.mp hs
  rw [← List.take_append_drop i sentence, settled_append, List.drop_eq_getElem_cons hi] at h
  exact h.2.1

/-- The text of a settled sentence reads as the sentence. -/
theorem Settled.read {depth : Nat} {sentence : List (Symbol α)} (h : Settled habit depth sentence) (rng : Rng) :
    (Sentence.read habit).run ⟨depth, rng⟩ (sentence.map Symbol.tag) =
      (sentence, ⟨bracketDepth depth (sentence.map Symbol.tag), rng⟩) := by
  induction sentence generalizing depth with
  | nil => rfl
  | cons s sentence ih =>
    obtain ⟨hs, hrest⟩ := h
    have hhead : Sentence.read habit ⟨depth, rng⟩ s.tag = ([s], ⟨bracketDepth depth [s.tag], rng⟩) := by
      unfold Sentence.read
      simp only [hs rng, nest_ofChar]
    rw [List.map_cons, Transducer.run_cons, hhead, ih hrest]
    rfl

/-- **A settled sentence is what its own text reads as,** and reading it draws nothing. -/
theorem Settled.parse {depth : Nat} {sentence : List (Symbol α)} (h : Settled habit depth sentence) (rng : Rng) :
    (Sentence.parse habit depth (Symbol.text sentence)).run rng = (sentence, rng) := by
  have hread := h.read rng
  rw [← String.toList_ofList (l := sentence.map Symbol.tag)] at hread
  exact congrArg (fun out => (out.1, out.2.rng)) hread

/-- Without variability, the sentence of a text is settled. -/
theorem exists_settled (h : (habit.variability == 0) = true) (depth : Nat) (cs : List Char) :
    ∃ sentence : List (Symbol α), sentence.map Symbol.tag = cs ∧ Settled habit depth sentence := by
  induction cs generalizing depth with
  | nil => exact ⟨[], rfl, trivial⟩
  | cons c cs ih =>
    obtain ⟨s, hs, hsettled⟩ := create_still h depth c
    obtain ⟨sentence, htags, hrest⟩ := ih (bracketDepth depth [c])
    exact ⟨s :: sentence, by rw [List.map_cons, hs, htags], hsettled, by rw [hs]; exact hrest⟩

/-- **Without variability, whatever is read is settled,** and has the characters that were read. -/
theorem settled_parse (h : (habit.variability == 0) = true) (depth : Nat) (text : String) :
    ∃ sentence, Settled habit depth sentence ∧ sentence.map Symbol.tag = text.toList ∧
      ∀ rng, (Sentence.parse habit depth text).run rng = (sentence, rng) := by
  obtain ⟨sentence, htags, hsettled⟩ := exists_settled h depth text.toList
  refine ⟨sentence, hsettled, htags, fun rng => ?_⟩
  have hparse := hsettled.parse rng
  rwa [Symbol.text, htags, String.ofList_toList] at hparse

end Arbor
