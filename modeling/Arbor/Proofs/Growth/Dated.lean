import Arbor.Proofs.Growth.Pass
import Arbor.Proofs.Sentence.Settled
import Arbor.Proofs.Transducer

/-!
# The depth at which a symbol was made

A symbol is made at the depth that its reader has reached, and is then carried from generation to generation, where
brackets that are written later may move it elsewhere. `Grammar.growNoted` is growth that notes, with every symbol, the
depth at which it was made: a symbol that stays keeps its note, and a text that is put in its place is noted along its own
brackets, from the depth of the pass on (`Sentence.noted`).

* The notes change nothing of the growth, and with literal rules they are true: every symbol is what its character makes
  at the depth that is noted with it (`Grammar.growNoted_made`).
* No note is greater than the number of branches that the sentence opens (`Grammar.note_le_opened`), for what opens a
  branch stays for good.
-/

namespace Arbor

/-! ## Notes of a text -/

namespace Sentence

variable {α : Type}

/-- The symbols that a text is read as, each with a note of the depth that the text has reached there. -/
def noted : Nat → List (Symbol α) → List (Symbol α × Nat)
  | _, [] => []
  | depth, s :: sentence => (s, depth) :: noted (bracketDepth depth [s.tag]) sentence

theorem map_fst_noted (depth : Nat) (sentence : List (Symbol α)) : (noted depth sentence).map Prod.fst = sentence := by
  induction sentence generalizing depth with
  | nil => rfl
  | cons s sentence ih => rw [noted, List.map_cons, ih]

/-- The number of branches that a sentence opens. -/
def opened (sentence : List (Symbol α)) : Nat := (sentence.map Symbol.tag).count '['

theorem opened_append (xs ys : List (Symbol α)) : opened (xs ++ ys) = opened xs + opened ys := by
  rw [opened, List.map_append, List.count_append]
  rfl

theorem opened_le_length (sentence : List (Symbol α)) : opened sentence ≤ sentence.length :=
  List.count_le_length.trans (Nat.le_of_eq (List.length_map _))

/-- No note goes beyond the depth at the start and the branches that are opened. -/
theorem le_of_mem_noted (depth : Nat) (sentence : List (Symbol α)) :
    ∀ x ∈ noted depth sentence, x.2 ≤ depth + opened sentence := by
  induction sentence generalizing depth with
  | nil => exact nofun
  | cons s sentence ih =>
    have hcons : opened (s :: sentence) = [s.tag].count '[' + opened sentence := opened_append [s] sentence
    have hhead := bracketDepth_le_add_count [s.tag] depth
    refine List.forall_mem_cons.mpr ⟨Nat.le_add_right _ _, fun x hx => ?_⟩
    have hle := ih (bracketDepth depth [s.tag]) x hx
    omega

end Sentence

variable {α : Type} [Scalar α]

/-! ## True notes -/

/-- The symbol is what its character makes at the depth, from some place of the stream. -/
def Symbol.MadeAt (habit : Habit α) (depth : Nat) (s : Symbol α) : Prop :=
  ∃ rng, ((Symbol.create habit depth s.tag).run rng).1 = s

/-- A step has the length of the depth at which it was made, but for a jitter. -/
theorem Symbol.MadeAt.length_eq {habit : Habit α} {depth : Nat} {s : Symbol α} (h : s.MadeAt habit depth)
    (hstep : s.tag = 'F') : ∃ rng : Rng, s.length = some (habit.baseLength * Scalar.decay habit.lengthFalloff depth *
      ((Draw.jitter habit.variability).run rng).1) := by
  obtain ⟨rng, hmade⟩ := h
  rw [hstep] at hmade
  exact ⟨rng, by rw [← hmade]; rfl⟩

/-- The symbol with a note of the depth at which it was made. -/
def Symbol.NotedAs (habit : Habit α) (s : Symbol α) (x : Symbol α × Nat) : Prop := x.1 = s ∧ s.MadeAt habit x.2

/-- The sentence with a note of the depth at which each symbol was made. -/
abbrev NotedAs (habit : Habit α) : List (Symbol α) → List (Symbol α × Nat) → Prop :=
  List.Forall₂ (Symbol.NotedAs habit)

theorem NotedAs.map_fst {habit : Habit α} {sentence : List (Symbol α)} {noted : List (Symbol α × Nat)}
    (h : NotedAs habit sentence noted) : noted.map Prod.fst = sentence := by
  induction h with
  | nil => rfl
  | cons hx _ ih => rw [List.map_cons, hx.1, ih]

theorem NotedAs.madeAt {habit : Habit α} {sentence : List (Symbol α)} {noted : List (Symbol α × Nat)}
    (h : NotedAs habit sentence noted) : ∀ x ∈ noted, x.1.MadeAt habit x.2 := by
  induction h with
  | nil => exact nofun
  | cons hx _ ih => exact List.forall_mem_cons.mpr ⟨hx.1 ▸ hx.2, ih⟩

/-- **What is read is made at the depth that the text has reached.** -/
theorem Sentence.notedAs_read (habit : Habit α) (cursor : Cursor) (cs : List Char) :
    NotedAs habit ((read habit).run cursor cs).1 (noted cursor.depth ((read habit).run cursor cs).1) := by
  induction cs generalizing cursor with
  | nil => exact .nil
  | cons c cs ih =>
    have htag := tag_create habit cursor.depth c cursor.rng
    have hmade : ((Symbol.create habit cursor.depth c).run cursor.rng).1.MadeAt habit cursor.depth :=
      ⟨cursor.rng, by rw [htag]⟩
    have hrest := ih (read habit cursor c).2
    have hdepth : (read habit cursor c).2.depth =
        bracketDepth cursor.depth [((Symbol.create habit cursor.depth c).run cursor.rng).1.tag] := by
      rw [htag, ← nest_ofChar]
      rfl
    rw [hdepth] at hrest
    rw [Transducer.run_cons]
    exact .cons ⟨rfl, hmade⟩ hrest

namespace Grammar

open Sentence

variable (g : Grammar α)

/-! ## Growth with notes -/

/-- Rewrites one symbol. It keeps its note if it stays; what is put in its place is noted from the depth of the pass. -/
def rewriteSymbolNoted : Transducer Cursor (Symbol α × Nat) (Symbol α × Nat) := fun cursor x =>
  let (out, cursor') := g.rewriteSymbol cursor x.1
  (if x.1.command.isBracket || (g.rulesFor x.1.tag).isEmpty then [x] else noted cursor.depth out, cursor')

/-- The sentence after a number of generations, each symbol with a note of the depth at which it was made. -/
def growNoted (g : Grammar α) : Nat → Draw (List (Symbol α × Nat))
  | 0 => do return noted 0 (← g.seedling)
  | generation + 1 => do
    let sentence ← g.growNoted generation
    fun rng =>
      let (out, cursor) := g.rewriteSymbolNoted.run ⟨0, rng⟩ sentence
      (out, cursor.rng)

/-- The sentence of a seed with its notes. -/
def expandNoted (generations : Nat) (seed : String) : List (Symbol α × Nat) :=
  ((g.growNoted generations).run (Rng.ofSeed seed)).1

variable {g}

/-- **A symbol is rewritten as ever, and the notes stay true.** -/
theorem rewriteSymbolNoted_made (hliteral : ∀ r ∈ g.rules, ∃ text, r.produce = .literal text) (cursor : Cursor)
    {s : Symbol α} {x : Symbol α × Nat} (hx : s.NotedAs g.habit x) :
    NotedAs g.habit (g.rewriteSymbol cursor s).1 (g.rewriteSymbolNoted cursor x).1 ∧
      (g.rewriteSymbol cursor s).2 = (g.rewriteSymbolNoted cursor x).2 := by
  obtain ⟨s, depth⟩ := x
  obtain ⟨rfl, hmade⟩ := hx
  have hkept : NotedAs g.habit [s] [(s, depth)] := .cons ⟨rfl, hmade⟩ .nil
  refine ⟨?_, rfl⟩
  unfold rewriteSymbolNoted
  rcases rewriteSymbol_cases g cursor s with ⟨hb, hrun⟩ | ⟨hb, hnil, hrun⟩ | ⟨hb, r, hr, rng', hrun⟩
  · simp only [hrun, hb, Bool.true_or, if_true]
    exact hkept
  · simp only [hrun, hb, hnil, List.isEmpty_nil, Bool.or_true, if_true]
    exact hkept
  · have hsome : (g.rulesFor s.tag).isEmpty = false := List.isEmpty_eq_false_iff.mpr (List.ne_nil_of_mem hr)
    obtain ⟨text, hproduce⟩ := hliteral r (mem_rulesFor.mp hr).1
    simp only [hrun, hb, hsome, Bool.or_false, Bool.false_eq_true, if_false, hproduce]
    exact notedAs_read g.habit ⟨cursor.depth, rng'⟩ text.toList

/-- **Growth is as ever, and every symbol was made at the depth that is noted with it.** -/
theorem growNoted_made (hliteral : ∀ r ∈ g.rules, ∃ text, r.produce = .literal text) (rng : Rng) : ∀ n,
    NotedAs g.habit ((g.grow n).run rng).1 ((g.growNoted n).run rng).1 ∧
      ((g.grow n).run rng).2 = ((g.growNoted n).run rng).2
  | 0 => ⟨notedAs_read g.habit ⟨0, rng⟩ g.start.toList, rfl⟩
  | n + 1 => by
    obtain ⟨hsentence, hrng⟩ := growNoted_made hliteral rng n
    obtain ⟨hout, hcursor⟩ :=
      Transducer.run_forall₂ (R := Symbol.NotedAs g.habit) (Q := Symbol.NotedAs g.habit)
        (fun cursor _ _ hx => rewriteSymbolNoted_made hliteral cursor hx) hsentence ⟨0, ((g.grow n).run rng).2⟩
    rw [hrng] at hout hcursor
    rw [grow_succ, hrng]
    exact ⟨hout, congrArg Cursor.rng hcursor⟩

/-- The notes of a seed are true. -/
theorem notedAs_expandNoted (hliteral : ∀ r ∈ g.rules, ∃ text, r.produce = .literal text) (n : Nat) (seed : String) :
    NotedAs g.habit (g.expand n seed) (g.expandNoted n seed) := (growNoted_made hliteral (Rng.ofSeed seed) n).1

/-! ## Notes are small -/

/-- What becomes of a symbol opens what the symbol opened, and no new note goes beyond this. -/
theorem rewriteSymbolNoted_opened (cursor : Cursor) (x : Symbol α × Nat) :
    let out := (g.rewriteSymbolNoted cursor x).1
    opened [x.1] ≤ opened (out.map Prod.fst) ∧ ∀ y ∈ out, y = x ∨ y.2 ≤ cursor.depth + opened (out.map Prod.fst) := by
  unfold rewriteSymbolNoted
  by_cases hkept : (x.1.command.isBracket || (g.rulesFor x.1.tag).isEmpty) = true
  · simp only [if_pos hkept]
    exact ⟨Nat.le_refl _, fun y hy => Or.inl (List.mem_singleton.mp hy)⟩
  · have hnone : opened [x.1] = 0 := by
      refine List.count_eq_zero.mpr fun h => hkept ?_
      rw [Symbol.command, ← List.mem_singleton.mp h]
      rfl
    simp only [if_neg hkept, map_fst_noted, hnone]
    exact ⟨Nat.zero_le _, fun y hy => Or.inr (le_of_mem_noted _ _ y hy)⟩

/-- **A pass keeps the branches that are opened, and writes no note beyond them.** -/
theorem run_rewriteSymbolNoted_opened (xs : List (Symbol α × Nat)) : ∀ cursor : Cursor,
    let out := (g.rewriteSymbolNoted.run cursor xs).1
    opened (xs.map Prod.fst) ≤ opened (out.map Prod.fst) ∧
      ∀ y ∈ out, y ∈ xs ∨ y.2 ≤ cursor.depth + opened (out.map Prod.fst) := by
  induction xs with
  | nil => exact fun _ => ⟨Nat.le_refl _, nofun⟩
  | cons x xs ih =>
    intro cursor
    obtain ⟨hfirst, hnotes⟩ := rewriteSymbolNoted_opened (g := g) cursor x
    obtain ⟨hrest, hothers⟩ := ih (g.rewriteSymbolNoted cursor x).2
    have hdepth : (g.rewriteSymbolNoted cursor x).2.depth ≤ cursor.depth + opened [x.1] :=
      (Nat.le_of_eq (depth_rewriteSymbol g cursor x.1)).trans (bracketDepth_le_add_count [x.1.tag] cursor.depth)
    have hcons : opened ((x :: xs).map Prod.fst) = opened [x.1] + opened (xs.map Prod.fst) := opened_append [x.1] _
    simp only [Transducer.run_cons, List.map_append, opened_append, hcons]
    refine ⟨Nat.add_le_add hfirst hrest, List.forall_mem_append.mpr ⟨fun y hy => ?_, fun y hy => ?_⟩⟩
    · rcases hnotes y hy with rfl | hy
      · exact Or.inl List.mem_cons_self
      · exact Or.inr (by omega)
    · rcases hothers y hy with hy | hy
      · exact Or.inl (List.mem_cons_of_mem x hy)
      · exact Or.inr (by omega)

/-- **No symbol was made deeper than its sentence opens branches.** -/
theorem note_le_opened (rng : Rng) : ∀ n, ∀ x ∈ ((g.growNoted n).run rng).1,
    x.2 ≤ opened (((g.growNoted n).run rng).1.map Prod.fst)
  | 0 => by
    intro x hx
    have hle := le_of_mem_noted 0 ((g.grow 0).run rng).1 x hx
    have hfst : ((g.growNoted 0).run rng).1.map Prod.fst = ((g.grow 0).run rng).1 := map_fst_noted 0 _
    rwa [hfst, ← Nat.zero_add (opened _)]
  | n + 1 => by
    intro x hx
    obtain ⟨hkept, hnotes⟩ := run_rewriteSymbolNoted_opened (g := g) ((g.growNoted n).run rng).1
      ⟨0, ((g.growNoted n).run rng).2⟩
    rcases hnotes x hx with hx | hx
    · exact (note_le_opened rng n x hx).trans hkept
    · exact hx.trans (Nat.le_of_eq (Nat.zero_add _))

theorem note_le_opened_expand (hliteral : ∀ r ∈ g.rules, ∃ text, r.produce = .literal text) (n : Nat) (seed : String) :
    ∀ x ∈ g.expandNoted n seed, x.2 ≤ opened (g.expand n seed) := by
  intro x hx
  have hle := note_le_opened (Rng.ofSeed seed) n x hx
  rwa [show ((g.growNoted n).run (Rng.ofSeed seed)).1.map Prod.fst = g.expand n seed from
    (notedAs_expandNoted hliteral n seed).map_fst] at hle

end Grammar
end Arbor
