import Arbor.Proofs.Sentence.Reading

/-!
# What reading a text does

A reader goes through its text with four things at once: the symbols that it has made, their order, the number of open
brackets and its place in the random stream. Each follows from the characters that it has passed. Steps and turns draw
once if there is any variability, and nothing else draws (`rng_create_eq_skip`); so the reader stands at the depth of what
is behind it, as many words on as there were steps and turns (`Sentence.run_readWrapping_state`). The depth is the number
of open brackets unless these are too many for a word. `Sentence.parse_exact` puts this together.
-/

namespace Arbor

open scoped Scalar

variable {α : Type} [Scalar α]

theorem rng_jitter (variability : α) (rng : Rng) :
    ((Draw.jitter variability).run rng).2 = if variability == 0 then rng else rng.next.2 := by
  rw [run_jitter]
  split <;> rfl

/-! ## Draws -/

namespace Sentence

/-- The characters of steps and turns. -/
def drawingTags : List Char := ['F', '+', '-', '^', '&', '/', '\\']

/-- The number of words that reading a text takes from the stream: one for each step and each turn, and none without
variability. -/
def draws (habit : Habit α) (cs : List Char) : Nat :=
  if habit.variability == 0 then 0 else cs.countP (· ∈ drawingTags)

theorem draws_append (habit : Habit α) (cs ds : List Char) :
    draws habit (cs ++ ds) = draws habit cs + draws habit ds := by
  unfold draws
  split
  · rfl
  · exact List.countP_append

theorem draws_of_mem (habit : Habit α) {c : Char} (h : c ∈ drawingTags) :
    draws habit [c] = if habit.variability == 0 then 0 else 1 := by
  rw [draws, List.countP_singleton, if_pos (decide_eq_true h)]

theorem draws_of_notMem (habit : Habit α) {c : Char} (h : c ∉ drawingTags) : draws habit [c] = 0 := by
  have hnone : [c].countP (· ∈ drawingTags) = 0 := List.countP_eq_zero.mpr (by simpa using h)
  rw [draws, hnone, ite_self]

end Sentence

open Sentence

/-- **Steps and turns draw once if there is any variability,** and nothing else draws. -/
theorem rng_create_eq_skip (habit : Habit α) (depth : Nat) (c : Char) (rng : Rng) :
    ((Symbol.create habit depth c).run rng).2 = rng.skip (draws habit [c]) := by
  have hjitter : c ∈ drawingTags →
      ((Draw.jitter habit.variability).run rng).2 = rng.skip (draws habit [c]) := by
    intro hc
    rw [rng_jitter, draws_of_mem habit hc]
    split <;> rfl
  have hquiet : c ∉ drawingTags → rng = rng.skip (draws habit [c]) := by
    intro hc
    rw [draws_of_notMem habit hc]
    rfl
  have hletter : ∀ {command : Command} {d : Char}, command.letter = some d → Command.ofChar c = command → c = d :=
    fun hd => (Command.ofChar_eq_iff hd).mp
  unfold Symbol.create
  cases hc : Command.ofChar c with
  | forward =>
    refine hjitter ?_
    rw [hletter rfl hc]
    decide
  | turn axis positive =>
    refine hjitter ?_
    cases axis <;> cases positive
    all_goals
      rw [hletter rfl hc]
      decide
  | push | pop | leaf =>
    refine hquiet ?_
    rw [hletter rfl hc]
    decide
  | idle =>
    refine hquiet fun hmem => ?_
    have hdrawing : ∀ d ∈ drawingTags, Command.ofChar d ≠ .idle := by simp [drawingTags, Command.ofChar]
    exact hdrawing c hmem hc

/-! ## The reader's place -/

namespace Sentence

variable (habit : Habit α)

/-- **Where the reader stands behind a text.** -/
theorem run_readWrapping_state (depth : UInt64) (rng : Rng) (cs : List Char) :
    ((readWrapping habit).run (depth, rng) cs).2 = (wrappingDepth depth cs, rng.skip (draws habit cs)) := by
  induction cs generalizing depth rng with
  | nil =>
    rw [draws, List.countP_nil, ite_self]
    rfl
  | cons c cs ih =>
    have hread : (readWrapping habit (depth, rng) c).2 = (wrappingDepth depth [c], rng.skip (draws habit [c])) :=
      Prod.ext (nestWrapping_ofChar depth c) (rng_create_eq_skip habit depth.toNat c rng)
    rw [Transducer.run_cons, hread, ih, ← Rng.skip_add, ← draws_append, List.singleton_append, ← wrappingDepth_cons]

/-- **Each symbol is made where the reader stands when it comes to its character.** -/
theorem getElem?_readWrapping (depth : UInt64) (rng : Rng) (cs : List Char) (i : Nat) :
    ((readWrapping habit).run (depth, rng) cs).1[i]? = cs[i]?.map fun c =>
      ((Symbol.create habit (wrappingDepth depth (cs.take i)).toNat c).run (rng.skip (draws habit (cs.take i)))).1 := by
  have hwrite : ∀ here c,
      (readWrapping habit here c).1 = [((Symbol.create habit here.1.toNat c).run here.2).1] := fun _ _ => rfl
  rw [Transducer.getElem?_run hwrite, run_readWrapping_state]

theorem tags_readWrapping (depth : UInt64) (rng : Rng) (cs : List Char) :
    ((readWrapping habit).run (depth, rng) cs).1.map Symbol.tag = cs := by
  refine List.ext_getElem? fun i => ?_
  rw [List.getElem?_map, getElem?_readWrapping, Option.map_map]
  cases cs[i]? with
  | none => rfl
  | some c => exact congrArg some (tag_create habit _ c _)

/-- A text that comes too deep for no word is read as it is at depths without a bound. -/
theorem run_readWrapping_eq {cs : List Char} : ∀ {depth : UInt64} (rng : Rng),
    (∀ p, p <+: cs → bracketDepth depth.toNat p < UInt64.size) →
      ((readWrapping habit).run (depth, rng) cs).1 = ((read habit).run ⟨depth.toNat, rng⟩ cs).1 ∧
      ((readWrapping habit).run (depth, rng) cs).2.2 = ((read habit).run ⟨depth.toNat, rng⟩ cs).2.rng := by
  induction cs with
  | nil => exact fun _ _ => ⟨rfl, rfl⟩
  | cons c cs ih =>
    intro depth rng h
    have hdepth : ((Command.ofChar c).nestWrapping depth).toNat = (Command.ofChar c).nest depth.toNat := by
      rw [nestWrapping_ofChar, nest_ofChar]
      exact toNat_wrappingDepth_singleton (h [c] ⟨cs, rfl⟩)
    have hrest := @ih ((Command.ofChar c).nestWrapping depth) ((Symbol.create habit depth.toNat c).run rng).2
      fun p hp => by
        rw [hdepth, nest_ofChar, ← bracketDepth_cons]
        exact h (c :: p) (List.cons_prefix_cons.mpr ⟨rfl, hp⟩)
    rw [hdepth] at hrest
    rw [Transducer.run_cons, Transducer.run_cons]
    exact ⟨congrArg (((Symbol.create habit depth.toNat c).run rng).1 :: ·) hrest.1, hrest.2⟩

/-- A bracket is made into a bare symbol. -/
theorem create_bracket (depth : Nat) {c : Char} (h : c = '[' ∨ c = ']') (rng : Rng) :
    ((Symbol.create habit depth c).run rng).1 = .bare c := by
  rcases h with rfl | rfl <;> rfl

/-- **What reading a text does.** The sentence has the characters of the text. Its symbol at place `i` is what the
character there makes at the depth reached, from the stream as the steps and turns before have left it, a bare symbol for a
bracket. Afterwards the stream is as many words on as there are steps and turns in the text, or none without variability.
And a longer text is read as its first part, then its second from the depth and the stream reached.

The depth counts open brackets in a word of 64 bits: it is their number behind every part of the text no beginning of
which comes too deep for a word, and a text without such a beginning is read as a grammar reads it. -/
theorem parse_exact (depth : UInt64) (text : String) (rng : Rng) :
    let sentence := ((parseWrapping habit depth text).run rng).1
    let after := ((parseWrapping habit depth text).run rng).2
    Symbol.text sentence = text ∧ sentence.length = text.toList.length ∧
    (∀ (i : Nat) (c : Char), text.toList[i]? = some c →
      let before := text.toList.take i
      let made := (Symbol.create habit (wrappingDepth depth before).toNat c).run (rng.skip (draws habit before))
      sentence[i]? = some (if c = '[' ∨ c = ']' then .bare c else made.1)) ∧
    after = rng.skip (draws habit text.toList) ∧
    (∀ more : String,
      let behind := (parseWrapping habit (wrappingDepth depth text.toList) more).run after
      (parseWrapping habit depth (text ++ more)).run rng = (sentence ++ behind.1, behind.2)) ∧
    (∀ before : List Char, (∀ p, p <+: before → bracketDepth depth.toNat p < UInt64.size) →
      (wrappingDepth depth before).toNat = bracketDepth depth.toNat before) ∧
    ((∀ p, p <+: text.toList → bracketDepth depth.toNat p < UInt64.size) →
      (parseWrapping habit depth text).run rng = (parse habit depth.toNat text).run rng) := by
  intro sentence after
  have htags : sentence.map Symbol.tag = text.toList := tags_readWrapping habit depth rng text.toList
  have hstate := run_readWrapping_state habit depth rng text.toList
  refine ⟨?_, ?_, fun i c hc => ?_, congrArg Prod.snd hstate, fun more => ?_, fun before => toNat_wrappingDepth,
    fun h => ?_⟩
  · rw [Symbol.text, htags, String.ofList_toList]
  · rw [← htags, List.length_map]
  · intro before made
    have hmade : sentence[i]? = some made.1 := by
      have hread := getElem?_readWrapping habit depth rng text.toList i
      rwa [hc, Option.map_some] at hread
    split
    next hbracket =>
      have hbare : made.1 = .bare c := create_bracket habit _ hbracket _
      rw [hmade, hbare]
    next => exact hmade
  · intro behind
    have happend := (readWrapping habit).run_append (depth, rng) text.toList more.toList
    have hreached : ((readWrapping habit).run (depth, rng) text.toList).2 = (wrappingDepth depth text.toList, after) :=
      hstate.trans (Prod.ext rfl (congrArg Prod.snd hstate).symm)
    rw [← String.toList_append, hreached] at happend
    exact congrArg (fun out => (out.1, out.2.2)) happend
  · obtain ⟨hout, hrng⟩ := run_readWrapping_eq habit rng h
    exact Prod.ext hout hrng

/-- Steps of one that half as many are left of at each depth. -/
def halving : Habit Float := { Habit.standard with lengthFalloff := 0.5 }

/-- Two brackets open as deep as a word has room for. -/
theorem parse_exact_brink :
    let start : UInt64 := 18446744073709551613
    let rng := Rng.ofSeed "oak"
    (∀ p, p <+: "[[F]F".toList → bracketDepth start.toNat p < UInt64.size) ∧
    (wrappingDepth start ['[', '[']).toNat = 18446744073709551615 ∧
    ((parseWrapping halving start "[[F]F").run rng).1[2]? = some (.forward 2.0) ∧
    (parseWrapping halving start "[[F]F").run rng = (parse halving start.toNat "[[F]F").run rng := by
  intro start rng
  obtain ⟨-, -, hsymbol, -, -, hdepth, hread⟩ := parse_exact halving start "[[F]F" rng
  have hroom : ∀ p, p <+: "[[F]F".toList → bracketDepth start.toNat p < UInt64.size := by
    simp only [← List.mem_inits]
    decide
  have hbefore := hdepth ['[', '['] fun p hp => hroom p (hp.trans ⟨['F', ']', 'F'], rfl⟩)
  refine ⟨hroom, hbefore.trans (by decide), ?_, hread hroom⟩
  rw [hsymbol 2 'F' rfl]
  decide +kernel

/-- One bracket more, and the step behind it is made at depth zero. -/
theorem parse_exact_wraps :
    let start : UInt64 := 18446744073709551615
    let rng := Rng.ofSeed "oak"
    let counted := bracketDepth start.toNat ['[', ']']
    counted = 18446744073709551615 ∧ ((Symbol.create halving counted 'F').run rng).1 = .forward 2.0 ∧
      ((parseWrapping halving start "[]F").run rng).1[2]? = some (.forward 1.0) ∧
      Symbol.forward (1.0 : Float) ≠ .forward 2.0 := by
  decide +kernel

end Sentence
end Arbor
