import Arbor.Proofs.Sentence.Settled
import Arbor.Proofs.Transducer

/-!
# What a text reads as

A reading has one symbol for each character, with that character (`Sentence.tags_read`), made where the reader stands
when it comes to it (`Sentence.getElem?_read`).
-/

namespace Arbor
namespace Sentence

variable {α : Type} [Scalar α] (habit : Habit α)

/-- Reading keeps the characters. -/
theorem tags_read (cursor : Cursor) (cs : List Char) : ((read habit).run cursor cs).1.map Symbol.tag = cs := by
  induction cs generalizing cursor with
  | nil => rfl
  | cons c cs ih =>
    rw [Transducer.run_cons, List.map_append, ih]
    exact congrArg (· :: cs) (tag_create habit cursor.depth c cursor.rng)

theorem tags_parse (depth : Nat) (text : String) (rng : Rng) :
    ((parse habit depth text).run rng).1.map Symbol.tag = text.toList := tags_read habit ⟨depth, rng⟩ text.toList

/-- **Each symbol is made where the reader stands when it comes to its character.** -/
theorem getElem?_read (cursor : Cursor) {cs : List Char} {i : Nat} {c : Char} (hc : cs[i]? = some c) :
    let here := ((read habit).run cursor (cs.take i)).2
    ((read habit).run cursor cs).1[i]? = some ((Symbol.create habit here.depth c).run here.rng).1 := by
  intro here
  have hwrite : ∀ (cursor : Cursor) (c : Char),
      (read habit cursor c).1 = [((Symbol.create habit cursor.depth c).run cursor.rng).1] := fun _ _ => rfl
  rw [Transducer.getElem?_run hwrite, hc, Option.map_some]

end Sentence
end Arbor
