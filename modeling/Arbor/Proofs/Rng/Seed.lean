import Arbor.Proofs.Rng.Word
import Arbor.Rng
import Mathlib.Data.List.Basic
import Mathlib.Logic.ExistsUnique

/-!
# Seeds that differ in one place

Taking a unit into the running word loses nothing of either: the exclusive or, the product with an odd factor and the
turn of a word can all be undone (`Seed.absorb_left_injective`, `Seed.absorb_right_injective`). So two seeds of one length
that part at a single unit have different running words from there on (`Seed.hash_ne`), and mixing keeps words apart as
often as it is repeated (`Seed.mix_injective`). Hence their generators differ in every register (`Rng.seeds_apart`).
-/

namespace Arbor

open Function

/-! ## Taking a unit in -/

namespace Seed

/-- Bit `j` of a turned word: the upper bits come first. -/
theorem getLsbD_rotate {k : UInt32} (hpos : 0 < k) (hlt : k < 32) (w : UInt32) {j : Nat} (hj : j < 32) :
    (rotate w k).toBitVec.getLsbD j =
      if j < k.toNat then w.toBitVec.getLsbD (32 - k.toNat + j) else w.toBitVec.getLsbD (j - k.toNat) := by
  have hk0 : 0 < k.toNat := UInt32.lt_iff_toNat_lt.mp hpos
  have hk : k.toNat < 32 := UInt32.lt_iff_toNat_lt.mp hlt
  have hleft : k.toNat % 32 = k.toNat := Nat.mod_eq_of_lt hk
  have hright : (4294967296 - k.toNat) % 32 = 32 - k.toNat := by omega
  by_cases h : j < k.toNat
  · simp [rotate, hleft, hright, hj, h]
  · have hbeyond : w.toBitVec.getLsbD (32 - k.toNat + j) = false := BitVec.getLsbD_of_ge _ _ (by omega)
    have hinside : w.toBitVec.getLsbD (j - k.toNat) = w.toBitVec[j - k.toNat] := BitVec.getLsbD_eq_getElem (by omega)
    simp [rotate, hleft, hright, hj, h, hbeyond, hinside]

/-- **A word is known from its turn.** -/
theorem rotate_injective {k : UInt32} (hpos : 0 < k) (hlt : k < 32) : Injective fun w => rotate w k := by
  intro x y h
  have hturned : rotate x k = rotate y k := h
  have hk : k.toNat < 32 := UInt32.lt_iff_toNat_lt.mp hlt
  refine UInt32.toBitVec_inj.mp (BitVec.eq_of_getLsbD_eq fun i hi => ?_)
  -- bit `i` has moved up `k` places, round to the bottom if there was no room
  by_cases hlow : i + k.toNat < 32
  · have hbit := congrArg (fun w => w.toBitVec.getLsbD (i + k.toNat)) hturned
    simpa [getLsbD_rotate hpos hlt _ hlow] using hbit
  · have hbit := congrArg (fun w => w.toBitVec.getLsbD (i + k.toNat - 32)) hturned
    have hj : i + k.toNat - 32 < 32 := by omega
    have hfirst : i + k.toNat - 32 < k.toNat := by omega
    have hplace : 32 - k.toNat + (i + k.toNat - 32) = i := by omega
    simpa [getLsbD_rotate hpos hlt _ hj, hfirst, hplace] using hbit

/-- The product and the turn that follow a unit lose nothing of the word. -/
theorem spread_injective : Injective fun w : UInt32 => rotate (w * 3432918353) 13 := by
  have hinverse : (3432918353 : UInt32) * 3739302833 = 1 := by decide
  exact (rotate_injective (by decide) (by decide)).comp (UInt32.mul_left_injective_of_inverse hinverse)

/-- **Taking a unit in keeps running words apart.** -/
theorem absorb_left_injective (unit : UInt16) : Injective fun h => absorb h unit := by
  intro h h' heq
  have hword : h ^^^ unit.toUInt32 = h' ^^^ unit.toUInt32 := spread_injective heq
  exact (UInt32.xor_left_inj _).mp hword

/-- **Different units make different words of one running word.** -/
theorem absorb_right_injective (h : UInt32) : Injective (absorb h) := by
  intro unit unit' heq
  have hword : h ^^^ unit.toUInt32 = h ^^^ unit'.toUInt32 := spread_injective heq
  exact UInt16.toUInt32_inj.mp ((UInt32.xor_right_inj h).mp hword)

/-- Whatever follows keeps running words apart. -/
theorem foldl_absorb_injective (units : List UInt16) : Injective fun h => units.foldl absorb h := by
  induction units with
  | nil => exact injective_id
  | cons unit units ih => exact ih.comp (absorb_left_injective unit)

/-- **Seeds that part at one unit have different words.** Up to there the running words are equal, at that unit they part,
and what follows never brings them together again. -/
theorem hash_ne {unit unit' : UInt16} (h : unit ≠ unit') (before after : List UInt16) :
    hash (before ++ unit :: after) ≠ hash (before ++ unit' :: after) := by
  intro heq
  have hlength : (before ++ unit :: after).length = (before ++ unit' :: after).length := by
    simp only [List.length_append, List.length_cons]
  unfold hash at heq
  rw [hlength, List.foldl_append, List.foldl_append, List.foldl_cons, List.foldl_cons] at heq
  exact h (absorb_right_injective _ (foldl_absorb_injective after heq))

/-! ## Mixing -/

/-- **A word is known from its mixture.** -/
theorem mix_injective : Injective mix := by
  have hfirst : (2246822507 : UInt32) * 2781581891 = 1 := by decide
  have hsecond : (3266489909 : UInt32) * 2127672349 = 1 := by decide
  have hshift {k : UInt32} (hpos : 0 < k) (hlt : k < 32) := UInt32.xorShift_injective hpos hlt
  exact (hshift (k := 16) (by decide) (by decide)).comp <|
    (UInt32.mul_left_injective_of_inverse hsecond).comp <|
    (hshift (k := 13) (by decide) (by decide)).comp <|
    (UInt32.mul_left_injective_of_inverse hfirst).comp (hshift (k := 16) (by decide) (by decide))

/-- The UTF-16 units of a seed. -/
def units (seed : String) : List UInt16 := seed.toList.flatMap Char.utf16

end Seed

/-- Lists of one length that differ in exactly one place are the same before and behind it. -/
theorem List.exists_parting {β : Type} {xs ys : List β} (hlength : xs.length = ys.length)
    (hone : ∃! i : Nat, xs[i]? ≠ ys[i]?) :
    ∃ before x y after, x ≠ y ∧ xs = before ++ x :: after ∧ ys = before ++ y :: after := by
  obtain ⟨i, hi, hunique⟩ := hone
  have hsame : ∀ j, j ≠ i → xs[j]? = ys[j]? := fun j hj => not_not.mp fun h => hj (hunique j h)
  have hx : i < xs.length := by
    by_contra hlt
    exact hi (by rw [List.getElem?_eq_none (by omega), List.getElem?_eq_none (by omega)])
  have hy : i < ys.length := hlength ▸ hx
  have hbefore : xs.take i = ys.take i := by
    refine List.ext_getElem? fun j => ?_
    rw [List.getElem?_take, List.getElem?_take]
    split
    next hj => exact hsame j (Nat.ne_of_lt hj)
    next => rfl
  have hafter : xs.drop (i + 1) = ys.drop (i + 1) := by
    refine List.ext_getElem? fun j => ?_
    rw [List.getElem?_drop, List.getElem?_drop]
    exact hsame _ (by omega)
  refine ⟨xs.take i, xs[i], ys[i], xs.drop (i + 1), fun h => hi ?_, ?_, ?_⟩
  · rw [List.getElem?_eq_getElem hx, List.getElem?_eq_getElem hy, h]
  · rw [← List.drop_eq_getElem_cons hx, List.take_append_drop]
  · rw [hbefore, hafter, ← List.drop_eq_getElem_cons hy, List.take_append_drop]

namespace Rng

/-- Each register of a generator is its first word, mixed a number of times; so different words part them all. -/
theorem registers_ne {units units' : List UInt16} (h : Seed.hash units ≠ Seed.hash units') :
    (ofUnits units).a ≠ (ofUnits units').a ∧ (ofUnits units).b ≠ (ofUnits units').b ∧
      (ofUnits units).c ≠ (ofUnits units').c ∧ (ofUnits units).d ≠ (ofUnits units').d := by
  have ha : (ofUnits units).a ≠ (ofUnits units').a := Seed.mix_injective.ne h
  have hb : (ofUnits units).b ≠ (ofUnits units').b := Seed.mix_injective.ne ha
  have hc : (ofUnits units).c ≠ (ofUnits units').c := Seed.mix_injective.ne hb
  exact ⟨ha, hb, hc, Seed.mix_injective.ne hc⟩

/-- **Seeds that differ in one place never collide.** Two seeds with equally many UTF-16 units that differ in exactly one
of them have different generators; indeed no register is the same. -/
theorem seeds_apart {seed seed' : String} (hlength : (Seed.units seed).length = (Seed.units seed').length)
    (hone : ∃! i : Nat, (Seed.units seed)[i]? ≠ (Seed.units seed')[i]?) :
    ofSeed seed ≠ ofSeed seed' ∧ (ofSeed seed).a ≠ (ofSeed seed').a ∧ (ofSeed seed).b ≠ (ofSeed seed').b ∧
      (ofSeed seed).c ≠ (ofSeed seed').c ∧ (ofSeed seed).d ≠ (ofSeed seed').d := by
  obtain ⟨before, unit, unit', after, hne, hunits, hunits'⟩ := List.exists_parting hlength hone
  have hhash : Seed.hash (Seed.units seed) ≠ Seed.hash (Seed.units seed') := by
    rw [hunits, hunits']
    exact Seed.hash_ne hne before after
  have hregisters := registers_ne hhash
  exact ⟨fun heq => hregisters.1 (congrArg Rng.a heq), hregisters⟩

/-- Two trees beyond the first plane of characters: their seeds share the first unit of the tree, and the letters around
it. -/
theorem seeds_apart_evergreen : (Seed.units "a🌲b").length = (Seed.units "a🌳b").length ∧
    (∃! i : Nat, (Seed.units "a🌲b")[i]? ≠ (Seed.units "a🌳b")[i]?) ∧ (ofSeed "a🌲b").d ≠ (ofSeed "a🌳b").d := by
  have hfir : Seed.units "a🌲b" = [0x61, 0xd83c, 0xdf32, 0x62] := by decide
  have hoak : Seed.units "a🌳b" = [0x61, 0xd83c, 0xdf33, 0x62] := by decide
  have hlength : (Seed.units "a🌲b").length = (Seed.units "a🌳b").length := by rw [hfir, hoak]; rfl
  have hone : ∃! i : Nat, (Seed.units "a🌲b")[i]? ≠ (Seed.units "a🌳b")[i]? := by
    rw [hfir, hoak]
    refine ⟨2, by decide, fun i hi => ?_⟩
    match i, hi with
    | 0, hi | 1, hi | 3, hi | i + 4, hi => exact absurd rfl hi
    | 2, _ => rfl
  exact ⟨hlength, hone, (seeds_apart hlength hone).2.2.2.2⟩

end Rng
end Arbor
