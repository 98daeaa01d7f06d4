import Arbor.Definition
import Arbor.Proofs.Json.Record

/-!
# Definitions written and read back

What is written of a definition is the whole of it: reading gives it back (`Definition.ofJson_toJson`), whichever of its
sections are there. Only what JSON cannot hold is excluded (`Definition.Writable`): doubles that are not finite, which
are written as null, and whole numbers beyond 32 bits.
-/

namespace Arbor

open Json

/-! ## Values -/

namespace Json

theorem double?_double {x : Float} (h : x.isFinite = true) : (Json.double x).double? = .ok x := by
  rw [Json.double, if_pos h]
  rfl

theorem below?_natural {limit n : Nat} (h : n < limit) : (Json.natural n).below? limit = .ok n :=
  if_pos ⟨Int.natCast_nonneg n, Int.ofNat_lt.mpr h⟩

theorem char?_singleton (c : Char) : (Json.string (String.singleton c)).char? = .ok c := by
  unfold char? string?
  dsimp only [bind, Except.bind]
  rw [String.toList_singleton]

/-- A list is read back if its values are. -/
theorem array?_list {β : Type} {read : Json → Except JsonFault β} {write : β → Json} {xs : List β}
    (h : ∀ x ∈ xs, read (write x) = .ok x) : array? read (.list (xs.map write)) = .ok xs := by
  have hmap : (xs.map write).mapM read = .ok xs := by
    induction xs with
    | nil => rfl
    | cons x xs ih =>
      obtain ⟨hx, hxs⟩ := List.forall_mem_cons.mp h
      rw [List.map_cons, List.mapM_cons, hx, ih hxs]
      rfl
  show ((xs.map write).mapM read >>= fun values => closed none >>= fun _ => pure values) = .ok xs
  rw [hmap]
  rfl

/-- What is not null is read as a part that is there. -/
theorem option?_of_ne_null {β : Type} {read : Json → Except JsonFault β} {v : Json} (hv : v ≠ .null) :
    option? read v = read v >>= fun x => pure (some x) := by
  unfold option?
  split
  next heq => exact absurd rfl hv
  next => rfl

/-- A part that may be left out is read back if it is not written as null. -/
theorem option?_optionToJson {β : Type} {read : Json → Except JsonFault β} {write : β → Json} {o : Option β}
    (hnull : ∀ x, write x ≠ .null) (h : ∀ x ∈ o, read (write x) = .ok x) :
    option? read (Definition.optionToJson write o) = .ok o := by
  cases o with
  | none => rfl
  | some x =>
    show option? read (write x) = .ok (some x)
    rw [option?_of_ne_null (hnull x), h x rfl]
    rfl

end Json

/-! ## Sections -/

theorem Rgb.ofJson_toJson {c : Rgb Float} (hfinite : ∀ x ∈ c.toList, x.isFinite = true) : ofJson c.toJson = .ok c := by
  simp only [Rgb.toList, List.forall_mem_cons] at hfinite
  simp only [ofJson, toJson, Json.list, Rgb.toList, List.map_cons, List.map_nil, Field.readItems, Field.required,
    double?_double, hfinite]
  rfl

namespace LiteralRule

theorem nodup_fields : (fields.map Field.name).Nodup := by decide

theorem ofJson_toJson {r : LiteralRule} (hfinite : r.odds.isFinite = true) : ofJson r.toJson = .ok r := by
  refine (record?_record nodup_fields
    [.string (String.singleton r.symbol), .double r.odds, .string r.produce] rfl).trans ?_
  simp only [fields, Field.readItems, Field.required, Field.optional, char?_singleton, double?_double, hfinite]
  rfl

end LiteralRule

namespace Habit

/-- The doubles of a habit. -/
def doubles (h : Habit Float) : List Float :=
  [h.baseLength, h.baseRadius, h.lengthFalloff, h.radiusFalloff, h.branchAngle, h.variability]

theorem nodup_fields : (fields.map Field.name).Nodup := by decide

theorem ofJson_toJson {h : Habit Float} (hfinite : ∀ x ∈ h.doubles, x.isFinite = true) : ofJson h.toJson = .ok h := by
  simp only [doubles, List.forall_mem_cons] at hfinite
  refine (record?_record nodup_fields (h.doubles.map Json.double) rfl).trans ?_
  simp only [doubles, fields, List.map_cons, List.map_nil, Field.readItems, Field.optional, double?_double, hfinite]
  rfl

end Habit

namespace Gait

/-- The doubles of a gait. -/
def doubles (g : Gait Float) : List Float := [g.baseRadius, g.radiusFalloff, g.defaultLength, g.defaultAngle]

theorem nodup_fields : (fields.map Field.name).Nodup := by decide

theorem ofJson_toJson {g : Gait Float} (hfinite : ∀ x ∈ g.doubles, x.isFinite = true) : ofJson g.toJson = .ok g := by
  simp only [doubles, List.forall_mem_cons] at hfinite
  refine (record?_record nodup_fields (g.doubles.map Json.double) rfl).trans ?_
  simp only [doubles, fields, List.map_cons, List.map_nil, Field.readItems, Field.optional, double?_double, hfinite]
  rfl

end Gait

namespace Bark

theorem nodup_fields : (fields.map Field.name).Nodup := by decide

theorem ofJson_toJson {b : Bark Float} (hfinite : b.textureScale.isFinite = true)
    (hword : b.radialSegments < UInt32.size) : ofJson b.toJson = .ok b := by
  refine (record?_record nodup_fields [.natural b.radialSegments, .double b.textureScale] rfl).trans ?_
  simp only [fields, Field.readItems, Field.optional, word?, below?_natural, hword, double?_double, hfinite]
  rfl

end Bark

namespace LeafShape

/-- The doubles of a leaf shape. -/
def doubles (s : LeafShape Float) : List Float := [s.width, s.length, s.curvature]

theorem nodup_fields : (fields.map Field.name).Nodup := by decide

theorem ofJson_toJson {s : LeafShape Float} (hfinite : ∀ x ∈ s.doubles, x.isFinite = true)
    (hword : s.segments < UInt32.size) : ofJson s.toJson = .ok s := by
  simp only [doubles, List.forall_mem_cons] at hfinite
  refine (record?_record nodup_fields (s.doubles.map Json.double ++ [.natural s.segments]) rfl).trans ?_
  simp only [doubles, fields, List.map_cons, List.map_nil, List.cons_append, List.nil_append, Field.readItems,
    Field.optional, word?, below?_natural, hword, double?_double, hfinite]
  rfl

end LeafShape

namespace LeafScatter

/-- The doubles of a scatter. -/
def doubles (s : LeafScatter Float) : List Float :=
  [s.scale, s.sizeVariation, s.rotationVariation, s.colorVariation] ++ s.baseColor.toList

theorem nodup_fields : (fields.map Field.name).Nodup := by decide

theorem ofJson_toJson {s : LeafScatter Float} (hfinite : ∀ x ∈ s.doubles, x.isFinite = true) :
    ofJson s.toJson = .ok s := by
  simp only [doubles, List.forall_mem_append, List.forall_mem_cons] at hfinite
  obtain ⟨hnumbers, hcolor⟩ := hfinite
  refine (record?_record nodup_fields [.double s.scale, .double s.sizeVariation, .double s.rotationVariation,
    s.baseColor.toJson, .double s.colorVariation, .string s.seedSuffix] rfl).trans ?_
  simp only [fields, Field.readItems, Field.optional, double?_double, hnumbers, Rgb.ofJson_toJson hcolor]
  rfl

end LeafScatter

/-! ## Definitions -/

namespace Definition

/-- The doubles of a definition. -/
def doubles (d : Definition) : List Float :=
  d.rules.map LiteralRule.odds ++ d.habit.doubles ++ d.gait.toList.flatMap Gait.doubles ++
    d.bark.toList.map Bark.textureScale ++ d.leafShape.toList.flatMap LeafShape.doubles ++
    d.scatter.toList.flatMap LeafScatter.doubles

/-- The whole numbers of a definition. -/
def words (d : Definition) : List Nat :=
  d.iterations :: d.bark.toList.map Bark.radialSegments ++ d.leafShape.toList.map LeafShape.segments

/-- A definition that JSON can hold: its doubles are finite, and its whole numbers have 32 bits. -/
structure Writable (d : Definition) : Prop where
  finite : ∀ x ∈ d.doubles, x.isFinite = true
  words : ∀ n ∈ d.words, n < UInt32.size

theorem nodup_fields : (fields.map Field.name).Nodup := by decide

/-- **A definition is read back as it was written.** -/
theorem ofJson_toJson {d : Definition} (h : d.Writable) : ofJson d.toJson = .ok d := by
  obtain ⟨hfinite, hwords⟩ := h
  simp only [doubles, List.forall_mem_append, List.forall_mem_map, List.forall_mem_flatMap, Option.mem_toList] at hfinite
  simp only [words, List.forall_mem_append, List.forall_mem_cons, List.forall_mem_map, Option.mem_toList] at hwords
  obtain ⟨⟨⟨⟨⟨hodds, hhabit⟩, hgait⟩, hbark⟩, hleafShape⟩, hscatter⟩ := hfinite
  obtain ⟨⟨hiterations, hradial⟩, hsegments⟩ := hwords
  have hrules : array? LiteralRule.ofJson (.list (d.rules.map LiteralRule.toJson)) = .ok d.rules :=
    array?_list fun r hr => LiteralRule.ofJson_toJson (hodds r hr)
  have hgait : option? Gait.ofJson (optionToJson Gait.toJson d.gait) = .ok d.gait :=
    option?_optionToJson nofun fun g hg => Gait.ofJson_toJson (hgait g hg)
  have hbark : option? Bark.ofJson (optionToJson Bark.toJson d.bark) = .ok d.bark :=
    option?_optionToJson nofun fun b hb => Bark.ofJson_toJson (hbark b hb) (hradial b hb)
  have hleafShape : option? LeafShape.ofJson (optionToJson LeafShape.toJson d.leafShape) = .ok d.leafShape :=
    option?_optionToJson nofun fun s hs => LeafShape.ofJson_toJson (hleafShape s hs) (hsegments s hs)
  have hscatter : option? LeafScatter.ofJson (optionToJson LeafScatter.toJson d.scatter) = .ok d.scatter :=
    option?_optionToJson nofun fun s hs => LeafScatter.ofJson_toJson (hscatter s hs)
  refine (record?_record nodup_fields [.string d.start, .list (d.rules.map LiteralRule.toJson), d.habit.toJson,
    .natural d.iterations, .string d.seed, optionToJson Gait.toJson d.gait, optionToJson Bark.toJson d.bark,
    optionToJson LeafShape.toJson d.leafShape, optionToJson LeafScatter.toJson d.scatter] rfl).trans ?_
  simp only [fields, Field.readItems, Field.required, Field.optional, hrules, Habit.ofJson_toJson hhabit, word?,
    below?_natural, hiterations, hgait, hbark, hleafShape, hscatter]
  rfl

end Definition

end Arbor
