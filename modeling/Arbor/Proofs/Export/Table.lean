import Mathlib.Data.List.Basic

/-!
# Tables in a text

A text is read as rows of words: its lines are cut at blanks (`rows`). A table whose words have neither blanks nor line
breaks is read back from the text that joins its words with blanks and its rows with line breaks (`rows_intercalate`).
`items` finds the rows that start with a keyword.
-/

namespace Arbor
namespace Obj

/-- The pieces of a text between separators. -/
def pieces (c : Char) (text : String) : List String := (text.split c).toList.map (·.copy)

/-- The words of every line. -/
def rows (text : String) : List (List String) := (pieces '\n' text).map (pieces ' ')

theorem pieces_intercalate {c : Char} {ps : List String} (hps : ps ≠ []) (h : ∀ p ∈ ps, c ∉ p.toList) :
    pieces c ((String.singleton c).intercalate ps) = ps := by
  rw [pieces, String.toList_split_intercalate h, if_neg hps]

/-! ## Reading back -/

/-- A text that is neither cut at blanks nor at line breaks. -/
def Word (w : String) : Prop := ∀ c ∈ w.toList, c ≠ ' ' ∧ c ≠ '\n'

instance (w : String) : Decidable (Word w) := List.decidableBAll _ w.toList

theorem Word.append {v w : String} (hv : Word v) (hw : Word w) : Word (v ++ w) := by
  intro c hc
  rw [String.toList_append] at hc
  exact (List.mem_append.mp hc).elim (hv c) (hw c)

/-- A row that a line can hold. -/
structure Readable (row : List String) : Prop where
  ne_nil : row ≠ []
  word : ∀ w ∈ row, Word w

theorem readable_cons {word : String} {rest : List String} :
    Readable (word :: rest) ↔ Word word ∧ ∀ w ∈ rest, Word w :=
  ⟨fun h => List.forall_mem_cons.mp h.word, fun h => ⟨List.cons_ne_nil _ _, List.forall_mem_cons.mpr h⟩⟩

theorem mem_intercalate {c : Char} {sep : String} {ps : List String} (h : c ∈ (sep.intercalate ps).toList) :
    c ∈ sep.toList ∨ ∃ p ∈ ps, c ∈ p.toList := by
  induction ps with
  | nil => simp at h
  | cons p ps ih =>
    by_cases hps : ps = []
    · subst hps
      rw [String.intercalate_singleton] at h
      exact Or.inr ⟨p, List.mem_cons_self, h⟩
    · rw [String.intercalate_cons_of_ne_nil hps, String.toList_append, String.toList_append] at h
      rcases List.mem_append.mp h with h | h
      · rcases List.mem_append.mp h with h | h
        · exact Or.inr ⟨p, List.mem_cons_self, h⟩
        · exact Or.inl h
      · exact (ih h).imp_right fun ⟨q, hq, hc⟩ => ⟨q, List.mem_cons_of_mem p hq, hc⟩

theorem Readable.newline_notMem {row : List String} (h : Readable row) :
    '\n' ∉ (" ".intercalate row).toList := by
  intro hc
  rcases mem_intercalate hc with hc | ⟨w, hw, hc⟩
  · exact absurd hc (by decide)
  · exact (h.word w hw _ hc).2 rfl

theorem Readable.pieces {row : List String} (h : Readable row) : pieces ' ' (" ".intercalate row) = row :=
  pieces_intercalate h.ne_nil fun w hw hc => (h.word w hw _ hc).1 rfl

/-- **A table is read back from its text.** -/
theorem rows_intercalate {table : List (List String)} (hne : table ≠ []) (h : ∀ row ∈ table, Readable row) :
    rows ("\n".intercalate (table.map " ".intercalate)) = table := by
  have hlines : pieces '\n' ("\n".intercalate (table.map " ".intercalate)) = table.map " ".intercalate := by
    refine pieces_intercalate (by simpa using hne) fun line hline => ?_
    obtain ⟨row, hrow, rfl⟩ := List.mem_map.mp hline
    exact (h row hrow).newline_notMem
  rw [rows, hlines, List.map_map]
  exact (List.map_congr_left fun row hrow => (h row hrow).pieces).trans (List.map_id table)

/-! ## Keywords -/

/-- What the rows with a keyword list behind it. -/
def items (keyword : String) (table : List (List String)) : List (List String) :=
  table.filterMap fun
    | word :: rest => if word = keyword then some rest else none
    | [] => none

variable {β : Type} {keyword : String}

theorem items_append (keyword : String) (xs ys : List (List String)) :
    items keyword (xs ++ ys) = items keyword xs ++ items keyword ys := List.filterMap_append

theorem items_cons_ne {word : String} (h : word ≠ keyword) (rest : List String) (table : List (List String)) :
    items keyword ((word :: rest) :: table) = items keyword table := by
  simp only [items, List.filterMap_cons, if_neg h]

theorem items_map (f : β → List String) (xs : List β) : items keyword (xs.map fun x => keyword :: f x) = xs.map f := by
  simp only [items, List.filterMap_map, Function.comp_def, if_true, List.filterMap_eq_map']

theorem items_map_ne {other : String} (h : other ≠ keyword) (f : β → List String) (xs : List β) :
    items keyword (xs.map fun x => other :: f x) = [] := by
  simp only [items, List.filterMap_map, Function.comp_def, if_neg h, List.filterMap_none]

theorem items_eq_nil {table : List (List String)} :
    items keyword table = [] ↔ ∀ row ∈ table, row.head? ≠ some keyword := by
  rw [items, List.filterMap_eq_nil_iff]
  refine forall₂_congr fun row _ => ?_
  cases row with
  | nil => simp
  | cons word rest => simp

end Obj
end Arbor
