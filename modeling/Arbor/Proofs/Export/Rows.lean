import Arbor.Export.Obj
import Arbor.Proofs.Decimal.Reading
import Arbor.Proofs.Export.Table
import Arbor.Proofs.Mesh.Edge

/-!
# The rows of an object file

Cut into words, an object file is the table of its head and its groups (`rows_text`): no number and no count has a
blank or a line break. What a mesh that fits together contributes to the file are its vertices, places in the texture,
normals and faces, whether it has a group or not (`items_groupRows`), and the corners of its faces are read back as the
vertex numbers, counted on from the base (`readFace_faceWords`).
-/

namespace Arbor
namespace Obj

/-! ## The table -/

def vectorWords (v : Float32 × Float32 × Float32) : List String := [numberText v.1, numberText v.2.1, numberText v.2.2]

def textureWords (uv : Float32 × Float32) : List String := [numberText uv.1, numberText uv.2]

def faceWords (base : UInt32) (t : UInt32 × UInt32 × UInt32) : List String := (threeItems t).map (corner base)

/-- The rows of a group that faces can refer to. -/
def vertexRows (m : Mesh) : List (List String) :=
  (triples m.positions).toList.map (fun v => "v" :: vectorWords v)
    ++ (pairs m.uvs).toList.map (fun uv => "vt" :: textureWords uv)
    ++ (triples m.normals).toList.map (fun v => "vn" :: vectorWords v)

def faceRows (base : UInt32) (m : Mesh) : List (List String) :=
  (triples m.indices).toList.map fun t => "f" :: faceWords base t

def groupRows (name : String) (m : Mesh) (base : UInt32) : List (List String) :=
  if m.isEmpty then [] else ["o", name] :: (vertexRows m ++ faceRows base m ++ [[""]])

def headRows (s : TreeStats) : List (List String) :=
  [["#", "Sylva", "OBJ", "Export"], ["#", "Segments:", toString s.segments], ["#", "Leaves:", toString s.leaves],
    ["#", "Triangles:", toString s.triangles], [""]]

/-- The rows of an object file. -/
def tableOf (t : Tree) : List (List String) :=
  headRows t.stats
    ++ groupRows "branches" t.branches 0
    ++ groupRows "leaves" t.bakedLeaves (UInt32.ofNat t.branches.vertexCount)

/-! ## The lines are the rows -/

theorem vectorLine_eq (keyword : String) :
    vectorLine keyword = fun v => " ".intercalate (keyword :: vectorWords v) := by
  funext v
  rw [← String.toList_inj]
  simp [vectorLine, vectorWords]

theorem textureLine_eq : textureLine = fun uv => " ".intercalate ("vt" :: textureWords uv) := by
  funext uv
  rw [← String.toList_inj]
  simp [textureLine, textureWords]

theorem faceLine_eq (base : UInt32) : faceLine base = fun t => " ".intercalate ("f" :: faceWords base t) := by
  funext t
  rw [← String.toList_inj]
  simp [faceLine, faceWords, threeItems]

theorem group_eq (name : String) (m : Mesh) (base : UInt32) :
    group name m base = (groupRows name m base).map " ".intercalate := by
  unfold group groupRows
  split
  · rfl
  · simp [vertexRows, faceRows, vectorLine_eq, textureLine_eq, faceLine_eq, Function.comp_def]

theorem head_eq (s : TreeStats) : head s = (headRows s).map " ".intercalate := by
  simp [head, headRows, ← String.toList_inj]

theorem lines_eq (t : Tree) : lines t = (tableOf t).map " ".intercalate := by
  rw [lines, tableOf, head_eq, group_eq, group_eq, List.map_append, List.map_append]

/-- Ending every line with a line break puts one before the empty rest. -/
theorem text_eq (t : Tree) : text t = "\n".intercalate ((tableOf t ++ [[""]]).map " ".intercalate) := by
  have hfold : ∀ (ls : List String) (done : String),
      ls.foldl (fun text line => text ++ line ++ "\n") done = done ++ "\n".intercalate (ls ++ [""]) := by
    intro ls
    induction ls with
    | nil => simp
    | cons l ls ih =>
      intro done
      rw [List.foldl_cons, ih, List.cons_append, String.intercalate_cons_of_ne_nil (by simp)]
      simp only [String.append_assoc]
  rw [text, hfold, lines_eq, List.map_append]
  simp

/-! ## The rows are read back -/

theorem word_of_numeral {s : String} (h : DecimalStyle.Numeral s) : Word s := by
  intro c hc
  have hnumeral := h c hc
  constructor <;> rintro rfl <;> exact absurd hnumeral (by decide)

theorem word_numberText (x : Float32) : Word (numberText x) := by
  rcases DecimalStyle.text_numeral .digitsOnly x.binary with h | ⟨sign, hsign, h⟩ | h
  · rw [numberText, h]
    decide
  · rw [numberText, h]
    exact (word_of_numeral hsign).append (by decide)
  · exact word_of_numeral h

theorem word_repr (n : Nat) : Word n.repr := word_of_numeral (DecimalStyle.numeral_toString n)

theorem word_corner (base index : UInt32) : Word (corner base index) := by
  have hn := word_repr (index + base + 1).toNat
  exact (((hn.append (by decide)).append hn).append (by decide)).append hn

theorem readable_headRows (s : TreeStats) : ∀ row ∈ headRows s, Readable row := by
  have hconst : Word "#" ∧ Word "Sylva" ∧ Word "OBJ" ∧ Word "Export" ∧ Word "Segments:" ∧ Word "Leaves:" ∧
      Word "Triangles:" ∧ Word "" := by decide
  simp [headRows, readable_cons, hconst, word_repr]

theorem readable_groupRows {name : String} (hname : Word name) (m : Mesh) (base : UInt32) :
    ∀ row ∈ groupRows name m base, Readable row := by
  have hconst : Word "o" ∧ Word "v" ∧ Word "vt" ∧ Word "vn" ∧ Word "f" ∧ Word "" := by decide
  unfold groupRows
  split
  · simp
  · intro row hrow
    simp only [vertexRows, faceRows, List.mem_cons, List.mem_append, List.mem_map, List.not_mem_nil, or_false] at hrow
    rcases hrow with rfl | ((((⟨v, -, rfl⟩ | ⟨uv, -, rfl⟩) | ⟨v, -, rfl⟩) | ⟨t, -, rfl⟩) | rfl)
    all_goals simp [readable_cons, hconst, hname, vectorWords, textureWords, faceWords, threeItems,
      word_numberText, word_corner]

/-- **The table is read back from the text.** -/
theorem rows_text (t : Tree) : rows (text t) = tableOf t ++ [[""]] := by
  rw [text_eq]
  refine rows_intercalate (by simp) fun row hrow => ?_
  have hnames : Word "branches" ∧ Word "leaves" ∧ Word "" := by decide
  rcases List.mem_append.mp hrow with hrow | hrow
  · rcases List.mem_append.mp hrow with hrow | hrow
    · rcases List.mem_append.mp hrow with hrow | hrow
      · exact readable_headRows t.stats row hrow
      · exact readable_groupRows hnames.1 _ _ row hrow
    · exact readable_groupRows hnames.2.1 _ _ row hrow
  · rw [List.mem_singleton.mp hrow]
    exact readable_cons.mpr ⟨hnames.2.2, by simp⟩

/-! ## What a group holds -/

theorem items_vertexRows (m : Mesh) :
    items "v" (vertexRows m) = (triples m.positions).toList.map vectorWords ∧
      items "vt" (vertexRows m) = (pairs m.uvs).toList.map textureWords ∧
      items "vn" (vertexRows m) = (triples m.normals).toList.map vectorWords ∧
      items "f" (vertexRows m) = [] ∧ items "o" (vertexRows m) = [] := by
  simp [vertexRows, items_append, items_map, items_map_ne]

theorem length_items_vertexRows {m : Mesh} {count : Nat} (h : m.Fits count) :
    ∀ keyword ∈ ["v", "vt", "vn"], (items keyword (vertexRows m)).length = count := by
  obtain ⟨hv, hvt, hvn, -⟩ := items_vertexRows m
  simp only [List.forall_mem_cons, hv, hvt, hvn, List.length_map, toList_triples, toList_pairs, length_inThrees,
    length_inTwos, Array.length_toList, h.positions, h.uvs, h.normals]
  refine ⟨by omega, by omega, by omega, fun _ hmem => absurd hmem List.not_mem_nil⟩

theorem items_faceRows (base : UInt32) (m : Mesh) :
    items "f" (faceRows base m) = (triples m.indices).toList.map (faceWords base) ∧
      ∀ keyword, keyword ≠ "f" → items keyword (faceRows base m) = [] :=
  ⟨items_map _ _, fun _ hne => items_map_ne hne.symm _ _⟩

theorem vertex_keyword : ∀ keyword ∈ ["v", "vt", "vn"],
    "#" ≠ keyword ∧ "" ≠ keyword ∧ "o" ≠ keyword ∧ keyword ≠ "f" := by decide

/-- **A mesh is in the file with all it has,** even if it has no group. -/
theorem items_groupRows {m : Mesh} {count : Nat} (h : m.Fits count) (name : String) (base : UInt32) :
    (∀ keyword ∈ ["v", "vt", "vn"], items keyword (groupRows name m base) = items keyword (vertexRows m)) ∧
      items "f" (groupRows name m base) = items "f" (faceRows base m) ∧
      items "o" (groupRows name m base) = if count = 0 then [] else [[name]] := by
  unfold groupRows
  split
  case isTrue hempty =>
    obtain rfl := h.isEmpty_iff.mp hempty
    obtain rfl := h.eq_empty
    simp [items, vertexRows, faceRows, Mesh.empty, triples, pairs]
  case isFalse hsome =>
    have hcount : count ≠ 0 := fun hzero => hsome (h.isEmpty_iff.mpr hzero)
    obtain ⟨-, -, -, hf, ho⟩ := items_vertexRows m
    obtain ⟨-, hother⟩ := items_faceRows base m
    have hbody : ∀ keyword, "o" ≠ keyword → "" ≠ keyword →
        items keyword (["o", name] :: (vertexRows m ++ faceRows base m ++ [[""]])) =
          items keyword (vertexRows m) ++ items keyword (faceRows base m) := by
      intro keyword hne hend
      rw [items_cons_ne hne, items_append, items_append, items_cons_ne hend]
      exact List.append_nil _
    refine ⟨fun keyword hkeyword => ?_, ?_, ?_⟩
    · obtain ⟨-, hend, hne, hface⟩ := vertex_keyword keyword hkeyword
      rw [hbody keyword hne hend, hother keyword hface, List.append_nil]
    · rw [hbody _ (by decide) (by decide), hf, List.nil_append]
    · rw [← List.singleton_append, items_append, items_append, items_append, ho, hother _ (by decide), if_neg hcount]
      rfl

/-! ## What a face says -/

/-- The vertex of a corner, counted from zero: its number must be given three times. -/
def readCorner (text : String) : Option Nat :=
  match (pieces '/' text).map fun piece => DecimalStyle.readDigits piece.toList with
  | [some (k + 1), some u, some n] => if u = k + 1 ∧ n = k + 1 then some k else none
  | _ => none

/-- The vertices of a triangle. -/
def readFace : List String → Option (Nat × Nat × Nat)
  | [a, b, c] => do return (← readCorner a, ← readCorner b, ← readCorner c)
  | _ => none

theorem corner_eq (base index : UInt32) :
    corner base index = "/".intercalate (List.replicate 3 (index + base + 1).toNat.repr) := by
  have hdef : corner base index = (index + base + 1).toNat.repr ++ "/" ++ (index + base + 1).toNat.repr ++ "/" ++
      (index + base + 1).toNat.repr := rfl
  rw [hdef, List.replicate, List.replicate, List.replicate, List.replicate]
  simp only [String.intercalate_cons_cons, String.intercalate_singleton, String.append_assoc]

/-- The pieces of a corner are its number, three times. -/
theorem pieces_corner (base index : UInt32) :
    pieces '/' (corner base index) = List.replicate 3 (index + base + 1).toNat.repr := by
  have hslash : '/' ∉ (index + base + 1).toNat.repr.toList := fun hc =>
    absurd (DecimalStyle.numeral_toString _ _ hc) (by decide)
  rw [corner_eq]
  exact pieces_intercalate (by simp) fun p hp => (List.eq_of_mem_replicate hp) ▸ hslash

theorem readCorner_corner {base index : UInt32} (h : index.toNat + base.toNat + 1 < 4294967296) :
    readCorner (corner base index) = some (index.toNat + base.toNat) := by
  have hnumber : (index + base + 1).toNat = index.toNat + base.toNat + 1 := by
    rw [UInt32.toNat_add, UInt32.toNat_add, UInt32.toNat_one]
    omega
  rw [readCorner, pieces_corner, List.map_replicate, DecimalStyle.readDigits_repr, hnumber]
  exact if_pos ⟨rfl, rfl⟩

/-- Corners are written with words, so none can name a vertex above them. -/
theorem lt_of_readCorner {base index : UInt32} {k : Nat} (h : readCorner (corner base index) = some k) :
    k + 1 < 4294967296 := by
  rw [readCorner, pieces_corner, List.map_replicate, DecimalStyle.readDigits_repr] at h
  have hlt := (index + base + 1).toNat_lt
  cases hnumber : (index + base + 1).toNat with
  | zero => rw [hnumber] at h; cases h
  | succ m =>
    rw [hnumber] at h hlt
    obtain rfl : m = k := Option.some.inj ((if_pos ⟨rfl, rfl⟩).symm.trans h)
    exact hlt

theorem lt_of_readFace {base : UInt32} {t : UInt32 × UInt32 × UInt32} {face : Nat × Nat × Nat}
    (h : readFace (faceWords base t) = some face) : ∀ x ∈ threeItems face, x + 1 < 4294967296 := by
  simp only [faceWords, threeItems, List.map_cons, List.map_nil, readFace, Option.bind_eq_bind, Option.bind_eq_some_iff,
    Option.pure_def, Option.some.injEq] at h
  obtain ⟨a, ha, b, hb, c, hc, rfl⟩ := h
  simp only [threeItems, List.forall_mem_cons]
  exact ⟨lt_of_readCorner ha, lt_of_readCorner hb, lt_of_readCorner hc, nofun⟩

theorem readFace_faceWords {base : UInt32} {count : Nat} (hcount : base.toNat + count < 4294967296)
    {t : UInt32 × UInt32 × UInt32} (h : ∀ i ∈ threeItems t, i.toNat < count) :
    readFace (faceWords base t) =
      some (t.1.toNat + base.toNat, t.2.1.toNat + base.toNat, t.2.2.toNat + base.toNat) := by
  have hcorner : ∀ i ∈ threeItems t, readCorner (corner base i) = some (i.toNat + base.toNat) := by
    intro i hi
    have := h i hi
    exact readCorner_corner (by omega)
  simp only [threeItems, List.forall_mem_cons] at hcorner
  obtain ⟨h1, h2, h3, -⟩ := hcorner
  simp only [faceWords, threeItems, List.map_cons, List.map_nil, readFace, h1, h2, h3]
  rfl

/-- **The faces of a group are read back,** counted on from its base. -/
theorem faces_groupRows {m : Mesh} {count : Nat} (h : m.Fits count) {base : UInt32}
    (hcount : base.toNat + count < 4294967296) (name : String) :
    (items "f" (groupRows name m base)).map readFace =
      m.triangles.map fun t => some (t.1 + base.toNat, t.2.1 + base.toNat, t.2.2 + base.toNat) := by
  obtain ⟨-, hf, -⟩ := items_groupRows h name base
  rw [hf, (items_faceRows base m).1, Mesh.triangles, List.map_map, List.map_map]
  refine List.map_congr_left fun t ht => readFace_faceWords hcount fun i hi => ?_
  rw [toList_triples] at ht
  exact h.index i (Array.mem_toList_iff.mp (mem_of_mem_inThrees ht i hi))

/-! ## What the file holds -/

theorem items_headRows (s : TreeStats) {keyword : String} (hhead : "#" ≠ keyword) (hend : "" ≠ keyword) :
    items keyword (headRows s) = [] := by
  simp [headRows, items, hhead, hend]

theorem items_text (t : Tree) {keyword : String} (hhead : "#" ≠ keyword) (hend : "" ≠ keyword) :
    items keyword (rows (text t)) =
      items keyword (groupRows "branches" t.branches 0) ++
        items keyword (groupRows "leaves" t.bakedLeaves (UInt32.ofNat t.branches.vertexCount)) := by
  have hlast : items keyword [[""]] = [] := items_cons_ne hend [] []
  rw [rows_text, tableOf, items_append, items_append, items_append, items_headRows t.stats hhead hend, hlast,
    List.nil_append, List.append_nil]

theorem mem_items_groupRows {name : String} {m : Mesh} {base : UInt32} {row : List String}
    (h : row ∈ items "f" (groupRows name m base)) : ∃ t, row = faceWords base t := by
  unfold groupRows at h
  split at h
  · cases h
  · obtain ⟨-, -, -, hf, -⟩ := items_vertexRows m
    have hend : items "f" [[""]] = [] := items_cons_ne (by decide) [] []
    rw [items_cons_ne (by decide), items_append, items_append, hf, hend, (items_faceRows base m).1, List.append_nil,
      List.nil_append] at h
    obtain ⟨t, -, rfl⟩ := List.mem_map.mp h
    exact ⟨t, rfl⟩

/-- **No face of a file can name a vertex beyond what words can number.** -/
theorem lt_of_mem_faces {t : Tree} {face : Nat × Nat × Nat}
    (h : some face ∈ (items "f" (rows (text t))).map readFace) : ∀ x ∈ threeItems face, x + 1 < 4294967296 := by
  obtain ⟨row, hrow, hface⟩ := List.mem_map.mp h
  rw [items_text t (by decide) (by decide)] at hrow
  rcases List.mem_append.mp hrow with hrow | hrow
  all_goals
    obtain ⟨words, rfl⟩ := mem_items_groupRows hrow
    exact lt_of_readFace hface

/-! ## What the numbers say -/

/-- **Every number of the file is read back as the single it was written for.** -/
theorem denotes_numberText (x : Float32) : DecimalStyle.Denotes (numberText x) x.binary :=
  DecimalStyle.denotes_text (ofFormat_single x) (by decide) (by decide) (by decide)

end Obj
end Arbor
