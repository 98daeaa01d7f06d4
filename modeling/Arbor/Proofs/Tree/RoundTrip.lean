import Arbor.Export
import Arbor.Proofs.Definition.RoundTrip
import Arbor.Proofs.Json.Document
import Arbor.Proofs.Json.Single
import Arbor.Proofs.Tree.Numbering

/-!
# Trees written and read back

The file of a grown tree is a document that holds every entry of its buffers: as a number that is read as this single, or
as null if the entry is not finite (`Json.Holds`). So a tree is read back from its file exactly if all of its entries are
finite, and else the file is refused (`Tree.json_reread`).

An accepted plan has finite settings, but its settings are doubles and the entries are singles, and what is beyond all
singles is rounded to an infinity. So accepted plans grow trees that are not read back (`Tree.json_reread_frond`).
-/

namespace Arbor

open Json

/-! ## Parts of a document -/

namespace Json

/-- The value of the first member of a name. -/
def member? (name : String) : Json → Option Json
  | .object members _ => members.findSome? fun
    | (.ok n, v) => if n = name then some v else none
    | (.error _, _) => none
  | _ => none

/-- The value at a path of names. -/
def at? (path : List String) (v : Json) : Option Json := path.foldlM (fun v name => v.member? name) v

theorem at?_pair {v w : Json} {name : String} (h : v.member? name = some w) (part : String) :
    v.at? [name, part] = w.member? part := by
  simp [at?, h]

/-! ## Singles -/

/-- A single is there as a number that is read as this single, or it is not finite and null. -/
def Holds (x : Float32) (v : Json) : Prop :=
  (x.isFinite = true ∧ v.single? = .ok x) ∨ (x.isFinite = false ∧ v = .null)

theorem readsAs_single (x : Float32) : ∃ v, ReadsAs (.single x) v ∧ Holds x v := by
  cases hx : x.isFinite with
  | true =>
    obtain ⟨v, hv, hspelled⟩ := Token.spelled_single hx
    refine ⟨.number v, ?_, Or.inl ⟨hx, ?_⟩⟩
    · rw [Json.single, if_pos hx]
      exact .number hspelled
    · rw [← hv]
      rfl
  | false =>
    refine ⟨.null, ?_, Or.inr ⟨hx, rfl⟩⟩
    rw [Json.single, if_neg (by simp [hx])]
    exact .null

theorem readsAs_natural {n : Nat} (hn : n < UInt64.size) : ReadsAs (.natural n) (.natural n) :=
  .number (Token.spelled_natural (Nat.le_pred_of_lt hn))

/-- A buffer is read back entry by entry. -/
theorem readsAs_buffer (buffer : Array Float32) :
    ∃ items, ReadsAs (Mesh.bufferToJson buffer) (.list items) ∧ List.Forall₂ Holds buffer.toList items := by
  have hentries : ∀ xs : List Float32, ∃ items, List.Forall₂ ReadsAs (xs.map Json.single) items ∧
      List.Forall₂ Holds xs items := by
    intro xs
    induction xs with
    | nil => exact ⟨[], .nil, .nil⟩
    | cons x xs ih =>
      obtain ⟨v, hreads, hholds⟩ := readsAs_single x
      obtain ⟨items, hreads', hholds'⟩ := ih
      exact ⟨v :: items, .cons hreads hreads', .cons hholds hholds'⟩
  obtain ⟨items, hreads, hholds⟩ := hentries buffer.toList
  exact ⟨items, .list hreads, hholds⟩

/-- What is not finite is null. -/
theorem null_mem_of_holds {xs : List Float32} {items : List Json} (h : List.Forall₂ Holds xs items) {x : Float32}
    (hx : x ∈ xs) (hinfinite : ¬x.isFinite = true) : Json.null ∈ items := by
  induction h with
  | nil => cases hx
  | @cons y v xs items hy hs ih =>
    rcases List.mem_cons.mp hx with rfl | hx
    · rcases hy with ⟨hfinite, -⟩ | ⟨-, rfl⟩
      · exact absurd hfinite hinfinite
      · exact List.mem_cons_self
    · exact List.mem_cons_of_mem _ (ih hx)

theorem array?_single?_of_holds {xs : List Float32} {items : List Json} (h : List.Forall₂ Holds xs items) :
    array? single? (.list items) = if ∀ x ∈ xs, x.isFinite = true then .ok xs else .error .mismatched := by
  have hmap : items.mapM single? = if ∀ x ∈ xs, x.isFinite = true then .ok xs else .error .mismatched := by
    induction h with
    | nil => rfl
    | @cons x v xs items hx hs ih =>
      rw [List.mapM_cons, ih]
      rcases hx with ⟨hfinite, hread⟩ | ⟨hfinite, rfl⟩
      · rw [hread]
        simp only [List.forall_mem_cons, hfinite, true_and]
        split <;> rfl
      · have hnot : ¬∀ y ∈ x :: xs, y.isFinite = true := fun hall => by
          rw [hall x List.mem_cons_self] at hfinite
          cases hfinite
        exact (if_neg hnot).symm
  show (items.mapM single? >>= fun values => closed none >>= fun _ => pure values) = _
  rw [hmap]
  split <;> rfl

end Json

theorem ite_bind {β γ : Type} {accepted : Prop} [Decidable accepted] (r : Except JsonFault β) (e : JsonFault)
    (f : β → Except JsonFault γ) :
    ((if accepted then r else .error e) >>= f) = if accepted then r >>= f else .error e := by
  split <;> rfl

theorem ok_bind {β γ : Type} (x : β) (f : β → Except JsonFault γ) : (Except.ok x >>= f) = f x := rfl

/-! ## Sections -/

namespace Mesh

/-- All entries are finite. -/
def Finite (m : Mesh) : Prop :=
  (∀ x ∈ m.positions.toList, x.isFinite = true) ∧ (∀ x ∈ m.normals.toList, x.isFinite = true) ∧
    ∀ x ∈ m.uvs.toList, x.isFinite = true

instance (m : Mesh) : Decidable m.Finite := inferInstanceAs (Decidable (_ ∧ _ ∧ _))

/-- What is read of a mesh: its buffers of singles, and its indices. -/
def Back (m : Mesh) (v : Json) : Prop :=
  ∃ positions normals uvs, v = .record [("positions", .list positions), ("normals", .list normals), ("uvs", .list uvs),
      ("indices", .list (m.indices.toList.map fun i => .natural i.toNat))] ∧
    List.Forall₂ Holds m.positions.toList positions ∧ List.Forall₂ Holds m.normals.toList normals ∧
    List.Forall₂ Holds m.uvs.toList uvs

theorem readsAs (m : Mesh) : ∃ v, ReadsAs m.toJson v ∧ m.Back v := by
  obtain ⟨positions, hpositions, hpositions'⟩ := readsAs_buffer m.positions
  obtain ⟨normals, hnormals, hnormals'⟩ := readsAs_buffer m.normals
  obtain ⟨uvs, huvs, huvs'⟩ := readsAs_buffer m.uvs
  have hindices : ReadsAs (.list (m.indices.toList.map fun i => .natural i.toNat))
      (.list (m.indices.toList.map fun i => .natural i.toNat)) := by
    refine .list (List.forall₂_same.mpr fun v hv => ?_)
    obtain ⟨i, -, rfl⟩ := List.mem_map.mp hv
    exact readsAs_natural (i.toNat_lt.trans (by decide))
  refine ⟨_, @ReadsAs.record _ [_, _, _, _] ?_, ⟨positions, normals, uvs, rfl, hpositions', hnormals', huvs'⟩⟩
  exact .cons ⟨rfl, hpositions⟩ (.cons ⟨rfl, hnormals⟩ (.cons ⟨rfl, huvs⟩ (.cons ⟨rfl, hindices⟩ .nil)))

theorem nodup_fields : (fields.map Field.name).Nodup := by decide

/-- **A mesh is read back if all its entries are finite,** and refused otherwise. -/
theorem Back.ofJson_eq {m : Mesh} {v : Json} (h : m.Back v) :
    ofJson v = if m.Finite then .ok m else .error .mismatched := by
  obtain ⟨positions, normals, uvs, rfl, hpositions, hnormals, huvs⟩ := h
  have hindices : array? word? (.list (m.indices.toList.map fun i => .natural i.toNat)) =
      .ok (m.indices.toList.map UInt32.toNat) := by
    have hmap : (m.indices.toList.map fun i => Json.natural i.toNat) = (m.indices.toList.map UInt32.toNat).map .natural := by
      rw [List.map_map]
      rfl
    rw [hmap]
    refine array?_list fun n hn => ?_
    obtain ⟨i, -, rfl⟩ := List.mem_map.mp hn
    exact below?_natural i.toNat_lt
  have hwords : ((m.indices.toList.map UInt32.toNat).map UInt32.ofNat).toArray = m.indices := by
    rw [List.map_map]
    have hid : UInt32.ofNat ∘ UInt32.toNat = id := funext fun i => UInt32.ofNat_toNat
    rw [hid, List.map_id, Array.toArray_toList]
  generalize (m.indices.toList.map fun i => Json.natural i.toNat) = indices at hindices ⊢
  have hread : ofJson (.record [("positions", .list positions), ("normals", .list normals), ("uvs", .list uvs),
      ("indices", .list indices)]) =
      Field.readItems none empty fields [.list positions, .list normals, .list uvs, .list indices] :=
    record?_record nodup_fields [.list positions, .list normals, .list uvs, .list indices] rfl
  rw [hread]
  simp only [fields, Field.readItems, Field.required, array?_single?_of_holds hpositions,
    array?_single?_of_holds hnormals, array?_single?_of_holds huvs, hindices]
  simp only [pure_bind, ite_bind, ok_bind, closed, hwords, ← ite_and]
  exact if_congr Iff.rfl rfl rfl

/-- The buffers of a mesh, with their places in a document. -/
def slots (name : String) (m : Mesh) : List (List String × Array Float32) :=
  [([name, "positions"], m.positions), ([name, "normals"], m.normals), ([name, "uvs"], m.uvs)]

/-- The buffers are found at their places. -/
theorem Back.holds {m : Mesh} {v document : Json} (h : m.Back v) {name : String}
    (hmember : document.member? name = some v) : ∀ slot ∈ m.slots name, ∃ items,
      document.at? slot.1 = some (.list items) ∧ List.Forall₂ Holds slot.2.toList items := by
  obtain ⟨positions, normals, uvs, rfl, hpositions, hnormals, huvs⟩ := h
  have hat : ∀ part, document.at? [name, part] = _ := fun part => at?_pair hmember part
  simp only [slots, List.forall_mem_cons, List.not_mem_nil, false_imp_iff, implies_true, and_true, hat]
  exact ⟨⟨positions, rfl, hpositions⟩, ⟨normals, rfl, hnormals⟩, ⟨uvs, rfl, huvs⟩⟩

end Mesh

namespace Foliage

/-- All entries are finite. -/
def Finite (f : Foliage) : Prop :=
  (∀ x ∈ f.matrices.toList, x.isFinite = true) ∧ ∀ x ∈ f.colors.toList, x.isFinite = true

instance (f : Foliage) : Decidable f.Finite := inferInstanceAs (Decidable (_ ∧ _))

/-- What is read of a foliage: its buffers of singles, and its count. -/
def Back (f : Foliage) (v : Json) : Prop :=
  ∃ matrices colors, v = .record [("matrices", .list matrices), ("colors", .list colors), ("count", .natural f.count)] ∧
    List.Forall₂ Holds f.matrices.toList matrices ∧ List.Forall₂ Holds f.colors.toList colors

theorem readsAs {f : Foliage} (hcount : f.count < UInt64.size) : ∃ v, ReadsAs f.toJson v ∧ f.Back v := by
  obtain ⟨matrices, hmatrices, hmatrices'⟩ := readsAs_buffer f.matrices
  obtain ⟨colors, hcolors, hcolors'⟩ := readsAs_buffer f.colors
  refine ⟨_, @ReadsAs.record _ [_, _, _] ?_, ⟨matrices, colors, rfl, hmatrices', hcolors'⟩⟩
  exact .cons ⟨rfl, hmatrices⟩ (.cons ⟨rfl, hcolors⟩ (.cons ⟨rfl, readsAs_natural hcount⟩ .nil))

theorem nodup_fields : (fields.map Field.name).Nodup := by decide

/-- **A foliage is read back if all its entries are finite,** and refused otherwise. -/
theorem Back.ofJson_eq {f : Foliage} {v : Json} (h : f.Back v) (hcount : f.count < UInt64.size) :
    ofJson v = if f.Finite then .ok f else .error .mismatched := by
  obtain ⟨matrices, colors, rfl, hmatrices, hcolors⟩ := h
  refine (record?_record nodup_fields [.list matrices, .list colors, .natural f.count] rfl).trans ?_
  simp only [fields, Field.readItems, Field.required, array?_single?_of_holds hmatrices,
    array?_single?_of_holds hcolors, count?, below?_natural hcount]
  simp only [pure_bind, ite_bind, ok_bind, closed, ← ite_and]
  exact if_congr Iff.rfl rfl rfl

end Foliage

namespace TreeStats

/-- The counts. -/
def counts (s : TreeStats) : List Nat := [s.triangles, s.segments, s.leaves, s.symbols, s.nodes]

theorem readsAs {s : TreeStats} (hcounts : ∀ n ∈ s.counts, n < UInt64.size) : ReadsAs s.toJson s.toJson := by
  simp only [counts, List.forall_mem_cons] at hcounts
  obtain ⟨htriangles, hsegments, hleaves, hsymbols, hnodes, -⟩ := hcounts
  exact ReadsAs.record (.cons ⟨rfl, readsAs_natural htriangles⟩ (.cons ⟨rfl, readsAs_natural hsegments⟩
    (.cons ⟨rfl, readsAs_natural hleaves⟩ (.cons ⟨rfl, readsAs_natural hsymbols⟩
      (.cons ⟨rfl, readsAs_natural hnodes⟩ .nil)))))

theorem nodup_fields : (fields.map Field.name).Nodup := by decide

theorem ofJson_toJson {s : TreeStats} (hcounts : ∀ n ∈ s.counts, n < UInt64.size) : ofJson s.toJson = .ok s := by
  simp only [counts, List.forall_mem_cons] at hcounts
  refine (record?_record nodup_fields (s.counts.map Json.natural) rfl).trans ?_
  simp only [counts, fields, List.map_cons, List.map_nil, Field.readItems, Field.required, count?, below?_natural,
    hcounts]
  rfl

end TreeStats

/-! ## Trees -/

namespace Tree

/-- The buffers of singles, with their places in a document. -/
def slots (t : Tree) : List (List String × Array Float32) :=
  t.branches.slots "branch_geometry" ++ (t.leaf.map (Mesh.slots "leaf_geometry")).getD [] ++
    [(["leaf_instances", "matrices"], t.foliage.matrices), (["leaf_instances", "colors"], t.foliage.colors)]

/-- All entries of all buffers are finite. -/
def Finite (t : Tree) : Prop := ∀ slot ∈ t.slots, ∀ x ∈ slot.2.toList, x.isFinite = true

instance (t : Tree) : Decidable t.Finite := inferInstanceAs (Decidable (∀ slot ∈ t.slots, _))

theorem finite_iff (t : Tree) : t.Finite ↔ t.branches.Finite ∧ (∀ m ∈ t.leaf, m.Finite) ∧ t.foliage.Finite := by
  unfold Finite slots
  cases t.leaf <;> simp [Mesh.slots, Mesh.Finite, Foliage.Finite, and_assoc]

/-- The counts. -/
def counts (t : Tree) : List Nat := t.foliage.count :: t.stats.counts

/-- What is read of a tree: its meshes, its foliage and its counts. -/
def Back (t : Tree) (v : Json) : Prop :=
  ∃ branches leaf foliage, v = .record [("branch_geometry", branches), ("leaf_geometry", leaf),
      ("leaf_instances", foliage), ("stats", t.stats.toJson)] ∧ t.branches.Back branches ∧
    (match t.leaf with | none => leaf = .null | some m => m.Back leaf) ∧ t.foliage.Back foliage

theorem readsAs {t : Tree} (hcounts : ∀ n ∈ t.counts, n < UInt64.size) : ∃ v, ReadsAs t.toJson v ∧ t.Back v := by
  obtain ⟨hcount, hstats⟩ := List.forall_mem_cons.mp hcounts
  obtain ⟨branches, hbranches, hbranches'⟩ := t.branches.readsAs
  obtain ⟨foliage, hfoliage, hfoliage'⟩ := Foliage.readsAs hcount
  obtain ⟨leaf, hleaf, hleaf'⟩ : ∃ leaf, ReadsAs (match t.leaf with | none => .null | some m => m.toJson) leaf ∧
      (match t.leaf with | none => leaf = .null | some m => m.Back leaf) := by
    cases t.leaf with
    | none => exact ⟨.null, .null, rfl⟩
    | some m => exact m.readsAs
  refine ⟨_, @ReadsAs.record _ [_, _, _, _] ?_, ⟨branches, leaf, foliage, rfl, hbranches', hleaf', hfoliage'⟩⟩
  exact .cons ⟨rfl, hbranches⟩ (.cons ⟨rfl, hleaf⟩ (.cons ⟨rfl, hfoliage⟩ (.cons ⟨rfl, TreeStats.readsAs hstats⟩ .nil)))

theorem nodup_fields : (fields.map Field.name).Nodup := by decide

theorem option?_leaf {leaf : Option Mesh} {v : Json}
    (h : match leaf with | none => v = .null | some m => m.Back v) :
    option? Mesh.ofJson v = if ∀ m ∈ leaf, m.Finite then .ok leaf else .error .mismatched := by
  cases leaf with
  | none =>
    obtain rfl : v = .null := h
    rw [if_pos (by simp)]
    rfl
  | some m =>
    have hback : m.Back v := h
    have hread := hback.ofJson_eq
    obtain ⟨positions, normals, uvs, rfl, -⟩ := hback
    rw [@option?_of_ne_null _ _ (.record _) nofun, hread, ite_bind]
    exact if_congr (by simp) rfl rfl

/-- **A tree is read back if all its entries are finite,** and refused otherwise. -/
theorem Back.ofJson_eq {t : Tree} {v : Json} (h : t.Back v) (hcounts : ∀ n ∈ t.counts, n < UInt64.size) :
    (t.Finite → ofJson v = .ok t) ∧ (¬t.Finite → ofJson v = .error .mismatched) := by
  obtain ⟨hcount, hstats⟩ := List.forall_mem_cons.mp hcounts
  obtain ⟨branches, leaf, foliage, rfl, hbranches, hleaf, hfoliage⟩ := h
  have hread : ofJson (.record [("branch_geometry", branches), ("leaf_geometry", leaf), ("leaf_instances", foliage),
      ("stats", t.stats.toJson)]) =
        if t.branches.Finite ∧ (∀ m ∈ t.leaf, m.Finite) ∧ t.foliage.Finite then .ok t else .error .mismatched := by
    refine (record?_record nodup_fields [branches, leaf, foliage, t.stats.toJson] rfl).trans ?_
    simp only [fields, Field.readItems, Field.required, hbranches.ofJson_eq, option?_leaf hleaf,
      hfoliage.ofJson_eq hcount, TreeStats.ofJson_toJson hstats]
    simp only [pure_bind, ite_bind, ok_bind, closed, ← ite_and]
    exact if_congr Iff.rfl rfl rfl
  rw [hread, finite_iff]
  exact ⟨fun h => if_pos h, fun h => if_neg h⟩

/-- The buffers are found at their places. -/
theorem Back.holds {t : Tree} {v : Json} (h : t.Back v) : ∀ slot ∈ t.slots, ∃ items,
    v.at? slot.1 = some (.list items) ∧ List.Forall₂ Holds slot.2.toList items := by
  obtain ⟨branches, leaf, foliage, rfl, hbranches, hleaf, ⟨matrices, colors, rfl, hmatrices, hcolors⟩⟩ := h
  simp only [slots, List.forall_mem_append, List.forall_mem_cons, List.not_mem_nil, false_imp_iff, implies_true,
    and_true]
  refine ⟨⟨hbranches.holds rfl, ?_⟩, ⟨matrices, rfl, hmatrices⟩, ⟨colors, rfl, hcolors⟩⟩
  cases hsome : t.leaf with
  | none => simp
  | some m =>
    rw [hsome] at hleaf
    exact hleaf.holds rfl

/-- **The file of a tree is a document that holds all entries of its buffers,** null for those that are not finite. It
is read as the tree if all of them are finite, and refused otherwise. -/
theorem ofText_render {t : Tree} (hcounts : ∀ n ∈ t.counts, n < UInt64.size) :
    (∀ slot ∈ t.slots, ∃ items, (Document.ofText (Format.json.render t)).root.at? slot.1 = some (.list items) ∧
      List.Forall₂ Holds slot.2.toList items) ∧
    (t.Finite → ofText (Format.json.render t) = .ok t) ∧
    (¬t.Finite → ofText (Format.json.render t) = .error (.json .mismatched)) := by
  obtain ⟨v, hreads, hback⟩ := readsAs hcounts
  have hdocument : Document.ofText (Format.json.render t) = ⟨v, false⟩ := hreads.ofText_pretty
  obtain ⟨hfinite, hinfinite⟩ := hback.ofJson_eq hcounts
  simp only [ofText, hdocument]
  refine ⟨hback.holds, fun h => ?_, fun h => ?_⟩
  · simp only [Document.decode, hfinite h]
    rfl
  · simp only [Document.decode, hinfinite h]
    rfl

theorem triangles_ofSkeleton (p : Plan Float) (s : Skeleton Float) (symbols : Nat) :
    (ofSkeleton p s symbols).stats.triangles =
      2 * p.bark.radialSegments * s.drawn.length + 2 * p.leafShape.rows * s.leaves.size := by
  obtain ⟨hcounted, -⟩ := triangleCount_leaves p s symbols
  rw [← hcounted, ← Branch.triangleCount_mesh]
  rfl

theorem triangles_lt {p : Plan Float} {s : Skeleton Float} {symbols : Nat} (h : p.skeleton = .ok (s, symbols))
    (hrings : p.bark.radialSegments < UInt32.size) (hrows : p.leafShape.segments < UInt32.size) :
    (ofSkeleton p s symbols).stats.triangles < UInt64.size := by
  have hlimit : s.segments.size + s.leaves.size ≤ 2000000 := Skeleton.size_le_of_plan h
  have hrings : p.bark.radialSegments < 4294967296 := hrings
  have hone : p.leafShape.rows ≤ 4294967296 := max_le hrows.le (by decide)
  have hbranches : 2 * p.bark.radialSegments * s.segments.size ≤ 8589934592 * 2000000 :=
    Nat.mul_le_mul (by omega) (by omega)
  have hleaves : 2 * p.leafShape.rows * s.leaves.size ≤ 8589934592 * 2000000 := Nat.mul_le_mul (by omega) (by omega)
  have hsize : UInt64.size = 18446744073709551616 := rfl
  rw [triangles_ofSkeleton, Skeleton.length_drawn_of_plan h]
  omega

/-- Words hold the counts of a grown tree. -/
theorem counts_lt {p : Plan Float} {t : Tree} (h : Tree.ofPlan p = .ok t) (hrings : p.bark.radialSegments < UInt32.size)
    (hrows : p.leafShape.segments < UInt32.size) : ∀ n ∈ t.counts, n < UInt64.size := by
  obtain ⟨sentence, hsentence, rfl⟩ := ofPlan_eq_ok_iff.mp h
  obtain ⟨s, hs⟩ : ∃ s, Skeleton.ofSentence p.gait sentence = s := ⟨_, rfl⟩
  have hskeleton : p.skeleton = .ok (s, sentence.length) := Plan.skeleton_eq_ok_iff.mpr ⟨sentence, hsentence, hs, rfl⟩
  have hlimit : s.segments.size + s.leaves.size ≤ 2000000 := Skeleton.size_le_of_plan hskeleton
  have hsymbols : sentence.length ≤ 2000000 :=
    Grammar.length_le_of_expandWithin p.grammar (Plan.sentence_eq_ok_iff.mp hsentence).2
  have hnodes : s.nodes.size = s.segments.size + 1 := by
    rw [← hs, Skeleton.size_nodes_ofSentence, Skeleton.size_segments_ofSentence]
  have hfoliage : (ofSkeleton p s sentence.length).foliage.count = s.leaves.size :=
    (Foliage.count_ofLeaves _ _ _).trans Array.length_toList
  have hcounts : (ofSkeleton p s sentence.length).counts = [s.leaves.size,
      (ofSkeleton p s sentence.length).stats.triangles, s.segments.size, s.leaves.size, sentence.length, s.nodes.size] :=
    congrArg (· :: _) hfoliage
  have hsize : UInt64.size = 18446744073709551616 := rfl
  rw [hs, hcounts]
  simp only [List.forall_mem_cons, List.not_mem_nil, false_imp_iff, implies_true, and_true]
  exact ⟨by omega, triangles_lt hskeleton hrings hrows, by omega, by omega, by omega, by omega⟩

theorem ofPlan_of_skeleton {p : Plan Float} {s : Skeleton Float} {symbols : Nat} (h : p.skeleton = .ok (s, symbols)) :
    Tree.ofPlan p = .ok (ofSkeleton p s symbols) := by
  rw [Tree.ofPlan, h]
  rfl

theorem leaf_ofSkeleton (p : Plan Float) {s : Skeleton Float} (h : s.leaves.size ≠ 0) (symbols : Nat) :
    (ofSkeleton p s symbols).leaf = some p.leafShape.mesh :=
  if_neg (by rwa [Array.isEmpty_iff_size_eq_zero])

/-- **The file of a grown tree is read back exactly if every entry of its buffers is finite.** Each entry is in the file,
and one that is not finite is there as null, for which the file is refused. -/
theorem json_reread {p : Plan Float} {t : Tree} (h : Tree.ofPlan p = .ok t)
    (hrings : p.bark.radialSegments < UInt32.size) (hrows : p.leafShape.segments < UInt32.size) :
    (∀ slot ∈ t.slots, ∃ items, (Document.ofText (Format.json.render t)).root.at? slot.1 = some (.list items) ∧
      List.Forall₂ Holds slot.2.toList items) ∧
    (t.Finite → ofText (Format.json.render t) = .ok t) ∧
    (¬t.Finite → ofText (Format.json.render t) = .error (.json .mismatched)) :=
  ofText_render (counts_lt h hrings hrows)

/-- One symbol that does nothing. -/
def bud : Plan Float := .ofGrammar ⟨"X", [], .standard⟩ 0

/-- The file of the offshoot holds its eight buffers, and the file of the bud is read back. -/
theorem json_reread_offshoot :
    (∃ t, Tree.ofPlan offshoot = .ok t ∧ t.slots.length = 8 ∧ ∀ slot ∈ t.slots, ∃ items,
      (Document.ofText (Format.json.render t)).root.at? slot.1 = some (.list items) ∧
        List.Forall₂ Holds slot.2.toList items) ∧
    ∃ t, Tree.ofPlan bud = .ok t ∧ t.Finite ∧ ofText (Format.json.render t) = .ok t := by
  constructor
  · obtain ⟨s, hs, -, hleaves⟩ := Skeleton.exists_of_counts offshoot 8 3 2 (by decide +kernel)
    have hgrown : Tree.ofPlan offshoot = .ok (ofSkeleton offshoot s 8) := ofPlan_of_skeleton hs
    have hslots : (ofSkeleton offshoot s 8).slots.length = 8 := by
      rw [slots, leaf_ofSkeleton _ (by omega)]
      rfl
    exact ⟨_, hgrown, hslots, (json_reread hgrown (by decide) (by decide)).1⟩
  · have hgrown : Tree.ofPlan bud = .ok (ofSkeleton bud (.ofSentence bud.gait [.bare 'X']) 1) := rfl
    have hfinite : (ofSkeleton bud (.ofSentence bud.gait [.bare 'X']) 1).Finite := by decide +kernel
    exact ⟨_, hgrown, hfinite, (json_reread hgrown (by decide) (by decide)).2.1 hfinite⟩

/-- One leaf, longer than any single. -/
def frond : Plan Float :=
  { Plan.ofGrammar ⟨"L", [], .standard⟩ 0 with leafShape := { LeafShape.standard with length := 1e300 } }

/-- The plan of the frond is accepted and its tree grows, but its file holds nulls for positions of the leaf and is not
read back. -/
theorem json_reread_frond : frond.check = .ok () ∧ ∃ t, Tree.ofPlan frond = .ok t ∧ ¬t.Finite ∧
    (∃ items, (Document.ofText (Format.json.render t)).root.at? ["leaf_geometry", "positions"] = some (.list items) ∧
      Json.null ∈ items) ∧
    ofText (Format.json.render t) = .error (.json .mismatched) := by
  obtain ⟨s, hs, -, hleaves⟩ := Skeleton.exists_of_counts frond 1 0 1 (by decide +kernel)
  have hgrown : Tree.ofPlan frond = .ok (ofSkeleton frond s 1) := ofPlan_of_skeleton hs
  have hslot : (["leaf_geometry", "positions"], frond.leafShape.mesh.positions) ∈ (ofSkeleton frond s 1).slots := by
    rw [slots, leaf_ofSkeleton _ (by omega)]
    exact List.mem_append_left _ (List.mem_append_right _ List.mem_cons_self)
  obtain ⟨x, hx, hinfinite⟩ : ∃ x ∈ frond.leafShape.mesh.positions.toList, ¬x.isFinite = true := by
    have hany : (frond.leafShape.mesh.positions.toList.any fun x => !x.isFinite) = true := by decide +kernel
    simpa using List.any_eq_true.mp hany
  obtain ⟨hslots, -, hrefused⟩ := ofText_render (counts_lt hgrown (by decide) (by decide))
  have hnot : ¬(ofSkeleton frond s 1).Finite := fun h => hinfinite (h _ hslot x hx)
  obtain ⟨items, hitems, hholds⟩ := hslots _ hslot
  exact ⟨Except.eq_ok_of_toBool (by decide +kernel), _, hgrown, hnot,
    ⟨items, hitems, null_mem_of_holds hholds hx hinfinite⟩, hrefused hnot⟩

end Tree
end Arbor
