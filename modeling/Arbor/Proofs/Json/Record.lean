import Arbor.Json.Decode
import Arbor.Proofs.Acceptance
import Mathlib.Data.List.Basic
import Mathlib.Data.List.Nodup

/-!
# Reading records

A record is an object, or an array of its fields in their order, and both are read alike: an object that has all fields
in their order is read as the array of their values (`Json.record?_record`).

What a record says about a field, and what it leaves out, is described by three relations between two records, with what
becomes of the reading:

* one has a field more (`Json.Extends`, `Json.record?_extends`): its value is set;
* one spells out a field that the other leaves out, with the value that it has anyway (`Json.SpellsOut`,
  `Json.record?_spellsOut`): nothing changes;
* one has another value in a field (`Json.Exchanges`, `Json.record?_exchanges`): nothing changes if the field takes both
  alike.

All of them need that no field gets in the way of another (`Json.Field.Independent`).
-/

namespace Arbor

namespace Json

variable {σ : Type} {fields : List (Field σ)} {fault : Option JsonFault} {name : String} {v : Json} {s start : σ}

namespace Field

/-! ## Members and items, one by one -/

/-- The field of a name. -/
theorem find?_name (hnames : (fields.map Field.name).Nodup) {f : Field σ} (hf : f ∈ fields) :
    fields.find? (·.name == f.name) = some f := by
  obtain ⟨before, after, rfl⟩ := List.append_of_mem hf
  rw [List.map_append, List.map_cons, List.nodup_append] at hnames
  refine List.find?_eq_some_iff_append.mpr ⟨beq_self_eq_true _, before, after, rfl, fun g hg => ?_⟩
  rw [Bool.not_eq_true', beq_eq_false_iff_ne]
  exact hnames.2.2 g.name (List.mem_map_of_mem hg) f.name List.mem_cons_self

theorem readMembers_nil (seen : List String) : readMembers fields fault seen s [] =
    closed fault >>= fun _ =>
      if fields.all fun f => !f.inObject || seen.contains f.name then .ok s else .error .mismatched := rfl

/-- A member of unknown name is passed over. -/
theorem readMembers_unknown (hf : fields.find? (·.name == name) = none) (seen : List String) (rest : List (Key × Json)) :
    readMembers fields fault seen s ((.ok name, v) :: rest) =
      v.skip >>= fun _ => readMembers fields fault seen s rest := by
  rw [readMembers]
  dsimp only [bind, Except.bind]
  rw [hf]

/-- A member of known name is set, unless there has been one of its name. -/
theorem readMembers_known {f : Field σ} (hf : fields.find? (·.name == name) = some f) (seen : List String)
    (rest : List (Key × Json)) : readMembers fields fault seen s ((.ok name, v) :: rest) =
      if seen.contains name then .error .mismatched
      else f.set s v >>= fun s => readMembers fields fault (name :: seen) s rest := by
  rw [readMembers]
  dsimp only [bind, Except.bind]
  rw [hf]
  cases seen.contains name <;> rfl

/-- Where the items end, the fields that are left have to be ones that may be left out. -/
theorem readItems_nil (fields : List (Field σ)) (s : σ) : readItems fault s fields [] =
    closed fault >>= fun _ => if fields.all fun f => !f.inArray then .ok s else .error .mismatched := by
  induction fields with
  | nil => rfl
  | cons f fields ih =>
    unfold readItems
    rw [ih, List.all_cons]
    cases fault with
    | some e => rfl
    | none => cases f.inArray <;> rfl

/-- A change to a record goes through the end of its container. -/
theorem map_closed_bind (φ : σ → σ) (accepted : Bool) (e : JsonFault) :
    φ <$> (closed fault >>= fun _ => if accepted then .ok s else .error e) =
      closed fault >>= fun _ => if accepted then .ok (φ s) else .error e := by
  rw [map_bind]
  cases accepted <;> rfl

/-! ## Records in full -/

theorem readMembers_zip {todo : List (Field σ)} : ∀ (done : List (Field σ)) {seen : List String} {values : List Json}
    {s : σ}, ((done ++ todo).map Field.name).Nodup → (∀ n, seen.contains n = true ↔ n ∈ done.map Field.name) →
    values.length = todo.length →
    readMembers (done ++ todo) none seen s (((todo.map Field.name).zip values).map fun (name, v) => (.ok name, v)) =
      readItems none s todo values := by
  induction todo with
  | nil =>
    intro done seen values s _ hseen hlength
    obtain rfl := List.eq_nil_of_length_eq_zero hlength
    have hall : (done ++ []).all (fun f => !f.inObject || seen.contains f.name) = true := by
      refine List.all_eq_true.mpr fun f hf => ?_
      rw [List.append_nil] at hf
      rw [(hseen f.name).mpr (List.mem_map_of_mem hf), Bool.or_true]
    rw [List.map_nil, List.zip_nil_left, List.map_nil, readMembers_nil, if_pos hall]
    rfl
  | cons f todo ih =>
    intro done seen values s hnames hseen hlength
    obtain ⟨v, values, rfl⟩ := List.exists_cons_of_length_eq_add_one hlength
    have hfind := find?_name hnames (List.mem_append_right done List.mem_cons_self)
    have hnew : ¬seen.contains f.name = true := by
      rw [hseen]
      rw [List.map_append, List.map_cons, List.nodup_append] at hnames
      exact fun hdone => hnames.2.2 f.name hdone f.name List.mem_cons_self rfl
    rw [List.map_cons, List.zip_cons_cons, List.map_cons, readMembers_known hfind, if_neg hnew]
    have hsplit : done ++ f :: todo = (done ++ [f]) ++ todo := by rw [List.append_assoc, List.singleton_append]
    have hseen' : ∀ n, (f.name :: seen).contains n = true ↔ n ∈ (done ++ [f]).map Field.name := by
      intro n
      rw [List.contains_cons, Bool.or_eq_true, hseen, List.map_append, List.mem_append, beq_iff_eq, or_comm]
      simp
    show (f.set s v >>= fun s => _) = f.set s v >>= fun s => readItems none s todo values
    refine congrArg (f.set s v >>= ·) (funext fun s' => ?_)
    rw [hsplit] at hnames ⊢
    exact ih (done ++ [f]) hnames hseen' (Nat.succ.inj hlength)

/-! ## Fields that do not get in the way -/

/-- Setting the field does not get in the way of a change to the record. -/
def Respects (φ : σ → σ) (f : Field σ) : Prop := ∀ s v, f.set (φ s) v = φ <$> f.set s v

/-- Every field has a name and a place of its own: the value that it takes changes every record in the same way, and
setting other fields does not get in the way of this change. -/
structure Independent (fields : List (Field σ)) : Prop where
  names : (fields.map Field.name).Nodup
  places : ∀ f ∈ fields, ∀ v s s', f.set s v = .ok s' →
    ∃ φ : σ → σ, φ s = s' ∧ (∀ t, f.set t v = .ok (φ t)) ∧ ∀ g ∈ fields, g.name ≠ f.name → g.Respects φ

section Readers

variable {β : Type} {read : Json → Except JsonFault β} {set : σ → β → σ}

@[simp] theorem name_required : (required name read set).name = name := rfl

@[simp] theorem name_optional : (optional name read set).name = name := rfl

/-- What is set does not get in the way of a change that it commutes with. -/
theorem map_read {φ : σ → σ} (h : ∀ s x, set (φ s) x = φ (set s x)) (s : σ) (v : Json) :
    (read v >>= fun x => pure (set (φ s) x)) = φ <$> (read v >>= fun x => pure (set s x)) := by
  rw [map_bind]
  exact congrArg (read v >>= ·) (funext fun x => congrArg Except.ok (h s x))

theorem respects_required {φ : σ → σ} (h : ∀ s x, set (φ s) x = φ (set s x)) :
    (required name read set).Respects φ := map_read h

theorem respects_optional {φ : σ → σ} (h : ∀ s x, set (φ s) x = φ (set s x)) :
    (optional name read set).Respects φ := map_read h

/-- A value that is read has the same place in every record. -/
theorem places_of_respects (h : ∀ x, ∀ g ∈ fields, g.name ≠ name → g.Respects (set · x)) (v : Json) (s s' : σ)
    (hs : (do return set s (← read v)) = Except.ok s') : ∃ φ : σ → σ, φ s = s' ∧
      (∀ t, (do return set t (← read v)) = Except.ok (φ t)) ∧ ∀ g ∈ fields, g.name ≠ name → g.Respects φ := by
  obtain ⟨x, hx, rfl⟩ := Except.bind_pure_eq_ok.mp hs
  exact ⟨(set · x), rfl, fun t => Except.bind_pure_eq_ok.mpr ⟨x, hx, rfl⟩, h x⟩

end Readers

/-- The value `v` in the field of this name does `φ` to every record; the field may be left out, and no other is in the
way. -/
structure Writes (fields : List (Field σ)) (name : String) (v : Json) (φ : σ → σ) : Prop where
  field : ∃ f ∈ fields, f.name = name ∧ f.inObject = false ∧ f.inArray = false ∧ ∀ s, f.set s v = .ok (φ s)
  others : ∀ g ∈ fields, g.name ≠ name → g.Respects φ

theorem Independent.writes (hfields : Independent fields) {f : Field σ} (hf : f ∈ fields)
    (hoptional : f.inObject = false ∧ f.inArray = false) {φ : σ → σ} (hset : ∀ s, f.set s v = .ok (φ s)) (s : σ) :
    Writes fields f.name v φ := by
  obtain ⟨ψ, -, hψ, hothers⟩ := hfields.places f hf v s (φ s) (hset s)
  obtain rfl : ψ = φ := funext fun t => Except.ok.inj ((hψ t).symm.trans (hset t))
  exact ⟨⟨f, hf, rfl, hoptional.1, hoptional.2, hset⟩, hothers⟩

/-! ### Objects -/

variable {φ : σ → σ}

/-- Members of other names do not get in the way of a change. -/
theorem readMembers_respects (hw : Writes fields name v φ) (hnames : (fields.map Field.name).Nodup)
    {members : List (Key × Json)} (habsent : ∀ member ∈ members, member.1 ≠ .ok name) :
    ∀ {seen seen' : List String} {s : σ}, (∀ n ≠ name, seen'.contains n = seen.contains n) →
      readMembers fields fault seen' (φ s) members = φ <$> readMembers fields fault seen s members := by
  obtain ⟨⟨f, hf, rfl, hobject, -, -⟩, hothers⟩ := hw
  induction members with
  | nil =>
    intro seen seen' s hseen
    have hall : (fields.all fun g => !g.inObject || seen'.contains g.name) =
        fields.all fun g => !g.inObject || seen.contains g.name := by
      rw [Bool.eq_iff_iff, List.all_eq_true, List.all_eq_true]
      refine forall₂_congr fun g hg => ?_
      by_cases hname : g.name = f.name
      · obtain rfl := List.inj_on_of_nodup_map hnames hg hf hname
        simp only [hobject, Bool.not_false, Bool.true_or]
      · rw [hseen g.name hname]
    rw [readMembers_nil, readMembers_nil, hall, map_closed_bind]
  | cons member members ih =>
    intro seen seen' s hseen
    obtain ⟨key, u⟩ := member
    obtain ⟨hkey, hrest⟩ := List.forall_mem_cons.mp habsent
    cases key with
    | error e => rfl
    | ok n =>
      have hn : n ≠ f.name := fun h => hkey (congrArg Except.ok h)
      cases hfind : fields.find? (·.name == n) with
      | none =>
        rw [readMembers_unknown hfind, readMembers_unknown hfind, map_bind]
        exact congrArg (u.skip >>= ·) (funext fun _ => ih hrest hseen)
      | some g =>
        obtain rfl : g.name = n := eq_of_beq (List.find?_some (p := fun g : Field σ => g.name == n) hfind)
        rw [readMembers_known hfind, readMembers_known hfind, hseen g.name hn]
        split
        · rfl
        · rw [hothers g (List.mem_of_find?_eq_some hfind) hn, bind_map_left, map_bind]
          refine congrArg (g.set s u >>= ·) (funext fun s' => ih hrest fun m hm => ?_)
          rw [List.contains_cons, List.contains_cons, hseen m hm]

/-- A member more, wherever it stands, changes the record that is read. -/
theorem readMembers_insert (hw : Writes fields name v φ) (hnames : (fields.map Field.name).Nodup)
    {before after : List (Key × Json)} (habsent : ∀ member ∈ before ++ after, member.1 ≠ .ok name) :
    ∀ {seen : List String} {s : σ}, seen.contains name = false →
      readMembers fields fault seen s (before ++ (.ok name, v) :: after) =
        φ <$> readMembers fields fault seen s (before ++ after) := by
  induction before with
  | nil =>
    intro seen s hseen
    obtain ⟨f, hf, hname, -, -, hset⟩ := hw.field
    have hfind : fields.find? (·.name == name) = some f := hname ▸ find?_name hnames hf
    rw [List.nil_append, List.nil_append, readMembers_known hfind, hseen, if_neg Bool.false_ne_true, hset]
    refine readMembers_respects hw hnames habsent fun n hn => ?_
    rw [List.contains_cons, beq_eq_false_iff_ne.mpr hn, Bool.false_or]
  | cons member before ih =>
    intro seen s hseen
    obtain ⟨key, u⟩ := member
    obtain ⟨hkey, hrest⟩ := List.forall_mem_cons.mp habsent
    rw [List.cons_append, List.cons_append]
    cases key with
    | error e => rfl
    | ok n =>
      have hn : name ≠ n := fun h => hkey (congrArg Except.ok h.symm)
      cases hfind : fields.find? (·.name == n) with
      | none =>
        rw [readMembers_unknown hfind, readMembers_unknown hfind, map_bind]
        exact congrArg (u.skip >>= ·) (funext fun _ => ih hrest hseen)
      | some g =>
        rw [readMembers_known hfind, readMembers_known hfind]
        split
        · rfl
        · rw [map_bind]
          refine congrArg (g.set s u >>= ·) (funext fun s' => ih hrest ?_)
          rw [List.contains_cons, beq_eq_false_iff_ne.mpr hn, hseen, Bool.or_false]

/-! ### Arrays -/

/-- Items of other fields do not get in the way of a change. -/
theorem readItems_respects : ∀ {fields : List (Field σ)} {items : List Json} {s : σ},
    (∀ g ∈ fields.take items.length, g.Respects φ) →
      readItems fault (φ s) fields items = φ <$> readItems fault s fields items
  | fields, [], s, _ => by rw [readItems_nil, readItems_nil, map_closed_bind]
  | [], u :: items, s, _ => rfl
  | g :: fields, u :: items, s, h => by
    obtain ⟨hg, h⟩ := List.forall_mem_cons.mp h
    show g.set (φ s) u >>= _ = φ <$> (g.set s u >>= fun s => readItems fault s fields items)
    rw [hg, bind_map_left, map_bind]
    exact congrArg (g.set s u >>= ·) (funext fun s' => readItems_respects h)

/-- An item more changes the record that is read. -/
theorem readItems_append {f : Field σ} (hset : ∀ s, f.set s v = .ok (φ s)) (harray : f.inArray = false) :
    ∀ {fields : List (Field σ)} {items : List Json} {s : σ}, fields[items.length]? = some f →
      readItems fault s fields (items ++ [v]) = φ <$> readItems fault s fields items
  | [], items, s, h => by simp at h
  | g :: fields, [], s, h => by
    obtain rfl : g = f := Option.some.inj h
    show g.set s v >>= (fun s => readItems fault s fields []) = _
    rw [hset]
    show readItems fault (φ s) fields [] = _
    rw [readItems_nil, readItems_nil, List.all_cons, harray, Bool.not_false, Bool.true_and, map_closed_bind]
  | g :: fields, u :: items, s, h => by
    show g.set s u >>= (fun s => readItems fault s fields (items ++ [v])) =
      φ <$> (g.set s u >>= fun s => readItems fault s fields items)
    rw [map_bind]
    exact congrArg (g.set s u >>= ·) (funext fun s' => readItems_append hset harray h)

/-! ### Exchanged values -/

theorem readMembers_exchange (hnames : (fields.map Field.name).Nodup) {f : Field σ} (hf : f ∈ fields) {v' : Json}
    (h : ∀ s, f.set s v' = f.set s v) {before after : List (Key × Json)} : ∀ {seen : List String} {s : σ},
    readMembers fields fault seen s (before ++ (.ok f.name, v') :: after) =
      readMembers fields fault seen s (before ++ (.ok f.name, v) :: after) := by
  induction before with
  | nil =>
    intro seen s
    have hfind := find?_name hnames hf
    rw [List.nil_append, List.nil_append, readMembers_known hfind, readMembers_known hfind, h]
  | cons member before ih =>
    intro seen s
    obtain ⟨key, u⟩ := member
    rw [List.cons_append, List.cons_append]
    cases key with
    | error e => rfl
    | ok n =>
      cases hfind : fields.find? (·.name == n) with
      | none => rw [readMembers_unknown hfind, readMembers_unknown hfind, ih]
      | some g =>
        rw [readMembers_known hfind, readMembers_known hfind]
        exact if_congr Iff.rfl rfl (congrArg (g.set s u >>= ·) (funext fun s' => ih))

theorem readItems_exchange {f : Field σ} {v' : Json} (h : ∀ s, f.set s v' = f.set s v) {after : List Json} :
    ∀ {fields : List (Field σ)} {before : List Json} {s : σ}, fields[before.length]? = some f →
      readItems fault s fields (before ++ v' :: after) = readItems fault s fields (before ++ v :: after)
  | [], before, s, hplace => by simp at hplace
  | g :: fields, [], s, hplace => by
    obtain rfl : g = f := Option.some.inj hplace
    show g.set s v' >>= (fun s => readItems fault s fields after) = g.set s v >>= fun s => readItems fault s fields after
    rw [h]
  | g :: fields, u :: before, s, hplace =>
    congrArg (g.set s u >>= ·) (funext fun s' => readItems_exchange h hplace)

end Field

/-! ## Two records -/

/-- The second record has a field more than the first: a member, at any place of an object without one of this name, or
the next item of an array. -/
inductive Extends (fields : List (Field σ)) (name : String) (v : Json) : Json → Json → Prop where
  | member {before after : List (Key × Json)} {fault : Option JsonFault}
    (absent : ∀ member ∈ before ++ after, member.1 ≠ .ok name) :
    Extends fields name v (.object (before ++ after) fault) (.object (before ++ (.ok name, v) :: after) fault)
  | item {items : List Json} {fault : Option JsonFault} (next : (fields.map Field.name)[items.length]? = some name) :
    Extends fields name v (.array items fault) (.array (items ++ [v]) fault)

/-- The second record spells out a field that the first leaves out, with the value that the field has without. -/
inductive SpellsOut (fields : List (Field σ)) (start : σ) (w w' : Json) : Prop where
  | intro {f : Field σ} (known : f ∈ fields) (optional : f.inObject = false ∧ f.inArray = false) {v : Json}
    (same : f.set start v = .ok start) (more : Extends fields f.name v w w')

/-- The second record has `v'` where the first has `v`, in the field of this name. -/
inductive Exchanges (fields : List (Field σ)) (name : String) (v v' : Json) : Json → Json → Prop where
  | member {before after : List (Key × Json)} {fault : Option JsonFault} :
    Exchanges fields name v v' (.object (before ++ (.ok name, v) :: after) fault)
      (.object (before ++ (.ok name, v') :: after) fault)
  | item {before after : List Json} {fault : Option JsonFault}
    (place : (fields.map Field.name)[before.length]? = some name) :
    Exchanges fields name v v' (.array (before ++ v :: after) fault) (.array (before ++ v' :: after) fault)

variable {u w w' : Json} {φ : σ → σ}

/-- The field at the place of its name. -/
theorem getElem?_of_name (hnames : (fields.map Field.name).Nodup) {f : Field σ} (hf : f ∈ fields) {i : Nat}
    (h : (fields.map Field.name)[i]? = some f.name) : fields[i]? = some f := by
  rw [List.getElem?_map] at h
  obtain ⟨g, hg, hname⟩ := Option.map_eq_some_iff.mp h
  rw [hg, List.inj_on_of_nodup_map hnames (List.mem_of_getElem? hg) hf hname]

/-- **The value of one field more is set.** -/
theorem record?_extends (hnames : (fields.map Field.name).Nodup) (hw : Field.Writes fields name v φ)
    (h : Extends fields name v w w') : record? fields start w' = φ <$> record? fields start w := by
  cases h with
  | member absent => exact Field.readMembers_insert hw hnames absent rfl
  | item next =>
    obtain ⟨f, hf, rfl, -, harray, hset⟩ := hw.field
    exact Field.readItems_append hset harray (getElem?_of_name hnames hf next)

/-- A change to a field that a record lacks can be made before the record is read or afterwards. -/
theorem record?_start (hnames : (fields.map Field.name).Nodup) (hw : Field.Writes fields name u φ)
    (h : Extends fields name v w w') : record? fields (φ start) w = φ <$> record? fields start w := by
  cases h with
  | member absent => exact Field.readMembers_respects hw hnames absent fun _ _ => rfl
  | @item items _ next =>
    refine Field.readItems_respects fun g hg => hw.others g (List.mem_of_mem_take hg) ?_
    rintro rfl
    obtain ⟨i, hi, hgi⟩ := List.mem_take_iff_getElem.mp hg
    have hlt : i < (fields.map Field.name).length := by rw [List.length_map]; omega
    have hi' : (fields.map Field.name)[i]? = (fields.map Field.name)[items.length]? := by
      rw [next, List.getElem?_map, List.getElem?_eq_getElem (by omega), hgi]
      rfl
    have heq : i = items.length := (List.getElem?_inj hlt hnames).mp hi'
    omega

/-- A field that a record lacks has the value that it had at the start. -/
theorem eq_of_record?_eq_ok (hnames : (fields.map Field.name).Nodup) (hw : Field.Writes fields name u φ)
    (h : Extends fields name v w w') (hstart : φ start = start) (hs : record? fields start w = .ok s) : φ s = s := by
  have hmap : record? fields (φ start) w = φ <$> record? fields start w := record?_start hnames hw h
  rw [hstart, hs] at hmap
  exact (Except.ok.inj hmap).symm

/-- **Spelling out a value that is there anyway changes nothing.** -/
theorem record?_spellsOut (hfields : Field.Independent fields) (h : SpellsOut fields start w w') :
    record? fields start w' = record? fields start w := by
  obtain ⟨hf, hoptional, hsame, hextends⟩ := h
  obtain ⟨φ, hstart, hset, -⟩ := hfields.places _ hf _ _ _ hsame
  have hw := hfields.writes hf hoptional hset start
  rw [record?_extends hfields.names hw hextends, ← record?_start hfields.names hw hextends, hstart]

/-- **A value may be exchanged for one that the field takes alike.** -/
theorem record?_exchanges (hnames : (fields.map Field.name).Nodup) {v' : Json} {f : Field σ} (hf : f ∈ fields)
    (hset : ∀ s, f.set s v' = f.set s v) (h : Exchanges fields f.name v v' w w') :
    record? fields start w' = record? fields start w := by
  cases h with
  | member => exact Field.readMembers_exchange hnames hf hset
  | item place => exact Field.readItems_exchange hset (getElem?_of_name hnames hf place)

/-- **An object with all fields in their order is read as the array of their values.** -/
theorem record?_record (hnames : (fields.map Field.name).Nodup) (values : List Json)
    (hlength : values.length = fields.length) :
    record? fields start (.record ((fields.map Field.name).zip values)) = Field.readItems none start fields values :=
  Field.readMembers_zip [] hnames (by simp) hlength

end Json
end Arbor
