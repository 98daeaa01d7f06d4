import Arbor.Json.Reader
import Arbor.Proofs.Json.Writing

/-!
# Documents are read back

The reader works on tokens, and the printer on texts. `Reader.Leads` says that characters take the reader from one
progress to another, whatever comes behind them that cannot go on with a number; this composes, so a text is followed
part by part. A value is read as another one if its text leads there from wherever a value may come (`Json.ReadsAs`).
Lists and records are read part by part (`ReadsAs.list`, `ReadsAs.record`), and the text of a whole value is a document
of what the value is read as (`ReadsAs.ofText_pretty`).
-/

namespace Arbor
namespace Json

/-! ## Strings -/

namespace Token

theorem hexDigit?_hexDigit : ∀ n < 16, hexDigit? (hexDigit n) = some n := by decide

theorem hex_hexDigit {n : Nat} (hn : n < 256) (rest : List Char) :
    hex ('0' :: '0' :: hexDigit (n / 16) :: hexDigit (n % 16) :: rest) = .ok (n, rest) := by
  have hzero : hexDigit? '0' = some 0 := by decide
  have hhigh := hexDigit?_hexDigit (n / 16) (by omega)
  have hlow := hexDigit?_hexDigit (n % 16) (Nat.mod_lt n (by decide))
  simp only [hex, List.take_succ_cons, List.take_zero, List.mapM_cons, List.mapM_nil, hzero, hhigh, hlow]
  exact congrArg (fun n => Except.ok (n, rest)) (by omega : ((0 * 16 + 0) * 16 + n / 16) * 16 + n % 16 = n)

/-- A character is read as it was written. -/
theorem unit_escaped (c : Char) (rest : List Char) : unit ((escaped c).toList ++ rest) = .ok (.char c, rest) := by
  unfold escaped
  split
  case h_8 hquote hslash hback hform hline hreturn htab =>
    split
    case isTrue hcontrol =>
      have hlist : ("\\u00" ++ String.ofList [hexDigit (c.toNat / 16), hexDigit (c.toNat % 16)]).toList ++ rest =
          '\\' :: 'u' :: '0' :: '0' :: hexDigit (c.toNat / 16) :: hexDigit (c.toNat % 16) :: rest := by
        simp only [String.toList_append, String.toList_ofList]
        rfl
      have hescape : escape ('u' :: '0' :: '0' :: hexDigit (c.toNat / 16) :: hexDigit (c.toNat % 16) :: rest) =
          .ok (.char c, rest) := by
        simp only [escape, hex_hexDigit (show c.toNat < 256 by omega)]
        show Except.ok (_, _) = _
        rw [if_neg (by omega), Char.ofNat_toNat]
      rw [hlist]
      exact hescape
    case isFalse hcontrol =>
      rw [String.toList_singleton]
      exact (if_neg hquote).trans ((if_neg hslash).trans (if_neg hcontrol))
  all_goals rfl

/-- The characters of a string, read behind those that have been read. -/
theorem string_escaped (cs read : List Char) {fuel : Nat} (hfuel : cs.length < fuel) (rest : List Char) :
    string ⟨read, none, none⟩ fuel (cs.flatMap (fun c => (escaped c).toList) ++ '"' :: rest) =
      (.text (.ok (String.ofList (read.reverse ++ cs))), rest) := by
  induction cs generalizing read fuel with
  | nil =>
    obtain ⟨fuel, rfl⟩ := Nat.exists_eq_succ_of_ne_zero (Nat.ne_of_gt hfuel)
    simp [string, unit, Draft.finish, Draft.settle]
  | cons c cs ih =>
    obtain ⟨fuel, rfl⟩ := Nat.exists_eq_succ_of_ne_zero (Nat.ne_of_gt (Nat.zero_lt_of_lt hfuel))
    rw [List.flatMap_cons, List.append_assoc, string, unit_escaped]
    refine (ih (c :: read) (Nat.lt_of_succ_lt_succ hfuel)).trans ?_
    rw [List.reverse_cons, List.append_assoc]
    rfl

theorem toList_quote (s : String) :
    (quote s).toList = '"' :: (s.toList.flatMap (fun c => (escaped c).toList) ++ ['"']) := by
  have hfold : ∀ (cs : List Char) (text : String), (cs.foldl (fun text c => text ++ escaped c) text).toList =
      text.toList ++ cs.flatMap fun c => (escaped c).toList := by
    intro cs
    induction cs with
    | nil => simp
    | cons c cs ih =>
      intro text
      rw [List.foldl_cons, ih, String.toList_append, List.flatMap_cons, List.append_assoc]
  rw [quote, String.toList_append, String.foldl_eq_foldl_toList, hfold]
  rfl

theorem length_le_flatMap_escaped (cs : List Char) :
    cs.length ≤ (cs.flatMap fun c => (escaped c).toList).length := by
  have hone : ∀ c, 1 ≤ (escaped c).toList.length := fun c => List.length_pos_of_ne_nil fun h => by
    have := unit_escaped c []
    rw [h] at this
    cases this
  have hmap : (cs.map fun c => (escaped c).toList.length).length = cs.length := List.length_map _
  rw [List.length_flatMap, ← hmap]
  exact List.length_le_sum_of_one_le _ (List.forall_mem_map.mpr fun c _ => hone c)

/-- **A string is read as it was written.** -/
theorem spelled_quote (s : String) : Spelled (quote s).toList (.text (.ok s)) := by
  refine ⟨'"', _, toList_quote s, rfl, fun fuel behind hfuel _ => ?_⟩
  have hlength := length_le_flatMap_escaped s.toList
  rw [List.length_append] at hfuel
  show string ⟨[], none, none⟩ fuel _ = _
  rw [List.append_assoc, List.singleton_append, string_escaped _ _ (by omega), List.reverse_nil, List.nil_append,
    String.ofList_toList]

/-! ## Runs of the reader -/

theorem readAll_toList (tokens : Array Token) (fuel : Nat) (cs : List Char) :
    (readAll tokens fuel cs).toList = tokens.toList ++ (readAll #[] fuel cs).toList := by
  induction fuel generalizing tokens cs with
  | zero => simp [readAll]
  | succ fuel ih =>
    simp only [readAll]
    split
    case h_1 => simp
    case h_2 c rest heq =>
      rw [ih (tokens.push _), ih (#[].push _)]
      simp

end Token

namespace Reader

open Token

/-- Takes in the tokens of the characters. -/
def feed (p : Progress) (fuel : Nat) (cs : List Char) : Progress := (readAll #[] fuel cs).toList.foldl take p

theorem feed_blank {c : Char} (hc : isBlank c = true) (p : Progress) (fuel : Nat) (cs : List Char) :
    feed p fuel (c :: cs) = feed p fuel cs := by
  cases fuel with
  | zero => rfl
  | succ fuel => simp only [feed, readAll, List.dropWhile_cons_of_pos hc]

theorem feed_token {c : Char} {rest behind : List Char} {t : Token} {fuel : Nat} (hc : isBlank c = false)
    (hstart : start (fuel + 1) c rest = (t, behind)) (p : Progress) :
    feed p (fuel + 1) (c :: rest) = feed (take p t) fuel behind := by
  have hdrop : (c :: rest).dropWhile isBlank = c :: rest := List.dropWhile_cons_of_neg (by simp [hc])
  simp only [feed, readAll, hdrop, hstart]
  rw [readAll_toList]
  rfl

theorem feed_nil (p : Progress) (fuel : Nat) : feed p fuel [] = p := by
  cases fuel <;> rfl

/-- These characters lead from one progress to another. What follows them may not go on with a number. -/
def Leads (p : Progress) (cs : List Char) (q : Progress) : Prop :=
  ∀ fuel rest, (cs ++ rest).length < fuel → Ends rest →
    ∃ fuel', rest.length < fuel' ∧ feed p fuel (cs ++ rest) = feed q fuel' rest

variable {p q r : Progress} {cs ds : List Char} {t : Token}

theorem Leads.token (h : Spelled cs t) (p : Progress) : Leads p cs (take p t) := by
  obtain ⟨c, rest, rfl, hblank, hstart⟩ := h
  intro fuel behind hfuel hends
  obtain ⟨fuel, rfl⟩ := Nat.exists_eq_succ_of_ne_zero (Nat.ne_of_gt (Nat.zero_lt_of_lt hfuel))
  simp only [List.cons_append, List.length_cons, List.length_append] at hfuel
  exact ⟨fuel, by omega, feed_token hblank (hstart _ behind (by omega) hends) p⟩

theorem Leads.blank (h : Leads p cs q) {bs : List Char} (hbs : ∀ c ∈ bs, isBlank c = true) : Leads p (bs ++ cs) q := by
  induction bs with
  | nil => exact h
  | cons c bs ih =>
    intro fuel rest hfuel hends
    rw [List.cons_append, List.cons_append, feed_blank (hbs c List.mem_cons_self)]
    exact ih (fun d hd => hbs d (List.mem_cons_of_mem _ hd)) fuel rest (Nat.lt_of_succ_lt hfuel) hends

theorem ends_append (hcs : Ends cs) (hds : Ends ds) : Ends (cs ++ ds) := by
  cases cs with
  | nil => exact hds
  | cons c cs => exact fun d hd => hcs d hd

theorem Leads.append (h : Leads p cs q) (h' : Leads q ds r) (hds : Ends ds) : Leads p (cs ++ ds) r := by
  intro fuel rest hfuel hends
  rw [List.append_assoc] at hfuel ⊢
  obtain ⟨fuel', hfuel', heq⟩ := h fuel (ds ++ rest) hfuel (ends_append hds hends)
  obtain ⟨fuel'', hfuel'', heq'⟩ := h' fuel' rest hfuel' hends
  exact ⟨fuel'', hfuel'', heq.trans heq'⟩

/-- A character that is a token of its own. -/
theorem Leads.mark {c : Char} (hc : isBlank c = false) (hstart : ∀ fuel cs, start fuel c cs = (t, cs)) (p : Progress) :
    Leads p [c] (take p t) :=
  .token ⟨c, [], rfl, hc, fun fuel behind _ _ => hstart fuel behind⟩ p

theorem Leads.refl (p : Progress) : Leads p [] p := fun fuel _ hfuel _ => ⟨fuel, hfuel, rfl⟩

theorem ends_cons {c : Char} (hc : c.isDigit = false ∧ c ≠ '.' ∧ c ≠ 'e' ∧ c ≠ 'E') (cs : List Char) :
    Ends (c :: cs) := by
  rintro d hd
  obtain rfl := Option.some.inj hd
  exact hc

/-! ## Values -/

theorem toList_newLine (depth : Nat) : (newLine depth).toList = '\n' :: List.replicate (2 * depth) ' ' :=
  toList_pushn "\n" ' ' (2 * depth)

/-- What follows on a new line is read as if it followed at once. -/
theorem Leads.newLine (h : Leads p cs q) (depth : Nat) : Leads p ((newLine depth).toList ++ cs) q := by
  refine h.blank fun c hc => ?_
  rw [toList_newLine] at hc
  rcases List.mem_cons.mp hc with rfl | hc
  · rfl
  · rw [List.eq_of_mem_replicate hc]
    rfl

theorem ends_newLine (depth : Nat) (cs : List Char) : Ends ((Json.newLine depth).toList ++ cs) := by
  rw [toList_newLine]
  exact ends_cons (by decide) _

/-- A part behind a comma, on a line of its own, and what comes behind it. -/
theorem Leads.listed {p' q' : Progress} (hcomma : Leads p [','] p') (hpart : Leads p' cs q) (hrest : Leads q ds q')
    (hends : Ends ds) (depth : Nat) : Leads p (',' :: ((Json.newLine depth).toList ++ cs ++ ds)) q' := by
  have hline : Ends ((Json.newLine depth).toList ++ cs ++ ds) := by
    rw [List.append_assoc]
    exact ends_newLine depth _
  exact hcomma.append ((hpart.newLine depth).append hrest hends) hline

/-- The parts of a container, each on a line of its own, between its brackets. -/
theorem Leads.enclosed {p' r' : Progress} {a b : Char} (hopen : Leads p [a] p') (hfirst : Leads p' cs q)
    (hrest : Leads q ds r) (hends : Ends ds) (hclose : Leads r [b] r') (depth : Nat) :
    Leads p (a :: ((Json.newLine (depth + 1)).toList ++ cs ++ (ds ++ ((Json.newLine depth).toList ++ [b])))) r' := by
  have hend := ends_newLine depth [b]
  have hline : Ends ((Json.newLine (depth + 1)).toList ++ cs ++ (ds ++ ((Json.newLine depth).toList ++ [b]))) := by
    rw [List.append_assoc]
    exact ends_newLine (depth + 1) _
  exact hopen.append ((hfirst.newLine (depth + 1)).append (hrest.append (hclose.newLine depth) hend)
    (ends_append hends hend)) hline

variable {frames : List Frame} {members : List (Key × Json)} {e : Expect} {v : Json}

/-- A value may come, as the first item of an array or elsewhere. -/
def ValueNext (e : Expect) : Prop := e = .value ∨ e = .firstItem

theorem take_value (he : ValueNext e) (ht : t ≠ .closeArray) : take (.underway frames e) t = takeValue frames t := by
  rcases he with rfl | rfl
  · rfl
  · cases frames <;> cases t <;> first | rfl | exact absurd rfl ht

theorem Leads.word (h : Spelled cs (.word v)) (he : ValueNext e) : Leads (.underway frames e) cs (give frames v) := by
  have hlead := Leads.token h (.underway frames e)
  rwa [take_value he (by simp)] at hlead

/-- A name and a value behind it become a member. -/
theorem Leads.member (name : String) (h : ∀ frames, Leads (.underway frames .value) cs (give frames v))
    (he : e = .key ∨ e = .firstKey) :
    Leads (.underway (.object members none :: frames) e) ((quote name).toList ++ ':' :: ' ' :: cs)
      (.underway (.object ((.ok name, v) :: members) none :: frames) .separator) := by
  have hname := Leads.token (spelled_quote name) (.underway (.object members none :: frames) e)
  have hkey : take (.underway (.object members none :: frames) e) (.text (.ok name)) =
      .underway (.object members (some (.ok name)) :: frames) .colon := by
    rcases he with rfl | rfl <;> rfl
  have hcolon := Leads.mark (t := .colon) (c := ':') rfl (fun _ _ => rfl)
    (.underway (.object members (some (.ok name)) :: frames) .colon)
  rw [hkey] at hname
  have hblank : ∀ c ∈ [' '], isBlank c = true := by simp [isBlank]
  have hvalue := (h (.object members (some (.ok name)) :: frames)).blank hblank
  exact hname.append (hcolon.append hvalue (ends_cons (by decide) _)) (ends_cons (by decide) _)

end Reader

open Reader

/-- The members of a record, as an object has them. -/
def named (members : List (String × Json)) : List (Key × Json) := members.map fun (name, v) => (.ok name, v)

theorem leads_open_array {frames : List Frame} {e : Expect} (he : ValueNext e) :
    Leads (.underway frames e) ['['] (.underway (.array [] :: frames) .firstItem) := by
  have hlead := @Leads.mark .openArray '[' rfl (fun _ _ => rfl) (.underway frames e)
  rwa [take_value he (by simp)] at hlead

theorem leads_open_object {frames : List Frame} {e : Expect} (he : ValueNext e) :
    Leads (.underway frames e) ['\x7b'] (.underway (.object [] none :: frames) .firstKey) := by
  have hlead := @Leads.mark .openObject '\x7b' rfl (fun _ _ => rfl) (.underway frames e)
  rwa [take_value he (by simp)] at hlead

theorem leads_close_array (frames : List Frame) (items : List Json) :
    Leads (.underway (.array items.reverse :: frames) .separator) [']'] (give frames (.list items)) := by
  have hlead := @Leads.mark .closeArray ']' rfl (fun _ _ => rfl) (.underway (.array items.reverse :: frames) .separator)
  have hwhole : take (.underway (.array items.reverse :: frames) .separator) .closeArray = give frames (.list items) := by
    show give frames (.array items.reverse.reverse none) = _
    rw [List.reverse_reverse]
    rfl
  rwa [hwhole] at hlead

theorem leads_close_object (frames : List Frame) (members : List (String × Json)) :
    Leads (.underway (.object (named members).reverse none :: frames) .separator) ['\x7d']
      (give frames (.record members)) := by
  have hlead := @Leads.mark .closeObject '\x7d' rfl (fun _ _ => rfl)
    (.underway (.object (named members).reverse none :: frames) .separator)
  have hwhole : take (.underway (.object (named members).reverse none :: frames) .separator) .closeObject =
      give frames (.record members) := by
    show give frames (.object (named members).reverse.reverse none) = _
    rw [List.reverse_reverse]
    rfl
  rwa [hwhole] at hlead

/-! ## What is written is read back -/

/-- The text of a value leads a reader to another value: the same one, but for what the text of a number is read as. -/
def ReadsAs (v v' : Json) : Prop :=
  ∀ depth, ∃ cs, (∀ text, (prettyOnto depth text v).toList = text.toList ++ cs) ∧
    ∀ frames e, ValueNext e → Leads (.underway frames e) cs (give frames v')

namespace ReadsAs

theorem null : ReadsAs .null .null := fun _ => by
  refine ⟨['n', 'u', 'l', 'l'], fun text => String.toList_append, fun frames e he => Leads.word ?_ he⟩
  exact ⟨'n', ['u', 'l', 'l'], rfl, rfl, fun _ _ _ _ => rfl⟩

theorem number {n : Number} {v : Json} (h : Token.Spelled n.text.toList (.word v)) : ReadsAs (.number n) v := fun _ =>
  ⟨_, fun _ => String.toList_append, fun _ _ he => Leads.word h he⟩

section Items

variable {items items' : List Json}

/-- The items behind the first one are read back. -/
theorem furtherItems (h : List.Forall₂ ReadsAs items items') (depth : Nat) :
    ∃ cs, Token.Ends cs ∧ (∀ text, (prettyItems depth text false items).toList = text.toList ++ cs) ∧
      ∀ frames before, Leads (.underway (.array before :: frames) .separator) cs
        (.underway (.array (items'.reverse ++ before) :: frames) .separator) := by
  induction h with
  | nil => exact ⟨[], by simp [Token.Ends], fun text => (List.append_nil _).symm, fun frames before => .refl _⟩
  | @cons v v' items items' h hs ih =>
    obtain ⟨cs, hchars, hleads⟩ := h depth
    obtain ⟨ds, hends, hchars', hleads'⟩ := ih
    refine ⟨',' :: ((newLine depth).toList ++ cs ++ ds), ends_cons (by decide) _, fun text => ?_, fun frames before => ?_⟩
    · have htext : prettyItems depth text false (v :: items) =
          prettyItems depth (prettyOnto depth (text ++ "," ++ newLine depth) v) false items := rfl
      simp only [htext, String.toList_append, hchars', hchars, List.append_assoc]
      rfl
    · have hcomma := @Leads.mark .comma ',' rfl (fun _ _ => rfl) (.underway (.array before :: frames) .separator)
      have hlist : (v' :: items').reverse ++ before = items'.reverse ++ v' :: before := by simp
      rw [hlist]
      exact hcomma.listed (hleads _ .value (Or.inl rfl)) (hleads' frames (v' :: before)) hends depth

/-- **A list is read back item by item.** -/
theorem list (h : List.Forall₂ ReadsAs items items') : ReadsAs (.list items) (.list items') := by
  intro depth
  cases h with
  | nil =>
    refine ⟨['[', ']'], fun text => String.toList_append, fun frames e he => ?_⟩
    exact (leads_open_array he).append (@Leads.mark .closeArray ']' rfl (fun _ _ => rfl) _) (ends_cons (by decide) _)
  | @cons v v' items items' h hs =>
    obtain ⟨cs, hchars, hleads⟩ := h (depth + 1)
    obtain ⟨ds, hends, hchars', hleads'⟩ := furtherItems hs (depth + 1)
    refine ⟨'[' :: ((newLine (depth + 1)).toList ++ cs ++ (ds ++ ((newLine depth).toList ++ [']']))), fun text => ?_,
      fun frames e he => ?_⟩
    · have htext : prettyOnto depth text (.list (v :: items)) = prettyItems (depth + 1)
          (prettyOnto (depth + 1) (text ++ "[" ++ newLine (depth + 1)) v) false items ++ newLine depth ++ "]" := rfl
      simp only [htext, String.toList_append, hchars', hchars, List.append_assoc]
      rfl
    · have hclose := leads_close_array frames (v' :: items')
      rw [List.reverse_cons] at hclose
      exact (leads_open_array he).enclosed (hleads _ .firstItem (Or.inr rfl)) (hleads' frames [v']) hends hclose depth

end Items

section Members

variable {members members' : List (String × Json)}

/-- The members behind the first one are read back. -/
theorem furtherMembers (h : List.Forall₂ (fun m m' => m.1 = m'.1 ∧ ReadsAs m.2 m'.2) members members') (depth : Nat) :
    ∃ cs, Token.Ends cs ∧ (∀ text, (prettyMembers depth text false (named members)).toList = text.toList ++ cs) ∧
      ∀ frames before, Leads (.underway (.object before none :: frames) .separator) cs
        (.underway (.object ((named members').reverse ++ before) none :: frames) .separator) := by
  induction h with
  | nil => exact ⟨[], by simp [Token.Ends], fun text => (List.append_nil _).symm, fun frames before => .refl _⟩
  | @cons m m' members members' h hs ih =>
    obtain ⟨name, v⟩ := m
    obtain ⟨name', v'⟩ := m'
    obtain ⟨rfl, h⟩ : name = name' ∧ ReadsAs v v' := h
    obtain ⟨cs, hchars, hleads⟩ := h depth
    obtain ⟨ds, hends, hchars', hleads'⟩ := ih
    refine ⟨',' :: ((newLine depth).toList ++ ((quote name).toList ++ ':' :: ' ' :: cs) ++ ds), ends_cons (by decide) _,
      fun text => ?_, fun frames before => ?_⟩
    · have htext : prettyMembers depth text false (named ((name, v) :: members)) =
          prettyMembers depth (prettyOnto depth (text ++ "," ++ newLine depth ++ quote name ++ ": ") v) false
            (named members) := rfl
      simp only [htext, String.toList_append, hchars', hchars, List.append_assoc]
      rfl
    · have hcomma := @Leads.mark .comma ',' rfl (fun _ _ => rfl) (.underway (.object before none :: frames) .separator)
      have hlist : (named ((name, v') :: members')).reverse ++ before =
          (named members').reverse ++ (.ok name, v') :: before := by simp [named]
      rw [hlist]
      exact hcomma.listed (.member name (fun frames => hleads frames .value (Or.inl rfl)) (Or.inl rfl))
        (hleads' frames ((.ok name, v') :: before)) hends depth

/-- **A record is read back member by member.** -/
theorem record (h : List.Forall₂ (fun m m' => m.1 = m'.1 ∧ ReadsAs m.2 m'.2) members members') :
    ReadsAs (.record members) (.record members') := by
  intro depth
  cases h with
  | nil =>
    refine ⟨['\x7b', '\x7d'], fun text => String.toList_append, fun frames e he => ?_⟩
    exact (leads_open_object he).append (@Leads.mark .closeObject '\x7d' rfl (fun _ _ => rfl) _) (ends_cons (by decide) _)
  | @cons m m' members members' h hs =>
    obtain ⟨name, v⟩ := m
    obtain ⟨name', v'⟩ := m'
    obtain ⟨rfl, h⟩ : name = name' ∧ ReadsAs v v' := h
    obtain ⟨cs, hchars, hleads⟩ := h (depth + 1)
    obtain ⟨ds, hends, hchars', hleads'⟩ := furtherMembers hs (depth + 1)
    refine ⟨'\x7b' :: ((newLine (depth + 1)).toList ++ ((quote name).toList ++ ':' :: ' ' :: cs) ++
      (ds ++ ((newLine depth).toList ++ ['\x7d']))), fun text => ?_, fun frames e he => ?_⟩
    · have htext : prettyOnto depth text (.record ((name, v) :: members)) = prettyMembers (depth + 1)
          (prettyOnto (depth + 1) (text ++ "\x7b" ++ newLine (depth + 1) ++ quote name ++ ": ") v) false
            (named members) ++ newLine depth ++ "\x7d" := rfl
      simp only [htext, String.toList_append, hchars', hchars, List.append_assoc]
      rfl
    · have hclose := leads_close_object frames ((name, v') :: members')
      rw [named, List.map_cons, List.reverse_cons] at hclose
      exact (leads_open_object he).enclosed (.member name (fun frames => hleads frames .value (Or.inl rfl)) (Or.inr rfl))
        (hleads' frames _) hends hclose depth

end Members

/-- **The text of a value is a document of what the value is read back as,** with nothing behind it. -/
theorem ofText_pretty {v v' : Json} (h : ReadsAs v v') : Document.ofText v.pretty = ⟨v', false⟩ := by
  obtain ⟨cs, hchars, hleads⟩ := h 0
  have hlist : v.pretty.toList = cs := hchars ""
  obtain ⟨fuel, -, hfeed⟩ := hleads [] .value (Or.inl rfl) (cs.length + 1) [] (by simp) (by simp [Token.Ends])
  rw [List.append_nil, feed_nil] at hfeed
  have hrun : (Token.ofText v.pretty).foldl take (.underway [] .value) = .whole v' false := by
    rw [Token.ofText, hlist]
    exact hfeed
  rw [Document.ofText, hrun]
  rfl

end ReadsAs

end Json
end Arbor
