import Arbor.Proofs.Walk.Leaves
import Arbor.Proofs.Walk.Shape

/-!
# What decides the shape of a walk

Turns and idle symbols neither make anything nor move between places, so a turtle that carries one out stays alike to
any other (`Turtle.Alike.apply_inert`). Hence two sentences of different lengths keep their turtles alike as long as
steps, brackets and leaf symbols stand in the same order in both, whatever is between them (`Turtle.Alike.foldl_outline`).

Radii are no part of the shape, but with one gait they follow from it, because the radius of a node is that of its depth
(`Skeleton.Arena.radii`).
-/

namespace Arbor

open scoped Scalar

variable {α β : Type}

/-! ## Outlines -/

/-- A list is cut in one way at an occurrence of an item, if it is known how many there are before. -/
theorem List.eq_of_append_cons_eq {γ : Type} [DecidableEq γ] {as bs cs ds : List γ} {x : γ}
    (h : as ++ x :: bs = cs ++ x :: ds) (hcount : as.count x = cs.count x) : as = cs := by
  rcases List.append_eq_append_iff.mp h with ⟨more, rfl, hmore⟩ | ⟨more, rfl, hmore⟩
  · cases more with
    | nil => exact (List.append_nil as).symm
    | cons y more =>
      obtain ⟨rfl, -⟩ := List.cons.inj hmore
      rw [List.count_append, List.count_cons_self] at hcount
      omega
  · cases more with
    | nil => exact List.append_nil cs
    | cons y more =>
      obtain ⟨rfl, -⟩ := List.cons.inj hmore
      rw [List.count_append, List.count_cons_self] at hcount
      omega

namespace Symbol

/-- The characters of steps, brackets and leaf symbols. -/
def outlineTags : List Char := ['F', '[', ']', 'L']

/-- What is left of a sentence without its turns, its idle symbols and all of its numbers. -/
def outline (sentence : List (Symbol α)) : List Char := (sentence.map tag).filter (· ∈ outlineTags)

theorem outline_append (xs ys : List (Symbol α)) : outline (xs ++ ys) = outline xs ++ outline ys := by
  rw [outline, List.map_append, List.filter_append]
  rfl

theorem outline_cons_of_mem {s : Symbol α} (h : s.tag ∈ outlineTags) (xs : List (Symbol α)) :
    outline (s :: xs) = s.tag :: outline xs := List.filter_cons_of_pos (by simpa using h)

theorem outline_cons_of_notMem {s : Symbol α} (h : s.tag ∉ outlineTags) (xs : List (Symbol α)) :
    outline (s :: xs) = outline xs := List.filter_cons_of_neg (by simpa using h)

/-- Characters of an outline are counted on the sentence. -/
theorem count_outline {c : Char} (h : c ∈ outlineTags) (sentence : List (Symbol α)) :
    (outline sentence).count c = (sentence.map tag).count c := List.count_filter (decide_eq_true h)

/-- A symbol of the outline cuts the outline as it cuts the sentence. -/
theorem outline_cut {xs : List (Symbol α)} {i : Nat} {x : Symbol α} (hx : xs[i]? = some x) (h : x.tag ∈ outlineTags) :
    outline xs = outline (xs.take i) ++ x.tag :: outline (xs.drop (i + 1)) := by
  obtain ⟨hi, rfl⟩ := List.getElem?_eq_some_iff.mp hx
  calc outline xs = outline (xs.take i ++ xs[i] :: xs.drop (i + 1)) := by
        rw [← List.drop_eq_getElem_cons hi, List.take_append_drop]
    _ = _ := by rw [outline_append, outline_cons_of_mem h]

/-- Sentences with one outline have one outline up to symbols of the same character and the same number. -/
theorem outline_take {xs : List (Symbol α)} {ys : List (Symbol β)} (h : outline xs = outline ys) {i j : Nat}
    {x : Symbol α} {y : Symbol β} (hx : xs[i]? = some x) (hy : ys[j]? = some y) (htag : x.tag = y.tag)
    (hmem : x.tag ∈ outlineTags)
    (hcount : ((xs.take i).map tag).count x.tag = ((ys.take j).map tag).count x.tag) :
    outline (xs.take i) = outline (ys.take j) := by
  rw [outline_cut hx hmem, outline_cut hy (htag ▸ hmem), ← htag] at h
  refine List.eq_of_append_cons_eq h ?_
  rw [count_outline hmem, count_outline hmem, hcount]

/-- A symbol outside the outline turns or is idle. -/
theorem command_of_notMem {s : Symbol α} (h : s.tag ∉ outlineTags) :
    s.command = .idle ∨ ∃ axis positive, s.command = .turn axis positive := by
  have hletter : ∀ {command : Command} {c : Char}, command.letter = some c → c ∈ outlineTags → s.command ≠ command :=
    fun hc hmem hs => h ((Command.ofChar_eq_iff hc).mp hs ▸ hmem)
  cases hs : s.command with
  | idle => exact Or.inl rfl
  | turn axis positive => exact Or.inr ⟨axis, positive, rfl⟩
  | forward => exact absurd hs (hletter rfl (by decide))
  | push => exact absurd hs (hletter rfl (by decide))
  | pop => exact absurd hs (hletter rfl (by decide))
  | leaf => exact absurd hs (hletter rfl (by decide))

/-- Where an outline goes on with a character, the sentence has a symbol with it, behind symbols that do not count. -/
theorem exists_of_outline_eq_cons {sentence : List (Symbol α)} {c : Char} {cs : List Char}
    (h : outline sentence = c :: cs) : ∃ skipped s rest, sentence = skipped ++ s :: rest ∧
      (∀ x ∈ skipped, x.tag ∉ outlineTags) ∧ s.tag = c ∧ outline rest = cs := by
  obtain ⟨tags, more, hsplit, hskipped, -, hmore⟩ := List.filter_eq_cons_iff.mp h
  obtain ⟨skipped, tail, rfl, rfl, htail⟩ := List.map_eq_append_iff.mp hsplit
  obtain ⟨s, rest, rfl, hs, rfl⟩ := List.map_eq_cons_iff.mp htail
  refine ⟨skipped, s, rest, rfl, fun x hx => ?_, hs, hmore⟩
  simpa using hskipped x.tag (List.mem_map_of_mem hx)

end Symbol

/-! ## Turtles that skip symbols -/

theorem Skeleton.SameShape.symm {s : Skeleton α} {t : Skeleton β} (h : s.SameShape t) : t.SameShape s where
  nodes := h.nodes.symm
  segments := h.segments.symm
  leaves := h.leaves.symm

namespace Turtle

variable {t : Turtle α} {u : Turtle β}

theorem Alike.symm (h : t.Alike u) : u.Alike t where
  pose := ⟨h.pose.depth.symm, h.pose.node.symm⟩
  saved := h.saved.flip.imp fun _ _ hp => ⟨hp.depth.symm, hp.node.symm⟩
  skeleton := h.skeleton.symm

variable [Scalar α]

/-- A symbol outside the outline keeps a turtle alike to one that stays. -/
theorem Alike.apply_inert (h : t.Alike u) {s : Symbol α} (hs : s.tag ∉ Symbol.outlineTags) : (t.apply s).Alike u := by
  unfold Turtle.apply
  rcases Symbol.command_of_notMem hs with hidle | ⟨axis, positive, hturn⟩
  · rw [hidle]
    exact h
  · rw [hturn]
    exact ⟨⟨h.pose.depth, h.pose.node⟩, h.saved, h.skeleton⟩

theorem Alike.foldl_inert (h : t.Alike u) {xs : List (Symbol α)} (hxs : ∀ x ∈ xs, x.tag ∉ Symbol.outlineTags) :
    (xs.foldl Turtle.apply t).Alike u := by
  induction xs generalizing t with
  | nil => exact h
  | cons x xs ih =>
    obtain ⟨hx, hxs⟩ := List.forall_mem_cons.mp hxs
    exact ih (h.apply_inert hx) hxs

variable [Scalar β]

/-- **Sentences with one outline keep turtles alike.** The first walks on symbol by symbol, the second catches up at each
symbol of the outline. -/
theorem Alike.foldl_outline (h : t.Alike u) {xs : List (Symbol α)} {ys : List (Symbol β)}
    (hxs : Symbol.outline xs = Symbol.outline ys) : (xs.foldl Turtle.apply t).Alike (ys.foldl Turtle.apply u) := by
  induction xs generalizing t u ys with
  | nil =>
    have hinert : ∀ y ∈ ys, y.tag ∉ Symbol.outlineTags := fun y hy => by
      simpa using List.filter_eq_nil_iff.mp hxs.symm y.tag (List.mem_map_of_mem hy)
    exact (h.symm.foldl_inert hinert).symm
  | cons x xs ih =>
    by_cases hx : x.tag ∈ Symbol.outlineTags
    · rw [Symbol.outline_cons_of_mem hx] at hxs
      obtain ⟨skipped, y, rest, rfl, hskipped, hy, hrest⟩ := Symbol.exists_of_outline_eq_cons hxs.symm
      rw [List.foldl_append]
      exact ih ((h.symm.foldl_inert hskipped).symm.apply hy.symm) hrest.symm
    · rw [Symbol.outline_cons_of_notMem hx] at hxs
      exact ih (h.apply_inert hx) hxs

theorem Alike.walk_outline (gait : Gait α) (gait' : Gait β) {xs : List (Symbol α)} {ys : List (Symbol β)}
    (h : Symbol.outline xs = Symbol.outline ys) : (Turtle.walk gait xs).Alike (Turtle.walk gait' ys) :=
  (Alike.start gait gait').foldl_outline h

end Turtle

/-! ## Radii -/

/-- The radii that a segment was made with. -/
def Segment.radii (seg : Segment α) : α × α := (seg.startRadius, seg.finishRadius)

namespace Skeleton

variable [Scalar α] {s t : Skeleton α} {gait : Gait α}

theorem arena_ofSentence (gait : Gait α) (sentence : List (Symbol α)) : (ofSentence gait sentence).Arena gait := by
  have harena := (Turtle.sound_walk gait sentence).arena.annotate
  rwa [Turtle.gait_walk] at harena

/-- The root keeps its radius. -/
theorem root_ofSentence (gait : Gait α) (sentence : List (Symbol α)) :
    ∃ n, (ofSentence gait sentence).node? 0 = some n ∧ n.radius = gait.baseRadius := by
  have hroot : (Turtle.walk gait ([] ++ sentence)).skeleton.node? 0 = _ := (Turtle.within_walk gait [] sentence).node? rfl
  exact ⟨_, node?_annotate_some hroot, rfl⟩

/-- **In trees of one shape, made with one gait, radii differ at the root only.** -/
theorem Arena.radii (hs : s.Arena gait) (ht : t.Arena gait) (hshape : s.SameShape t)
    (hroot : (s.node? 0).map Node.radius = (t.node? 0).map Node.radius) :
    s.nodes.map Node.radius = t.nodes.map Node.radius ∧ s.segments.map Segment.radii = t.segments.map Segment.radii := by
  have hnode : ∀ i, (s.node? i).map Node.radius = (t.node? i).map Node.radius := by
    intro i
    rcases Nat.eq_zero_or_pos i with rfl | hi
    · exact hroot
    · have hi' := congrArg (·[i]?) hshape.nodes
      simp only [Array.getElem?_map] at hi'
      change (s.node? i).map Node.shape = (t.node? i).map Node.shape at hi'
      cases hm : s.node? i with
      | none => rw [hm, eq_comm, Option.map_none, Option.map_eq_none_iff] at hi'; rw [hi']
      | some m =>
        rw [hm, Option.map_some, eq_comm, Option.map_eq_some_iff] at hi'
        obtain ⟨n, hn, hsame⟩ := hi'
        have hdepth : n.depth = m.depth := congrArg (·.2.2.1) hsame
        rw [hn, Option.map_some, Option.map_some, hs.radius i m hi hm, ht.radius i n hi hn, hdepth]
  refine ⟨Array.ext_getElem? fun i => ?_, Array.ext_getElem? fun k => ?_⟩
  · rw [Array.getElem?_map, Array.getElem?_map]
    exact hnode i
  · have hk := congrArg (·[k]?) hshape.segments
    simp only [Array.getElem?_map] at hk ⊢
    cases hseg : s.segments[k]? with
    | none => rw [hseg, eq_comm, Option.map_none, Option.map_eq_none_iff] at hk; rw [hk]
    | some seg =>
      rw [hseg, Option.map_some, eq_comm, Option.map_eq_some_iff] at hk
      obtain ⟨seg', hseg', hends⟩ := hk
      obtain ⟨m, n, hm, hn, -, -, hstart, hfinish⟩ := hs.segment k seg hseg
      obtain ⟨m', n', hm', hn', -, -, hstart', hfinish'⟩ := ht.segment k seg' hseg'
      have hends : seg'.start = seg.start := congrArg Prod.fst hends
      have hfrom := hnode seg.start
      have hto := hnode (k + 1)
      rw [hm, ← hends, hm'] at hfrom
      rw [hn, hn'] at hto
      rw [hseg', Option.map_some, Option.map_some, Segment.radii, Segment.radii, hstart, hfinish, hstart', hfinish',
        Option.some.inj hfrom, Option.some.inj hto]

end Skeleton

/-! ## Walks -/

namespace Turtle

variable [Scalar α]

/-- **Steps, brackets and leaf symbols alone decide the shape.** Two sentences with one outline leave skeletons of one
shape, whatever their turns, idle symbols, numbers and gaits are. Each leaf symbol of the one and the leaf symbol with
its number in the other are met at the same node, and the leaf of that number is put there. With one gait all radii are
the same, too. -/
theorem outline_decides (gait gait' : Gait α) {xs ys : List (Symbol α)} (h : Symbol.outline xs = Symbol.outline ys) :
    let s := Skeleton.ofSentence gait xs
    let t := Skeleton.ofSentence gait' ys
    s.SameShape t ∧
    (∀ i j x y, xs[i]? = some x → ys[j]? = some y → x.tag = 'L' → y.tag = 'L' →
      ((xs.take i).map Symbol.tag).count 'L' = ((ys.take j).map Symbol.tag).count 'L' →
      let k := ((xs.take i).map Symbol.tag).count 'L'
      let p := (walk gait (xs.take i)).pose
      let q := (walk gait' (ys.take j)).pose
      p.node = q.node ∧ s.leaves[k]? = some ⟨p.position, p.orientation, x.size.getD 1⟩ ∧
        t.leaves[k]? = some ⟨q.position, q.orientation, y.size.getD 1⟩) ∧
    (gait = gait' →
      s.nodes.map Node.radius = t.nodes.map Node.radius ∧
      s.segments.map Segment.radii = t.segments.map Segment.radii) := by
  intro s t
  have hshape : s.SameShape t := (Alike.walk_outline gait gait' h).skeleton.annotate
  refine ⟨hshape, fun i j x y hx hy hxleaf hyleaf hcount => ?_, ?_⟩
  · have hbefore : Symbol.outline (xs.take i) = Symbol.outline (ys.take j) :=
      Symbol.outline_take h hx hy (hxleaf.trans hyleaf.symm) (hxleaf ▸ by decide) (hxleaf ▸ hcount)
    intro k p q
    refine ⟨(Alike.walk_outline gait gait' hbefore).pose.node, leaf_walk gait hx hxleaf, ?_⟩
    have hleaf := leaf_walk gait' hy hyleaf
    rwa [← hcount] at hleaf
  · rintro rfl
    obtain ⟨m, hm, hmr⟩ := Skeleton.root_ofSentence gait xs
    obtain ⟨n, hn, hnr⟩ := Skeleton.root_ofSentence gait ys
    refine (Skeleton.arena_ofSentence gait xs).radii (Skeleton.arena_ofSentence gait ys) hshape ?_
    rw [hm, hn, Option.map_some, Option.map_some, hmr, hnr]

/-- A shoot with turns and numbers and the bare characters of its outline, a bracket that opens nothing included: the
second leaf of both sits at node one. -/
theorem outline_decides_shoot :
    let xs : List (Symbol Float) := [.turn '+' 40, .forward 2, .bare 'X', .bare '[', .forward 3, .turn '/' 5, .leaf 2,
      .bare ']', .bare ']', .leaf 1]
    let ys : List (Symbol Float) := "F[FL]]LQ".toList.map Symbol.bare
    let s := Skeleton.ofSentence Gait.standard xs
    let t := Skeleton.ofSentence Gait.standard ys
    Symbol.outline xs = Symbol.outline ys ∧ s.SameShape t ∧
      (walk Gait.standard (xs.take 9)).pose.node = (walk Gait.standard (ys.take 6)).pose.node ∧
      s.nodes.map Node.radius = t.nodes.map Node.radius := by
  intro xs ys s t
  have houtline : Symbol.outline xs = Symbol.outline ys := by decide
  obtain ⟨hshape, hleaves, hradii⟩ := outline_decides Gait.standard Gait.standard houtline
  exact ⟨houtline, hshape, (hleaves 9 6 _ _ rfl rfl rfl rfl (by decide)).1, (hradii rfl).1⟩

end Turtle
end Arbor
