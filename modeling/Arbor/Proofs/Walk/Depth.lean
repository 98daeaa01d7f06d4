import Arbor.Proofs.Sentence.Reading
import Arbor.Proofs.Walk.Arena

/-!
# Depth in the text and on the walk

The reader of a text keeps its depth as a number that stops at zero; the turtle keeps a stack of places, each with the
depth at which it was saved. On every text, surplus and missing brackets included, both are the bracket depth
(`Turtle.depth_walk`, `Sentence.depth_read`).

What a walk has made it keeps (`Skeleton.Within`), so the step made at any place of the sentence is found in the
finished skeleton (`Turtle.made_walk`). With both, the symbol read for a step and the node made for it have one depth
(`Turtle.walk_parse`).
-/

namespace Arbor

open scoped Scalar

/-! ## Growing skeletons -/

theorem getElem?_of_prefix {β : Type} {a b : Array β} (h : a.toList <+: b.toList) {i : Nat} {x : β}
    (hx : a[i]? = some x) : b[i]? = some x := by
  rw [← Array.getElem?_toList] at hx ⊢
  obtain ⟨more, hmore⟩ := h
  rw [← hmore, List.getElem?_append_left (List.getElem?_eq_some_iff.mp hx).1, hx]

namespace Skeleton

variable {α : Type}

/-- All that there is in the one skeleton stands at the same place in the other. -/
structure Within (s t : Skeleton α) : Prop where
  nodes : s.nodes.toList <+: t.nodes.toList
  segments : s.segments.toList <+: t.segments.toList
  leaves : s.leaves.toList <+: t.leaves.toList

theorem Within.refl (s : Skeleton α) : s.Within s where
  nodes := List.prefix_refl _
  segments := List.prefix_refl _
  leaves := List.prefix_refl _

theorem Within.trans {s t u : Skeleton α} (h₁ : s.Within t) (h₂ : t.Within u) : s.Within u where
  nodes := h₁.nodes.trans h₂.nodes
  segments := h₁.segments.trans h₂.segments
  leaves := h₁.leaves.trans h₂.leaves

theorem Within.node? {s t : Skeleton α} (h : s.Within t) {i : Nat} {n : Node α} (hn : s.node? i = some n) :
    t.node? i = some n := getElem?_of_prefix h.nodes hn

theorem Within.segment {s t : Skeleton α} (h : s.Within t) {k : Nat} {seg : Segment α}
    (hseg : s.segments[k]? = some seg) : t.segments[k]? = some seg := getElem?_of_prefix h.segments hseg

end Skeleton

variable {α : Type} [Scalar α]

namespace Turtle

theorem within_apply (t : Turtle α) (s : Symbol α) : t.skeleton.Within (t.apply s).skeleton := by
  refine apply_induction (P := fun t' => t.skeleton.Within t'.skeleton) s (fun _ => ?_) (fun _ _ _ _ => .refl _)
    (fun _ => .refl _) (fun _ => by rw [skeleton_pop]; exact .refl _) (fun _ => ?_) (fun _ => .refl _)
  · exact ⟨by simp [nodes_step], by simp [step], List.prefix_refl _⟩
  · exact ⟨List.prefix_refl _, List.prefix_refl _, by simp [sprout]⟩

/-- **What a walk has made it keeps.** -/
theorem within_walk (gait : Gait α) (xs ys : List (Symbol α)) :
    (walk gait xs).skeleton.Within (walk gait (xs ++ ys)).skeleton := by
  induction ys using List.reverseRecOn with
  | nil =>
    rw [List.append_nil]
    exact .refl _
  | append_singleton ys s ih =>
    rw [← List.append_assoc, walk_snoc]
    exact ih.trans (within_apply _ s)

/-- What a symbol makes is there in the end. -/
theorem within_walk_at (gait : Gait α) {sentence : List (Symbol α)} {i : Nat} {s : Symbol α}
    (hs : sentence[i]? = some s) :
    ((walk gait (sentence.take i)).apply s).skeleton.Within (walk gait sentence).skeleton := by
  obtain ⟨hi, rfl⟩ := List.getElem?_eq_some_iff.mp hs
  have hsplit : sentence.take i ++ [sentence[i]] ++ sentence.drop (i + 1) = sentence := by
    rw [List.append_assoc, List.singleton_append, ← List.drop_eq_getElem_cons hi, List.take_append_drop]
  have hwithin := within_walk gait (sentence.take i ++ [sentence[i]]) (sentence.drop (i + 1))
  rwa [hsplit, walk_snoc] at hwithin

/-! ## Depth on the walk -/

theorem length_saved_pop {α : Type} (t : Turtle α) : t.pop.saved.length = t.saved.length - 1 := by
  unfold pop
  cases h : t.saved with
  | nil => exact congrArg List.length h
  | cons p rest => rfl

/-- A symbol moves the turtle's depth as its character moves the depth of a text. -/
theorem depth_apply {t : Turtle α} (h : t.Sound) (s : Symbol α) :
    (t.apply s).pose.depth = bracketDepth t.pose.depth [s.tag] := by
  rw [← nest_ofChar]
  refine apply_induction (P := fun t' => t'.pose.depth = s.command.nest t.pose.depth) s
    (fun hc => ?_) (fun _ _ hc _ => ?_) (fun hc => ?_) (fun hc => ?_) (fun hc => ?_) (fun hc => ?_)
  · rw [hc]; rfl
  · rw [hc]; rfl
  · rw [hc]; rfl
  · -- on an empty stack both stay at zero
    rw [hc, (sound_pop h).depth, length_saved_pop, ← h.depth]; rfl
  · rw [hc]; rfl
  · rw [hc]; rfl

/-- **The turtle's depth is the bracket depth of what it has walked.** -/
theorem depth_walk (gait : Gait α) (sentence : List (Symbol α)) :
    (walk gait sentence).pose.depth = bracketDepth 0 (sentence.map Symbol.tag) := by
  induction sentence using List.reverseRecOn with
  | nil => rfl
  | append_singleton xs s ih =>
    rw [walk_snoc, depth_apply (sound_walk gait xs), ih, List.map_append, bracketDepth_append]
    rfl

/-! ## The steps of a walk -/

theorem size_nodes_walk (gait : Gait α) (sentence : List (Symbol α)) :
    (walk gait sentence).skeleton.nodes.size = (sentence.map Symbol.tag).count 'F' + 1 := by
  rw [(sound_walk gait sentence).arena.size, size_segments_walk]

/-- **A step at any place of the sentence has made the node and the segment of its number,** with the depth of that
place and the length of the symbol. -/
theorem made_walk (gait : Gait α) {sentence : List (Symbol α)} {i : Nat} {s : Symbol α} (hs : sentence[i]? = some s)
    (hstep : s.command = .forward) :
    let before := (sentence.take i).map Symbol.tag
    ∃ n seg, (walk gait sentence).skeleton.node? (before.count 'F' + 1) = some n ∧ n.depth = bracketDepth 0 before ∧
      (walk gait sentence).skeleton.segments[before.count 'F']? = some seg ∧ seg.finish = before.count 'F' + 1 ∧
      seg.length = s.length.getD gait.defaultLength ∧ seg.finishRadius = n.radius := by
  intro before
  have hwithin := within_walk_at gait hs
  rw [apply_forward _ hstep, gait_walk] at hwithin
  have hnodes := size_nodes_walk gait (sentence.take i)
  have hsegments := size_segments_walk gait (sentence.take i)
  obtain ⟨m, hm, -⟩ := (sound_walk gait (sentence.take i)).stands
  have hnew := node?_step_new (walk gait (sentence.take i)) (s.length.getD gait.defaultLength)
  rw [hnodes] at hnew
  have hseg := congrArg (·[before.count 'F']?)
    (segments_step hm (s.length.getD gait.defaultLength))
  simp only [Array.getElem?_push, hsegments, before, if_pos] at hseg
  exact ⟨_, _, hwithin.node? hnew, depth_walk gait (sentence.take i), hwithin.segment hseg, hnodes, rfl, rfl⟩

/-! ## The walk of a text -/

/-- Every step of a text is read at a place of its own, and its node and its segment are made there. -/
theorem made_parse (habit : Habit α) (gait : Gait α) (text : String) (rng : Rng) {i : Nat}
    (hi : text.toList[i]? = some 'F') :
    let k := (text.toList.take i).count 'F'
    let here := ((Sentence.read habit).run ⟨0, rng⟩ (text.toList.take i)).2
    let sentence := ((Sentence.parse habit 0 text).run rng).1
    let symbol := ((Symbol.create habit here.depth 'F').run here.rng).1
    let s := Skeleton.ofSentence gait sentence
    sentence[i]? = some symbol ∧ ∃ n seg, s.node? (k + 1) = some n ∧ n.depth = here.depth ∧
      s.segments[k]? = some seg ∧ seg.finish = k + 1 ∧ symbol.length = some seg.length ∧
      seg.finishRadius = gait.radiusAt n.depth := by
  intro k here sentence symbol s
  have hsymbol : sentence[i]? = some symbol := Sentence.getElem?_read habit ⟨0, rng⟩ hi
  have htag : symbol.tag = 'F' := tag_create habit here.depth 'F' here.rng
  have htags : (sentence.take i).map Symbol.tag = text.toList.take i := by
    rw [List.map_take]
    exact congrArg (List.take i) (Sentence.tags_read habit ⟨0, rng⟩ text.toList)
  have hmade := made_walk gait hsymbol (Symbol.command_eq_forward.mpr htag)
  rw [htags] at hmade
  obtain ⟨n, seg, hn, hdepth, hseg, hfinish, hlength, hradius⟩ := hmade
  have hsome : symbol.length = some (symbol.length.getD gait.defaultLength) := rfl
  have hnode := (sound_walk gait sentence).arena.radius (k + 1) n (Nat.succ_pos k) hn
  rw [gait_walk] at hnode
  refine ⟨hsymbol, _, seg, Skeleton.node?_annotate_some hn, ?_, hseg, hfinish, ?_, hradius.trans hnode⟩
  · exact hdepth.trans (Sentence.depth_read habit ⟨0, rng⟩ (text.toList.take i)).symm
  · rw [hlength, ← hsome]

/-- **The reader and the turtle agree about depth on every text.** Each step of the text, the one with number `k`, is
made into a symbol at the depth that node `k + 1` has, and the segment to that node has the length of this symbol. So
without variability every segment has the length that a step has at the depth of its end, and its radius there is the
one of the same depth. -/
theorem walk_parse (habit : Habit α) (gait : Gait α) (text : String) (rng : Rng) :
    let cs := text.toList
    let sentence := ((Sentence.parse habit 0 text).run rng).1
    let s := Skeleton.ofSentence gait sentence
    s.segments.size = cs.count 'F' ∧ s.nodes.size = cs.count 'F' + 1 ∧
    (∀ i, cs[i]? = some 'F' →
      let k := (cs.take i).count 'F'
      let here := ((Sentence.read habit).run ⟨0, rng⟩ (cs.take i)).2
      let symbol := ((Symbol.create habit here.depth 'F').run here.rng).1
      sentence[i]? = some symbol ∧ ∃ n seg, s.node? (k + 1) = some n ∧ n.depth = here.depth ∧
        s.segments[k]? = some seg ∧ seg.finish = k + 1 ∧ symbol.length = some seg.length) ∧
    ((habit.variability == 0) = true → ∀ seg ∈ s.segments, ∃ n, s.node? seg.finish = some n ∧
      (∀ rng', ((Symbol.create habit n.depth 'F').run rng').1.length = some seg.length) ∧
      seg.finishRadius = gait.radiusAt n.depth) := by
  intro cs sentence s
  have htags : sentence.map Symbol.tag = cs := Sentence.tags_read habit ⟨0, rng⟩ cs
  have hsegments : s.segments.size = cs.count 'F' := by
    have h := size_segments_walk gait sentence
    rwa [htags] at h
  have hnodes : s.nodes.size = cs.count 'F' + 1 := by
    have h := size_nodes_walk gait sentence
    rwa [htags, ← Skeleton.size_nodes_annotate] at h
  refine ⟨hsegments, hnodes, fun i hi => ?_, fun hstill seg hseg => ?_⟩
  · obtain ⟨hsymbol, n, seg, hn, hdepth, hseg, hfinish, hlength, -⟩ := made_parse habit gait text rng hi
    exact ⟨hsymbol, n, seg, hn, hdepth, hseg, hfinish, hlength⟩
  · obtain ⟨k, hk, hget⟩ := Array.mem_iff_getElem.mp hseg
    have hcount : k < cs.count 'F' := hsegments ▸ hk
    -- the step that made segment `k` is the character `F` with that number
    have hi : cs[cs.idxOfNth 'F' k]? = some 'F' :=
      List.getElem?_eq_some_iff.mpr ⟨List.idxOfNth_lt_length_of_lt_count hcount, List.getElem_idxOfNth_eq⟩
    have hbefore : (cs.take (cs.idxOfNth 'F' k)).count 'F' = k := by
      rw [← List.countBefore_eq_count_take, List.countBefore_idxOfNth_of_lt_count hcount]
    obtain ⟨-, n, seg', hn, hdepth, hseg', hfinish, hlength, hradius⟩ := made_parse habit gait text rng hi
    rw [hbefore] at hn hseg' hfinish
    have hsame : seg' = seg := by
      rw [Array.getElem?_eq_getElem hk, hget] at hseg'
      exact (Option.some.inj hseg').symm
    subst hsame
    refine ⟨n, by rw [hfinish]; exact hn, fun rng' => ?_, hradius⟩
    obtain ⟨symbol, htag, hsettled⟩ := create_still hstill n.depth 'F'
    have hmade : ∀ rng'', (Symbol.create habit n.depth 'F').run rng'' = (symbol, rng'') := htag ▸ hsettled
    rw [← hdepth, hmade] at hlength
    rw [hmade, hlength]

/-- A text that closes what it never opened and opens what it never closes: four steps, the second and the last of them
one bracket deep. -/
theorem walk_parse_ragged :
    let s := Skeleton.ofSentence Gait.standard ((Sentence.parse Habit.standard 0 "]F[F]]F[F").run (Rng.ofSeed "oak")).1
    s.nodes.size = 5 ∧ (Habit.standard.variability == 0) = true ∧
    (∃ n, s.node? 4 = some n ∧ n.depth = 1) ∧
    ∀ seg ∈ s.segments, ∃ n, s.node? seg.finish = some n ∧
      (∀ rng, ((Symbol.create Habit.standard n.depth 'F').run rng).1.length = some seg.length) ∧
      seg.finishRadius = Gait.standard.radiusAt n.depth := by
  have hstill : (Habit.standard.variability == 0) = true := by decide +kernel
  obtain ⟨-, hnodes, hsteps, hlengths⟩ := walk_parse Habit.standard Gait.standard "]F[F]]F[F" (Rng.ofSeed "oak")
  obtain ⟨-, n, -, hn, hdepth, -⟩ := hsteps 8 (by decide +kernel)
  exact ⟨hnodes, hstill, ⟨n, hn, hdepth⟩, hlengths hstill⟩

end Turtle

end Arbor
