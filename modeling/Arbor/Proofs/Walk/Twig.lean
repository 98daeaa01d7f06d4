import Arbor.Proofs.Walk.Trail

/-!
# Twigs

A twig is a branch of a sentence with both of its brackets (`Twig`). Whatever stands between them, the turtle has the
same in hand behind the closing bracket as before the opening one (`foldl_twig`): as long as nothing is closed that was
not opened, the places saved before stay below those saved since (`saved_foldl`). So what follows a twig goes on as if
it were not there, with higher ids (`twig_transparent`).
-/

namespace Arbor

variable {α : Type}

/-- **A twig:** a part of a sentence that opens a branch with its first symbol and closes it with its last. -/
structure Twig (α : Type) where
  opening : Symbol α
  body : List (Symbol α)
  closing : Symbol α
  opens : opening.tag = '['
  closes : closing.tag = ']'
  balanced : Balanced (body.map Symbol.tag)

namespace Twig

/-- The twig around a balanced text, with no numbers of its own. -/
def bare (cs : List Char) (h : Balanced cs) : Twig α where
  opening := .bare '['
  body := cs.map .bare
  closing := .bare ']'
  opens := rfl
  closes := rfl
  balanced := by
    rw [List.map_map]
    exact (List.map_id cs).symm ▸ h

/-- The twig as a part of a sentence. -/
def symbols (w : Twig α) : List (Symbol α) := w.opening :: (w.body ++ [w.closing])

/-- The number of steps between the brackets. -/
def steps (w : Twig α) : Nat := (w.body.map Symbol.tag).count 'F'

/-- The brackets are no steps. -/
theorem count_symbols (w : Twig α) : (w.symbols.map Symbol.tag).count 'F' = w.steps := by
  simp [symbols, steps, w.opens, w.closes]

theorem command_opening (w : Twig α) : w.opening.command = .push :=
  (Command.ofChar_eq_iff (show Command.push.letter = some '[' from rfl)).mpr w.opens

theorem command_closing (w : Twig α) : w.closing.command = .pop :=
  (Command.ofChar_eq_iff (show Command.pop.letter = some ']' from rfl)).mpr w.closes

end Twig

variable [Scalar α]

namespace Turtle

/-! ## Places saved before -/

theorem saved_apply (t : Turtle α) (x : Symbol α) : (t.apply x).saved =
    match x.command with
    | .push => t.pose :: t.saved
    | .pop => t.saved.tail
    | _ => t.saved := by
  unfold apply
  cases x.command with
  | pop =>
    unfold pop
    cases hs : t.saved with
    | nil => exact hs
    | cons p rest => rfl
  | forward | turn | push | leaf | idle => rfl

/-- **What was saved before stays,** below as many places as there are branches opened since, while nothing is closed
that was not opened since. -/
theorem saved_foldl (t : Turtle α) (xs : List (Symbol α))
    (h : ∀ p, p <+: xs.map Symbol.tag → p.count ']' ≤ p.count '[') :
    ∃ opened, (xs.foldl apply t).saved = opened ++ t.saved ∧ opened.length = bracketDepth 0 (xs.map Symbol.tag) := by
  -- from the end, where the last symbol meets the places saved by all symbols before it
  induction xs using List.reverseRecOn with
  | nil => exact ⟨[], rfl, rfl⟩
  | append_singleton xs x ih =>
    rw [List.map_append] at h ⊢
    have hbefore : ∀ p, p <+: xs.map Symbol.tag → p.count ']' ≤ p.count '[' :=
      fun p hp => h p (hp.trans (List.prefix_append _ _))
    obtain ⟨opened, hsaved, hlength⟩ := ih hbefore
    have hdepth : bracketDepth 0 (xs.map Symbol.tag ++ [x].map Symbol.tag) = x.command.nest opened.length := by
      rw [bracketDepth_append, ← hlength]
      exact (nest_ofChar _ _).symm
    rw [List.foldl_append, List.foldl_cons, List.foldl_nil, saved_apply, hsaved, hdepth]
    cases hx : x.command with
    | push => exact ⟨_ :: opened, rfl, rfl⟩
    | pop =>
      have hcount := bracketDepth_add_count 0 _ hbefore
      have hlast := h _ (List.prefix_refl _)
      have htag : x.tag = ']' := (Command.ofChar_eq_iff rfl).mp hx
      rw [List.map_singleton, htag] at hlast
      simp at hlast
      cases opened with
      | nil =>
        rw [← hlength, List.length_nil] at hcount
        omega
      | cons p opened => exact ⟨opened, rfl, rfl⟩
    | forward | turn | leaf | idle => exact ⟨opened, rfl, rfl⟩

/-- A balanced part of a sentence leaves the saved places as it found them. -/
theorem saved_balanced (t : Turtle α) {xs : List (Symbol α)} (h : Balanced (xs.map Symbol.tag)) :
    (xs.foldl apply t).saved = t.saved := by
  obtain ⟨opened, hsaved, hlength⟩ := saved_foldl t xs h.opened
  rw [h.bracketDepth] at hlength
  rw [hsaved, List.length_eq_zero_iff.mp hlength, List.nil_append]

/-- **Behind a twig the turtle has in hand what it had before.** -/
theorem foldl_twig (t : Turtle α) (w : Twig α) :
    (w.symbols.foldl apply t).pose = t.pose ∧ (w.symbols.foldl apply t).saved = t.saved := by
  have hpush : t.apply w.opening = t.push := by
    unfold apply
    rw [w.command_opening]
  have hpop : ∀ t' : Turtle α, t'.apply w.closing = t'.pop := by
    intro t'
    unfold apply
    rw [w.command_closing]
  have hsaved : (w.body.foldl apply t.push).saved = t.pose :: t.saved := saved_balanced t.push w.balanced
  rw [Twig.symbols, List.foldl_cons, List.foldl_append, hpush, List.foldl_cons, List.foldl_nil, hpop, pop, hsaved]
  exact ⟨rfl, rfl⟩

/-! ## What follows a twig -/

/-- The cursor and the saved places name nodes that there are. -/
theorem Sound.node_lt {t : Turtle α} (h : t.Sound) : ∀ p ∈ t.pose :: t.saved, p.node < t.skeleton.nodes.size := by
  intro p hp
  rcases List.mem_cons.mp hp with rfl | hp
  · exact h.stands.lt
  · exact (h.saved p hp).lt

section Walk

variable (gait : Gait α) (s : List (Symbol α)) (w : Twig α)

theorem skeleton_walk_append (xs : List (Symbol α)) :
    (walk gait (s ++ xs)).skeleton = (walk gait s).skeleton ++ (walk gait s).trail xs := by
  rw [walk_append, skeleton_foldl]

theorem walk_twig :
    (walk gait (s ++ w.symbols)).pose = (walk gait s).pose ∧
      (walk gait (s ++ w.symbols)).saved = (walk gait s).saved := by
  rw [walk_append]
  exact foldl_twig _ w

/-- Ids that are in use before the twig stay, all others are higher by the number of its steps. -/
def shift (i : Nat) : Nat := if i < (walk gait s).skeleton.nodes.size then i else i + w.steps

/-- The next id is carried along to the next id, wherever the walk has come behind the twig. -/
theorem shift_size_nodes (xs : List (Symbol α)) (j : Nat) :
    shift gait s w ((walk gait (s ++ xs)).skeleton.nodes.size + j) =
      (walk gait (s ++ w.symbols ++ xs)).skeleton.nodes.size + j := by
  have hlow := size_nodes_walk gait s
  have hsize := size_nodes_walk gait (s ++ xs)
  have hsize' := size_nodes_walk gait (s ++ w.symbols ++ xs)
  simp only [List.map_append, List.count_append, w.count_symbols] at hsize hsize'
  rw [shift, if_neg (by omega)]
  omega

/-- **The walk goes on behind a twig as without it,** with higher ids. -/
theorem carried_walk_twig (xs : List (Symbol α)) :
    (walk gait (s ++ xs)).Carried (shift gait s w) (walk gait (s ++ w.symbols ++ xs)) := by
  obtain ⟨hpose, hsaved⟩ := walk_twig gait s w
  have hbehind : (walk gait s).Carried (shift gait s w) (walk gait (s ++ w.symbols)) :=
    .of_fixed (by rw [gait_walk, gait_walk]) hpose hsaved fun p hp => if_pos ((sound_walk gait s).node_lt p hp)
  have hfoldl := hbehind.foldl (sound_walk gait s) (sound_walk gait _) xs fun j _ => by
    simpa using shift_size_nodes gait s w [] j
  rw [walk_append, walk_append]
  exact hfoldl.1

theorem trail_behind_twig (xs ys : List (Symbol α)) :
    (walk gait (s ++ w.symbols ++ xs)).trail ys = ((walk gait (s ++ xs)).trail ys).renumber (shift gait s w) :=
  ((carried_walk_twig gait s w xs).foldl (sound_walk gait _) (sound_walk gait _) ys fun j _ =>
    shift_size_nodes gait s w xs j).2

end Walk
end Turtle

open Turtle

/-- What the symbol at a place of the sentence has made, as it is in the finished skeleton. -/
def Skeleton.made (gait : Gait α) (sentence : List (Symbol α)) (i : Nat) : Skeleton α :=
  (ofSentence gait sentence).between (walk gait (sentence.take i)).skeleton (walk gait (sentence.take (i + 1))).skeleton

/-- But for the marks, a symbol has made what it made when the turtle came to it. -/
theorem Skeleton.unmarked_made (gait : Gait α) {sentence : List (Symbol α)} {i : Nat} {x : Symbol α}
    (hx : sentence[i]? = some x) :
    (made gait sentence i).unmarked = ((walk gait (sentence.take i)).trail [x]).unmarked := by
  obtain ⟨hi, rfl⟩ := List.getElem?_eq_some_iff.mp hx
  have htake : sentence.take (i + 1) = sentence.take i ++ [sentence[i]] := List.take_succ_eq_append_getElem hi
  have hsplit : (walk gait sentence).skeleton = (walk gait (sentence.take i)).skeleton ++
      (walk gait (sentence.take i)).trail [sentence[i]] ++
        (walk gait (sentence.take (i + 1))).trail (sentence.drop (i + 1)) := by
    rw [← skeleton_walk_append, ← htake, ← skeleton_walk_append, List.take_append_drop]
  rw [made, ofSentence, unmarked_between, unmarked_annotate, ← unmarked_between, hsplit, htake, skeleton_walk_append,
    between_append]

namespace Turtle

/-- **A closed branch is transparent to the rest.** Behind a twig the cursor and the saved places are what they were
before it, and things have only been added. What follows goes on as if the twig were not there: whatever a symbol makes
before or behind it is what the same symbol makes without it, in everything but the marks, and the ids of the nodes made
behind it are higher by the number of its steps. -/
theorem twig_transparent (gait : Gait α) (s u : List (Symbol α)) (w : Twig α) :
    let before := walk gait s
    let behind := walk gait (s ++ w.symbols)
    let higher := fun i => if i < before.skeleton.nodes.size then i else i + w.steps
    (behind.pose = before.pose ∧ behind.saved = before.saved ∧ before.skeleton.Within behind.skeleton) ∧
    (∀ i < s.length, (Skeleton.made gait (s ++ w.symbols ++ u) i).unmarked = (Skeleton.made gait (s ++ u) i).unmarked) ∧
    ∀ i < u.length, (Skeleton.made gait (s ++ w.symbols ++ u) (s.length + w.symbols.length + i)).unmarked =
      ((Skeleton.made gait (s ++ u) (s.length + i)).renumber higher).unmarked := by
  intro before behind higher
  obtain ⟨hpose, hsaved⟩ := walk_twig gait s w
  refine ⟨⟨hpose, hsaved, within_walk gait s w.symbols⟩, fun i hi => ?_, fun i hi => ?_⟩
  · have hx : ∀ ys, (s ++ ys)[i]? = some s[i] := fun ys => by
      rw [List.getElem?_append_left hi, List.getElem?_eq_getElem hi]
    have htake : ∀ ys, (s ++ ys).take i = s.take i := fun ys => List.take_append_of_le_length hi.le
    rw [List.append_assoc, Skeleton.unmarked_made gait (hx _), Skeleton.unmarked_made gait (hx _), htake, htake]
  · have hx : ∀ xs : List (Symbol α), (xs ++ u)[xs.length + i]? = some u[i] := fun xs => by
      rw [List.getElem?_append_right (Nat.le_add_right _ _), Nat.add_sub_cancel_left, List.getElem?_eq_getElem hi]
    have htake : ∀ xs : List (Symbol α), (xs ++ u).take (xs.length + i) = xs ++ u.take i := fun xs =>
      List.take_length_add_append i
    rw [← List.length_append, Skeleton.unmarked_made gait (hx _), Skeleton.unmarked_renumber,
      Skeleton.unmarked_made gait (hx _), htake, htake, trail_behind_twig, Skeleton.unmarked_renumber]
    rfl

/-- A twig of two steps, the second in a branch of its own with a leaf at its foot. -/
def spur : Twig Float := .bare ['F', '[', 'L', 'F', ']'] (by decide)

/-- Without the spur the second step makes node 2; behind it, at place 8, the same step makes node 4. Both times the node
hangs on node 1, at which the spur begins. -/
theorem twig_transparent_spur :
    let s : List (Symbol Float) := ['F'].map .bare
    let u : List (Symbol Float) := ['F', 'L'].map .bare
    let made := Skeleton.made Gait.standard (s ++ u) 1
    let made' := Skeleton.made Gait.standard (s ++ spur.symbols ++ u) 8
    made.nodes.map (fun n => (n.id, n.parent)) = #[(2, some 1)] ∧
    made'.nodes.map (fun n => (n.id, n.parent)) = #[(4, some 1)] ∧
    made'.unmarked = (made.renumber fun i => if i < 2 then i else i + 2).unmarked := by
  intro s u made made'
  have hsize : (walk Gait.standard s).skeleton.nodes.size = 2 := by decide +kernel
  have hstep := (twig_transparent Gait.standard s u spur).2.2 0 (by decide)
  rw [hsize] at hstep
  exact ⟨by decide +kernel, by decide +kernel, hstep⟩

end Turtle
end Arbor
