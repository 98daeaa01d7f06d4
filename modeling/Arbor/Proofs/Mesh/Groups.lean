import Arbor.Mesh

/-!
# Buffers in groups

A flat buffer is read in groups of two or three (`pairs`, `triples`). On lists the same is done by recursion (`inTwos`,
`inThrees`; `toList_pairs`, `toList_triples`), so that a buffer of whole groups is cut up again into the groups it was
written from (`inThrees_flatten`), and one buffer after another is cut up one after the other (`inThrees_append`).
-/

namespace Arbor

variable {β γ : Type}

/-- The consecutive groups of two, without what is left over. -/
def inTwos : List β → List (β × β)
  | a :: b :: rest => (a, b) :: inTwos rest
  | _ => []

/-- The consecutive groups of three, without what is left over. -/
def inThrees : List β → List (β × β × β)
  | a :: b :: c :: rest => (a, b, c) :: inThrees rest
  | _ => []

/-- The items of a group in order. -/
def threeItems (t : β × β × β) : List β := [t.1, t.2.1, t.2.2]

/-! ## The recursion reads what the buffer reads -/

theorem getElem?_inTwos : ∀ (xs : List β) (i : Nat),
    (inTwos xs)[i]? = if h : i < xs.length / 2 then some (xs[2 * i], xs[2 * i + 1]) else none
  | [], i => by simp [inTwos]
  | [a], i => by simp [inTwos]
  | a :: b :: rest, 0 => by simp [inTwos]
  | a :: b :: rest, i + 1 => by
    have hsize : (rest.length + 2) / 2 = rest.length / 2 + 1 := by omega
    simp only [inTwos, List.getElem?_cons_succ, getElem?_inTwos rest i, List.length_cons, hsize,
      Nat.add_lt_add_iff_right]
    rfl

theorem getElem?_inThrees : ∀ (xs : List β) (i : Nat),
    (inThrees xs)[i]? = if h : i < xs.length / 3 then some (xs[3 * i], xs[3 * i + 1], xs[3 * i + 2]) else none
  | [], i => by simp [inThrees]
  | [a], i => by simp [inThrees]
  | [a, b], i => by simp [inThrees]
  | a :: b :: c :: rest, 0 => by simp [inThrees]
  | a :: b :: c :: rest, i + 1 => by
    have hsize : (rest.length + 3) / 3 = rest.length / 3 + 1 := by omega
    simp only [inThrees, List.getElem?_cons_succ, getElem?_inThrees rest i, List.length_cons, hsize,
      Nat.add_lt_add_iff_right]
    rfl

theorem toList_pairs (b : Array β) : (pairs b).toList = inTwos b.toList := by
  refine List.ext_getElem? fun i => ?_
  rw [getElem?_inTwos, Array.getElem?_toList, pairs, Array.getElem?_ofFn]
  simp only [Array.length_toList, Array.getElem_toList]

theorem toList_triples (b : Array β) : (triples b).toList = inThrees b.toList := by
  refine List.ext_getElem? fun i => ?_
  rw [getElem?_inThrees, Array.getElem?_toList, triples, Array.getElem?_ofFn]
  simp only [Array.length_toList, Array.getElem_toList]

/-! ## Whole groups -/

/-- Items that all become lists of one length become so many times that length. -/
theorem length_flatMap_of_length (k : Nat) {xs : List β} {f : β → List γ} (h : ∀ x ∈ xs, (f x).length = k) :
    (xs.flatMap f).length = xs.length * k := by
  induction xs with
  | nil => simp
  | cons x xs ih =>
    have hx := h x List.mem_cons_self
    have hxs := ih fun y hy => h y (List.mem_cons_of_mem x hy)
    rw [List.flatMap_cons, List.length_append, hx, hxs, List.length_cons, Nat.succ_mul, Nat.add_comm]

theorem length_inThrees : ∀ xs : List β, (inThrees xs).length = xs.length / 3
  | [] => by simp [inThrees]
  | [_] => by simp [inThrees]
  | [_, _] => by simp [inThrees]
  | _ :: _ :: _ :: rest => by
    simp only [inThrees, List.length_cons, length_inThrees rest]
    omega

theorem length_inTwos : ∀ xs : List β, (inTwos xs).length = xs.length / 2
  | [] => by simp [inTwos]
  | [_] => by simp [inTwos]
  | _ :: _ :: rest => by
    simp only [inTwos, List.length_cons, length_inTwos rest]
    omega

theorem mem_of_mem_inThrees : ∀ {xs : List β} {t : β × β × β}, t ∈ inThrees xs → ∀ x ∈ threeItems t, x ∈ xs
  | [], _, h, _, _ => absurd h List.not_mem_nil
  | [_], _, h, _, _ => absurd h List.not_mem_nil
  | [_, _], _, h, _, _ => absurd h List.not_mem_nil
  | a :: b :: c :: rest, t, h, x, hx => by
    rcases List.mem_cons.mp h with rfl | h
    · exact List.mem_append_left rest hx
    · exact List.mem_append_right [a, b, c] (mem_of_mem_inThrees h x hx)

/-- The first blocks of equal length are a beginning of that many times the length. -/
theorem take_flatMap_of_length (k : Nat) {xs : List β} {f : β → List γ} (h : ∀ x ∈ xs, (f x).length = k) (i : Nat) :
    (xs.flatMap f).take (k * i) = (xs.take i).flatMap f := by
  induction xs generalizing i with
  | nil => simp
  | cons x xs ih =>
    cases i with
    | zero => simp
    | succ i =>
      have hrest := ih (fun y hy => h y (List.mem_cons_of_mem x hy)) i
      rw [List.flatMap_cons, List.take_succ_cons, List.flatMap_cons, ← hrest, Nat.mul_succ, Nat.add_comm,
        ← h x List.mem_cons_self, List.take_length_add_append]

theorem drop_flatMap_of_length (k : Nat) {xs : List β} {f : β → List γ} (h : ∀ x ∈ xs, (f x).length = k) (i : Nat) :
    (xs.flatMap f).drop (k * i) = (xs.drop i).flatMap f := by
  induction xs generalizing i with
  | nil => simp
  | cons x xs ih =>
    cases i with
    | zero => simp
    | succ i =>
      have hrest := ih (fun y hy => h y (List.mem_cons_of_mem x hy)) i
      rw [List.flatMap_cons, List.drop_succ_cons, ← hrest, Nat.mul_succ, Nat.add_comm, ← h x List.mem_cons_self,
        List.drop_length_add_append]

/-- Among blocks of equal length, the one with number `i` stands behind that many times the length. -/
theorem block_flatMap_of_length (k : Nat) {xs : List β} {f : β → List γ} (h : ∀ x ∈ xs, (f x).length = k) {i : Nat}
    {x : β} (hx : xs[i]? = some x) : ((xs.flatMap f).drop (k * i)).take k = f x := by
  obtain ⟨hi, rfl⟩ := List.getElem?_eq_some_iff.mp hx
  rw [drop_flatMap_of_length k h, List.drop_eq_getElem_cons hi, List.flatMap_cons, ← h _ (List.getElem_mem hi),
    List.take_left]

/-- Item `j` of block `i` stands `j` places behind the beginning of its block. -/
theorem getElem?_flatMap_of_length (k : Nat) {xs : List β} {f : β → List γ} (h : ∀ x ∈ xs, (f x).length = k) {i : Nat}
    {x : β} (hx : xs[i]? = some x) {j : Nat} (hj : j < k) : (xs.flatMap f)[k * i + j]? = (f x)[j]? := by
  rw [← block_flatMap_of_length k h hx, List.getElem?_take_of_lt hj, List.getElem?_drop]

@[simp] theorem inThrees_flatten (ts : List (β × β × β)) : inThrees (ts.flatMap threeItems) = ts := by
  induction ts with
  | nil => rfl
  | cons t ts ih => exact congrArg (t :: ·) ih

theorem inThrees_map (f : β → γ) : ∀ xs : List β,
    inThrees (xs.map f) = (inThrees xs).map fun t => (f t.1, f t.2.1, f t.2.2)
  | [] => rfl
  | [_] => rfl
  | [_, _] => rfl
  | _ :: _ :: _ :: rest => congrArg (_ :: ·) (inThrees_map f rest)

/-- Behind whole groups the cutting starts afresh. -/
theorem inThrees_append : ∀ {xs : List β}, xs.length % 3 = 0 → ∀ ys : List β,
    inThrees (xs ++ ys) = inThrees xs ++ inThrees ys
  | [], _, _ => rfl
  | [_], h, _ => by cases h
  | [_, _], h, _ => by cases h
  | _ :: _ :: _ :: rest, h, ys => by
    have hrest : rest.length % 3 = 0 := by
      simp only [List.length_cons] at h
      omega
    exact congrArg (_ :: ·) (inThrees_append hrest ys)

theorem inTwos_append : ∀ {xs : List β}, xs.length % 2 = 0 → ∀ ys : List β,
    inTwos (xs ++ ys) = inTwos xs ++ inTwos ys
  | [], _, _ => rfl
  | [_], h, _ => by cases h
  | _ :: _ :: rest, h, ys => by
    have hrest : rest.length % 2 = 0 := by
      simp only [List.length_cons] at h
      omega
    exact congrArg (_ :: ·) (inTwos_append hrest ys)

theorem toList_triples_append {xs : Array β} (h : xs.size % 3 = 0) (ys : Array β) :
    (triples (xs ++ ys)).toList = (triples xs).toList ++ (triples ys).toList := by
  rw [toList_triples, toList_triples, toList_triples, Array.toList_append, inThrees_append h]

theorem toList_pairs_append {xs : Array β} (h : xs.size % 2 = 0) (ys : Array β) :
    (pairs (xs ++ ys)).toList = (pairs xs).toList ++ (pairs ys).toList := by
  rw [toList_pairs, toList_pairs, toList_pairs, Array.toList_append, inTwos_append h]

end Arbor
