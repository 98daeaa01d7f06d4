import Arbor.Transducer
import Mathlib.Data.List.Forall2

/-!
# Laws of passes

What two passes side by side have in common (`run_forall₂`, `run_congr`), what holds of all that is written
(`forall_mem_run`), items that leave no trace (`run_filter`), and passes that write one item for each (`length_run`,
`run_take`, `getElem?_run`).
-/

namespace Arbor
namespace Transducer

variable {σ α β : Type} {t : Transducer σ α β}

/-- Two passes that stay in the same state and write related items for related items do so all along. -/
theorem run_forall₂ {α' β' : Type} {t' : Transducer σ α' β'} {R : α → α' → Prop} {Q : β → β' → Prop}
    (h : ∀ s x x', R x x' → List.Forall₂ Q (t s x).1 (t' s x').1 ∧ (t s x).2 = (t' s x').2)
    {xs : List α} {xs' : List α'} (hxs : List.Forall₂ R xs xs') (s : σ) :
    List.Forall₂ Q (t.run s xs).1 (t'.run s xs').1 ∧ (t.run s xs).2 = (t'.run s xs').2 := by
  induction hxs generalizing s with
  | nil => exact ⟨.nil, rfl⟩
  | cons hx _ ih =>
    obtain ⟨hout, hstate⟩ := h s _ _ hx
    obtain ⟨houts, hend⟩ := ih (t s _).2
    rw [run_cons, run_cons, ← hstate]
    exact ⟨List.rel_append hout houts, hend⟩

/-- Passes that do the same to every item of a list do the same to the list. -/
theorem run_congr {t' : Transducer σ α β} {xs : List α} (h : ∀ x ∈ xs, ∀ s, t s x = t' s x) (s : σ) :
    t.run s xs = t'.run s xs := by
  induction xs generalizing s with
  | nil => rfl
  | cons x xs ih =>
    rw [run_cons, run_cons, h x List.mem_cons_self, ih fun y hy => h y (List.mem_cons_of_mem x hy)]

/-- What holds of all that is written for each item holds of all that is written. -/
theorem forall_mem_run {P : β → Prop} {xs : List α} (h : ∀ x ∈ xs, ∀ s, ∀ y ∈ (t s x).1, P y) (s : σ) :
    ∀ y ∈ (t.run s xs).1, P y := by
  induction xs generalizing s with
  | nil => exact nofun
  | cons x xs ih =>
    rw [run_cons]
    exact List.forall_mem_append.mpr ⟨h x List.mem_cons_self s, ih (fun z hz => h z (List.mem_cons_of_mem x hz)) _⟩

theorem run_filter {p : α → Bool} (h : ∀ s x, p x = false → t s x = ([], s)) (s : σ) (xs : List α) :
    t.run s (xs.filter p) = t.run s xs := by
  induction xs generalizing s with
  | nil => rfl
  | cons x xs ih =>
    cases hp : p x with
    | true => rw [List.filter_cons_of_pos hp, run_cons, run_cons, ih]
    | false =>
      rw [List.filter_cons_of_neg (by simp [hp]), ih, run_cons, h s x hp]
      rfl

theorem length_run {xs : List α} (h : ∀ x ∈ xs, ∀ s, (t s x).1.length = 1) (s : σ) :
    (t.run s xs).1.length = xs.length := by
  induction xs generalizing s with
  | nil => rfl
  | cons x xs ih =>
    have hrest := ih (fun y hy => h y (List.mem_cons_of_mem x hy)) (t s x).2
    rw [run_cons, List.length_append, h x List.mem_cons_self, hrest, List.length_cons, Nat.add_comm]

/-- A pass that writes one item for each has written `k` items after `k` of them. -/
theorem run_take {xs : List α} (h : ∀ x ∈ xs, ∀ s, (t s x).1.length = 1) (s : σ) (k : Nat) :
    (t.run s (xs.take k)).1 = (t.run s xs).1.take k := by
  rcases Nat.le_total k xs.length with hk | hk
  · have hlength : (t.run s (xs.take k)).1.length = (xs.take k).length :=
      length_run (fun x hx => h x (List.mem_of_mem_take hx)) s
    conv => rhs; rw [← List.take_append_drop k xs, run_append]
    rw [List.take_left' (by rw [hlength, List.length_take, Nat.min_eq_left hk])]
  · rw [List.take_of_length_le hk, List.take_of_length_le (by rw [length_run h]; exact hk)]

/-- A pass that writes one item for each writes it from the state in which it comes to it. -/
theorem getElem?_run {write : σ → α → β} (h : ∀ s x, (t s x).1 = [write s x]) (s : σ) (xs : List α) (i : Nat) :
    (t.run s xs).1[i]? = xs[i]?.map (write (t.run s (xs.take i)).2) := by
  induction xs generalizing s i with
  | nil => rfl
  | cons x xs ih =>
    rw [run_cons, h]
    cases i with
    | zero => rfl
    | succ i => rw [List.take_succ_cons, run_cons, List.getElem?_cons_succ, ← ih]; rfl

end Transducer
end Arbor
