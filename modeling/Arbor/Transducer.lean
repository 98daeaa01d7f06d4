/-!
# Left-to-right passes with a state

A pass over a list replaces each item by a list and hands a state on to the next item. Reading a text and rewriting
a sentence are both such passes.

* `run_append`: a pass over `xs ++ ys` is the pass over `xs` followed by the pass over `ys` from the state reached.
* `runWithin_eq`: the pass that gives up when its output is too long agrees with the full pass, and gives up exactly
  when the full output is too long.
-/

namespace Arbor

/-- What one item becomes, and the state after it. -/
abbrev Transducer (σ α β : Type) := σ → α → List β × σ

namespace Transducer

variable {σ α β : Type}

/-- The pass, writing behind what is already there. -/
def runOnto (t : Transducer σ α β) (out : Array β) (s : σ) : List α → Array β × σ
  | [] => (out, s)
  | x :: xs =>
    let (ys, s') := t s x
    runOnto t (out ++ ys) s' xs

/-- The output of a pass, and the state it ends in. -/
def run (t : Transducer σ α β) (s : σ) (xs : List α) : List β × σ :=
  let (out, s') := t.runOnto #[] s xs
  (out.toList, s')

/-- The pass, given up as soon as more than `limit` items are written. -/
def runWithinOnto (t : Transducer σ α β) (limit : Nat) (out : Array β) (s : σ) : List α → Option (Array β × σ)
  | [] => some (out, s)
  | x :: xs =>
    let (ys, s') := t s x
    let out := out ++ ys
    if limit < out.size then none else runWithinOnto t limit out s' xs

/-- A pass whose output is wanted only if it never outgrows `limit` items. -/
def runWithin (t : Transducer σ α β) (limit : Nat) (s : σ) (xs : List α) : Option (List β × σ) :=
  (t.runWithinOnto limit #[] s xs).map fun (out, s') => (out.toList, s')

theorem runOnto_cons (t : Transducer σ α β) (out : Array β) (s : σ) (x : α) (xs : List α) :
    t.runOnto out s (x :: xs) = t.runOnto (out ++ (t s x).1) (t s x).2 xs := rfl

theorem runOnto_eq (t : Transducer σ α β) (out : Array β) (s : σ) (xs : List α) :
    t.runOnto out s xs = (out ++ (t.run s xs).1, (t.run s xs).2) := by
  induction xs generalizing out s with
  | nil => simp [run, runOnto]
  | cons x xs ih =>
    simp only [run, runOnto_cons]
    rw [ih, ih (#[] ++ (t s x).1)]
    refine Prod.ext (Array.ext' ?_) rfl
    simp [run]

@[simp] theorem run_nil (t : Transducer σ α β) (s : σ) : t.run s [] = ([], s) := rfl

theorem run_cons (t : Transducer σ α β) (s : σ) (x : α) (xs : List α) :
    t.run s (x :: xs) = ((t s x).1 ++ (t.run (t s x).2 xs).1, (t.run (t s x).2 xs).2) := by
  conv => lhs; simp only [run, runOnto_cons]
  rw [runOnto_eq]
  simp

/-- **Passes compose along the list.** -/
theorem run_append (t : Transducer σ α β) (s : σ) (xs ys : List α) :
    t.run s (xs ++ ys) = ((t.run s xs).1 ++ (t.run (t.run s xs).2 ys).1, (t.run (t.run s xs).2 ys).2) := by
  induction xs generalizing s with
  | nil => simp
  | cons x xs ih => simp [run_cons, ih]

theorem runWithinOnto_cons (t : Transducer σ α β) (limit : Nat) (out : Array β) (s : σ) (x : α) (xs : List α) :
    t.runWithinOnto limit out s (x :: xs) =
      if limit < (out ++ (t s x).1).size then none
      else t.runWithinOnto limit (out ++ (t s x).1) (t s x).2 xs := rfl

theorem size_le_runOnto (t : Transducer σ α β) (out : Array β) (s : σ) (xs : List α) :
    out.size ≤ (t.runOnto out s xs).1.size := by
  simp [runOnto_eq, ← Array.length_toList]

theorem runWithinOnto_eq (t : Transducer σ α β) (limit : Nat) (out : Array β) (s : σ) (xs : List α)
    (h : out.size ≤ limit) :
    t.runWithinOnto limit out s xs =
      if (t.runOnto out s xs).1.size ≤ limit then some (t.runOnto out s xs) else none := by
  induction xs generalizing out s with
  | nil => simp [runWithinOnto, runOnto, h]
  | cons x xs ih =>
    rw [runWithinOnto_cons, runOnto_cons]
    by_cases hlt : limit < (out ++ (t s x).1).size
    · have := size_le_runOnto t (out ++ (t s x).1) (t s x).2 xs
      rw [if_pos hlt, if_neg (by omega)]
    · rw [if_neg hlt, ih _ _ (by omega)]

/-- **The bounded pass is the full pass,** refused exactly when its output is longer than the limit. -/
theorem runWithin_eq (t : Transducer σ α β) (limit : Nat) (s : σ) (xs : List α) :
    t.runWithin limit s xs = if (t.run s xs).1.length ≤ limit then some (t.run s xs) else none := by
  rw [runWithin, runWithinOnto_eq t limit #[] s xs (by simp)]
  by_cases h : (t.runOnto #[] s xs).1.size ≤ limit
  · rw [if_pos h, if_pos (by simpa [run] using h)]
    rfl
  · rw [if_neg h, if_neg (by simpa [run] using h)]
    rfl

end Transducer

end Arbor
