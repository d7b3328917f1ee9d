import Mathlib.Tactic.TypeStar

/-!
# Interleavings of two lists

`Interleaving xs ys zs`: `zs` has the elements of `xs` and of `ys`, each in their order. A log that
two writers append to is an interleaving of what each has appended (`append_left`, `append_right`).
-/

/-- `zs` is a merge of `xs` and `ys`, each in order. -/
inductive Interleaving {α : Type*} : List α → List α → List α → Prop
  | nil : Interleaving [] [] []
  | left {xs ys zs : List α} (x : α) : Interleaving xs ys zs → Interleaving (x :: xs) ys (x :: zs)
  | right {xs ys zs : List α} (y : α) : Interleaving xs ys zs → Interleaving xs (y :: ys) (y :: zs)

namespace Interleaving

variable {α : Type*} {xs ys zs : List α}

theorem symm (h : Interleaving xs ys zs) : Interleaving ys xs zs := by
  induction h with
  | nil => exact .nil
  | left x _ ih => exact .right x ih
  | right y _ ih => exact .left y ih

/-- The first writer appends. -/
theorem append_left (h : Interleaving xs ys zs) (ws : List α) :
    Interleaving (xs ++ ws) ys (zs ++ ws) := by
  induction h with
  | nil =>
    induction ws with
    | nil => exact .nil
    | cons w ws ih => exact .left w ih
  | left x _ ih => exact .left x ih
  | right y _ ih => exact .right y ih

/-- The second writer appends. -/
theorem append_right (h : Interleaving xs ys zs) (ws : List α) :
    Interleaving xs (ys ++ ws) (zs ++ ws) :=
  (h.symm.append_left ws).symm

/-- One log after the other. -/
theorem append (h : Interleaving xs ys zs) {xs' ys' zs' : List α}
    (h' : Interleaving xs' ys' zs') : Interleaving (xs ++ xs') (ys ++ ys') (zs ++ zs') := by
  induction h with
  | nil => exact h'
  | left x _ ih => exact .left x ih
  | right y _ ih => exact .right y ih

/-- A part of the log from its front is an interleaving of parts of what the two have appended. -/
theorem take_of_append {us vs : List α} (h : Interleaving xs ys (us ++ vs)) :
    ∃ i j, Interleaving (xs.take i) (ys.take j) us := by
  induction us generalizing xs ys with
  | nil => exact ⟨0, 0, by simpa using Interleaving.nil⟩
  | cons u us ih =>
    cases h with
    | left _ h =>
      obtain ⟨i, j, hij⟩ := ih h
      exact ⟨i + 1, j, hij.left u⟩
    | right _ h =>
      obtain ⟨i, j, hij⟩ := ih h
      exact ⟨i, j + 1, hij.right u⟩

end Interleaving
