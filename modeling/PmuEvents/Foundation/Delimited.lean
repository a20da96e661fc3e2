import Mathlib.Data.List.Basic
set_option autoImplicit false

/-!
# Cutting a list behind its delimiters

One cut takes the elements up to and including the first delimiter; a sequence of cuts,
each with a delimiter of its own, takes the pieces one after another and loses nothing.
-/

namespace PmuEvents.Foundation

variable {α : Type}

/-- The elements up to and including the first one that is a delimiter, and the rest. -/
def cut (isDelim : α → Bool) : List α → List α × List α
  | [] => ([], [])
  | a :: l =>
    if isDelim a then ([a], l) else (a :: (cut isDelim l).1, (cut isDelim l).2)

/-- One cut for each delimiter, each behind the one before it. -/
def cuts : List (α → Bool) → List α → List (List α) × List α
  | [], l => ([], l)
  | isDelim :: delims, l =>
    let piece := cut isDelim l
    (piece.1 :: (cuts delims piece.2).1, (cuts delims piece.2).2)

theorem cut_append (isDelim : α → Bool) (l : List α) :
    (cut isDelim l).1 ++ (cut isDelim l).2 = l := by
  induction l with
  | nil => rfl
  | cons a l ih =>
    unfold cut
    split
    · rfl
    · rw [List.cons_append, ih]

theorem cut_of_none {isDelim : α → Bool} {l : List α} (h : ∀ a ∈ l, isDelim a = false) :
    cut isDelim l = (l, []) := by
  induction l with
  | nil => rfl
  | cons a l ih =>
    rw [List.forall_mem_cons] at h
    simp [cut, h.1, ih h.2]

end PmuEvents.Foundation
