import Mathlib.Data.Set.Defs
import Mathlib.Data.List.Infix
set_option autoImplicit false

/-!
# The leftmost longest match

A search for a part of a list that a language accepts: of all such parts the first
match starts leftmost, and it is the longest of those that start there.
-/

namespace PmuEvents.Foundation

variable {α : Type} {L : Set (List α)}

/-- `found` is the leftmost longest part of `before ++ found ++ after` in `L`. -/
structure FirstMatch (L : Set (List α)) (before found after : List α) : Prop where
  mem : found ∈ L
  leftmost : ∀ {b f a}, b ++ (f ++ a) = before ++ (found ++ after) → f ∈ L →
    before.length ≤ b.length
  longest : ∀ {f a}, f ++ a = found ++ after → f ∈ L → f.length ≤ found.length

/-- What a search reports: the offsets of the start and of the end of the first match,
or that there is none. -/
def ReportsMatch (L : Set (List α)) (s : List α) : Option (Nat × Nat) → Prop
  | none => ∀ b f a, s = b ++ (f ++ a) → f ∉ L
  | some (so, eo) => ∃ before found after, s = before ++ (found ++ after) ∧
      FirstMatch L before found after ∧ so = before.length ∧ eo = before.length + found.length

/-! ## The first match -/

/-- A list has one first match. -/
theorem FirstMatch.unique {before before' found found' after after' : List α}
    (h : FirstMatch L before found after) (h' : FirstMatch L before' found' after')
    (hs : before ++ (found ++ after) = before' ++ (found' ++ after')) :
    before = before' ∧ found = found' := by
  have hlen : before.length = before'.length :=
    Nat.le_antisymm (h.leftmost hs.symm h'.mem) (h'.leftmost hs h.mem)
  obtain ⟨hbefore, hrest⟩ := List.append_inj hs hlen
  have hfound : found.length = found'.length :=
    Nat.le_antisymm (h'.longest hrest h.mem) (h.longest hrest.symm h'.mem)
  exact ⟨hbefore, (List.append_inj hrest hfound).1⟩

/-- A prefix is the first match when no longer prefix is accepted. -/
theorem FirstMatch.of_longest {found after : List α} (hmem : found ∈ L)
    (hlongest : ∀ t r, after = t ++ r → t ≠ [] → found ++ t ∉ L) :
    FirstMatch L [] found after := by
  refine ⟨hmem, fun _ _ => Nat.zero_le _, ?_⟩
  intro f a hcut hf
  rcases List.append_eq_append_iff.mp hcut with ⟨t, rfl, -⟩ | ⟨t, rfl, hafter⟩
  · rw [List.length_append]
    exact Nat.le_add_right _ _
  · by_cases ht : t = []
    · rw [ht, List.append_nil]
    · exact absurd hf (hlongest t a hafter ht)

/-- Where an accepted prefix exists, the first match is a prefix. -/
theorem FirstMatch.before_eq_nil {before found after f a : List α}
    (h : FirstMatch L before found after) (hcut : f ++ a = before ++ (found ++ after))
    (hf : f ∈ L) : before = [] := by
  have hle : before.length ≤ ([] : List α).length := h.leftmost hcut hf
  exact List.length_eq_zero_iff.mp (Nat.le_zero.mp hle)

/-- The match of a list with an element before it, when it does not start there. -/
theorem FirstMatch.cons {x : α} {before found after : List α}
    (h : FirstMatch L before found after)
    (hstart : ∀ f a, x :: (before ++ (found ++ after)) = f ++ a → f ∉ L) :
    FirstMatch L (x :: before) found after := by
  refine ⟨h.mem, ?_, h.longest⟩
  intro b f a hcut hf
  cases b with
  | nil => exact absurd hf (hstart f a hcut.symm)
  | cons y b =>
    obtain ⟨rfl, hrest⟩ := List.cons.inj hcut
    exact Nat.succ_le_succ (h.leftmost hrest hf)

/-- The first match is as long as the whole list exactly when the list is accepted. -/
theorem exists_firstMatch_length_iff {s : List α} :
    (∃ before found after, s = before ++ (found ++ after) ∧
      FirstMatch L before found after ∧ found.length = s.length) ↔ s ∈ L := by
  constructor
  · rintro ⟨before, found, after, rfl, hfirst, hlen⟩
    simp only [List.length_append] at hlen
    obtain rfl : before = [] := List.length_eq_zero_iff.mp (by omega)
    obtain rfl : after = [] := List.length_eq_zero_iff.mp (by omega)
    rw [List.nil_append, List.append_nil]
    exact hfirst.mem
  · intro hs
    refine ⟨[], s, [], by simp, .of_longest hs ?_, rfl⟩
    intro t r hcut ht
    exact absurd (List.append_eq_nil_iff.mp hcut.symm).1 ht

/-! ## Reports -/

/-- The first match of a list is what every search reports. -/
theorem ReportsMatch.eq_some {before found after : List α} {report : Option (Nat × Nat)}
    (h : ReportsMatch L (before ++ (found ++ after)) report)
    (hfirst : FirstMatch L before found after) :
    report = some (before.length, before.length + found.length) := by
  cases report with
  | none => exact absurd hfirst.mem (h before found after rfl)
  | some offsets =>
    obtain ⟨before', found', after', hs, hfirst', hso, heo⟩ := h
    obtain ⟨rfl, rfl⟩ := hfirst.unique hfirst' hs
    exact congrArg some (Prod.ext hso heo)

/-- The length of what was reported is the length of the first match. -/
theorem ReportsMatch.length_iff {s : List α} {report : Option (Nat × Nat)}
    (h : ReportsMatch L s report) (n : Nat) :
    (∃ so eo, report = some (so, eo) ∧ eo - so = n) ↔
      ∃ before found after, s = before ++ (found ++ after) ∧
        FirstMatch L before found after ∧ found.length = n := by
  constructor
  · rintro ⟨so, eo, rfl, rfl⟩
    obtain ⟨before, found, after, hs, hfirst, rfl, rfl⟩ := h
    exact ⟨before, found, after, hs, hfirst, (Nat.add_sub_cancel_left _ _).symm⟩
  · rintro ⟨before, found, after, rfl, hfirst, rfl⟩
    exact ⟨_, _, h.eq_some hfirst, Nat.add_sub_cancel_left _ _⟩

/-- A report goes over to a list with one more element, when no match starts there. -/
theorem ReportsMatch.cons {x : α} {s : List α} {report : Option (Nat × Nat)}
    (h : ReportsMatch L s report) (hstart : ∀ f a, x :: s = f ++ a → f ∉ L) :
    ReportsMatch L (x :: s) (report.map fun offsets => (offsets.1 + 1, offsets.2 + 1)) := by
  cases report with
  | none =>
    intro b f a hcut
    cases b with
    | nil => exact hstart f a hcut
    | cons y b => exact h b f a (List.cons.inj hcut).2
  | some offsets =>
    obtain ⟨before, found, after, rfl, hfirst, hso, heo⟩ := h
    refine ⟨x :: before, found, after, rfl, hfirst.cons hstart, ?_, ?_⟩
    · exact congrArg Nat.succ hso
    · rw [heo, List.length_cons]
      omega

/-! ## A search -/

/-- The longest accepted prefix of a list. -/
def longestPrefix (accepts : List α → Bool) : List α → Option (List α)
  | [] => if accepts [] then some [] else none
  | x :: s =>
    match longestPrefix (fun t => accepts (x :: t)) s with
    | some t => some (x :: t)
    | none => if accepts [] then some [] else none

/-- A search that tries every start from the left. -/
def search (accepts : List α → Bool) (s : List α) : Option (Nat × Nat) :=
  match longestPrefix accepts s with
  | some found => some (0, found.length)
  | none =>
    match s with
    | [] => none
    | _ :: s => (search accepts s).map fun offsets => (offsets.1 + 1, offsets.2 + 1)

theorem longestPrefix_eq_none {accepts : List α → Bool} {s : List α}
    (h : longestPrefix accepts s = none) (f a : List α) (hcut : s = f ++ a) :
    ¬ accepts f := by
  induction s generalizing accepts f with
  | nil =>
    obtain ⟨rfl, -⟩ := List.append_eq_nil_iff.mp hcut.symm
    simpa [longestPrefix] using h
  | cons x s ih =>
    rw [longestPrefix] at h
    split at h
    · cases h
    · rename_i hrest
      cases f with
      | nil => simpa using h
      | cons y f =>
        obtain ⟨rfl, hs⟩ := List.cons.inj hcut
        exact ih hrest f hs

theorem longestPrefix_eq_some {accepts : List α → Bool} {s found : List α}
    (h : longestPrefix accepts s = some found) :
    ∃ after, s = found ++ after ∧ FirstMatch {w | accepts w} [] found after := by
  induction s generalizing accepts found with
  | nil =>
    rw [longestPrefix] at h
    split at h
    · rename_i haccepts
      obtain rfl := Option.some.inj h
      refine ⟨[], rfl, .of_longest haccepts ?_⟩
      intro t r hcut ht
      exact absurd (List.append_eq_nil_iff.mp hcut.symm).1 ht
    · cases h
  | cons x s ih =>
    rw [longestPrefix] at h
    split at h
    · rename_i t hrest
      obtain rfl := Option.some.inj h
      obtain ⟨after, rfl, hfirst⟩ := ih hrest
      refine ⟨after, rfl, .of_longest hfirst.mem ?_⟩
      intro u r hafter hu hmem
      have hle : (t ++ u).length ≤ t.length :=
        hfirst.longest (a := r) (by rw [hafter, List.append_assoc]) hmem
      rw [List.length_append] at hle
      exact hu (List.length_eq_zero_iff.mp (by omega))
    · rename_i hrest
      split at h
      · rename_i haccepts
        obtain rfl := Option.some.inj h
        refine ⟨x :: s, rfl, .of_longest haccepts ?_⟩
        intro u r hafter hu hmem
        cases u with
        | nil => exact hu rfl
        | cons y u =>
          obtain ⟨rfl, hs⟩ := List.cons.inj hafter
          exact longestPrefix_eq_none hrest u r hs hmem
      · cases h

/-- The search reports the first match. -/
theorem reportsMatch_search (accepts : List α → Bool) (s : List α) :
    ReportsMatch {w | accepts w} s (search accepts s) := by
  induction s with
  | nil =>
    rw [search]
    split
    · rename_i found hfound
      obtain ⟨after, hcut, hfirst⟩ := longestPrefix_eq_some hfound
      exact ⟨[], found, after, hcut, hfirst, rfl, (Nat.zero_add _).symm⟩
    · rename_i hnone
      intro b f a hcut
      obtain ⟨-, hrest⟩ := List.append_eq_nil_iff.mp hcut.symm
      exact longestPrefix_eq_none hnone f a hrest.symm
  | cons x s ih =>
    rw [search]
    split
    · rename_i found hfound
      obtain ⟨after, hcut, hfirst⟩ := longestPrefix_eq_some hfound
      exact ⟨[], found, after, hcut, hfirst, rfl, (Nat.zero_add _).symm⟩
    · rename_i hnone
      exact ih.cons (longestPrefix_eq_none hnone)

end PmuEvents.Foundation
