import Mathlib.Data.List.Nodup
import Mathlib.Order.Basic
set_option autoImplicit false

/-!
# Foundation: the first element of a list below a bound

A table is searched for its first row that is at most what is sought.  Where any two rows
below the same bound are comparable, the row found is the greatest one exactly if no row
stands before a greater one.
-/

namespace PmuEvents.Foundation

variable {α : Type} [PartialOrder α] [DecidableLE α]

/-- The first row that is at most `bound`. -/
def firstBelow (bound : α) (rows : List α) : Option α := rows.find? fun row => row ≤ bound

theorem firstBelow_le {bound row : α} {rows : List α} (h : firstBelow bound rows = some row) :
    row ∈ rows ∧ row ≤ bound :=
  ⟨List.mem_of_find?_eq_some h, by simpa using List.find?_some h⟩

theorem firstBelow_eq_none_iff {bound : α} {rows : List α} :
    firstBelow bound rows = none ↔ ∀ row ∈ rows, ¬ row ≤ bound := by
  simp [firstBelow]

/-- The row found is the greatest one below the bound. -/
def FindsGreatest (rows : List α) : Prop :=
  ∀ bound row, firstBelow bound rows = some row → ∀ row' ∈ rows, row' ≤ bound → row' ≤ row

/-- In an order in which no row stands before a greater one the greatest is found. -/
theorem findsGreatest_of_pairwise
    (hchain : ∀ bound a b : α, a ≤ bound → b ≤ bound → a ≤ b ∨ b ≤ a) {rows : List α}
    (hsorted : rows.Pairwise fun a b => ¬ a < b) : FindsGreatest rows := by
  intro bound row hrow row' hrow' hle'
  obtain ⟨hle, before, after, rfl, hbefore⟩ := List.find?_eq_some_iff_append.mp hrow
  rw [decide_eq_true_eq] at hle
  rcases List.mem_append.mp hrow' with hin | hin
  · have hno := hbefore row' hin
    simp [hle'] at hno
  · rcases List.mem_cons.mp hin with rfl | hin
    · exact le_refl _
    · have hnlt := (List.pairwise_cons.mp (List.pairwise_append.mp hsorted).2.1).1 row' hin
      rcases hchain bound row row' hle hle' with h | h
      · exact le_of_eq (h.eq_of_not_lt hnlt).symm
      · exact h

/-- A table without repeated rows that is always searched right is in such an order. -/
theorem pairwise_of_findsGreatest {rows : List α} (hnodup : rows.Nodup)
    (hfinds : FindsGreatest rows) : rows.Pairwise fun a b => ¬ a < b := by
  rw [List.pairwise_iff_getElem]
  intro i j hi hj hij hlt
  obtain ⟨row, hrow⟩ : ∃ row, firstBelow rows[j] rows = some row := by
    rw [← Option.ne_none_iff_exists', ne_eq, firstBelow_eq_none_iff, not_forall]
    exact ⟨rows[i], fun hno => hno (List.getElem_mem hi) hlt.le⟩
  -- the row found is the later one, and the earlier one stands before it
  obtain rfl : row = rows[j] :=
    le_antisymm (firstBelow_le hrow).2 (hfinds _ _ hrow _ (List.getElem_mem hj) (le_refl _))
  obtain ⟨-, before, after, hsplit, hbefore⟩ := List.find?_eq_some_iff_append.mp hrow
  have hlen : before.length < rows.length := by
    rw [hsplit, List.length_append, List.length_cons]
    omega
  have hat : rows[before.length] = rows[j] := by
    have hget : (before ++ rows[j] :: after)[before.length]? = some rows[j] := by simp
    rw [← hsplit, List.getElem?_eq_getElem hlen] at hget
    exact Option.some.inj hget
  rw [hnodup.getElem_inj_iff] at hat
  have hmem : rows[i] ∈ before := by
    have hget : (before ++ rows[j] :: after)[i]? = some before[i] := by
      rw [List.getElem?_append_left (by omega), List.getElem?_eq_getElem]
    rw [← hsplit, List.getElem?_eq_getElem hi] at hget
    rw [Option.some.inj hget]
    exact List.getElem_mem _
  have hno := hbefore rows[i] hmem
  simp [hlt.le] at hno

end PmuEvents.Foundation
