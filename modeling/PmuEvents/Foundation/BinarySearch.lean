import Mathlib.Order.Lattice
set_option autoImplicit false

/-!
# Binary search

The loop of a binary search with two inclusive bounds, for a comparison of the row
at an index with what is looked for.  It finds every row exactly when the rows
stand in increasing order.
-/

namespace PmuEvents.Foundation

/-- The search between two bounds. -/
def binarySearch (cmp : Int → Ordering) (low high : Int) : Option Int :=
  if low ≤ high then
    let mid := (low + high) / 2
    match cmp mid with
    | .eq => some mid
    | .lt => binarySearch cmp (mid + 1) high
    | .gt => binarySearch cmp low (mid - 1)
  else none
termination_by (high + 1 - low).toNat
decreasing_by all_goals omega

/-- What is found lies between the bounds and compares equal. -/
theorem binarySearch_eq_some {cmp : Int → Ordering} {low high i : Int}
    (h : binarySearch cmp low high = some i) : low ≤ i ∧ i ≤ high ∧ cmp i = .eq := by
  fun_induction binarySearch cmp low high with
  | case1 low high hle mid heq =>
    obtain rfl := Option.some.inj h
    exact ⟨by omega, by omega, heq⟩
  | case2 low high hle mid hlt ih =>
    obtain ⟨hlow, hhigh, heq⟩ := ih h
    exact ⟨by omega, hhigh, heq⟩
  | case3 low high hle mid hgt ih =>
    obtain ⟨hlow, hhigh, heq⟩ := ih h
    exact ⟨hlow, by omega, heq⟩
  | case4 low high hle => cases h

/-- The search looks at rows between the bounds only. -/
theorem binarySearch_congr {cmp cmp' : Int → Ordering} {low high : Int}
    (h : ∀ i, low ≤ i → i ≤ high → cmp i = cmp' i) :
    binarySearch cmp low high = binarySearch cmp' low high := by
  fun_induction binarySearch cmp low high with
  | case1 low high hle mid heq =>
    rw [h mid (by omega) (by omega)] at heq
    rw [binarySearch, if_pos hle]
    simp only [mid, heq]
  | case2 low high hle mid hlt ih =>
    rw [h mid (by omega) (by omega)] at hlt
    rw [ih fun i hlow hhigh => h i (by omega) hhigh, binarySearch.eq_def cmp' low, if_pos hle]
    simp only [mid, hlt]
  | case3 low high hle mid hgt ih =>
    rw [h mid (by omega) (by omega)] at hgt
    rw [ih fun i hlow hhigh => h i hlow (by omega), binarySearch.eq_def cmp' low high, if_pos hle]
    simp only [mid, hgt]
  | case4 low high hle => rw [binarySearch, if_neg hle]

section Rows

variable {α : Type} [LinearOrder α]

/-- A comparison function that goes by the order. -/
structure Compares (cmp : α → α → Ordering) : Prop where
  lt_iff : ∀ a b, cmp a b = .lt ↔ a < b
  gt_iff : ∀ a b, cmp a b = .gt ↔ b < a

theorem Compares.self {cmp : α → α → Ordering} (h : Compares cmp) (a : α) : cmp a a = .eq := by
  cases hcmp : cmp a a with
  | lt => exact absurd ((h.lt_iff a a).mp hcmp) (lt_irrefl a)
  | eq => rfl
  | gt => exact absurd ((h.gt_iff a a).mp hcmp) (lt_irrefl a)

variable {cmp : α → α → Ordering} (row : Int → α)

/-- Every row between the bounds is found at its own index. -/
def FindsRows (cmp : α → α → Ordering) (low high : Int) : Prop :=
  ∀ i, low ≤ i → i ≤ high → binarySearch (fun mid => cmp (row mid) (row i)) low high = some i

/-- The rows between the bounds stand in increasing order. -/
def RowsSorted (low high : Int) : Prop :=
  ∀ i j, low ≤ i → i < j → j ≤ high → row i < row j

/-- The search for a row takes the half it is in. -/
theorem binarySearch_row (hcmp : Compares cmp) {low high i : Int}
    (hlow : low ≤ i) (hhigh : i ≤ high) :
    binarySearch (fun mid => cmp (row mid) (row i)) low high = some i ↔
      i = (low + high) / 2 ∨
      (i < (low + high) / 2 ∧ row i < row ((low + high) / 2) ∧
        binarySearch (fun mid => cmp (row mid) (row i)) low ((low + high) / 2 - 1) = some i) ∨
      ((low + high) / 2 < i ∧ row ((low + high) / 2) < row i ∧
        binarySearch (fun mid => cmp (row mid) (row i)) ((low + high) / 2 + 1) high = some i) := by
  rw [binarySearch, if_pos (by omega)]
  generalize (low + high) / 2 = mid
  dsimp only
  constructor
  · intro h
    split at h
    · exact .inl (Option.some.inj h).symm
    · rename_i hlt
      have hi := binarySearch_eq_some h
      exact .inr (.inr ⟨by omega, (hcmp.lt_iff _ _).mp hlt, h⟩)
    · rename_i hgt
      have hi := binarySearch_eq_some h
      exact .inr (.inl ⟨by omega, (hcmp.gt_iff _ _).mp hgt, h⟩)
  · rintro (rfl | ⟨-, hrow, h⟩ | ⟨-, hrow, h⟩)
    · rw [hcmp.self]
    · rw [(hcmp.gt_iff _ _).mpr hrow]
      exact h
    · rw [(hcmp.lt_iff _ _).mpr hrow]
      exact h

/-- All rows are found exactly when the halves' rows are, and lie on their side of the
middle row. -/
theorem findsRows_iff_halves (hcmp : Compares cmp) {low high : Int} (h : low ≤ high) :
    FindsRows row cmp low high ↔
      (FindsRows row cmp low ((low + high) / 2 - 1) ∧
        ∀ i, low ≤ i → i < (low + high) / 2 → row i < row ((low + high) / 2)) ∧
      (FindsRows row cmp ((low + high) / 2 + 1) high ∧
        ∀ i, (low + high) / 2 < i → i ≤ high → row ((low + high) / 2) < row i) := by
  have hbounds : low ≤ (low + high) / 2 ∧ (low + high) / 2 ≤ high := by omega
  have hrow {i : Int} (hi : low ≤ i ∧ i ≤ high) :=
    binarySearch_row row hcmp hi.1 hi.2
  generalize (low + high) / 2 = mid at hbounds hrow ⊢
  obtain ⟨hmid, hmid'⟩ := hbounds
  constructor
  · intro hfinds
    have hlower : ∀ i, low ≤ i → i < mid → row i < row mid ∧
        binarySearch (fun m => cmp (row m) (row i)) low (mid - 1) = some i := by
      intro i hlow hlt
      rcases (hrow ⟨hlow, by omega⟩).mp (hfinds i hlow (by omega)) with heq | ⟨-, hi⟩ | ⟨hgt, -⟩
      · omega
      · exact hi
      · omega
    have hupper : ∀ i, mid < i → i ≤ high → row mid < row i ∧
        binarySearch (fun m => cmp (row m) (row i)) (mid + 1) high = some i := by
      intro i hlt hhigh
      rcases (hrow ⟨by omega, hhigh⟩).mp (hfinds i (by omega) hhigh) with heq | ⟨hgt, -⟩ | ⟨-, hi⟩
      · omega
      · omega
      · exact hi
    exact ⟨⟨fun i hlow hhigh => (hlower i hlow (by omega)).2,
        fun i hlow hlt => (hlower i hlow hlt).1⟩,
      fun i hlow hhigh => (hupper i (by omega) hhigh).2,
      fun i hlt hhigh => (hupper i hlt hhigh).1⟩
  · rintro ⟨⟨hlower, hbelow⟩, hupper, habove⟩ i hlow hhigh
    refine (hrow ⟨hlow, hhigh⟩).mpr ?_
    rcases Int.lt_trichotomy i mid with hlt | heq | hgt
    · exact .inr (.inl ⟨hlt, hbelow i hlow hlt, hlower i hlow (by omega)⟩)
    · exact .inl heq
    · exact .inr (.inr ⟨hgt, habove i hgt hhigh, hupper i (by omega) hhigh⟩)

/-- The search finds every row exactly when the rows are sorted. -/
theorem findsRows_iff_sorted (hcmp : Compares cmp) (low high : Int) :
    FindsRows row cmp low high ↔ RowsSorted row low high := by
  generalize hn : (high + 1 - low).toNat = n
  induction n using Nat.strongRecOn generalizing low high with
  | _ n ih =>
    rcases Int.lt_or_le high low with hempty | hle
    · exact ⟨fun _ i j _ _ _ => by omega, fun _ i _ _ => by omega⟩
    rw [findsRows_iff_halves row hcmp hle, ih _ (by omega) low _ rfl, ih _ (by omega) _ high rfl]
    have hbounds : low ≤ (low + high) / 2 ∧ (low + high) / 2 ≤ high := by omega
    generalize (low + high) / 2 = mid at hbounds ⊢
    constructor
    · rintro ⟨⟨hlower, hbelow⟩, hupper, habove⟩ i j hlow hij hhigh
      rcases Int.lt_trichotomy i mid with hi | rfl | hi
      · rcases Int.lt_trichotomy j mid with hj | rfl | hj
        · exact hlower i j hlow hij (by omega)
        · exact hbelow i hlow hi
        · exact lt_trans (hbelow i hlow hi) (habove j hj hhigh)
      · exact habove j hij hhigh
      · exact hupper i j (by omega) hij hhigh
    · intro hsorted
      refine ⟨⟨fun i j hlow hij hhigh => ?_, fun i hlow hlt => ?_⟩,
        fun i j hlow hij hhigh => ?_, fun i hlt hhigh => ?_⟩
      · exact hsorted i j hlow hij (by omega)
      · exact hsorted i mid hlow hlt hbounds.2
      · exact hsorted i j (by omega) hij hhigh
      · exact hsorted mid i hbounds.1 hlt hhigh

end Rows

end PmuEvents.Foundation
