import Mathlib.Data.List.Perm.Basic
import Mathlib.Data.List.Forall2
set_option autoImplicit false

/-!
# Foundation: parsing every element of a list

`List.mapM` in `Option`, as a relation: it succeeds exactly when every element
does, and the results match the elements one by one.
-/

namespace PmuEvents.Foundation

variable {α β : Type}

/-- `mapM` succeeds with `ys` exactly when `f` takes the elements of `xs`, in
order, to those of `ys`. -/
theorem mapM_eq_some_iff {f : α → Option β} {xs : List α} {ys : List β} :
    xs.mapM f = some ys ↔ List.Forall₂ (fun x y => f x = some y) xs ys := by
  induction xs generalizing ys with
  | nil =>
    cases ys with
    | nil => simp
    | cons y ys => simp
  | cons x xs ih =>
    rw [List.mapM_cons]
    cases hx : f x with
    | none => simp [List.forall₂_cons_left_iff, hx]
    | some z =>
      cases hxs : xs.mapM f with
      | none =>
        simp only [Option.bind_eq_bind, Option.bind_some, Option.bind_none, reduceCtorEq,
          false_iff, List.forall₂_cons_left_iff, not_exists, not_and]
        intro y ys' _ hrel
        rw [← ih, hxs] at hrel
        exact absurd hrel (by simp)
      | some zs =>
        simp only [Option.bind_eq_bind, Option.bind_some, Option.pure_def, Option.some.injEq]
        constructor
        · rintro rfl
          exact .cons hx (ih.mp hxs)
        · intro h
          cases h with
          | cons hy hrest =>
            rw [hx] at hy
            rw [← ih, hxs] at hrest
            rw [Option.some.inj hy, Option.some.inj hrest]

/-- The results are those of the elements. -/
theorem mem_mapM_iff {f : α → Option β} {xs : List α} {ys : List β} (h : xs.mapM f = some ys)
    (y : β) : y ∈ ys ↔ ∃ x ∈ xs, f x = some y := by
  have hrel := mapM_eq_some_iff.mp h
  clear h
  induction hrel with
  | nil => simp
  | cons hx _ ih => simp [ih, hx, eq_comm]

/-- One element without a result leaves the list without one. -/
theorem mapM_eq_none_of_mem {f : α → Option β} {xs : List α} {x : α} (hx : x ∈ xs)
    (h : f x = none) : xs.mapM f = none := by
  induction xs with
  | nil => cases hx
  | cons x' xs ih =>
    rw [List.mapM_cons]
    rcases List.mem_cons.mp hx with rfl | hx
    · rw [h]
      rfl
    · rw [ih hx]
      cases f x' <;> rfl

/-- A list is left without results only by an element without one. -/
theorem mapM_eq_none_iff {f : α → Option β} {xs : List α} :
    xs.mapM f = none ↔ ∃ x ∈ xs, f x = none := by
  refine ⟨fun hnone => ?_, fun ⟨_, hx, h⟩ => mapM_eq_none_of_mem hx h⟩
  induction xs with
  | nil => cases hnone
  | cons x xs ih =>
    cases hx : f x with
    | none => exact ⟨x, List.mem_cons_self, hx⟩
    | some y =>
      cases hxs : xs.mapM f with
      | none =>
        obtain ⟨x', hmem, hx'⟩ := ih hxs
        exact ⟨x', List.mem_cons_of_mem _ hmem, hx'⟩
      | some ys =>
        rw [List.mapM_cons, hx, hxs] at hnone
        cases hnone

/-- Reordering the input reorders the output. -/
theorem mapM_perm {f : α → Option β} {xs xs' : List α} {ys : List β} (hp : xs.Perm xs')
    (h : xs.mapM f = some ys) : ∃ ys', xs'.mapM f = some ys' ∧ ys.Perm ys' := by
  obtain ⟨ys', hrel, hperm⟩ := List.perm_comp_forall₂ hp.symm (mapM_eq_some_iff.mp h)
  exact ⟨ys', mapM_eq_some_iff.mpr hrel, hperm.symm⟩

/-- The first result with a property is that of the first element with it. -/
theorem find?_of_mapM {f : α → Option β} {p : β → Bool} {q : α → Bool}
    (hf : ∀ x y, f x = some y → p y = q x) {xs : List α} {ys : List β}
    (h : xs.mapM f = some ys) : ys.find? p = (xs.find? q).bind f := by
  have hrel := mapM_eq_some_iff.mp h
  clear h
  induction hrel with
  | nil => rfl
  | @cons x y xs ys hxy _ ih =>
    rw [List.find?_cons, List.find?_cons, hf x y hxy, ih]
    cases q x with
    | true => exact hxy.symm
    | false => rfl

/-- `mapM` of a function that fails outside of a predicate. -/
theorem mapM_eq_ite {f : α → Option β} {p : α → Prop} [DecidablePred p] {g : α → β}
    (hf : ∀ x, f x = if p x then some (g x) else none) (xs : List α) :
    xs.mapM f = if ∀ x ∈ xs, p x then some (xs.map g) else none := by
  induction xs with
  | nil => simp
  | cons x xs ih =>
    rw [List.mapM_cons, hf, ih]
    by_cases hx : p x
    · by_cases hxs : ∀ x ∈ xs, p x
      · rw [if_pos hx, if_pos hxs, if_pos (List.forall_mem_cons.mpr ⟨hx, hxs⟩)]
        rfl
      · rw [if_pos hx, if_neg hxs, if_neg fun h => hxs (List.forall_mem_cons.mp h).2]
        rfl
    · rw [if_neg hx, if_neg fun h => hx (List.forall_mem_cons.mp h).1]
      rfl

/-- Where only one element has a result, this is the first one found. -/
theorem findSome?_eq_some_iff_of_unique {f : α → Option β} {xs : List α}
    (h : ∀ x ∈ xs, ∀ x' ∈ xs, (f x).isSome → (f x').isSome → x = x') {y : β} :
    xs.findSome? f = some y ↔ ∃ x ∈ xs, f x = some y := by
  constructor
  · exact List.exists_of_findSome?_eq_some
  · rintro ⟨x, hx, hy⟩
    cases hfound : xs.findSome? f with
    | none => exact absurd ((List.findSome?_eq_none_iff.mp hfound x hx).symm.trans hy) (by simp)
    | some z =>
      obtain ⟨x', hx', hz⟩ := List.exists_of_findSome?_eq_some hfound
      obtain rfl := h x hx x' hx' (by simp [hy]) (by simp [hz])
      exact hz.symm.trans hy

/-- What every step keeps holds after the run. -/
theorem foldlM_some_keeps {step : β → α → Option β} {P : β → Prop} {l : List α}
    (hstep : ∀ s a s', step s a = some s' → P s → P s') {s s' : β}
    (hrun : l.foldlM step s = some s') (h : P s) : P s' := by
  induction l generalizing s with
  | nil => exact Option.some.inj hrun ▸ h
  | cons a l ih =>
    rw [List.foldlM_cons] at hrun
    obtain ⟨s₁, hfirst, hrest⟩ := Option.bind_eq_some_iff.mp hrun
    exact ih hrest (hstep _ _ _ hfirst h)

/-- What each step appends to a log, the run appends in order. -/
theorem foldlM_some_appends {γ : Type} {step : β → α → Option β} {log : β → List γ}
    {added : α → List γ} {l : List α}
    (hstep : ∀ s a s', step s a = some s' → log s' = log s ++ added a) {s s' : β}
    (hrun : l.foldlM step s = some s') : log s' = log s ++ l.flatMap added := by
  induction l generalizing s with
  | nil =>
    obtain rfl := Option.some.inj hrun
    exact (List.append_nil _).symm
  | cons a l ih =>
    rw [List.foldlM_cons] at hrun
    obtain ⟨s₁, hfirst, hrest⟩ := Option.bind_eq_some_iff.mp hrun
    rw [ih hrest, hstep _ _ _ hfirst, List.append_assoc, List.flatMap_cons]

/-- Where each step of one run has a step of another, and keeps a relation between the two
states, the whole run has another run. -/
theorem foldlM_some_simulates {γ : Type} {step : β → α → Option β} {step' : γ → α → Option γ}
    {R : β → γ → Prop} {l : List α}
    (hstep : ∀ s t a s', a ∈ l → R s t → step s a = some s' → ∃ t', step' t a = some t' ∧ R s' t')
    {s s' : β} {t : γ} (hrun : l.foldlM step s = some s') (h : R s t) :
    ∃ t', l.foldlM step' t = some t' ∧ R s' t' := by
  induction l generalizing s t with
  | nil => exact ⟨t, rfl, Option.some.inj hrun ▸ h⟩
  | cons a l ih =>
    rw [List.foldlM_cons] at hrun
    obtain ⟨s₁, hfirst, hrest⟩ := Option.bind_eq_some_iff.mp hrun
    obtain ⟨t₁, hfirst', h₁⟩ := hstep s t a s₁ List.mem_cons_self h hfirst
    obtain ⟨t', hrest', h'⟩ :=
      ih (fun s t b s' hb => hstep s t b s' (List.mem_cons_of_mem _ hb)) hrest h₁
    refine ⟨t', ?_, h'⟩
    rw [List.foldlM_cons, hfirst']
    exact hrest'

end PmuEvents.Foundation
