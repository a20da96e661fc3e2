import Mathlib.Data.List.Basic
import Mathlib.Data.List.Perm.Basic
import Mathlib.Order.Defs.PartialOrder
set_option autoImplicit false

/-!
# Runs of elements with equal keys

A list is cut where the key of an element differs from that of the element before.
The runs have distinct keys exactly when no element stands between two elements with
another key, and then the run of a key is made of all elements with this key.
-/

namespace PmuEvents.Foundation

variable {α κ : Type} (key : α → κ)

/-! ## Equal keys that stand together -/

/-- No element stands between two with another key. -/
def Contiguous (l : List α) : Prop :=
  ∀ a b c, List.Sublist [a, b, c] l → key a = key c → key b = key a

variable {key}

/-- An element with the key of the next one changes nothing. -/
theorem contiguous_cons_of_eq {a b : α} {l : List α} (h : key a = key b) :
    Contiguous key (a :: b :: l) ↔ Contiguous key (b :: l) := by
  constructor
  · intro hc x y z hsub
    exact hc x y z (hsub.cons a)
  · intro hc x y z hsub hkey
    rcases List.cons_sublist_cons'.mp hsub with hskip | ⟨rfl, htake⟩
    · exact hc x y z hskip hkey
    · rcases List.cons_sublist_cons'.mp htake with hlater | ⟨rfl, -⟩
      · rw [h] at hkey ⊢
        exact hc b y z (hlater.cons_cons b) hkey
      · exact h.symm

/-- An element with another key than the next one comes first only if its key does not
come again. -/
theorem contiguous_cons_of_ne {a b : α} {l : List α} (h : key b ≠ key a) :
    Contiguous key (a :: b :: l) ↔
      (¬ ∃ c ∈ b :: l, key c = key a) ∧ Contiguous key (b :: l) := by
  constructor
  · refine fun hc => ⟨?_, fun x y z hsub => hc x y z (hsub.cons a)⟩
    rintro ⟨c, hmem, hkey⟩
    rcases List.mem_cons.mp hmem with rfl | hmem
    · exact h hkey
    · exact h (hc a b c (((List.singleton_sublist.mpr hmem).cons_cons b).cons_cons a) hkey.symm)
  · rintro ⟨hnone, hc⟩ x y z hsub hkey
    rcases List.cons_sublist_cons'.mp hsub with hskip | ⟨rfl, htake⟩
    · exact hc x y z hskip hkey
    · have hz : z ∈ [y, z] := by simp
      exact absurd ⟨z, htake.subset hz, hkey.symm⟩ hnone

theorem contiguous_singleton (a : α) : Contiguous key [a] := by
  intro x y z hsub
  have := hsub.length_le
  simp at this

/-- In a list that is sorted by a function of the key, equal keys stand together. -/
theorem contiguous_of_pairwise {β : Type} [PartialOrder β] {f : κ → β} {l : List α}
    (hsorted : l.Pairwise fun a b => f (key a) ≤ f (key b))
    (hinj : ∀ a ∈ l, ∀ b ∈ l, f (key a) = f (key b) → key a = key b) : Contiguous key l := by
  intro a b c hsub hkey
  have hmem : ∀ x ∈ [a, b, c], x ∈ l := fun x hx => hsub.subset hx
  have hle := hsorted.sublist hsub
  simp only [List.pairwise_cons, List.mem_cons, List.not_mem_nil, or_false, forall_eq_or_imp,
    forall_eq] at hle
  refine hinj b (hmem b (by simp)) a (hmem a (by simp)) (le_antisymm ?_ hle.1.1)
  rw [hkey]
  exact hle.2.1

/-- Elements of a sorted list in strictly increasing order come in this order. -/
theorem triple_sublist {r : α → α → Prop} {l : List α} (hsorted : l.Pairwise r) {a b c : α}
    (ha : a ∈ l) (hb : b ∈ l) (hc : c ∈ l) (hab : r a b ∧ ¬ r b a) (hbc : r b c ∧ ¬ r c b)
    (hac : r a c ∧ ¬ r c a) : List.Sublist [a, b, c] l := by
  have hneab : b ≠ a := by
    rintro rfl
    exact hab.2 hab.1
  have hnebc : c ≠ b := by
    rintro rfl
    exact hbc.2 hbc.1
  have hneac : c ≠ a := by
    rintro rfl
    exact hac.2 hac.1
  obtain ⟨s, t, rfl⟩ := List.append_of_mem ha
  obtain ⟨-, hat, hs⟩ := List.pairwise_append.mp hsorted
  have hafter : ∀ x, x ∈ s ++ a :: t → x ≠ a → ¬ r x a → x ∈ t := by
    intro x hx hne hr
    rcases List.mem_append.mp hx with hx | hx
    · exact absurd (hs x hx a List.mem_cons_self) hr
    · exact (List.mem_cons.mp hx).resolve_left hne
  have hbt := hafter b hb hneab hab.2
  have hct := hafter c hc hneac hac.2
  obtain ⟨u, v, rfl⟩ := List.append_of_mem hbt
  obtain ⟨-, -, hu⟩ := List.pairwise_append.mp (List.pairwise_cons.mp hat).2
  have hcv : c ∈ v := by
    rcases List.mem_append.mp hct with hx | hx
    · exact absurd (hu c hx b List.mem_cons_self) hbc.2
    · exact (List.mem_cons.mp hx).resolve_left hnebc
  have hrest : List.Sublist [b, c] (u ++ b :: v) :=
    ((List.singleton_sublist.mpr hcv).cons_cons b).trans (List.sublist_append_right u _)
  exact (hrest.cons_cons a).trans (List.sublist_append_right s _)

/-! ## Runs -/

variable [DecidableEq κ] (key)

/-- The runs after one that has begun. -/
def runsFrom (k : κ) (run : List α) : List α → List (κ × List α)
  | [] => [(k, run)]
  | a :: l =>
    if key a = k then runsFrom k (run ++ [a]) l else (k, run) :: runsFrom (key a) [a] l

/-- The runs of equal keys, each with its key. -/
def keyRuns : List α → List (κ × List α)
  | [] => []
  | a :: l => runsFrom key (key a) [a] l

variable {key}

theorem flatMap_runsFrom (k : κ) (run l : List α) :
    (runsFrom key k run l).flatMap Prod.snd = run ++ l := by
  induction l generalizing k run with
  | nil => simp [runsFrom]
  | cons a l ih =>
    rw [runsFrom]
    split
    · rw [ih, List.append_assoc, List.singleton_append]
    · rw [List.flatMap_cons, ih, List.singleton_append]

/-- Together the runs are the list. -/
theorem flatMap_keyRuns (l : List α) : (keyRuns key l).flatMap Prod.snd = l := by
  cases l with
  | nil => rfl
  | cons a l => rw [keyRuns, flatMap_runsFrom, List.singleton_append]

theorem key_of_mem_runsFrom {k : κ} {run l : List α} (hrun : ∀ a ∈ run, key a = k) :
    ∀ r ∈ runsFrom key k run l, ∀ a ∈ r.2, key a = r.1 := by
  induction l generalizing k run with
  | nil =>
    intro r hr
    rw [runsFrom, List.mem_singleton] at hr
    rw [hr]
    exact hrun
  | cons b l ih =>
    rw [runsFrom]
    split
    · rename_i hkey
      refine ih fun a ha => ?_
      rcases List.mem_append.mp ha with ha | ha
      · exact hrun a ha
      · rw [List.mem_singleton.mp ha, hkey]
    · intro r hr
      rcases List.mem_cons.mp hr with rfl | hr
      · exact hrun
      · exact ih (fun a ha => by rw [List.mem_singleton.mp ha]) r hr

/-- The elements of a run have its key. -/
theorem key_of_mem_keyRuns {l : List α} : ∀ r ∈ keyRuns key l, ∀ a ∈ r.2, key a = r.1 := by
  cases l with
  | nil => simp [keyRuns]
  | cons b l => exact key_of_mem_runsFrom fun a ha => by rw [List.mem_singleton.mp ha]

theorem mem_keys_runsFrom {k k' : κ} {run l : List α} :
    k' ∈ (runsFrom key k run l).map Prod.fst ↔ k' = k ∨ ∃ a ∈ l, key a = k' := by
  induction l generalizing k run with
  | nil => simp [runsFrom]
  | cons b l ih =>
    rw [runsFrom, List.exists_mem_cons_iff]
    split
    · rename_i hkey
      rw [ih, hkey]
      constructor
      · rintro (rfl | h)
        · exact .inl rfl
        · exact .inr (.inr h)
      · rintro (rfl | rfl | h)
        · exact .inl rfl
        · exact .inl rfl
        · exact .inr h
    · rw [List.map_cons, List.mem_cons, ih, eq_comm (a := key b)]

/-- The keys of the runs are those of the elements. -/
theorem mem_keys_keyRuns {k : κ} {l : List α} :
    k ∈ (keyRuns key l).map Prod.fst ↔ ∃ a ∈ l, key a = k := by
  cases l with
  | nil => simp [keyRuns]
  | cons a l => rw [keyRuns, mem_keys_runsFrom, List.exists_mem_cons_iff, eq_comm]

/-! ## Distinct keys -/

theorem nodup_keys_runsFrom (a : α) (run l : List α) :
    ((runsFrom key (key a) run l).map Prod.fst).Nodup ↔ Contiguous key (a :: l) := by
  induction l generalizing a run with
  | nil => simp [runsFrom, contiguous_singleton]
  | cons b l ih =>
    rw [runsFrom]
    split
    · rename_i hkey
      rw [contiguous_cons_of_eq hkey.symm, ← hkey, ih]
    · rename_i hkey
      rw [contiguous_cons_of_ne hkey, List.map_cons, List.nodup_cons, ih, mem_keys_runsFrom,
        List.exists_mem_cons_iff, eq_comm (a := key a)]

/-- The runs have distinct keys exactly when equal keys stand together. -/
theorem nodup_keys_keyRuns (l : List α) :
    ((keyRuns key l).map Prod.fst).Nodup ↔ Contiguous key l := by
  cases l with
  | nil =>
    have hnil : Contiguous key ([] : List α) := fun x y z hsub => by simp at hsub
    simp [keyRuns, hnil]
  | cons a l => exact nodup_keys_runsFrom a [a] l

/-- Among parts with distinct keys, all elements with the key of a part are in it. -/
theorem filter_flatMap_of_nodup {parts : List (κ × List α)}
    (hkey : ∀ r ∈ parts, ∀ a ∈ r.2, key a = r.1) (hnodup : (parts.map Prod.fst).Nodup) :
    ∀ r ∈ parts, (parts.flatMap Prod.snd).filter (fun a => key a = r.1) = r.2 := by
  induction parts with
  | nil => simp
  | cons part parts ih =>
    obtain ⟨hpart, hparts⟩ := List.forall_mem_cons.mp hkey
    rw [List.map_cons, List.nodup_cons] at hnodup
    intro r hr
    rw [List.flatMap_cons, List.filter_append]
    rcases List.mem_cons.mp hr with rfl | hr
    · have hown : r.2.filter (fun a => key a = r.1) = r.2 :=
        List.filter_eq_self.mpr fun a ha => by simpa using hpart a ha
      have hothers : (parts.flatMap Prod.snd).filter (fun a => key a = r.1) = [] := by
        refine List.filter_eq_nil_iff.mpr fun a ha => ?_
        obtain ⟨s, hs, has⟩ := List.mem_flatMap.mp ha
        have hne : s.1 ≠ r.1 := fun heq => hnodup.1 (heq ▸ List.mem_map_of_mem hs)
        simpa [hparts s hs a has] using hne
      rw [hown, hothers, List.append_nil]
    · have hfirst : part.2.filter (fun a => key a = r.1) = [] := by
        refine List.filter_eq_nil_iff.mpr fun a ha => ?_
        have hne : part.1 ≠ r.1 := fun heq => hnodup.1 (heq ▸ List.mem_map_of_mem hr)
        simpa [hpart a ha] using hne
      rw [hfirst, List.nil_append, ih hparts hnodup.2 r hr]

/-- Where equal keys stand together, a run has all elements with its key. -/
theorem eq_filter_of_mem_keyRuns {l : List α} (h : Contiguous key l) :
    ∀ r ∈ keyRuns key l, r.2 = l.filter fun a => key a = r.1 := by
  intro r hr
  have hall := filter_flatMap_of_nodup key_of_mem_keyRuns ((nodup_keys_keyRuns l).mpr h) r hr
  rw [flatMap_keyRuns] at hall
  exact hall.symm

/-- Runs are segments of the list. -/
theorem infix_of_mem_keyRuns {l : List α} {r : κ × List α} (h : r ∈ keyRuns key l) :
    r.2 <:+: l := by
  have hflat := List.infix_of_mem_flatten (List.mem_map_of_mem (f := Prod.snd) h)
  rwa [← List.flatMap_def, flatMap_keyRuns] at hflat

end PmuEvents.Foundation
