import Mathlib.Data.List.Lex
import Mathlib.Data.List.Sort
set_option autoImplicit false

/-!
# The last extension in a sorted list

In a lexicographically sorted list of sequences, those that extend a given one
stand directly after it.  Scanning forward from a sequence as long as the next one
extends it therefore ends at its greatest extension in the whole list.
-/

namespace PmuEvents.Foundation

variable {α : Type} [LinearOrder α]

theorem cons_le_cons_iff {x y : α} {s t : List α} :
    x :: s ≤ y :: t ↔ x < y ∨ x = y ∧ s ≤ t := by
  have hlt : x :: s < y :: t ↔ x < y ∨ x = y ∧ s < t := List.cons_lt_cons_iff
  rw [le_iff_lt_or_eq, le_iff_lt_or_eq, hlt, List.cons.injEq]
  tauto

theorem le_of_isPrefix {s t : List α} (h : s <+: t) : s ≤ t := by
  induction s generalizing t with
  | nil =>
    cases t with
    | nil => exact le_refl _
    | cons y t => exact le_of_lt List.Lex.nil
  | cons x s ih =>
    obtain ⟨r, rfl⟩ := h
    exact cons_le_cons_iff.mpr (.inr ⟨rfl, ih (List.prefix_append s r)⟩)

theorem append_lt_append_iff {s t u : List α} : s ++ t < s ++ u ↔ t < u := by
  induction s with
  | nil => exact Iff.rfl
  | cons x s ih =>
    have hcons : x :: (s ++ t) < x :: (s ++ u) ↔ x < x ∨ x = x ∧ s ++ t < s ++ u :=
      List.cons_lt_cons_iff
    rw [List.cons_append, List.cons_append, hcons, ih]
    simp

/-- Where a sequence is less but no prefix, what follows does not matter. -/
theorem append_lt_append_of_not_isPrefix {s t : List α} (h : s < t) (hpre : ¬ s <+: t)
    (u v : List α) : s ++ u < t ++ v := by
  induction s generalizing t with
  | nil => exact absurd List.nil_prefix hpre
  | cons x s ih =>
    cases t with
    | nil => exact absurd h (not_lt.mpr (le_of_lt List.Lex.nil))
    | cons y t =>
      rcases List.cons_lt_cons_iff.mp h with hxy | ⟨rfl, hst⟩
      · exact List.cons_lt_cons_iff.mpr (.inl hxy)
      · have hst' : ¬ s <+: t := fun hp => hpre ((List.prefix_cons_inj x).mpr hp)
        exact List.cons_lt_cons_iff.mpr (.inr ⟨rfl, ih hst hst'⟩)

/-- What lies between a sequence and an extension of it extends it as well. -/
theorem prefix_of_between {s b c : List α} (hsb : s ≤ b) (hbc : b ≤ c) (hsc : s <+: c) :
    s <+: b := by
  induction s generalizing b c with
  | nil => exact List.nil_prefix
  | cons x s ih =>
    obtain ⟨t, rfl⟩ := hsc
    cases b with
    | nil => exact absurd List.Lex.nil (not_lt.mpr hsb)
    | cons y b =>
      rw [cons_le_cons_iff] at hsb
      rw [List.cons_append, cons_le_cons_iff] at hbc
      rcases hsb with hxy | ⟨rfl, hsb⟩
      · rcases hbc with hyx | ⟨rfl, -⟩
        · exact absurd hxy (lt_asymm hyx)
        · exact absurd hxy (lt_irrefl _)
      · rcases hbc with hyx | ⟨-, hbc⟩
        · exact absurd hyx (lt_irrefl _)
        · exact (List.prefix_cons_inj x).mpr (ih hsb hbc (List.prefix_append s t))

/-- `t` is the greatest of the sequences in `l`, other than `s`, that extend `s`. -/
structure GreatestExtension (l : List (List α)) (s t : List α) : Prop where
  mem : t ∈ l
  ne : t ≠ s
  extends_ : s <+: t
  greatest : ∀ t' ∈ l, s <+: t' → t' ≤ t

/-- A greatest extension has no extension itself. -/
theorem GreatestExtension.maximal {l : List (List α)} {s t u : List α}
    (h : GreatestExtension l s t) : ¬ GreatestExtension l t u := by
  intro hu
  have hle := h.greatest u hu.mem (h.extends_.trans hu.extends_)
  exact hu.ne (le_antisymm hle (le_of_isPrefix hu.extends_))

/-- Every sequence that is directly followed by an extension of it, with the last
of the extensions that follow. -/
def lastExtensions : List (List α) → List (List α × List α)
  | [] => []
  | s :: rest =>
    match (rest.takeWhile fun t => s.isPrefixOf t).getLast? with
    | none => lastExtensions rest
    | some t => (s, t) :: lastExtensions rest

/-- In a sorted list the scan takes all extensions of the first sequence. -/
theorem takeWhile_eq_filter {s : List α} {l : List (List α)} (h : (s :: l).Pairwise (· < ·)) :
    (l.takeWhile fun t => s.isPrefixOf t) = l.filter fun t => s.isPrefixOf t := by
  induction l with
  | nil => rfl
  | cons b l ih =>
    obtain ⟨hs, hl⟩ := List.pairwise_cons.mp h
    obtain ⟨hb, hl⟩ := List.pairwise_cons.mp hl
    have hskip : (s :: l).Pairwise (· < ·) :=
      List.pairwise_cons.mpr ⟨fun t ht => hs t (List.mem_cons_of_mem b ht), hl⟩
    by_cases hpre : s <+: b
    · have hp : s.isPrefixOf b = true := List.isPrefixOf_iff_prefix.mpr hpre
      rw [List.takeWhile_cons_of_pos hp, List.filter_cons_of_pos hp, ih hskip]
    · have hp : ¬ s.isPrefixOf b = true := mt List.isPrefixOf_iff_prefix.mp hpre
      have hnone : (l.filter fun t => s.isPrefixOf t) = [] := by
        rw [List.filter_eq_nil_iff]
        intro t ht hext
        have hsb := le_of_lt (hs b List.mem_cons_self)
        exact hpre (prefix_of_between hsb (le_of_lt (hb t ht))
          (List.isPrefixOf_iff_prefix.mp hext))
      rw [List.takeWhile_cons_of_neg hp, List.filter_cons_of_neg hp, hnone]

/-- The last element of a sorted list is its greatest. -/
theorem getLast?_eq_some_iff_greatest {β : Type} [LinearOrder β] {l : List β}
    (h : l.Pairwise (· < ·)) (t : β) :
    l.getLast? = some t ↔ t ∈ l ∧ ∀ t' ∈ l, t' ≤ t := by
  induction l with
  | nil => simp
  | cons b l ih =>
    obtain ⟨hb, hl⟩ := List.pairwise_cons.mp h
    cases l with
    | nil =>
      simp only [List.getLast?_singleton, Option.some.injEq, List.mem_singleton, forall_eq]
      exact ⟨fun heq => ⟨heq.symm, le_of_eq heq⟩, fun heq => heq.1.symm⟩
    | cons c l =>
      rw [List.getLast?_cons_cons, ih hl]
      constructor
      · rintro ⟨hmem, hgreatest⟩
        refine ⟨List.mem_cons_of_mem b hmem, List.forall_mem_cons.mpr ⟨?_, hgreatest⟩⟩
        exact le_of_lt (hb t hmem)
      · rintro ⟨hmem, hgreatest⟩
        rw [List.forall_mem_cons] at hgreatest
        refine ⟨(List.mem_cons.mp hmem).resolve_left ?_, hgreatest.2⟩
        rintro rfl
        have hc : c ∈ c :: l := List.mem_cons_self
        exact absurd (hb c hc) (not_lt.mpr (hgreatest.2 c hc))

/-- The head of a sorted list extends none of the other members. -/
theorem greatestExtension_cons {s b t : List α} {l : List (List α)}
    (h : (b :: l).Pairwise (· < ·)) (hs : s ∈ l) :
    GreatestExtension (b :: l) s t ↔ GreatestExtension l s t := by
  have hbs := (List.pairwise_cons.mp h).1 s hs
  have hnot : ¬ s <+: b := fun hsb => absurd hbs (not_lt.mpr (le_of_isPrefix hsb))
  constructor
  · intro ht
    have hmem : t ∈ l := (List.mem_cons.mp ht.mem).resolve_left fun heq => hnot (heq ▸ ht.extends_)
    exact ⟨hmem, ht.ne, ht.extends_, fun t' ht' => ht.greatest t' (List.mem_cons_of_mem b ht')⟩
  · intro ht
    refine ⟨List.mem_cons_of_mem b ht.mem, ht.ne, ht.extends_, ?_⟩
    intro t' ht' hext
    rcases List.mem_cons.mp ht' with rfl | ht'
    · exact absurd hext hnot
    · exact ht.greatest t' ht' hext

/-- The scan from the head of a sorted list ends at its greatest extension. -/
theorem greatestExtension_head {b t : List α} {l : List (List α)}
    (h : (b :: l).Pairwise (· < ·)) :
    (l.takeWhile fun t => b.isPrefixOf t).getLast? = some t ↔ GreatestExtension (b :: l) b t := by
  obtain ⟨hb, hl⟩ := List.pairwise_cons.mp h
  rw [takeWhile_eq_filter h, getLast?_eq_some_iff_greatest (hl.filter _)]
  simp only [List.mem_filter, List.isPrefixOf_iff_prefix]
  constructor
  · rintro ⟨⟨hmem, hext⟩, hgreatest⟩
    refine ⟨List.mem_cons_of_mem b hmem, ne_of_gt (hb t hmem), hext, ?_⟩
    intro t' ht' hext'
    rcases List.mem_cons.mp ht' with rfl | ht'
    · exact le_of_lt (hb t hmem)
    · exact hgreatest t' ⟨ht', hext'⟩
  · intro ht
    refine ⟨⟨(List.mem_cons.mp ht.mem).resolve_left ht.ne, ht.extends_⟩, ?_⟩
    exact fun t' ht' => ht.greatest t' (List.mem_cons_of_mem b ht'.1) ht'.2

/-- The scan finds the greatest extension of every sequence that has one. -/
theorem mem_lastExtensions_iff {l : List (List α)} (h : l.Pairwise (· < ·)) (s t : List α) :
    (s, t) ∈ lastExtensions l ↔ s ∈ l ∧ GreatestExtension l s t := by
  induction l with
  | nil => simp [lastExtensions]
  | cons b l ih =>
    obtain ⟨hb, hl⟩ := List.pairwise_cons.mp h
    have htail : (s ∈ l ∧ GreatestExtension (b :: l) s t) ↔ (s, t) ∈ lastExtensions l := by
      rw [ih hl]
      exact and_congr_right fun hs => greatestExtension_cons h hs
    have hhead : (s = b ∧ GreatestExtension (b :: l) s t) ↔
        s = b ∧ (l.takeWhile fun t => b.isPrefixOf t).getLast? = some t := by
      refine and_congr_right fun heq => ?_
      rw [heq, greatestExtension_head h]
    rw [List.mem_cons, or_and_right, hhead, htail, lastExtensions]
    split
    · rename_i hnone
      simp [hnone]
    · rename_i u hu
      rw [hu, List.mem_cons, Prod.mk.injEq, Option.some.injEq, eq_comm (a := t)]

theorem lastExtensions_fst_sublist (l : List (List α)) :
    ((lastExtensions l).map Prod.fst).Sublist l := by
  induction l with
  | nil => exact List.Sublist.slnil
  | cons b l ih =>
    rw [lastExtensions]
    split
    · exact ih.cons b
    · exact ih.cons_cons b

end PmuEvents.Foundation
