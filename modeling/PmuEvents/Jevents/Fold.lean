import PmuEvents.Jevents.BigCString
import Mathlib.Algebra.Ring.Int.Defs
set_option autoImplicit false

/-!
# Folding and offsets

Which string is folded into which, and the offset of every string: what the
strings before it count for, and for a folded one the end of the string it is
folded into.
-/

namespace PmuEvents.Jevents

open PmuEvents.Foundation

/-- `s` is folded into `t`: of the strings that `s` ends, `t` is the one that comes
last when they are read backwards. -/
structure FoldsInto (texts : List Text) (s t : Text) : Prop where
  mem : s ∈ texts
  into_mem : t ∈ texts
  ne : t ≠ s
  ends : s <:+ t
  last : ∀ t' ∈ texts, s <:+ t' → t'.reverse ≤ t.reverse

theorem FoldsInto.congr {texts texts' : List Text} {s t : Text} (h : FoldsInto texts s t)
    (hmem : ∀ u, u ∈ texts ↔ u ∈ texts') : FoldsInto texts' s t :=
  ⟨(hmem s).mp h.mem, (hmem t).mp h.into_mem, h.ne, h.ends,
    fun t' ht' => h.last t' ((hmem t').mpr ht')⟩

instance (texts : List Text) (s t : Text) : Decidable (FoldsInto texts s t) :=
  decidable_of_iff
    (s ∈ texts ∧ t ∈ texts ∧ t ≠ s ∧ s <:+ t ∧ ∀ t' ∈ texts, s <:+ t' → t'.reverse ≤ t.reverse)
    ⟨fun ⟨hs, ht, hne, hends, hlast⟩ => ⟨hs, ht, hne, hends, hlast⟩,
      fun h => ⟨h.mem, h.into_mem, h.ne, h.ends, h.last⟩⟩

namespace BigCString

variable (self : BigCString)

/-! ## The strings -/

theorem mem_texts_add (s t : Text) (metric : Bool) :
    t ∈ (self.add s metric).texts ↔ t ∈ self.texts ∨ t = s := by
  unfold add
  split
  · rename_i h
    exact ⟨.inl, fun hor => hor.elim id fun heq => heq ▸ h⟩
  · simp [texts]

theorem mem_texts_addAll (calls : List (Text × Bool)) (t : Text) :
    t ∈ (self.addAll calls).texts ↔ t ∈ self.texts ∨ t ∈ calls.map Prod.fst := by
  induction calls generalizing self with
  | nil => simp [addAll]
  | cons call calls ih =>
    have hstep : self.addAll (call :: calls) = (self.add call.1 call.2).addAll calls := rfl
    rw [hstep, ih, mem_texts_add, List.map_cons, List.mem_cons, or_assoc]

theorem mem_texts_empty_addAll (calls : List (Text × Bool)) (t : Text) :
    t ∈ (empty.addAll calls).texts ↔ t ∈ calls.map Prod.fst := by
  rw [mem_texts_addAll]
  exact or_iff_right List.not_mem_nil

theorem mem_sortedReversed (s : Text) : s.reverse ∈ self.sortedReversed ↔ s ∈ self.texts := by
  rw [sortedReversed, List.mem_insertionSort, List.mem_map]
  constructor
  · rintro ⟨t, ht, heq⟩
    exact List.reverse_injective heq ▸ ht
  · intro hs
    exact ⟨s, hs, rfl⟩

theorem sortedReversed_pairwise : self.sortedReversed.Pairwise (· < ·) := by
  have hsorted : self.sortedReversed.Pairwise (· ≤ ·) := List.pairwise_insertionSort _ _
  have hnodup : self.sortedReversed.Nodup :=
    (List.perm_insertionSort _ _).nodup_iff.mpr (self.nodup.map List.reverse_injective)
  exact hsorted.imp₂ (fun _ _ hle hne => lt_of_le_of_ne hle hne) hnodup

/-! ## Which strings are folded -/

theorem foldsInto_iff_greatestExtension (s t : Text) :
    FoldsInto self.texts s t ↔
      s.reverse ∈ self.sortedReversed ∧
        GreatestExtension self.sortedReversed s.reverse t.reverse := by
  constructor
  · intro h
    refine ⟨(self.mem_sortedReversed s).mpr h.mem, (self.mem_sortedReversed t).mpr h.into_mem,
      fun heq => h.ne (List.reverse_injective heq), List.reverse_prefix.mpr h.ends, ?_⟩
    intro r hr hext
    rw [← List.reverse_reverse r] at hr hext ⊢
    exact h.last _ ((self.mem_sortedReversed _).mp hr) (List.reverse_prefix.mp hext)
  · rintro ⟨hs, h⟩
    refine ⟨(self.mem_sortedReversed s).mp hs, (self.mem_sortedReversed t).mp h.mem,
      fun heq => h.ne (congrArg List.reverse heq), List.reverse_prefix.mp h.extends_, ?_⟩
    intro t' ht' hends
    exact h.greatest _ ((self.mem_sortedReversed t').mpr ht') (List.reverse_prefix.mpr hends)

theorem mem_foldedStrings_iff (s t : Text) :
    (s, t) ∈ self.foldedStrings ↔ FoldsInto self.texts s t := by
  rw [foldsInto_iff_greatestExtension,
    ← mem_lastExtensions_iff self.sortedReversed_pairwise, foldedStrings, List.mem_map]
  constructor
  · rintro ⟨⟨r, u⟩, hmem, heq⟩
    obtain ⟨rfl, rfl⟩ := Prod.mk.inj heq
    rw [List.reverse_reverse, List.reverse_reverse]
    exact hmem
  · intro hmem
    exact ⟨_, hmem, by rw [List.reverse_reverse, List.reverse_reverse]⟩

theorem foldedStrings_nodup : (self.foldedStrings.map Prod.fst).Nodup := by
  have hnodup : self.sortedReversed.Nodup := self.sortedReversed_pairwise.imp ne_of_lt
  have hkeys : self.foldedStrings.map Prod.fst =
      ((lastExtensions self.sortedReversed).map Prod.fst).map List.reverse := by
    rw [foldedStrings, List.map_map, List.map_map]
    rfl
  rw [hkeys]
  exact (hnodup.sublist (lastExtensions_fst_sublist _)).map List.reverse_injective

theorem mem_foldedStrings_fst_iff (s : Text) :
    s ∈ self.foldedStrings.map Prod.fst ↔ ∃ t, FoldsInto self.texts s t := by
  rw [List.mem_map]
  constructor
  · rintro ⟨⟨s, t⟩, hmem, rfl⟩
    exact ⟨t, (self.mem_foldedStrings_iff s t).mp hmem⟩
  · rintro ⟨t, h⟩
    exact ⟨(s, t), (self.mem_foldedStrings_iff s t).mpr h, rfl⟩

/-- What others are folded into is not folded itself. -/
theorem not_foldsInto_of_foldsInto {s t u : Text} (h : FoldsInto self.texts s t) :
    ¬ FoldsInto self.texts t u := by
  intro hu
  exact ((self.foldsInto_iff_greatestExtension s t).mp h).2.maximal
    ((self.foldsInto_iff_greatestExtension t u).mp hu).2

theorem sortedStrings_perm : self.sortedStrings.Perm self.texts := by
  have h := List.filter_append_perm (fun s : Text × Bool => !s.2) self.strings
  rw [sortedStrings, ← List.map_append, texts]
  simpa only [Bool.not_not] using h.map Prod.fst

theorem mem_emitted_iff (s : Text) :
    s ∈ self.emitted ↔ s ∈ self.texts ∧ ¬ ∃ t, FoldsInto self.texts s t := by
  rw [emitted, List.mem_filter, self.sortedStrings_perm.mem_iff, decide_eq_true_iff,
    mem_foldedStrings_fst_iff]

theorem emitted_nodup : self.emitted.Nodup :=
  (self.sortedStrings_perm.nodup_iff.mpr self.nodup).filter _

theorem mem_emitted_of_foldsInto {s t : Text} (h : FoldsInto self.texts s t) :
    t ∈ self.emitted :=
  (self.mem_emitted_iff t).mpr
    ⟨h.into_mem, fun ⟨_, hu⟩ => self.not_foldsInto_of_foldsInto h hu⟩

theorem mem_foldIntoStrings_iff (s t : Text) :
    s ∈ self.foldIntoStrings t ↔ FoldsInto self.texts s t := by
  rw [foldIntoStrings, List.mem_map, ← mem_foldedStrings_iff]
  constructor
  · rintro ⟨⟨s', t'⟩, hmem, rfl⟩
    obtain ⟨hfold, ht⟩ := List.mem_filter.mp hmem
    obtain rfl : t' = t := of_decide_eq_true ht
    exact hfold
  · intro hmem
    exact ⟨(s, t), List.mem_filter.mpr ⟨hmem, decide_eq_true rfl⟩, rfl⟩

/-! ## Offsets -/

/-- What the strings of a list count for. -/
def cLenSum (l : List Text) : Int := (l.map cLen).sum

theorem lookup_emitOffsets {s : Text} {pre : List Text} (h : s ∉ pre) (post : List Text)
    (big_string_offset : Int) :
    (emitOffsets (pre ++ s :: post) big_string_offset).lookup s =
      some (big_string_offset + cLenSum pre) := by
  induction pre generalizing big_string_offset with
  | nil => simp [emitOffsets, cLenSum]
  | cons t pre ih =>
    rw [List.mem_cons, not_or] at h
    have hne : (s == t) = false := by simpa using h.1
    rw [List.cons_append, emitOffsets, List.lookup_cons, hne]
    dsimp only
    rw [ih h.2]
    simp [cLenSum, Int.add_assoc]

theorem lookup_emitOffsets_of_not_mem {s : Text} {l : List Text} (h : s ∉ l)
    (big_string_offset : Int) : (emitOffsets l big_string_offset).lookup s = none := by
  induction l generalizing big_string_offset with
  | nil => rfl
  | cons t l ih =>
    rw [List.mem_cons, not_or] at h
    have hne : (s == t) = false := by simpa using h.1
    rw [emitOffsets, List.lookup_cons, hne]
    exact ih h.2 _

/-- The loop over the folded strings keeps the offsets it is given, and gives every
folded string the offset of the end of its target. -/
theorem foldOffsets_spec {folds : List (Text × Text)} {offsets : List (Text × Int)}
    (hnodup : (folds.map Prod.fst).Nodup)
    (hkeys : ∀ s ∈ folds.map Prod.fst, offsets.lookup s = none)
    (htargets : ∀ fold ∈ folds, ∃ offset, offsets.lookup fold.2 = some offset) :
    ∃ offsets', foldOffsets folds offsets = some offsets' ∧
      (∀ s offset, offsets.lookup s = some offset → offsets'.lookup s = some offset) ∧
      ∀ s t, (s, t) ∈ folds → ∀ offset, offsets.lookup t = some offset →
        offsets'.lookup s = some (offset + cLen t - cLen s) := by
  induction folds generalizing offsets with
  | nil => exact ⟨offsets, rfl, fun _ _ h => h, by simp⟩
  | cons fold folds ih =>
    obtain ⟨s, t⟩ := fold
    obtain ⟨hs, hnodup⟩ := List.nodup_cons.mp hnodup
    obtain ⟨offset, hoffset⟩ := htargets (s, t) List.mem_cons_self
    have hnone : offsets.lookup s = none := hkeys s List.mem_cons_self
    let value : Int := offset + cLen t - cLen s
    have hkeep : ∀ u v, offsets.lookup u = some v →
        (offsets ++ [(s, value)]).lookup u = some v := by
      intro u v huv
      rw [List.lookup_append, huv, Option.some_or]
    have hnew : (offsets ++ [(s, value)]).lookup s = some value := by
      rw [List.lookup_append, hnone, Option.none_or, List.lookup_cons_self]
    obtain ⟨offsets', hrun, hpreserved, hfolded⟩ := @ih (offsets ++ [(s, value)]) hnodup
      (by
        intro u hu
        have hne : (u == s) = false := by
          rw [beq_eq_false_iff_ne]
          rintro rfl
          exact hs hu
        rw [List.lookup_append, hkeys u (List.mem_cons_of_mem s hu), List.lookup_cons, hne]
        rfl)
      (by
        intro fold hfold
        obtain ⟨v, hv⟩ := htargets fold (List.mem_cons_of_mem _ hfold)
        exact ⟨v, hkeep _ v hv⟩)
    refine ⟨offsets', ?_, fun u v huv => hpreserved u v (hkeep u v huv), ?_⟩
    · rw [foldOffsets, hnone, hoffset]
      exact hrun
    · intro u w hmem v hv
      rcases List.mem_cons.mp hmem with heq | hmem
      · obtain ⟨rfl, rfl⟩ := Prod.mk.inj heq
        obtain rfl : offset = v := Option.some.inj (hoffset.symm.trans hv)
        exact hpreserved _ _ hnew
      · exact hfolded u w hmem v (hkeep w v hv)

/-- `compute` returns; a written string lies behind what the strings before it count
for, a folded one at the end of its target. -/
theorem compute_spec (setOrder : SetOrder) :
    ∃ offsets, self.compute setOrder = some (self.emitSource setOrder self.emitted 0, offsets) ∧
      (∀ pre s post, self.emitted = pre ++ s :: post → offsets.lookup s = some (cLenSum pre)) ∧
      ∀ pre s t post, FoldsInto self.texts s t → self.emitted = pre ++ t :: post →
        offsets.lookup s = some (cLenSum pre + cLen t - cLen s) := by
  have hwritten : ∀ pre s post, self.emitted = pre ++ s :: post →
      (emitOffsets self.emitted 0).lookup s = some (cLenSum pre) := by
    intro pre s post hsplit
    have hnodup := self.emitted_nodup
    rw [hsplit] at hnodup ⊢
    have hs : s ∉ pre := fun hmem =>
      (List.nodup_append.mp hnodup).2.2 s hmem s List.mem_cons_self rfl
    rw [lookup_emitOffsets hs, Int.zero_add]
  obtain ⟨offsets, hrun, hkeep, hfolded⟩ := @foldOffsets_spec
    _ (emitOffsets self.emitted 0) self.foldedStrings_nodup
    (by
      intro s hs
      have hnot : s ∉ self.emitted := fun hmem => (of_decide_eq_true (List.mem_filter.mp hmem).2) hs
      exact lookup_emitOffsets_of_not_mem hnot 0)
    (by
      rintro ⟨s, t⟩ hfold
      have ht := self.mem_emitted_of_foldsInto ((self.mem_foldedStrings_iff s t).mp hfold)
      obtain ⟨pre, post, hsplit⟩ := List.append_of_mem ht
      exact ⟨_, hwritten pre t post hsplit⟩)
  refine ⟨offsets, ?_, fun pre s post hsplit => hkeep s _ (hwritten pre s post hsplit), ?_⟩
  · rw [compute, hrun]
    rfl
  · intro pre s t post hfold hsplit
    exact hfolded s t ((self.mem_foldedStrings_iff s t).mpr hfold) _ (hwritten pre t post hsplit)

end BigCString

end PmuEvents.Jevents
