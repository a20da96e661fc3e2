import PmuEvents.Jevents.Fold
import Mathlib.Data.Finset.Max
set_option autoImplicit false

/-!
# The structure of the folding

The scan forward through the sorted reversed strings folds a string exactly when it ends
another one, and always into a string that ends no other.  The main result says so of
every set of strings that was added, that the text has one line for each string that is
not folded, and that every string has one offset.
-/

namespace PmuEvents.Jevents

open PmuEvents.Foundation

/-- The string is a proper suffix of another one. -/
def EndsAnother (texts : List Text) (s : Text) : Prop := ∃ t ∈ texts, t ≠ s ∧ s <:+ t

/-- The comment behind a string: nothing, or the strings that are folded into it, in any
order. -/
def AlsoComment (folded : List (Text × Text)) (s also : Text) : Prop :=
  ∃ into, into.Perm ((folded.filter fun fold => fold.2 = s).map Prod.fst) ∧
    also = if into = [] then []
      else " /* also: ".toList ++ ", ".toList.intercalate into ++ " */".toList

/-- The line for a string: its offset in a comment, the string between quotes, and the
comment behind it. -/
def LineFor (folded : List (Text × Text)) (offsets : List (Text × Int)) (s line : Text) : Prop :=
  ∃ offset also, offsets.lookup s = some offset ∧ AlsoComment folded s also ∧
    line = "/* offset=".toList ++ pyStr offset ++ " */ ".toList ++ quoted s ++ also ++ ['\n']

/-- What `compute` makes of the strings that were added: those it writes, those it folds,
each with its target, the text, with one line for each string that is written, and the
offsets. -/
structure FoldStructure (added emitted : List Text) (folded : List (Text × Text))
    (source : Text) (offsets : List (Text × Int)) : Prop where
  mem_emitted_iff : ∀ s, s ∈ emitted ↔ s ∈ added ∧ ¬ EndsAnother added s
  emitted_nodup : emitted.Nodup
  mem_folded_iff : ∀ s, s ∈ folded.map Prod.fst ↔ s ∈ added ∧ EndsAnother added s
  folded_nodup : (folded.map Prod.fst).Nodup
  target : ∀ s t, (s, t) ∈ folded → t ∈ emitted ∧ t ≠ s ∧ s <:+ t
  lines : ∃ lines, source = lines.flatten ∧ List.Forall₂ (LineFor folded offsets) emitted lines
  mem_offsets_iff : ∀ s, s ∈ offsets.map Prod.fst ↔ s ∈ added
  offsets_nodup : (offsets.map Prod.fst).Nodup
  offset_emitted : ∀ pre s post, emitted = pre ++ s :: post →
    offsets.lookup s = some (BigCString.cLenSum pre)
  offset_folded : ∀ pre s t post, (s, t) ∈ folded → emitted = pre ++ t :: post →
    offsets.lookup s = some (BigCString.cLenSum pre + cLen t - cLen s)

/-- A string that ends another one is folded: into the last of those it ends, read
backwards. -/
theorem exists_foldsInto_iff {texts : List Text} {s : Text} :
    (∃ t, FoldsInto texts s t) ↔ s ∈ texts ∧ EndsAnother texts s := by
  constructor
  · rintro ⟨t, h⟩
    exact ⟨h.mem, t, h.into_mem, h.ne, h.ends⟩
  · rintro ⟨hs, t, ht, hne, hends⟩
    have hmem : ∀ u, u ∈ texts.toFinset.filter (s <:+ ·) ↔ u ∈ texts ∧ s <:+ u := by
      intro u
      rw [Finset.mem_filter, List.mem_toFinset]
    obtain ⟨u, hu, hgreatest⟩ := Finset.exists_max_image (texts.toFinset.filter (s <:+ ·))
      List.reverse ⟨t, (hmem t).mpr ⟨ht, hends⟩⟩
    obtain ⟨hutexts, hends'⟩ := (hmem u).mp hu
    refine ⟨u, hs, hutexts, ?_, hends', ?_⟩
    · rintro rfl
      -- nothing longer would lie behind the string itself
      have hle := hgreatest t ((hmem t).mpr ⟨ht, hends⟩)
      have hge := le_of_isPrefix (List.reverse_prefix.mpr hends)
      exact hne (List.reverse_injective (le_antisymm hle hge))
    · intro t' ht' hends''
      exact hgreatest t' ((hmem t').mpr ⟨ht', hends''⟩)

/-- Only the set of the strings that were added counts. -/
theorem FoldStructure.congr {added added' emitted : List Text} {folded : List (Text × Text)}
    {source : Text} {offsets : List (Text × Int)}
    (h : FoldStructure added emitted folded source offsets)
    (hmem : ∀ s, s ∈ added ↔ s ∈ added') : FoldStructure added' emitted folded source offsets := by
  have hends : ∀ s, EndsAnother added s ↔ EndsAnother added' s := fun s =>
    exists_congr fun t => and_congr_left fun _ => hmem t
  exact
    { h with
      mem_emitted_iff := fun s => by rw [h.mem_emitted_iff, hmem, hends]
      mem_folded_iff := fun s => by rw [h.mem_folded_iff, hmem, hends]
      mem_offsets_iff := fun s => by rw [h.mem_offsets_iff, hmem] }

namespace BigCString

theorem map_fst_emitOffsets (l : List Text) (big_string_offset : Int) :
    (emitOffsets l big_string_offset).map Prod.fst = l := by
  induction l generalizing big_string_offset with
  | nil => rfl
  | cons s l ih => rw [emitOffsets, List.map_cons, ih]

/-- The loop over the folded strings adds one offset for each. -/
theorem map_fst_foldOffsets {folds : List (Text × Text)} {offsets offsets' : List (Text × Int)}
    (h : foldOffsets folds offsets = some offsets') :
    offsets'.map Prod.fst = offsets.map Prod.fst ++ folds.map Prod.fst := by
  induction folds generalizing offsets with
  | nil =>
    obtain rfl := Option.some.inj h
    rw [List.map_nil, List.append_nil]
  | cons fold folds ih =>
    obtain ⟨s, folded_s⟩ := fold
    rw [foldOffsets] at h
    split at h
    · cases h
    · obtain ⟨offset, -, hrest⟩ := Option.bind_eq_some_iff.mp h
      rw [ih hrest, List.map_append, List.append_assoc]
      rfl

variable (self : BigCString)

/-- The strings with an offset are those written and then those folded. -/
theorem map_fst_offsets {setOrder : SetOrder} {source : Text} {offsets : List (Text × Int)}
    (h : self.compute setOrder = some (source, offsets)) :
    offsets.map Prod.fst = self.emitted ++ self.foldedStrings.map Prod.fst := by
  rw [compute] at h
  obtain ⟨offsets', hrun, heq⟩ := Option.map_eq_some_iff.mp h
  obtain ⟨-, rfl⟩ := Prod.mk.inj heq
  rw [map_fst_foldOffsets hrun, map_fst_emitOffsets]

theorem disjoint_emitted_folded :
    self.emitted.Disjoint (self.foldedStrings.map Prod.fst) := by
  intro s hs hfolded
  exact of_decide_eq_true (List.mem_filter.mp hs).2 hfolded

/-- The comment that is written lists the folded strings in the order of the set. -/
theorem alsoComment_spec (setOrder : SetOrder) (s : Text) :
    AlsoComment self.foldedStrings s (self.alsoComment setOrder s) := by
  refine ⟨setOrder.iterate (self.foldIntoStrings s), setOrder.perm _, ?_⟩
  unfold alsoComment
  cases hinto : self.foldIntoStrings s with
  | nil => rw [if_pos (setOrder.perm []).eq_nil]
  | cons t into =>
    have hne : setOrder.iterate (t :: into) ≠ [] := fun hnil =>
      List.cons_ne_nil t into (hnil ▸ setOrder.perm (t :: into)).symm.eq_nil
    rw [if_neg hne]

theorem cLenSum_concat (pre : List Text) (s : Text) :
    cLenSum (pre ++ [s]) = cLenSum pre + cLen s := by
  simp [cLenSum]

/-- The text for the strings that are still to be written has one line for each, with the
offset behind those before it. -/
theorem emitSource_lines (setOrder : SetOrder) {offsets : List (Text × Int)}
    (hwritten : ∀ pre s post, self.emitted = pre ++ s :: post →
      offsets.lookup s = some (cLenSum pre))
    (pre : List Text) {l : List Text} (hsplit : self.emitted = pre ++ l) :
    ∃ lines, self.emitSource setOrder l (cLenSum pre) = lines.flatten ∧
      List.Forall₂ (LineFor self.foldedStrings offsets) l lines := by
  induction l generalizing pre with
  | nil => exact ⟨[], rfl, .nil⟩
  | cons s l ih =>
    obtain ⟨lines, hlines, hall⟩ := ih (pre ++ [s]) (by rw [hsplit]; simp)
    refine ⟨self.line setOrder s (cLenSum pre) :: lines, ?_, .cons ?_ hall⟩
    · rw [emitSource, List.flatten_cons, ← hlines, cLenSum_concat]
    · exact ⟨cLenSum pre, _, hwritten pre s l hsplit, self.alsoComment_spec setOrder s, rfl⟩

/-- The strings of a set are written or folded, and get their offsets. -/
theorem foldStructure (setOrder : SetOrder) :
    ∃ source offsets, self.compute setOrder = some (source, offsets) ∧
      FoldStructure self.texts self.emitted self.foldedStrings source offsets := by
  obtain ⟨offsets, hrun, hwritten, hfolded⟩ := self.compute_spec setOrder
  have hkeys := self.map_fst_offsets hrun
  refine ⟨_, offsets, hrun, ?_⟩
  have hmem : ∀ s, s ∈ self.emitted ↔ s ∈ self.texts ∧ ¬ EndsAnother self.texts s := by
    intro s
    rw [self.mem_emitted_iff, exists_foldsInto_iff, not_and]
    exact and_congr_right fun hs => ⟨fun h => h hs, fun h _ => h⟩
  have hmemFolded : ∀ s, s ∈ self.foldedStrings.map Prod.fst ↔
      s ∈ self.texts ∧ EndsAnother self.texts s := by
    intro s
    rw [self.mem_foldedStrings_fst_iff, exists_foldsInto_iff]
  exact
    { mem_emitted_iff := hmem
      emitted_nodup := self.emitted_nodup
      mem_folded_iff := hmemFolded
      folded_nodup := self.foldedStrings_nodup
      target := by
        intro s t hfold
        have hinto := (self.mem_foldedStrings_iff s t).mp hfold
        exact ⟨self.mem_emitted_of_foldsInto hinto, hinto.ne, hinto.ends⟩
      lines := self.emitSource_lines setOrder hwritten [] rfl
      mem_offsets_iff := by
        intro s
        rw [hkeys, List.mem_append, hmem, hmemFolded, ← and_or_left]
        exact and_iff_left (Classical.em _).symm
      offsets_nodup := by
        rw [hkeys]
        exact self.emitted_nodup.append self.foldedStrings_nodup self.disjoint_emitted_folded
      offset_emitted := hwritten
      offset_folded := fun pre s t post hfold =>
        hfolded pre s t post ((self.mem_foldedStrings_iff s t).mp hfold) }

/-- For every sequence of strings that are added, `compute` writes the ones that end no
other one, each on one line with its offset, folds each of the others into one that is written,
and gives every string one offset, the written ones the running sums of `c_len`. -/
theorem compute_addAll (calls : List (Text × Bool)) (setOrder : SetOrder) :
    ∃ source offsets, (empty.addAll calls).compute setOrder = some (source, offsets) ∧
      FoldStructure (calls.map Prod.fst) (empty.addAll calls).emitted
        (empty.addAll calls).foldedStrings source offsets := by
  obtain ⟨source, offsets, hrun, hstructure⟩ := (empty.addAll calls).foldStructure setOrder
  exact ⟨source, offsets, hrun, hstructure.congr (mem_texts_empty_addAll calls)⟩

end BigCString

end PmuEvents.Jevents
