import PmuEvents.Jevents.CLen
import PmuEvents.Jevents.Fold
import PmuEvents.Jevents.Record
set_option autoImplicit false

/-!
# Reading the big string back

Where every text is a string literal of which `c_len` counts the bytes, the compiled
big string consists of the bytes of the texts that are written.  A text that is written
can then be read back at its offset; a folded one can exactly when its bytes are the
last ones of its target, and not when it begins inside an escape there.
-/

namespace PmuEvents.Jevents

open PmuEvents.Foundation

/-! ## The compiled source -/

/-- The bytes of a text between quotes. -/
def literalBytes (s : Text) : List UInt8 := (cBytes (quoted s)).getD []

theorem literalBytes_eq {s : Text} {bytes : List UInt8} (h : wholeLiteral s = some bytes) :
    literalBytes s = bytes := by
  rw [literalBytes, cBytes_quoted h, Option.getD_some]

theorem literalBytes_units (us : List CUnit) : literalBytes (unitsText us) = unitsBytes us :=
  literalBytes_eq (wholeLiteral_units us)

/-- Of texts made of units one ends the other in bytes when it consists of the last units,
and does not begin inside one. -/
theorem literalBytes_suffix_iff {us vs : List CUnit} (htext : unitsText vs <:+ unitsText us)
    (hus : NoFalseNul us) (hvs : NoFalseNul vs) :
    literalBytes (unitsText vs) <:+ literalBytes (unitsText us) ↔ vs <:+ us := by
  rw [literalBytes_units, literalBytes_units]
  exact suffix_bytes_iff [] htext hus hvs

/-- A counted text compiles to its bytes. -/
theorem Counted.spec {s : Text} (h : Counted s) :
    wholeLiteral s = some (literalBytes s) ∧ cLen s = (literalBytes s).length := by
  obtain ⟨bytes, hliteral, hcount⟩ := h
  rw [literalBytes_eq hliteral]
  exact ⟨hliteral, hcount⟩

theorem cLenSum_eq {l : List Text} (h : ∀ s ∈ l, Counted s) :
    BigCString.cLenSum l = (l.flatMap literalBytes).length := by
  induction l with
  | nil => rfl
  | cons s l ih =>
    rw [List.forall_mem_cons] at h
    have hl := ih h.2
    simp only [BigCString.cLenSum, List.map_cons, List.sum_cons, List.flatMap_cons,
      List.length_append] at hl ⊢
    rw [hl, h.1.spec.2]
    push_cast
    rfl

theorem star_not_mem_pyStr (x : Int) : '*' ∉ pyStr x := by
  intro hmem
  have hdigits : '*' ∉ Nat.toDigits 10 x.natAbs := by
    intro h
    have := Nat.isDigit_of_mem_toDigits (by decide) (by decide) h
    exact absurd this (by decide)
  unfold pyStr at hmem
  split at hmem
  · rcases List.mem_cons.mp hmem with h | h
    · exact absurd h (by decide)
    · exact hdigits h
  · exact hdigits hmem

/-- Texts that do not close a comment do not close it when they are listed. -/
theorem noClose_intercalate {l : List Text} (h : ∀ s ∈ l, NoClose s) :
    NoClose (", ".toList.intercalate l) := by
  induction l with
  | nil => exact .nil
  | cons s l ih =>
    rw [List.forall_mem_cons] at h
    cases l with
    | nil => simpa [List.intercalate] using h.1
    | cons t l =>
      have hsplit : ", ".toList.intercalate (s :: t :: l) =
          s ++ (", ".toList ++ ", ".toList.intercalate (t :: l)) := by
        simp [List.intercalate, List.intersperse]
      rw [hsplit]
      exact h.1.append (NoClose.append (by decide) (ih h.2) (.inl (by decide))) (.inr (by simp))

theorem noClose_also {l : Text} (h : NoClose l) :
    NoClose (" also: ".toList ++ (l ++ [' '])) :=
  NoClose.append (by decide) (h.append (by decide) (.inr (by decide))) (.inl (by decide))

/-- The offset comment before a string. -/
theorem scan_offsetComment (x : Int) (t : Text) :
    scan .code (BigCString.offsetComment x ++ t) = scan .code t := by
  have hstar := star_not_mem_pyStr x
  unfold BigCString.offsetComment
  generalize pyStr x = digits at hstar ⊢
  have hclose : NoClose (" offset=".toList ++ digits ++ [' ']) := by
    apply noClose_of_not_mem
    simp [hstar]
  have hblank : scan .code (' ' :: t) = scan .code t := scan_skip rfl t
  have htext : "/* offset=".toList ++ digits ++ " */ ".toList ++ t =
      '/' :: '*' :: (" offset=".toList ++ digits ++ [' ']) ++ '*' :: '/' :: ' ' :: t := by
    simp
  rw [htext, scan_comment hclose, hblank]

/-- The comment after a string that others are folded into. -/
theorem scan_alsoComment {setOrder : SetOrder} {self : BigCString} {s : Text}
    (h : ∀ t ∈ self.foldIntoStrings s, NoClose t) (t : Text) :
    scan .code (self.alsoComment setOrder s ++ t) = scan .code t := by
  unfold BigCString.alsoComment
  split
  · rfl
  · have hlist : NoClose (", ".toList.intercalate (setOrder.iterate (self.foldIntoStrings s))) :=
      noClose_intercalate fun u hu => h u ((setOrder.perm _).mem_iff.mp hu)
    generalize ", ".toList.intercalate (setOrder.iterate (self.foldIntoStrings s)) = listed
      at hlist ⊢
    have htext : " /* also: ".toList ++ listed ++ " */".toList ++ t =
        ' ' :: ('/' :: '*' :: (" also: ".toList ++ (listed ++ [' '])) ++ '*' :: '/' :: t) := by
      simp
    rw [htext]
    exact (scan_skip rfl _).trans (scan_comment (noClose_also hlist) t)

/-- Reading from so far before the end of a prefix gives what the prefix ends with. -/
theorem prefix_drop_iff_suffix {α : Type} {X R u : List α} :
    (0 ≤ (X.length : Int) - u.length ∧ u <+: (X ++ R).drop ((X.length : Int) - u.length).toNat) ↔
      u <:+ X := by
  constructor
  · rintro ⟨hlen, hpre⟩
    have hn : ((X.length : Int) - u.length).toNat = X.length - u.length := by omega
    rw [hn, List.drop_append_of_le_length (Nat.sub_le _ _)] at hpre
    have hdrop : (X.drop (X.length - u.length)).length = u.length := by
      rw [List.length_drop]
      omega
    have heq := (List.prefix_of_prefix_length_le hpre (List.prefix_append _ R)
      (le_of_eq hdrop.symm)).eq_of_length hdrop.symm
    rw [heq]
    exact List.drop_suffix _ _
  · rintro ⟨s, rfl⟩
    have hn : (((s ++ u).length : Int) - u.length).toNat = s.length := by
      rw [List.length_append]
      omega
    refine ⟨by rw [List.length_append]; omega, ?_⟩
    rw [hn, List.append_assoc, List.drop_left]
    exact List.prefix_append u R

/-! ## The big string -/

namespace BigCString

/-- All texts are literals that `c_len` counts, and no folded text closes the comment it is
listed in. -/
structure WellCounted (bcs : BigCString) : Prop where
  counted : ∀ s ∈ bcs.texts, Counted s
  noClose : ∀ s t, FoldsInto bcs.texts s t → NoClose s

variable {self : BigCString} {setOrder : SetOrder}

theorem WellCounted.scan_line (h : self.WellCounted) {s : Text} (hs : s ∈ self.texts)
    (big_string_offset : Int) (t : Text) :
    scan .code (self.line setOrder s big_string_offset ++ t) =
      (scan .code t).map (literalBytes s ++ ·) := by
  have halso : ∀ u ∈ self.foldIntoStrings s, NoClose u := fun u hu =>
    h.noClose u s ((self.mem_foldIntoStrings_iff u s).mp hu)
  have hnewline : scan .code ('\n' :: t) = scan .code t := scan_skip rfl t
  have hsplit : self.line setOrder s big_string_offset ++ t =
      offsetComment big_string_offset ++
        (quoted s ++ (self.alsoComment setOrder s ++ '\n' :: t)) := by
    simp only [line, List.append_assoc, List.singleton_append]
  rw [hsplit, scan_offsetComment, scan_quoted (h.counted s hs).spec.1, scan_alsoComment halso,
    hnewline]

/-- The source compiles to the bytes of the written texts. -/
theorem WellCounted.scan_emitSource (h : self.WellCounted) {l : List Text}
    (hl : ∀ s ∈ l, s ∈ self.texts) (big_string_offset : Int) :
    cBytes (self.emitSource setOrder l big_string_offset) = some (l.flatMap literalBytes) := by
  induction l generalizing big_string_offset with
  | nil => rfl
  | cons s l ih =>
    rw [List.forall_mem_cons] at hl
    have hrest := ih hl.2 (big_string_offset + cLen s)
    rw [cBytes] at hrest ⊢
    rw [emitSource, h.scan_line hl.1, hrest]
    rfl

/-- The bytes from an offset on start with those of the string. -/
def ReadsAt (big_c_string : List UInt8) (offset : Int) (s : Text) : Prop :=
  0 ≤ offset ∧
    ∃ bytes, cBytes (quoted s) = some bytes ∧ bytes <+: big_c_string.drop offset.toNat

/-- The big string compiles, and every string can be read back at its offset. -/
def ReadsBack (self : BigCString) (setOrder : SetOrder) : Prop :=
  ∃ source offsets big_c_string, self.compute setOrder = some (source, offsets) ∧
    cBytes source = some big_c_string ∧
    ∀ s ∈ self.texts, ∃ offset, offsets.lookup s = some offset ∧
      ReadsAt big_c_string offset s

instance (big_c_string : List UInt8) (offset : Int) (s : Text) :
    Decidable (ReadsAt big_c_string offset s) :=
  decidable_of_iff
    (0 ≤ offset ∧ (cBytes (quoted s)).any fun bytes =>
      bytes.isPrefixOf (big_c_string.drop offset.toNat))
    (by simp only [ReadsAt, Option.any_eq_true, List.isPrefixOf_iff_prefix])

instance (self : BigCString) (setOrder : SetOrder) : Decidable (self.ReadsBack setOrder) :=
  decidable_of_iff
    ((self.compute setOrder).any fun compiled => (cBytes compiled.1).any fun big_c_string =>
      self.texts.all fun s => (compiled.2.lookup s).any fun offset =>
        decide (ReadsAt big_c_string offset s))
    (by simp only [ReadsBack, Option.any_eq_true, List.all_eq_true, decide_eq_true_eq, Prod.exists,
          exists_and_left])

/-- Reading at so far before the end of a part gives what the part ends with. -/
theorem readsAt_iff_suffix {s : Text} (h : Counted s) (X R : List UInt8) :
    ReadsAt (X ++ R) (X.length - cLen s) s ↔ literalBytes s <:+ X := by
  obtain ⟨hliteral, hcount⟩ := h.spec
  rw [hcount, ← prefix_drop_iff_suffix (R := R), ReadsAt]
  simp only [cBytes_quoted hliteral, Option.some.injEq, exists_eq_left']

theorem WellCounted.cLenSum_append (h : self.WellCounted) {pre post : List Text} {t : Text}
    (hsplit : self.emitted = pre ++ t :: post) :
    cLenSum pre + cLen t = (pre.flatMap literalBytes ++ literalBytes t).length := by
  have hcounted : ∀ s ∈ pre ++ t :: post, Counted s := fun s hs =>
    h.counted s ((self.mem_emitted_iff s).mp (hsplit ▸ hs)).1
  rw [List.forall_mem_append, List.forall_mem_cons] at hcounted
  rw [cLenSum_eq hcounted.1, hcounted.2.1.spec.2, List.length_append]
  push_cast
  rfl

/-- A text at its offset: one that is written is there, and one that is folded is
there when its bytes end those up to the end of its target. -/
theorem WellCounted.readsAt_offset_iff (h : self.WellCounted) {pre post : List Text} {s t : Text}
    (hsplit : self.emitted = pre ++ t :: post) (hs : s ∈ self.texts) :
    ReadsAt (self.emitted.flatMap literalBytes) (cLenSum pre + cLen t - cLen s) s ↔
      literalBytes s <:+ pre.flatMap literalBytes ++ literalBytes t := by
  rw [h.cLenSum_append hsplit, hsplit, List.flatMap_append, List.flatMap_cons,
    ← List.append_assoc, readsAt_iff_suffix (h.counted s hs)]

/-- Every text can be read back exactly when the bytes of every folded one are the last
bytes of its target. -/
theorem WellCounted.readsBack_iff (h : self.WellCounted) :
    self.ReadsBack setOrder ↔
      ∀ s t, FoldsInto self.texts s t → literalBytes s <:+ literalBytes t := by
  obtain ⟨offsets, hcompute, hwritten, hfolded⟩ := self.compute_spec setOrder
  have hbytes : cBytes (self.emitSource setOrder self.emitted 0) =
      some (self.emitted.flatMap literalBytes) :=
    h.scan_emitSource (fun s hs => ((self.mem_emitted_iff s).mp hs).1) 0
  have hcond : ∀ pre s t, FoldsInto self.texts s t →
      (literalBytes s <:+ List.flatMap literalBytes pre ++ literalBytes t ↔
        literalBytes s <:+ literalBytes t) := by
    intro pre s t hfold
    have hs := h.counted s hfold.mem
    have ht := h.counted t hfold.into_mem
    exact suffix_append_iff hs ht hfold.ends hs.spec.1 ht.spec.1 _
  constructor
  · rintro ⟨source, offsets', B, hcompute', hB, hreads⟩ s t hfold
    obtain ⟨rfl, rfl⟩ := Prod.mk.inj (Option.some.inj (hcompute.symm.trans hcompute'))
    obtain rfl := Option.some.inj (hbytes.symm.trans hB)
    obtain ⟨pre, post, hsplit⟩ := List.append_of_mem (self.mem_emitted_of_foldsInto hfold)
    obtain ⟨offset, hoffset, hat⟩ := hreads s hfold.mem
    obtain rfl := Option.some.inj ((hfolded pre s t post hfold hsplit).symm.trans hoffset)
    exact (hcond pre s t hfold).mp ((h.readsAt_offset_iff hsplit hfold.mem).mp hat)
  · intro hends
    refine ⟨_, offsets, _, hcompute, hbytes, fun s hs => ?_⟩
    rcases Classical.em (∃ t, FoldsInto self.texts s t) with ⟨t, hfold⟩ | hnone
    · obtain ⟨pre, post, hsplit⟩ := List.append_of_mem (self.mem_emitted_of_foldsInto hfold)
      exact ⟨_, hfolded pre s t post hfold hsplit, (h.readsAt_offset_iff hsplit hs).mpr
        ((hcond pre s t hfold).mpr (hends s t hfold))⟩
    · obtain ⟨pre, post, hsplit⟩ :=
        List.append_of_mem ((self.mem_emitted_iff s).mpr ⟨hs, hnone⟩)
      refine ⟨_, hwritten pre s post hsplit, ?_⟩
      have hat := (h.readsAt_offset_iff hsplit hs).mpr (List.suffix_append _ _)
      rwa [Int.add_sub_cancel] at hat

end BigCString

/-! ## The texts added -/

theorem foldsInto_addAll_iff (calls : List (Text × Bool)) (s t : Text) :
    FoldsInto (BigCString.empty.addAll calls).texts s t ↔ FoldsInto (calls.map Prod.fst) s t :=
  ⟨fun h => h.congr (BigCString.mem_texts_empty_addAll calls),
    fun h => h.congr fun u => (BigCString.mem_texts_empty_addAll calls u).symm⟩

theorem wellCounted_addAll {calls : List (Text × Bool)}
    (hcount : ∀ s ∈ calls.map Prod.fst, Counted s)
    (hcomment : ∀ s t, FoldsInto (calls.map Prod.fst) s t → NoClose s) :
    (BigCString.empty.addAll calls).WellCounted :=
  ⟨fun s hs => hcount s ((BigCString.mem_texts_empty_addAll calls s).mp hs),
    fun s t h => hcomment s t ((foldsInto_addAll_iff calls s t).mp h)⟩

/-- Where `c_len` counts every text right and no folded text closes the comment that
lists it, all texts can be read back exactly when none is folded into a text that it
ends in the source but not in bytes. -/
theorem readsBack_iff_foldsBytes (setOrder : SetOrder) (calls : List (Text × Bool))
    (hcount : ∀ s ∈ calls.map Prod.fst, Counted s)
    (hcomment : ∀ s t, FoldsInto (calls.map Prod.fst) s t → NoClose s) :
    (BigCString.empty.addAll calls).ReadsBack setOrder ↔
      ∀ s t, FoldsInto (calls.map Prod.fst) s t → literalBytes s <:+ literalBytes t := by
  simp only [(wellCounted_addAll hcount hcomment).readsBack_iff, foldsInto_addAll_iff]

/-- A folded text and its target are among the texts added. -/
theorem forall_foldsInto_iff {texts : List Text} {P : Text → Text → Prop} :
    (∀ s t, FoldsInto texts s t → P s t) ↔
      ∀ s ∈ texts, ∀ t ∈ texts, FoldsInto texts s t → P s t :=
  ⟨fun h s _ t _ hfold => h s t hfold, fun h s t hfold => h s hfold.mem t hfold.into_mem hfold⟩

/-- Sets iterated over in the order of insertion. -/
def insertionOrder : SetOrder := ⟨id, fun l => List.Perm.refl l⟩

/-- The names of two metric groups, the second the end of the first. -/
def nestedNames : List (Text × Bool) :=
  [("MemOffcore\\000".toList, true), ("Offcore\\000".toList, true)]

theorem readsBack_nestedNames : (BigCString.empty.addAll nestedNames).ReadsBack insertionOrder :=
  (readsBack_iff_foldsBytes insertionOrder nestedNames (by decide +kernel)
    (forall_foldsInto_iff.mpr (by decide +kernel))).mpr
      (forall_foldsInto_iff.mpr (by decide +kernel))

/-- The texts added for an event without a long description and for a metric group
that is described as `0`. -/
def describedAsZero : List (Text × Bool) :=
  [("default_core\\000".toList, false),
    ("foo\\000other\\000\\000event=0x3c\\000\\00000\\000\\000\\000\\000\\000".toList, false),
    ("TopDown\\000".toList, true), ("0\\000".toList, true)]

example :
    (JsonEvent.init (List.map Char.toLower) (fun _ => .error .syntaxError) (fun _ => none)
        (JsonDict.ofList [("EventName", "foo".toList), ("EventCode", "0x3c".toList)])).map
      (fun event => eventCalls { event with topic := "other".toList } ++
        metricGroupCalls "TopDown".toList "0".toList) = .ok describedAsZero := by
  decide +kernel

/-- The texts added for two metric groups, the first one described with a hexadecimal escape. -/
def describedAsHex : List (Text × Bool) :=
  metricGroupCalls "TopDown".toList "C:\\x41".toList ++ metricGroupCalls "Mem".toList "m".toList

/-- The text of the description is the end of the event's record, but it begins there
inside the last escape but one; and the escape that is one byte is counted as three. -/
theorem not_readsBack_describedAsZero :
    ¬ (BigCString.empty.addAll describedAsZero).ReadsBack insertionOrder ∧
      ¬ (BigCString.empty.addAll describedAsHex).ReadsBack insertionOrder := by
  constructor
  · rw [(wellCounted_addAll (by decide +kernel)
      (forall_foldsInto_iff.mpr (by decide +kernel))).readsBack_iff]
    intro h
    have hfold : FoldsInto (BigCString.empty.addAll describedAsZero).texts "0\\000".toList
        (describedAsZero.get ⟨1, by decide⟩).1 := by
      decide +kernel
    exact absurd (h _ _ hfold) (by decide +kernel)
  · decide +kernel

end PmuEvents.Jevents
