import PmuEvents.Lib.ListLoop
set_option autoImplicit false

/-!
# The texts of assignment lists

A list of assignments, each written as `key=value` with the value in hexadecimal or,
for zero, as `None`, is parsed back to itself.  A text with a segment that has no
`=`, no key or no value is refused as a whole.
-/

namespace PmuEvents.Lib

open PmuEvents.Foundation PmuEvents.Libc

/-! ## Values -/

/-- Non-empty hexadecimal digits, of either case, and the number they denote. -/
structure HexText (v : U64) (s : CStr) : Prop where
  ne_nil : s ≠ []
  digits : ∀ b ∈ s, (digitIn 16 b).isSome
  value : Numeral.value 16 (s.filterMap (digitIn 16)) = v.toNat

/-- The ways to write a value. -/
inductive ValueText : U64 → CStr → Prop
  | plain {v : U64} {s : CStr} (h : HexText v s) : ValueText v s
  | prefixed {v : U64} {x : UInt8} {s : CStr} (hx : x = chr 'x' ∨ x = chr 'X')
      (h : HexText v s) : ValueText v (chr '0' :: x :: s)
  | none : ValueText 0 (cs "None")

/-- A value as `printf` writes it in hexadecimal. -/
theorem hexText_toDigits (v : U64) : HexText v (utf8 (Nat.toDigits 16 v.toNat)) where
  ne_nil := utf8_toDigits_ne_nil (by decide) (Nat.le_refl 16) _
  digits := digitIn_toDigits (by decide) (Nat.le_refl 16) (Nat.le_refl 16) _
  value := by
    rw [filterMap_digitIn_toDigits (by decide) (Nat.le_refl 16) (Nat.le_refl 16),
      Numeral.value_digits (by decide)]

theorem clamped_toNat_value (v : U64) : (clamped v.toNat []).value = v := by
  apply BitVec.eq_of_toNat_eq
  rw [clamped_toNat]
  have hlt := v.isLt
  omega

/-- A text that `strtoull` reads whole is the value of an assignment. -/
theorem parseValue_of_clamped {v : U64} {s : CStr} (hne : s ≠ []) (hnone : s ≠ cs "None")
    (h : strtoull 16 s = clamped v.toNat []) : parseValue s = some v := by
  rw [parseValue, if_neg hne, if_neg hnone, h, clamped_endptr, clamped_toNat_value]
  rfl

theorem HexText.head_ne {v : U64} {s : CStr} (h : HexText v s) {b : UInt8}
    (hb : digitIn 16 b = none) : s.head? ≠ some b := by
  obtain ⟨c, t, rfl⟩ := List.exists_cons_of_ne_nil h.ne_nil
  intro heq
  obtain rfl := Option.some.inj heq
  have hc := h.digits c List.mem_cons_self
  rw [hb] at hc
  cases hc

theorem parseValue_of_valueText {v : U64} {s : CStr} (h : ValueText v s) :
    parseValue s = some v := by
  cases h with
  | plain h =>
    apply parseValue_of_clamped h.ne_nil
    · rintro rfl
      exact h.head_ne (b := chr 'N') (by decide) rfl
    · rw [strtoull_hexDigits h.ne_nil h.digits, h.value]
  | prefixed hx h =>
    apply parseValue_of_clamped (List.cons_ne_nil _ _)
    · intro heq
      exact absurd (List.cons.inj heq).1 (by decide)
    · rw [strtoull_prefixedDigits hx h.ne_nil h.digits, h.value]
  | none => rfl

/-! ## Segments -/

/-- An assignment as `key=value`. -/
def assignmentSegment (a : Assignment) (value : CStr) : CStr := a.key ++ chr '=' :: value

/-- A key that a segment can hold: not empty, and without commas and equals signs. -/
structure PlainKey (key : CStr) : Prop where
  ne_nil : key ≠ []
  comma : chr ',' ∉ key
  equals : chr '=' ∉ key

theorem parseAssignment_segment {a : Assignment} {value : CStr} (hkey : PlainKey a.key)
    (hvalue : ValueText a.value value) : parseAssignment (assignmentSegment a value) = some a := by
  rw [assignmentSegment, parseAssignment_append hkey.equals, if_neg hkey.ne_nil,
    parseValue_of_valueText hvalue]
  rfl

theorem comma_not_mem_hexText {v : U64} {s : CStr} (h : HexText v s) : chr ',' ∉ s := by
  intro hmem
  exact absurd (h.digits _ hmem) (by decide)

theorem comma_not_mem_valueText {v : U64} {s : CStr} (h : ValueText v s) : chr ',' ∉ s := by
  cases h with
  | plain h => exact comma_not_mem_hexText h
  | prefixed hx h =>
    have hzero : chr ',' ≠ chr '0' := by decide
    rcases hx with rfl | rfl
    · simp [hzero, comma_not_mem_hexText h, show chr ',' ≠ chr 'x' by decide]
    · simp [hzero, comma_not_mem_hexText h, show chr ',' ≠ chr 'X' by decide]
  | none => decide

theorem comma_not_mem_segment {a : Assignment} {value : CStr} (hkey : PlainKey a.key)
    (hvalue : ValueText a.value value) : chr ',' ∉ assignmentSegment a value := by
  have hne : chr ',' ≠ chr '=' := by decide
  simp [assignmentSegment, hkey.comma, hne, comma_not_mem_valueText hvalue]

/-- A segment with no equals sign, no key in front of the first one, or no value behind it. -/
inductive Incomplete : CStr → Prop
  | noEquals {s : CStr} (h : chr '=' ∉ s) : Incomplete s
  | noKey (value : CStr) : Incomplete (chr '=' :: value)
  | noValue {key : CStr} (h : chr '=' ∉ key) : Incomplete (key ++ [chr '='])

theorem parseAssignment_of_incomplete {s : CStr} (h : Incomplete s) : parseAssignment s = none := by
  cases h with
  | noEquals h =>
    unfold parseAssignment
    rw [strchr_of_not_mem h]
  | noKey value =>
    have hnil : chr '=' ∉ ([] : CStr) := List.not_mem_nil
    exact parseAssignment_append hnil
  | noValue h =>
    rw [parseAssignment_append h]
    split <;> rfl

/-! ## Lists -/

/-- The text of a list of assignments, each with the text of its value. -/
def assignmentListText (items : List (Assignment × CStr)) : CStr :=
  [chr ','].intercalate (items.map fun item => assignmentSegment item.1 item.2)

/-- Every assignment has a plain key and is written with one of the texts of its value. -/
def Written (items : List (Assignment × CStr)) : Prop :=
  ∀ item ∈ items, PlainKey item.1.key ∧ ValueText item.1.value item.2

theorem parseAssignmentList_text {items : List (Assignment × CStr)} (hne : items ≠ [])
    (h : Written items) :
    parseAssignmentList (assignmentListText items) = (0, items.map Prod.fst) := by
  have hsegments : segments (assignmentListText items) =
      items.map fun item => assignmentSegment item.1 item.2 := by
    apply List.splitOn_intercalate
    · intro s hs
      obtain ⟨item, hitem, rfl⟩ := List.mem_map.mp hs
      exact comma_not_mem_segment (h item hitem).1 (h item hitem).2
    · simpa using hne
  apply parseAssignmentList_of_mapM
  rw [hsegments, mapM_eq_some_iff, List.forall₂_map_left_iff, List.forall₂_map_right_iff,
    List.forall₂_same]
  intro item hitem
  exact parseAssignment_segment (h item hitem).1 (h item hitem).2

theorem parseAssignmentList_of_incomplete {str s : CStr} (hs : s ∈ segments str)
    (h : Incomplete s) : parseAssignmentList str = (-1, []) := by
  rw [parseAssignmentList, mapM_eq_none_of_mem hs (parseAssignment_of_incomplete h)]

/-- A list of assignments survives writing and parsing, and a text with an incomplete
segment is refused whatever stands in the others. -/
theorem parseAssignmentListLoop_text :
    (∀ items, items ≠ [] → Written items →
        parseAssignmentListLoop (assignmentListText items) =
          { code := 0, len := items.length, items := items.map Prod.fst }) ∧
      ∀ str, (∃ s ∈ segments str, Incomplete s) →
        parseAssignmentListLoop str = { code := -1, len := 0, items := [] } := by
  constructor
  · intro items hne h
    rw [parseAssignmentListLoop_eq, parseAssignmentList_text hne h, List.length_map]
  · rintro str ⟨s, hs, h⟩
    rw [parseAssignmentListLoop_eq, parseAssignmentList_of_incomplete hs h]
    rfl

/-- An event with a mask without `0x` and a field that is not set; and one without its value. -/
theorem parseAssignmentListLoop_umask :
    parseAssignmentListLoop (cs "event=0x3c,umask=1F,any=None") =
        { code := 0, len := 3
          items := [⟨cs "event", 0x3c⟩, ⟨cs "umask", 0x1f⟩, ⟨cs "any", 0⟩] } ∧
      parseAssignmentListLoop (cs "event=0x3c,umask=") =
        { code := -1, len := 0, items := [] } := by
  constructor
  · refine parseAssignmentListLoop_text.1
      [(⟨cs "event", 0x3c⟩, cs "0x3c"), (⟨cs "umask", 0x1f⟩, cs "1F"), (⟨cs "any", 0⟩, cs "None")]
      (List.cons_ne_nil _ _) ?_
    simp only [Written, List.forall_mem_cons]
    refine ⟨⟨⟨by decide, by decide, by decide⟩, ?_⟩, ⟨⟨by decide, by decide, by decide⟩, ?_⟩,
      ⟨⟨by decide, by decide, by decide⟩, .none⟩, by simp⟩
    · have htext : utf8 (Nat.toDigits 16 (0x3c : U64).toNat) = cs "3c" := by decide
      have hhex : HexText 0x3c (cs "3c") := htext ▸ hexText_toDigits 0x3c
      exact .prefixed (.inl rfl) hhex
    · have hdigits : ((cs "1F").all fun b => (digitIn 16 b).isSome) = true := by decide
      exact .plain ⟨by decide, List.all_eq_true.mp hdigits, by decide⟩
  · refine parseAssignmentListLoop_text.2 _ ⟨cs "umask=", by decide, ?_⟩
    have hkey : chr '=' ∉ cs "umask" := by decide
    exact .noValue hkey

end PmuEvents.Lib
