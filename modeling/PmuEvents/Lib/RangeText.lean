import PmuEvents.Lib.ListLoop
import PmuEvents.Libc.NumberText
import Mathlib.Data.List.Basic
set_option autoImplicit false

/-!
# The texts of ranges

What `parse_range` accepts, exactly: numbers as `strtoull` reads them, with white
space, signs and numbers that are cut off.  The main results: the texts for which the
range list parsers accept well-formed ranges only, and the round trip of a list of
ranges through its text.
-/

namespace PmuEvents.Lib

open PmuEvents.Foundation PmuEvents.Libc

/-! ## What is accepted -/

/-- The segments that `parse_range` accepts, and the range it stores for each. -/
inductive ReadsRange : CStr → Range → Prop
  /-- one number without a minus sign -/
  | one {s digits : CStr} (hs : NumberText false digits s) :
      ReadsRange s { start := digitsValue false digits, end_ := digitsValue false digits }
  /-- two numbers, of which the second one may have a sign of its own -/
  | two {s t digits digits' : CStr} {minus : Bool} (hs : NumberText false digits s)
      (ht : NumberText minus digits' t) :
      ReadsRange (s ++ chr '-' :: t)
        { start := digitsValue false digits, end_ := digitsValue minus digits' }
  /-- no first number: `strtoull` stops at the minus sign it started from -/
  | second {t digits : CStr} {minus : Bool} (ht : NumberText minus digits t)
      (hsigned : ¬ IsDecimal t) :
      ReadsRange (chr '-' :: t) { start := 0, end_ := digitsValue minus digits }

theorem minus_not_mem_of_digits {digits : CStr} (h : ∀ b ∈ digits, (digitIn 10 b).isSome) :
    chr '-' ∉ digits := by
  intro hmem
  exact absurd (h _ hmem) (by decide)

theorem minus_not_mem_of_spaces {space : CStr} (h : ∀ b ∈ space, isSpace b) :
    chr '-' ∉ space := by
  intro hmem
  exact absurd (h _ hmem) (by decide)

/-- The only minus sign of a number is its sign. -/
theorem minus_mem_numberText {minus : Bool} {digits s : CStr} (h : NumberText minus digits s) :
    chr '-' ∈ s ↔ minus = true := by
  obtain ⟨hspace, hsign, hdigits⟩ := h
  have hs := minus_not_mem_of_spaces hspace
  have hd := minus_not_mem_of_digits hdigits.2
  cases hsign with
  | none => simp [hs, hd]
  | plus =>
    have hne : chr '-' ≠ chr '+' := by decide
    simp [hs, hd, hne]
  | minus => simp

theorem minus_not_mem_numberText {digits s : CStr} (h : NumberText false digits s) :
    chr '-' ∉ s := fun hmem =>
  Bool.false_ne_true ((minus_mem_numberText h).mp hmem)

theorem numberText_ne_nil {minus : Bool} {digits s : CStr} (h : NumberText minus digits s) :
    s ≠ [] := by
  obtain ⟨-, -, hdigits⟩ := h
  intro hnil
  simp only [List.append_eq_nil_iff] at hnil
  exact hdigits.1 hnil.2.2

/-- The test on the second number, once `parse_range` has found its minus sign. -/
theorem parseRange_append {u t : CStr} (hu : chr '-' ∉ u) :
    parseRange (u ++ chr '-' :: t) =
      if (strtoull 10 (u ++ chr '-' :: t)).endptr.head? ≠ some (chr '-') then none
      else if t = [] then none
      else if (strtoull 10 t).endptr ≠ [] then none
      else some { start := (strtoull 10 (u ++ chr '-' :: t)).value
                  end_ := (strtoull 10 t).value } := by
  have hne : u ++ chr '-' :: t ≠ [] := List.append_ne_nil_of_right_ne_nil u (List.cons_ne_nil _ _)
  unfold parseRange
  rw [if_neg hne, strchr_append t hu]
  rfl

theorem noDigit_minus (t : CStr) : NoDigit (chr '-' :: t) := by
  intro b hb
  obtain rfl := Option.some.inj hb
  decide

theorem parseRange_of_reads {s : CStr} {r : Range} (h : ReadsRange s r) :
    parseRange s = some r := by
  cases h with
  | @one s digits hs =>
    unfold parseRange
    rw [if_neg (numberText_ne_nil hs), strchr_of_not_mem (minus_not_mem_numberText hs),
      strtoull_whole hs]
    rfl
  | @two s t digits digits' minus hs ht =>
    rw [parseRange_append (minus_not_mem_numberText hs), strtoull_numberText hs (noDigit_minus t),
      strtoull_whole ht, if_neg (numberText_ne_nil ht)]
    rfl
  | @second t digits minus ht hsigned =>
    rw [← List.nil_append (chr '-' :: t), parseRange_append List.not_mem_nil, List.nil_append,
      strtoull_minus (ht.noDigit hsigned), strtoull_whole ht, if_neg (numberText_ne_nil ht)]
    rfl

/-- A minus sign with a number behind it stops `strtoull` before the sign only where
the number does not start with a digit. -/
theorem not_isDecimal_of_endptr {t : CStr}
    (h : (strtoull 10 (chr '-' :: t)).endptr.head? = some (chr '-')) : ¬ IsDecimal t := by
  intro ht
  rw [strtoull_whole ht.negative] at h
  cases h

/-- The first number of an accepted range ends at the first minus sign. -/
theorem numberText_of_endptr {u t : CStr} (hu : chr '-' ∉ u) (hne : u ≠ [])
    (ht : (strtoull 10 t).endptr = [])
    (h : (strtoull 10 (u ++ chr '-' :: t)).endptr.head? = some (chr '-')) :
    ∃ digits, NumberText false digits u := by
  rcases strtoull_cases (u ++ chr '-' :: t) with hnone | ⟨minus, digits, s, rest, heq, hs, hrest⟩
  · rw [hnone] at h
    obtain ⟨b, u, rfl⟩ := List.exists_cons_of_ne_nil hne
    obtain rfl := Option.some.inj h
    exact absurd List.mem_cons_self hu
  · rw [heq, strtoull_numberText hs hrest] at h
    obtain ⟨rest, rfl⟩ : ∃ rest', rest = chr '-' :: rest' := by
      cases rest with
      | nil => cases h
      | cons b rest =>
        obtain rfl := Option.some.inj h
        exact ⟨rest, rfl⟩
    cases minus with
    | false =>
      obtain ⟨rfl, -⟩ := split_unique hu (minus_not_mem_numberText hs) heq
      exact ⟨digits, hs⟩
    | true =>
      -- the sign is the first minus sign, and a second one stops the reading of `t`
      obtain ⟨hspace, hsign, hdigits⟩ := hs
      rename_i space sign
      cases hsign with
      | minus =>
        rw [List.append_assoc, List.append_assoc, List.singleton_append] at heq
        obtain ⟨-, rfl⟩ := split_unique hu (minus_not_mem_of_spaces hspace) heq
        rw [strtoull_numberText hdigits.numberText hrest] at ht
        cases ht

/-- `parse_range` accepts exactly these segments, with these ranges. -/
theorem parseRange_eq_some_iff {s : CStr} {r : Range} :
    parseRange s = some r ↔ ReadsRange s r := by
  refine ⟨fun h => ?_, parseRange_of_reads⟩
  suffices hreads : ∃ r', ReadsRange s r' by
    obtain ⟨r', hr'⟩ := hreads
    rw [parseRange_of_reads hr', Option.some.injEq] at h
    exact h ▸ hr'
  by_cases hminus : chr '-' ∈ s
  · obtain ⟨u, t, rfl, hu⟩ := List.eq_append_cons_of_mem hminus
    rw [parseRange_append hu] at h
    split at h
    · cases h
    · rename_i hstart
      rw [ne_eq, not_not] at hstart
      split at h
      · cases h
      · rename_i hne
        split at h
        · cases h
        · rename_i hend
          rw [ne_eq, not_not] at hend
          obtain ⟨minus, digits', ht⟩ := (strtoull_endptr_eq_nil hne).mp hend
          by_cases hnil : u = []
          · subst hnil
            exact ⟨_, .second ht (not_isDecimal_of_endptr hstart)⟩
          · obtain ⟨digits, hdigits⟩ := numberText_of_endptr hu hnil hend hstart
            exact ⟨_, .two hdigits ht⟩
  · unfold parseRange at h
    rw [strchr_of_not_mem hminus] at h
    split at h
    · cases h
    · rename_i hne
      simp only at h
      split at h
      · cases h
      · rename_i hend
        rw [ne_eq, not_not] at hend
        obtain ⟨minus, digits, hs⟩ := (strtoull_endptr_eq_nil hne).mp hend
        cases minus with
        | false => exact ⟨_, .one hs⟩
        | true => exact absurd ((minus_mem_numberText hs).mpr rfl) hminus

/-! ## Well-formed segments -/

/-- A well-formed segment, digits or two strings of digits joined by a minus sign, and
the range of its numbers. -/
inductive RangeText : CStr → Range → Prop
  | single {s : CStr} {r : Range} (hs : IsDecimal s) (hstart : r.start.toNat = decimalValue s)
      (hend : r.end_.toNat = decimalValue s) : RangeText s r
  | pair {s t : CStr} {r : Range} (hs : IsDecimal s) (ht : IsDecimal t)
      (hstart : r.start.toNat = decimalValue s) (hend : r.end_.toNat = decimalValue t)
      (hle : decimalValue s ≤ decimalValue t) : RangeText (s ++ chr '-' :: t) r

/-- What makes a segment that `parse_range` may accept ill-formed. -/
inductive Odd (s : CStr) : Prop
  /-- white space or a plus sign -/
  | blank {b : UInt8} (hmem : b ∈ s) (hb : isSpace b ∨ b = chr '+') : Odd s
  /-- a minus sign with no number in front of it -/
  | leadingMinus (h : s.head? = some (chr '-')) : Odd s
  /-- a second minus sign -/
  | secondMinus (h : 1 < s.count (chr '-')) : Odd s
  /-- a number of 2^64 or more -/
  | large {part : CStr} (hmem : part ∈ s.splitOn (chr '-')) (h : 2 ^ 64 ≤ decimalValue part) : Odd s
  /-- a first number above the second -/
  | descending {u t : CStr} (hs : s = u ++ chr '-' :: t) (h : decimalValue t < decimalValue u) :
    Odd s

theorem not_blank_of_digits {digits : CStr} (h : ∀ b ∈ digits, (digitIn 10 b).isSome) {b : UInt8}
    (hmem : b ∈ digits) : ¬ (isSpace b ∨ b = chr '+') := by
  have hb := h b hmem
  rintro (hspace | rfl)
  · rw [not_digit_of_isSpace hspace] at hb
    cases hb
  · exact absurd hb (by decide)

theorem head_ne_minus {digits : CStr} (h : IsDecimal digits) (rest : CStr) :
    (digits ++ rest).head? ≠ some (chr '-') := by
  obtain ⟨b, t, rfl, hb⟩ := h.cons
  intro heq
  obtain rfl := Option.some.inj heq
  exact absurd hb (by decide)

/-- A well-formed segment has none of the oddities. -/
theorem RangeText.not_odd {s : CStr} {r : Range} (h : RangeText s r) : ¬ Odd s := by
  intro hodd
  cases h with
  | single hs hstart hend =>
    have hminus := minus_not_mem_of_digits hs.2
    cases hodd with
    | blank hmem hb => exact not_blank_of_digits hs.2 hmem hb
    | leadingMinus h => exact head_ne_minus hs [] (by rwa [List.append_nil])
    | secondMinus h =>
      rw [List.count_eq_zero_of_not_mem hminus] at h
      exact absurd h (by decide)
    | large hmem hlarge =>
      rw [List.splitOn_eq_singleton hminus, List.mem_singleton] at hmem
      rw [hmem, ← hstart] at hlarge
      exact absurd r.start.isLt (Nat.not_lt.mpr hlarge)
    | descending heq =>
      rw [heq] at hminus
      exact hminus (List.mem_append_right _ List.mem_cons_self)
  | @pair s t r hs ht hstart hend hle =>
    have hs' := minus_not_mem_of_digits hs.2
    have ht' := minus_not_mem_of_digits ht.2
    cases hodd with
    | blank hmem hb =>
      rcases List.mem_append.mp hmem with hmem | hmem
      · exact not_blank_of_digits hs.2 hmem hb
      · rcases List.mem_cons.mp hmem with rfl | hmem
        · exact absurd hb (by decide)
        · exact not_blank_of_digits ht.2 hmem hb
    | leadingMinus h => exact head_ne_minus hs _ h
    | secondMinus h =>
      rw [List.count_append, List.count_cons_self, List.count_eq_zero_of_not_mem hs',
        List.count_eq_zero_of_not_mem ht'] at h
      exact absurd h (by decide)
    | large hmem hlarge =>
      rw [List.splitOn_append_cons_self_of_not_mem hs', List.splitOn_eq_singleton ht',
        List.mem_pair] at hmem
      rcases hmem with rfl | rfl
      · rw [← hstart] at hlarge
        exact absurd r.start.isLt (Nat.not_lt.mpr hlarge)
      · rw [← hend] at hlarge
        exact absurd r.end_.isLt (Nat.not_lt.mpr hlarge)
    | @descending u v heq hlt =>
      have hu : chr '-' ∉ u := by
        intro hmem
        have hcount := congrArg (List.count (chr '-')) heq
        rw [List.count_append, List.count_append, List.count_cons_self, List.count_cons_self,
          List.count_eq_zero_of_not_mem hs', List.count_eq_zero_of_not_mem ht'] at hcount
        have hpos := List.count_pos_iff.mpr hmem
        omega
      obtain ⟨rfl, rfl⟩ := split_unique hs' hu heq
      exact absurd hlt (Nat.not_lt.mpr hle)

/-- A number without white space and signs is digits alone. -/
theorem eq_digits_of_plain {minus : Bool} {digits s : CStr} (h : NumberText minus digits s)
    (hblank : ∀ b ∈ s, ¬ (isSpace b ∨ b = chr '+')) (hminus : minus = false) : s = digits := by
  obtain ⟨hspace, hsign, hdigits⟩ := h
  rename_i space sign
  obtain rfl : space = [] := by
    cases space with
    | nil => rfl
    | cons b space =>
      exact absurd (.inl (hspace b List.mem_cons_self)) (hblank b List.mem_cons_self)
  cases hsign with
  | none => rfl
  | plus => exact absurd (.inr rfl) (hblank (chr '+') List.mem_cons_self)
  | minus => cases hminus

/-- An accepted segment is well-formed exactly when it has none of the oddities. -/
theorem ReadsRange.rangeText_iff {s : CStr} {r : Range} (h : ReadsRange s r) :
    RangeText s r ↔ ¬ Odd s := by
  refine ⟨RangeText.not_odd, fun hodd => ?_⟩
  cases h with
  | @one s digits hs =>
    obtain rfl := eq_digits_of_plain hs (fun b hmem hb => hodd (.blank hmem hb)) rfl
    have hdigits : IsDecimal s := hs.isDecimal
    have hlt : decimalValue s < 2 ^ 64 := by
      by_contra hle
      refine hodd (.large ?_ (Nat.not_lt.mp hle))
      rw [List.splitOn_eq_singleton (minus_not_mem_of_digits hdigits.2)]
      exact List.mem_singleton_self s
    exact .single hdigits (digitsValue_toNat hlt) (digitsValue_toNat hlt)
  | @two s t digits digits' minus hs ht =>
    have hblank : ∀ b ∈ s ++ chr '-' :: t, ¬ (isSpace b ∨ b = chr '+') :=
      fun b hmem hb => hodd (.blank hmem hb)
    obtain rfl := eq_digits_of_plain hs (fun b hmem => hblank b (List.mem_append_left _ hmem)) rfl
    have hs' := minus_not_mem_of_digits hs.isDecimal.2
    have hminus : minus = false := by
      cases minus with
      | false => rfl
      | true =>
        refine absurd (.secondMinus ?_) hodd
        have hpos := List.count_pos_iff.mpr ((minus_mem_numberText ht).mpr rfl)
        rw [List.count_append, List.count_cons_self]
        omega
    subst hminus
    obtain rfl := eq_digits_of_plain ht
      (fun b hmem => hblank b (List.mem_append_right _ (List.mem_cons_of_mem _ hmem))) rfl
    have ht' := minus_not_mem_of_digits ht.isDecimal.2
    have hlt : ∀ part ∈ [s, t], decimalValue part < 2 ^ 64 := by
      intro part hmem
      by_contra hle
      refine hodd (.large ?_ (Nat.not_lt.mp hle))
      rwa [List.splitOn_append_cons_self_of_not_mem hs', List.splitOn_eq_singleton ht']
    have hle : decimalValue s ≤ decimalValue t := by
      by_contra hlt
      exact hodd (.descending rfl (Nat.not_le.mp hlt))
    exact .pair hs.isDecimal ht.isDecimal (digitsValue_toNat (hlt s (by simp)))
      (digitsValue_toNat (hlt t (by simp))) hle
  | second => exact absurd (.leadingMinus rfl) hodd

end PmuEvents.Lib
