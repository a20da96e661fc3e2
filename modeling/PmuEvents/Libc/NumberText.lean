import PmuEvents.Libc.Strtoull
import Mathlib.Data.List.TakeWhile
set_option autoImplicit false

/-!
# C library: what `strtoull` takes for a number

In base 10 the text of a number is white space, an optional sign and digits.  A
string starts with one, and then `strtoull` reads it and stops behind its digits, or
else `strtoull` leaves the end pointer at the start.
-/

namespace PmuEvents.Libc

open PmuEvents.Foundation

/-- A non-empty string of decimal digits. -/
def IsDecimal (s : CStr) : Prop := s ≠ [] ∧ ∀ b ∈ s, (digitIn 10 b).isSome

/-- The number that decimal digits denote. -/
def decimalValue (s : CStr) : Nat := Numeral.value 10 (s.filterMap (digitIn 10))

/-- An optional sign, and whether it is a minus. -/
inductive SignText : Bool → CStr → Prop
  | none : SignText false []
  | plus : SignText false [chr '+']
  | minus : SignText true [chr '-']

/-- White space, an optional sign and the decimal digits. -/
inductive NumberText (minus : Bool) (digits : CStr) : CStr → Prop
  | mk {space sign : CStr} (hspace : ∀ b ∈ space, isSpace b) (hsign : SignText minus sign)
      (hdigits : IsDecimal digits) : NumberText minus digits (space ++ (sign ++ digits))

/-- No digit starts the string. -/
def NoDigit (rest : CStr) : Prop := ∀ b ∈ rest.head?, digitIn 10 b = none

/-- The value `strtoull` gives to digits behind a sign. -/
def digitsValue (minus : Bool) (digits : CStr) : U64 :=
  if 2 ^ 64 ≤ decimalValue digits then BitVec.allOnes 64
  else if minus then -BitVec.ofNat 64 (decimalValue digits)
  else BitVec.ofNat 64 (decimalValue digits)

/-- What `strtoull` makes of a number and of what follows it. -/
def readNumber (minus : Bool) (digits rest : CStr) : Strto where
  value := digitsValue minus digits
  endptr := rest
  erange := 2 ^ 64 ≤ decimalValue digits

theorem digitsValue_toNat {digits : CStr} (h : decimalValue digits < 2 ^ 64) :
    (digitsValue false digits).toNat = decimalValue digits := by
  rw [digitsValue, if_neg (Nat.not_le.mpr h)]
  exact Nat.mod_eq_of_lt h

/-! ## Strings that start with a number -/

theorem IsDecimal.cons {digits : CStr} (h : IsDecimal digits) :
    ∃ b t, digits = b :: t ∧ (digitIn 10 b).isSome := by
  obtain ⟨b, t, rfl⟩ := List.exists_cons_of_ne_nil h.1
  exact ⟨b, t, rfl, h.2 b List.mem_cons_self⟩

/-- White space and the sign are skipped. -/
theorem takeSign_numberText {minus : Bool} {space sign digits : CStr} (rest : CStr)
    (hspace : ∀ b ∈ space, isSpace b) (hsign : SignText minus sign) (hdigits : IsDecimal digits) :
    takeSign ((space ++ (sign ++ digits) ++ rest).dropWhile isSpace) =
      (minus, digits ++ rest) := by
  obtain ⟨b, t, rfl, hb⟩ := hdigits.cons
  rw [List.append_assoc, List.dropWhile_append_of_pos hspace]
  cases hsign with
  | none => exact takeSign_of_digit hb
  | plus => rfl
  | minus => rfl

/-- A number is read, up to the end of its digits. -/
theorem strtoull_numberText {minus : Bool} {digits s rest : CStr}
    (h : NumberText minus digits s) (hrest : NoDigit rest) :
    strtoull 10 (s ++ rest) = readNumber minus digits rest := by
  obtain ⟨hspace, hsign, hdigits⟩ := h
  obtain ⟨b, t, hcons, hb⟩ := hdigits.cons
  obtain ⟨d, hd⟩ := Option.isSome_iff_exists.mp hb
  have hrun : digits.filterMap (digitIn 10) ≠ [] := by
    rw [hcons, List.filterMap_cons, hd]
    exact List.cons_ne_nil _ _
  have hbase : ¬ (10 = 16) := by decide
  unfold strtoull
  simp only [takeSign_numberText rest hspace hsign hdigits, if_neg hbase,
    takeDigits_append hdigits.2 hrest, if_neg hrun, readNumber, digitsValue]
  unfold decimalValue
  split <;> simp_all

/-- A minus sign that no digit follows is not the sign of a number. -/
theorem strtoull_minus {rest : CStr} (hrest : NoDigit rest) :
    strtoull 10 (chr '-' :: rest) = { value := 0, endptr := chr '-' :: rest, erange := false } := by
  have hrun := takeDigits_append (s := []) (fun _ h => absurd h List.not_mem_nil) hrest
  have hsign : takeSign ((chr '-' :: rest).dropWhile isSpace) = (true, rest) := rfl
  have hbase : ¬ (10 = 16) := by decide
  unfold strtoull
  rw [List.nil_append] at hrun
  simp only [hsign, if_neg hbase, hrun, List.filterMap_nil, if_true]

theorem takeSign_spec (s : CStr) :
    ∃ sign, SignText (takeSign s).1 sign ∧ s = sign ++ (takeSign s).2 := by
  cases s with
  | nil => exact ⟨[], .none, rfl⟩
  | cons b s =>
    rw [takeSign]
    split
    · rename_i hb
      exact ⟨[chr '-'], .minus, by rw [hb]; rfl⟩
    · split
      · rename_i hb
        exact ⟨[chr '+'], .plus, by rw [hb]; rfl⟩
      · exact ⟨[], .none, rfl⟩

/-- The digits that start a string. -/
theorem exists_digits (s : CStr) :
    ∃ digits rest, s = digits ++ rest ∧ (∀ b ∈ digits, (digitIn 10 b).isSome) ∧ NoDigit rest := by
  induction s with
  | nil => exact ⟨[], [], rfl, fun _ h => absurd h List.not_mem_nil, nofun⟩
  | cons b s ih =>
    cases hb : digitIn 10 b with
    | none =>
      refine ⟨[], b :: s, rfl, fun _ h => absurd h List.not_mem_nil, ?_⟩
      intro c hc
      obtain rfl := Option.some.inj hc
      exact hb
    | some d =>
      obtain ⟨digits, rest, rfl, hdigits, hrest⟩ := ih
      refine ⟨b :: digits, rest, rfl, ?_, hrest⟩
      rw [List.forall_mem_cons]
      exact ⟨Option.isSome_of_eq_some hb, hdigits⟩

/-- A string starts with a number, or `strtoull` finds none. -/
theorem strtoull_cases (s : CStr) :
    strtoull 10 s = { value := 0, endptr := s, erange := false } ∨
      ∃ minus digits t rest, s = t ++ rest ∧ NumberText minus digits t ∧ NoDigit rest := by
  obtain ⟨sign, hsign, hsplit⟩ := takeSign_spec (s.dropWhile isSpace)
  obtain ⟨digits, rest, hrun, hdigits, hrest⟩ := exists_digits (takeSign (s.dropWhile isSpace)).2
  by_cases hnone : digits = []
  · refine .inl ?_
    have htake := takeDigits_append hdigits hrest
    rw [← hrun, hnone] at htake
    have hbase : ¬ (10 = 16) := by decide
    unfold strtoull
    simp only [if_neg hbase, htake, List.filterMap_nil, if_true]
  · have hspace : ∀ b ∈ s.takeWhile isSpace, isSpace b := fun b hb => List.mem_takeWhile_imp hb
    refine .inr ⟨_, digits, _, rest, ?_, .mk hspace hsign ⟨hnone, hdigits⟩, hrest⟩
    rw [List.append_assoc, List.append_assoc, ← hrun, ← hsplit, List.takeWhile_append_dropWhile]

theorem strtoull_whole {minus : Bool} {digits s : CStr} (h : NumberText minus digits s) :
    strtoull 10 s = readNumber minus digits [] := by
  have hread : strtoull 10 (s ++ []) = readNumber minus digits [] := strtoull_numberText h nofun
  rwa [List.append_nil] at hread

/-- A whole string is read exactly when it is a number, or empty. -/
theorem strtoull_endptr_eq_nil {s : CStr} (hne : s ≠ []) :
    (strtoull 10 s).endptr = [] ↔ ∃ minus digits, NumberText minus digits s := by
  constructor
  · intro hend
    rcases strtoull_cases s with hnone | ⟨minus, digits, t, rest, rfl, ht, hrest⟩
    · rw [hnone] at hend
      exact absurd hend hne
    · rw [strtoull_numberText ht hrest] at hend
      obtain rfl : rest = [] := hend
      rw [List.append_nil]
      exact ⟨minus, digits, ht⟩
  · rintro ⟨minus, digits, h⟩
    rw [strtoull_whole h]
    rfl

/-! ## The bytes of a number -/

theorem not_digit_of_isSpace {b : UInt8} (h : isSpace b) : digitIn 10 b = none := by
  by_contra hne
  have hle := le_of_digitIn (Option.isSome_iff_ne_none.mpr hne)
  have hlt := isSpace_lt h
  omega

/-- A number that is not digits alone starts with something else. -/
theorem NumberText.noDigit {minus : Bool} {digits s : CStr} (h : NumberText minus digits s)
    (hs : ¬ IsDecimal s) : NoDigit s := by
  obtain ⟨hspace, hsign, hdigits⟩ := h
  rename_i space sign
  intro b hb
  cases space with
  | cons c space =>
    obtain rfl := Option.some.inj hb
    exact not_digit_of_isSpace (hspace c List.mem_cons_self)
  | nil =>
    cases hsign with
    | none => exact absurd hdigits hs
    | plus =>
      obtain rfl := Option.some.inj hb
      decide
    | minus =>
      obtain rfl := Option.some.inj hb
      decide

theorem NumberText.isDecimal {minus : Bool} {digits s : CStr} (h : NumberText minus digits s) :
    IsDecimal digits := by
  obtain ⟨-, -, hdigits⟩ := h
  exact hdigits

theorem IsDecimal.numberText {digits : CStr} (h : IsDecimal digits) :
    NumberText false digits digits := by
  have hnone : ∀ b ∈ ([] : CStr), isSpace b := fun _ hb => absurd hb List.not_mem_nil
  exact .mk hnone .none h

theorem IsDecimal.negative {digits : CStr} (h : IsDecimal digits) :
    NumberText true digits (chr '-' :: digits) := by
  have hnone : ∀ b ∈ ([] : CStr), isSpace b := fun _ hb => absurd hb List.not_mem_nil
  exact .mk hnone .minus h

/-- Digits alone are read as they are. -/
theorem NumberText.eq_digits {minus : Bool} {digits s : CStr} (h : NumberText minus digits s)
    (hs : IsDecimal s) : s = digits := by
  obtain ⟨hspace, hsign, hdigits⟩ := h
  rename_i space sign
  cases space with
  | cons b space =>
    have hb := hs.2 b List.mem_cons_self
    rw [not_digit_of_isSpace (hspace b List.mem_cons_self)] at hb
    cases hb
  | nil =>
    cases hsign with
    | none => rfl
    | plus => exact absurd (hs.2 (chr '+') List.mem_cons_self) (by decide)
    | minus => exact absurd (hs.2 (chr '-') List.mem_cons_self) (by decide)

end PmuEvents.Libc
