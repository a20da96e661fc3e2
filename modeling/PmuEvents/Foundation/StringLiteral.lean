import PmuEvents.Foundation.Utf8
import Mathlib.Algebra.Group.Nat.Defs
set_option autoImplicit false

/-!
# One string literal

The reading of a single literal with all escapes of C: the simple and the octal ones, the
hexadecimal ones and the universal character names.  A line break ends the line the literal
is in, and a carriage return does so as well.  There is no line splicing.  What is read never
has more bytes than what it is read from.
-/

namespace PmuEvents.Foundation

/-! ## The reader -/

/-- Where the reader is in a literal. -/
inductive LiteralState where
  | chars
  | escape
  /-- an octal escape, with its value so far and the number of its digits -/
  | octal (value digits : Nat)
  /-- a hexadecimal escape, with its value once there is a digit -/
  | hex (value : Option Nat)
  /-- a universal character name, with its value so far and the digits that are missing -/
  | universal (value left : Nat)
  deriving DecidableEq, Repr

/-- The simple escapes. -/
def simpleEscape (c : Char) : Option UInt8 :=
  if c = 'n' then some 10
  else if c = 'r' then some 13
  else if c = '"' then some 34
  else if c = '\\' then some 92
  else if c = '\'' then some 39
  else if c = '?' then some 63
  else if c = 'a' then some 7
  else if c = 'b' then some 8
  else if c = 't' then some 9
  else if c = 'v' then some 11
  else if c = 'f' then some 12
  else none

/-- The value of an octal digit. -/
def octalDigit (c : Char) : Option Nat :=
  if '0' ≤ c ∧ c ≤ '7' then some (c.toNat - '0'.toNat) else none

/-- The value of a hexadecimal digit. -/
def hexDigit (c : Char) : Option Nat :=
  if '0' ≤ c ∧ c ≤ '9' then some (c.toNat - '0'.toNat)
  else if 'a' ≤ c ∧ c ≤ 'f' then some (c.toNat - 'a'.toNat + 10)
  else if 'A' ≤ c ∧ c ≤ 'F' then some (c.toNat - 'A'.toNat + 10)
  else none

/-- The bytes of the character that a universal character name designates. -/
def universalBytes (value : Nat) : Option (List UInt8) :=
  if (0xa0 ≤ value ∨ value = 0x24 ∨ value = 0x40 ∨ value = 0x60) ∧ value.isValidChar then
    some (String.utf8EncodeChar (Char.ofNat value))
  else none

/-- A character outside of escapes: the state after it, none where it ends the literal,
and the bytes it gives. -/
def charsStep (c : Char) : Option (Option LiteralState × List UInt8) :=
  if c = '"' then some (none, [])
  else if c = '\\' then some (some .escape, [])
  else if c = '\n' ∨ c = '\r' then none
  else some (some .chars, String.utf8EncodeChar c)

/-- A character that ends a numeric escape, whose value must fit in a byte. -/
def endNumber (value : Nat) (c : Char) : Option (Option LiteralState × List UInt8) :=
  if value < 256 then (charsStep c).map fun next => (next.1, UInt8.ofNat value :: next.2)
  else none

/-- One character of a literal. -/
def LiteralState.step : LiteralState → Char → Option (Option LiteralState × List UInt8)
  | chars, c => charsStep c
  | escape, c =>
    match simpleEscape c with
    | some b => some (some chars, [b])
    | none =>
      if c = 'x' then some (some (hex none), [])
      else if c = 'u' then some (some (universal 0 4), [])
      else if c = 'U' then some (some (universal 0 8), [])
      else (octalDigit c).map fun d => (some (octal d 1), [])
  | octal value digits, c =>
    match octalDigit c with
    | some d =>
      if digits < 2 then some (some (octal (8 * value + d) (digits + 1)), [])
      else if 8 * value + d < 256 then some (some chars, [UInt8.ofNat (8 * value + d)])
      else none
    | none => endNumber value c
  | hex value, c =>
    match hexDigit c with
    | some d => some (some (hex (some (16 * value.getD 0 + d))), [])
    | none => value.bind fun v => endNumber v c
  | universal value left, c =>
    (hexDigit c).bind fun d =>
      if left ≤ 1 then
        (universalBytes (16 * value + d)).map fun bytes => (some chars, bytes)
      else some (some (universal (16 * value + d) (left - 1)), [])

/-- The bytes up to the quote that ends the literal, and what follows it. -/
def readLiteral : LiteralState → Text → Option (List UInt8 × Text)
  | _, [] => none
  | s, c :: t =>
    match s.step c with
    | none => none
    | some (none, out) => some (out, t)
    | some (some s', out) => (readLiteral s' t).map fun r => (out ++ r.1, r.2)

/-- The bytes of the string literal that has the text between its quotes; `none` where
this is no string literal. -/
def wholeLiteral (t : Text) : Option (List UInt8) :=
  match readLiteral .chars (t ++ ['"']) with
  | some (bytes, []) => some bytes
  | _ => none

example : wholeLiteral "a\\x41\\u00e9\\101".toList = some [97, 65, 195, 169, 65] := by decide

theorem wholeLiteral_eq_some_iff {t : Text} {bytes : List UInt8} :
    wholeLiteral t = some bytes ↔ readLiteral .chars (t ++ ['"']) = some (bytes, []) := by
  rw [wholeLiteral]
  split
  · rename_i bytes' hread
    simp [hread]
  · rename_i hread
    refine iff_of_false (by simp) fun h => ?_
    exact hread bytes h

/-! ## Steps -/

theorem readLiteral_cons {s s' : LiteralState} {c : Char} {out : List UInt8}
    (h : s.step c = some (some s', out)) (t : Text) :
    readLiteral s (c :: t) = (readLiteral s' t).map fun r => (out ++ r.1, r.2) := by
  rw [readLiteral, h]

theorem readLiteral_end {s : LiteralState} {c : Char} {out : List UInt8}
    (h : s.step c = some (none, out)) (t : Text) : readLiteral s (c :: t) = some (out, t) := by
  rw [readLiteral, h]

/-- A step that gives no bytes. -/
theorem readLiteral_skip {s s' : LiteralState} {c : Char} (h : s.step c = some (some s', []))
    (t : Text) : readLiteral s (c :: t) = readLiteral s' t := by
  rw [readLiteral_cons h]
  simp

/-- After a character the reading goes on, or the literal ends. -/
theorem readLiteral_cons_cases {s : LiteralState} {c : Char} {t rest : Text} {out : List UInt8}
    (h : readLiteral s (c :: t) = some (out, rest)) :
    (∃ s' bytes out', s.step c = some (some s', bytes) ∧ readLiteral s' t = some (out', rest) ∧
      out = bytes ++ out') ∨ (s.step c = some (none, out) ∧ rest = t) := by
  rw [readLiteral] at h
  cases hstep : s.step c with
  | none =>
    rw [hstep] at h
    cases h
  | some next =>
    obtain ⟨state, bytes⟩ := next
    rw [hstep] at h
    cases state with
    | none =>
      cases h
      exact .inr ⟨rfl, rfl⟩
    | some s' =>
      obtain ⟨⟨out', rest'⟩, hread, heq⟩ := Option.map_eq_some_iff.mp h
      cases heq
      exact .inl ⟨s', bytes, out', rfl, hread, rfl⟩

/-- What follows the literal is left as it is. -/
theorem readLiteral_append {s : LiteralState} {t rest : Text} {bytes : List UInt8}
    (h : readLiteral s t = some (bytes, rest)) (u : Text) :
    readLiteral s (t ++ u) = some (bytes, rest ++ u) := by
  induction t generalizing s bytes with
  | nil => cases h
  | cons c t ih =>
    rw [List.cons_append]
    rcases readLiteral_cons_cases h with ⟨s', out, bytes', hstep, hread, rfl⟩ | ⟨hstep, rfl⟩
    · rw [readLiteral_cons hstep, ih hread, Option.map_some]
    · exact readLiteral_end hstep _

/-- What is read from a text begins inside its first part, or goes on behind it. -/
theorem readLiteral_append_cases {s : LiteralState} {p t rest : Text} {bytes : List UInt8}
    (h : readLiteral s (p ++ t) = some (bytes, rest)) :
    (∃ u, rest = u ++ t) ∨
      ∃ s' out bytes', readLiteral s' t = some (bytes', rest) ∧ bytes = out ++ bytes' := by
  induction p generalizing s bytes with
  | nil => exact .inr ⟨s, [], bytes, h, rfl⟩
  | cons c p ih =>
    rcases readLiteral_cons_cases h with ⟨s', out, bytes', -, hread, rfl⟩ | ⟨-, rfl⟩
    · refine (ih hread).imp_right ?_
      rintro ⟨s'', out', bytes'', hread', rfl⟩
      exact ⟨s'', out ++ out', bytes'', hread', (List.append_assoc ..).symm⟩
    · exact .inl ⟨p, rfl⟩

/-- Outside of escapes there is no line break before the end of the literal. -/
theorem noBreak_of_readLiteral {t u : Text} {r : List UInt8 × Text} (hquote : '"' ∉ t)
    (hbackslash : '\\' ∉ t) (h : readLiteral .chars (t ++ u) = some r) :
    '\n' ∉ t ∧ '\r' ∉ t := by
  induction t generalizing r with
  | nil => exact ⟨List.not_mem_nil, List.not_mem_nil⟩
  | cons c t ih =>
    rw [List.mem_cons, not_or] at hquote hbackslash
    rw [List.cons_append, readLiteral] at h
    simp only [LiteralState.step, charsStep, if_neg (Ne.symm hquote.1),
      if_neg (Ne.symm hbackslash.1)] at h
    split_ifs at h with hbreak
    obtain ⟨r', hr', -⟩ := Option.map_eq_some_iff.mp h
    obtain ⟨hnewline, hreturn⟩ := ih hquote.2 hbackslash.2 hr'
    rw [not_or] at hbreak
    simp only [List.mem_cons, not_or]
    exact ⟨⟨Ne.symm hbreak.1, hnewline⟩, Ne.symm hbreak.2, hreturn⟩

/-! ## The number of bytes -/

/-- The bytes that an escape may still give beyond the characters that follow. -/
def LiteralState.pending : LiteralState → Nat
  | chars => 0
  | escape | octal _ _ | hex _ => 1
  | universal _ left => 4 - left

/-- The bytes of a step and those that may still come. -/
def stepSize (next : Option LiteralState × List UInt8) : Nat :=
  next.2.length + next.1.elim 0 LiteralState.pending

theorem stepSize_charsStep {c : Char} {next : Option LiteralState × List UInt8}
    (h : charsStep c = some next) : stepSize next ≤ c.utf8Size := by
  unfold charsStep at h
  split at h
  · cases h
    exact Nat.zero_le _
  · split at h
    · cases h
      exact Char.utf8Size_pos c
    · split at h
      · cases h
      · cases h
        rw [stepSize, String.length_utf8EncodeChar]
        exact Nat.le_refl _

theorem stepSize_endNumber {value : Nat} {c : Char} {next : Option LiteralState × List UInt8}
    (h : endNumber value c = some next) : stepSize next ≤ c.utf8Size + 1 := by
  unfold endNumber at h
  split at h
  · obtain ⟨next', hnext', rfl⟩ := Option.map_eq_some_iff.mp h
    have hle := stepSize_charsStep hnext'
    simp only [stepSize, List.length_cons] at hle ⊢
    omega
  · cases h

theorem length_universalBytes {value : Nat} {bytes : List UInt8}
    (h : universalBytes value = some bytes) : bytes.length ≤ 4 := by
  unfold universalBytes at h
  split at h
  · cases h
    rw [String.length_utf8EncodeChar]
    exact Char.utf8Size_le_four _
  · cases h

/-- The character after a backslash gives no more bytes than it has itself. -/
theorem stepSize_escape {c : Char} {next : Option LiteralState × List UInt8}
    (h : LiteralState.escape.step c = some next) : stepSize next ≤ c.utf8Size := by
  have hpos := Char.utf8Size_pos c
  simp only [LiteralState.step] at h
  split at h
  · cases h
    exact hpos
  · split_ifs at h
    · cases h
      exact hpos
    · cases h
      exact Nat.zero_le _
    · cases h
      exact Nat.zero_le _
    · obtain ⟨d, -, rfl⟩ := Option.map_eq_some_iff.mp h
      exact hpos

/-- A step gives no more bytes than the character has and were still to come. -/
theorem stepSize_step {s : LiteralState} {c : Char} {next : Option LiteralState × List UInt8}
    (h : s.step c = some next) : stepSize next ≤ c.utf8Size + s.pending := by
  have hpos := Char.utf8Size_pos c
  cases s with
  | chars => exact stepSize_charsStep h
  | escape => exact Nat.le_succ_of_le (stepSize_escape h)
  | octal value digits =>
    simp only [LiteralState.step] at h
    split at h
    · split_ifs at h
      · cases h
        simp only [stepSize, List.length_nil, Option.elim_some, LiteralState.pending]
        omega
      · cases h
        simp only [stepSize, List.length_singleton, Option.elim_some, LiteralState.pending]
        omega
    · exact stepSize_endNumber h
  | hex value =>
    simp only [LiteralState.step] at h
    split at h
    · cases h
      simp only [stepSize, List.length_nil, Option.elim_some, LiteralState.pending]
      omega
    · obtain ⟨v, -, hend⟩ := Option.bind_eq_some_iff.mp h
      exact stepSize_endNumber hend
  | universal value left =>
    simp only [LiteralState.step] at h
    obtain ⟨d, -, hd⟩ := Option.bind_eq_some_iff.mp h
    split_ifs at hd
    · obtain ⟨bytes, hbytes, rfl⟩ := Option.map_eq_some_iff.mp hd
      have hle := length_universalBytes hbytes
      simp only [stepSize, Option.elim_some, LiteralState.pending]
      omega
    · cases hd
      simp only [stepSize, List.length_nil, Option.elim_some, LiteralState.pending]
      omega

theorem eq_nil_of_charsStep_end {c : Char} {bytes : List UInt8}
    (h : charsStep c = some (none, bytes)) : bytes = [] := by
  unfold charsStep at h
  split_ifs at h <;> cases h
  rfl

theorem length_of_endNumber_end {value : Nat} {c : Char} {bytes : List UInt8}
    (h : endNumber value c = some (none, bytes)) : bytes.length ≤ 1 := by
  unfold endNumber at h
  split at h
  · obtain ⟨⟨next, bytes'⟩, hnext, heq⟩ := Option.map_eq_some_iff.mp h
    cases heq
    rw [eq_nil_of_charsStep_end hnext]
    exact Nat.le_refl _
  · cases h

/-- The quote that ends the literal gives no bytes but those of an escape before it. -/
theorem length_of_step_end {s : LiteralState} {c : Char} {bytes : List UInt8}
    (h : s.step c = some (none, bytes)) : bytes.length ≤ s.pending := by
  cases s with
  | chars =>
    rw [eq_nil_of_charsStep_end h]
    exact Nat.zero_le _
  | escape =>
    simp only [LiteralState.step] at h
    split at h
    · cases h
    · split_ifs at h
      · cases h
      · cases h
      · cases h
      · obtain ⟨d, -, heq⟩ := Option.map_eq_some_iff.mp h
        cases heq
  | octal value digits =>
    simp only [LiteralState.step] at h
    split at h
    · split_ifs at h <;> cases h
    · exact length_of_endNumber_end h
  | hex value =>
    simp only [LiteralState.step] at h
    split at h
    · cases h
    · obtain ⟨v, -, hend⟩ := Option.bind_eq_some_iff.mp h
      exact length_of_endNumber_end hend
  | universal value left =>
    simp only [LiteralState.step] at h
    obtain ⟨d, -, hd⟩ := Option.bind_eq_some_iff.mp h
    split_ifs at hd
    · obtain ⟨bytes', -, heq⟩ := Option.map_eq_some_iff.mp hd
      cases heq
    · cases hd

/-- After a character the reading goes on, or the literal ends with what was to come. -/
theorem readLiteral_cons_or_length {s : LiteralState} {c : Char} {t rest : Text}
    {out : List UInt8} (h : readLiteral s (c :: t) = some (out, rest)) :
    (∃ s' bytes out', s.step c = some (some s', bytes) ∧ readLiteral s' t = some (out', rest) ∧
      out = bytes ++ out') ∨ out.length ≤ s.pending :=
  (readLiteral_cons_cases h).imp_right fun hend => length_of_step_end hend.1

/-! ## Backslashes -/

/-- After a backslash the reader is in an escape, or behind an escaped backslash. -/
theorem step_backslash {s s' : LiteralState} {bytes : List UInt8}
    (h : s.step '\\' = some (some s', bytes)) :
    (s' = .escape ∧ bytes.length ≤ s.pending) ∨
      (s' = .chars ∧ bytes.length = 1 ∧ s.pending = 1) := by
  have hend : ∀ value, endNumber value '\\' = some (some s', bytes) →
      s' = .escape ∧ bytes.length ≤ 1 := by
    intro value hvalue
    unfold endNumber at hvalue
    split at hvalue
    · cases hvalue
      exact ⟨rfl, Nat.le_refl 1⟩
    · cases hvalue
  cases s with
  | chars =>
    cases h
    exact .inl ⟨rfl, Nat.zero_le _⟩
  | escape =>
    cases h
    exact .inr ⟨rfl, rfl, rfl⟩
  | octal value digits => exact .inl (hend value h)
  | hex value =>
    obtain ⟨v, -, hv⟩ := Option.bind_eq_some_iff.mp h
    exact .inl (hend v hv)
  | universal value left => cases h

/-- A backslash does not end the literal. -/
theorem step_backslash_ne_end (s : LiteralState) (bytes : List UInt8) :
    s.step '\\' ≠ some (none, bytes) := by
  have hend : ∀ value, endNumber value '\\' ≠ some (none, bytes) := by
    intro value hvalue
    unfold endNumber at hvalue
    split at hvalue <;> cases hvalue
  cases s with
  | chars | escape | universal _ _ => exact fun h => by cases h
  | octal value digits => exact hend value
  | hex value =>
    intro h
    obtain ⟨v, -, hv⟩ := Option.bind_eq_some_iff.mp h
    exact hend v hv

/-- Behind a backslash the literal goes on, in an escape or after one. -/
theorem readLiteral_backslash {s : LiteralState} {t rest : Text} {bytes : List UInt8}
    (h : readLiteral s ('\\' :: t) = some (bytes, rest)) :
    ∃ s' out bytes', (s' = .escape ∨ s' = .chars) ∧ readLiteral s' t = some (bytes', rest) ∧
      bytes = out ++ bytes' := by
  rcases readLiteral_cons_cases h with ⟨s', out, bytes', hstep, hread, rfl⟩ | ⟨hstep, -⟩
  · exact ⟨s', out, bytes', (step_backslash hstep).imp And.left And.left, hread, rfl⟩
  · exact absurd hstep (step_backslash_ne_end s bytes)

end PmuEvents.Foundation
