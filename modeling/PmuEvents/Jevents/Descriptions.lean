import PmuEvents.Foundation.StringLiteral
import PmuEvents.Jevents.TableRecord
set_option autoImplicit false

/-!
# The escaping of descriptions

`fixdesc` escapes quotes and line breaks but no backslashes.  The main result says
for which descriptions the literal still denotes the description, followed by its
terminator.
-/

namespace PmuEvents.Jevents

open PmuEvents.Foundation

/-- A description without the endings that `fixdesc` takes off. -/
def withoutEnding (text : Text) : Text :=
  removesuffix (removesuffix (removesuffix text ".  ".toList) ". ".toList) ".".toList

/-- The literal for a description denotes the description without its ending, and with
`\000` and anything else after it, this followed by a NUL and the rest. -/
def DenotesDescription (text : Text) : Prop :=
  wholeLiteral (fixdesc text) = some (utf8 (withoutEnding text)) ∧
    ∀ rest bytes, wholeLiteral rest = some bytes →
      wholeLiteral (fixdesc text ++ "\\000".toList ++ rest) =
        some (utf8 (withoutEnding text) ++ 0 :: bytes)

theorem fixdesc_eq (text : Text) : fixdesc text = escapeDesc (withoutEnding text) := rfl

/-! ## Texts with a backslash -/

theorem escapeDesc_cons (c : Char) (t : Text) :
    escapeDesc (c :: t) = escapeDesc [c] ++ escapeDesc t :=
  escapeDesc_append [c] t

/-- The characters that `fixdesc` leaves as they are. -/
theorem escapeDesc_singleton {c : Char} (hnewline : c ≠ '\n') (hquote : c ≠ '"')
    (hreturn : c ≠ '\r') : escapeDesc [c] = [c] := by
  simp [escapeDesc, replaceChar, hnewline, hquote, hreturn]

/-- The other characters become an escape for their byte; behind an escaped backslash
the letter of this escape ends the literal, or it gives another byte. -/
structure EscapedAs (c d : Char) (b : UInt8) : Prop where
  text : escapeDesc [c] = ['\\', d]
  bytes : String.utf8EncodeChar c = [b]
  escaped : simpleEscape d = some b
  alone : LiteralState.chars.step d = some (none, []) ∨
    ∃ b', b' ≠ b ∧ LiteralState.chars.step d = some (some .chars, [b'])

theorem exists_escapedAs {c : Char} (h : c = '\n' ∨ c = '"' ∨ c = '\r') :
    ∃ d b, EscapedAs c d b := by
  rcases h with rfl | rfl | rfl
  · exact ⟨'n', 0x0a, by decide, by decide, by decide, .inr ⟨0x6e, by decide⟩⟩
  · exact ⟨'"', 0x22, by decide, by decide, by decide, .inl (by decide)⟩
  · exact ⟨'r', 0x0d, by decide, by decide, by decide, .inr ⟨0x72, by decide⟩⟩

/-- An escaped character gives one byte, with what was still to come. -/
theorem length_readLiteral_escapedAs {s : LiteralState} {c d : Char} {b : UInt8} {t rest : Text}
    {out : List UInt8} (hc : EscapedAs c d b)
    (h : readLiteral s ('\\' :: d :: t) = some (out, rest)) :
    (∃ out', readLiteral .chars t = some (out', rest) ∧
      out.length ≤ out'.length + (1 + s.pending)) ∨ out.length ≤ 1 + s.pending := by
  rcases readLiteral_cons_or_length h with ⟨s₁, bytes, out₁, hstep, hread, rfl⟩ | hle
  · rw [List.length_append]
    rcases step_backslash hstep with ⟨rfl, hbytes⟩ | ⟨rfl, hbytes, hpending⟩
    · have hescaped : LiteralState.escape.step d = some (some .chars, [b]) := by
        simp only [LiteralState.step, hc.escaped]
      rw [readLiteral_cons hescaped] at hread
      obtain ⟨⟨out', rest'⟩, hread', heq⟩ := Option.map_eq_some_iff.mp hread
      cases heq
      refine .inl ⟨out', hread', ?_⟩
      simp only [List.length_append, List.length_singleton]
      omega
    · rcases hc.alone with hquote | ⟨b', -, hletter⟩
      · rw [readLiteral_end hquote] at hread
        cases hread
        exact .inr (by simp only [List.length_nil]; omega)
      · rw [readLiteral_cons hletter] at hread
        obtain ⟨⟨out', rest'⟩, hread', heq⟩ := Option.map_eq_some_iff.mp hread
        cases heq
        refine .inl ⟨out', hread', ?_⟩
        simp only [List.length_append, List.length_singleton]
        omega
  · exact .inr (by omega)

/-- The literal for a text has no more bytes than the text. -/
theorem length_readLiteral_escapeDesc {s : LiteralState} {t rest : Text} {out : List UInt8}
    (h : readLiteral s (escapeDesc t ++ ['"']) = some (out, rest)) :
    out.length ≤ (utf8 t).length + s.pending := by
  induction t generalizing s out with
  | nil =>
    rcases readLiteral_cons_or_length h with ⟨s', bytes, out', -, hread, -⟩ | hle
    · cases hread
    · omega
  | cons c t ih =>
    rw [utf8_cons, List.length_append, String.length_utf8EncodeChar]
    rw [escapeDesc_cons, List.append_assoc] at h
    by_cases hpair : c = '\n' ∨ c = '"' ∨ c = '\r'
    · obtain ⟨d, b, hc⟩ := exists_escapedAs hpair
      rw [hc.text] at h
      have hsize := Char.utf8Size_pos c
      rcases length_readLiteral_escapedAs hc h with ⟨out', hread, hle⟩ | hle
      · have hrest := ih hread
        rw [LiteralState.pending] at hrest
        omega
      · omega
    · simp only [not_or] at hpair
      rw [escapeDesc_singleton hpair.1 hpair.2.1 hpair.2.2] at h
      rcases readLiteral_cons_or_length h with ⟨s', bytes, out', hstep, hread, rfl⟩ | hle
      · have hrest := ih hread
        have hsize := stepSize_step hstep
        simp only [stepSize, Option.elim_some] at hsize
        rw [List.length_append]
        omega
      · omega

/-- A backslash in a text is not read as itself: what is read has fewer bytes than the
text, or another byte behind the backslash. -/
theorem readLiteral_escape_ne (t rest : Text) :
    readLiteral .escape (escapeDesc t ++ ['"']) ≠ some (0x5c :: utf8 t, rest) := by
  intro h
  cases t with
  | nil => cases h
  | cons c t =>
    rw [escapeDesc_cons, List.append_assoc] at h
    by_cases hpair : c = '\n' ∨ c = '"' ∨ c = '\r'
    · obtain ⟨d, b, hc⟩ := exists_escapedAs hpair
      have hslash : LiteralState.escape.step '\\' = some (some .chars, [0x5c]) := rfl
      rw [hc.text, List.cons_append, readLiteral_cons hslash, List.singleton_append] at h
      -- the escaped backslash leaves the letter or the quote to be read as such
      rcases hc.alone with hquote | ⟨b', hne, hletter⟩
      · rw [readLiteral_end hquote] at h
        simp [utf8_cons, hc.bytes] at h
      · rw [readLiteral_cons hletter, Option.map_map] at h
        obtain ⟨r, -, heq⟩ := Option.map_eq_some_iff.mp h
        simp [utf8_cons, hc.bytes, hne] at heq
    · simp only [not_or] at hpair
      rw [escapeDesc_singleton hpair.1 hpair.2.1 hpair.2.2] at h
      have hpos := Char.utf8Size_pos c
      have hlength : (0x5c :: utf8 (c :: t)).length = 1 + (c.utf8Size + (utf8 t).length) := by
        rw [utf8_cons, List.length_cons, List.length_append, String.length_utf8EncodeChar,
          Nat.add_comm]
      rcases readLiteral_cons_or_length h with ⟨s', bytes, out', hstep, hread, heq⟩ | hle
      · have hrest := length_readLiteral_escapeDesc hread
        have hsize := stepSize_escape hstep
        simp only [stepSize, Option.elim_some] at hsize
        rw [heq, List.length_append] at hlength
        omega
      · rw [LiteralState.pending] at hle
        omega

/-- The literal for a description denotes it exactly when there is no backslash in it. -/
theorem denotesDescription_iff (text : Text) :
    DenotesDescription text ↔ '\\' ∉ withoutEnding text := by
  constructor
  · rintro ⟨hliteral, -⟩ hmem
    obtain ⟨p, t, ht, hp⟩ := List.eq_append_cons_of_mem hmem
    rw [fixdesc_eq, ht, escapeDesc_append, ← unitsText_map_eq_escapeDesc hp,
      wholeLiteral_units_append, unitsBytes_map bytes_charUnit, utf8_append] at hliteral
    obtain ⟨bytes, hbytes, heq⟩ := Option.map_eq_some_iff.mp hliteral
    rw [List.append_cancel_left heq, wholeLiteral_eq_some_iff, escapeDesc_cons] at hbytes
    have hslash : LiteralState.chars.step '\\' = some (some .escape, []) := rfl
    have hbackslash : escapeDesc ['\\'] = ['\\'] := by decide
    rw [hbackslash, List.append_assoc, List.singleton_append, readLiteral_skip hslash] at hbytes
    exact readLiteral_escape_ne t [] hbytes
  · intro hnone
    have hunits : fixdesc text = unitsText ((withoutEnding text).map charUnit) := by
      rw [fixdesc_eq, unitsText_map_eq_escapeDesc hnone]
    have hbytes := unitsBytes_map bytes_charUnit (withoutEnding text)
    refine ⟨?_, fun rest bytes hrest => ?_⟩
    · have hempty : wholeLiteral [] = some [] := rfl
      have h := wholeLiteral_units_append ((withoutEnding text).map charUnit) []
      rw [List.append_nil, ← hunits, hempty, hbytes] at h
      rw [h, Option.map_some, List.append_nil]
    · have hnul : "\\000".toList = unitsText [.nul] := rfl
      rw [hunits, hnul, ← unitsText_append, wholeLiteral_units_append, hrest, unitsBytes_append,
        hbytes, Option.map_some, List.append_assoc]
      rfl

/-- A description that ends with a backslash, which takes the terminator for itself. -/
def slashedText : Text := "a\\".toList

theorem not_denotesDescription_slashed :
    ¬ DenotesDescription slashedText ∧
      wholeLiteral (fixdesc slashedText ++ "\\000".toList) = some [97, 92, 48, 48, 48] := by
  refine ⟨?_, by decide⟩
  rintro ⟨hliteral, -⟩
  exact absurd hliteral (by decide)

end PmuEvents.Jevents
