import PmuEvents.Foundation.StringLiteral
import Mathlib.Data.List.Chain
set_option autoImplicit false

/-!
# String literals of a C source

The bytes a C compiler makes of a sequence of adjacent string literals with
comments between them, without the NUL it appends at the end.  The scanner reads
every literal with the reader of single literals.  The literals of a table are
written from units: a plain character, one of four simple escapes, or the escape
`\000`.
-/

namespace PmuEvents.Foundation

/-! ## The scanner -/

/-- Where the scanner is in the source. -/
inductive ScanState where
  | code
  | slash
  | lineComment
  | blockComment
  | blockStar
  | literal (s : LiteralState)
  deriving DecidableEq, Repr

/-- The step of the scanner: the next state and the bytes it puts out. -/
def scanStep (s : ScanState) (c : Char) : Option (ScanState × List UInt8) :=
  match s with
  | .code =>
    if c = '"' then some (.literal .chars, [])
    else if c = '/' then some (.slash, [])
    else if c = ' ' ∨ c = '\n' ∨ c = '\t' ∨ c = '\r' then some (.code, [])
    else none
  | .slash =>
    if c = '*' then some (.blockComment, [])
    else if c = '/' then some (.lineComment, [])
    else none
  | .lineComment =>
    if c = '\n' ∨ c = '\r' then some (.code, []) else some (.lineComment, [])
  | .blockComment => if c = '*' then some (.blockStar, []) else some (.blockComment, [])
  | .blockStar =>
    if c = '/' then some (.code, [])
    else if c = '*' then some (.blockStar, [])
    else some (.blockComment, [])
  | .literal s => (s.step c).map fun next => (next.1.elim .code .literal, next.2)

/-- The scanner from a state on; the source may end outside literals and block
comments only. -/
def scan : ScanState → Text → Option (List UInt8)
  | s, [] => if s = .code ∨ s = .lineComment then some [] else none
  | s, c :: t =>
    match scanStep s c with
    | none => none
    | some (s', out) => (scan s' t).map (out ++ ·)

/-- The bytes of the string literals in a source. -/
def cBytes (source : Text) : Option (List UInt8) := scan .code source

/-- A text between quotes. -/
def quoted (t : Text) : Text := '"' :: t ++ ['"']

example : cBytes "\"a\\000b\" /* c */ \"\\\\\\n\"".toList = some [97, 0, 98, 92, 10] := by decide

theorem scan_cons {s s' : ScanState} {c : Char} {out : List UInt8}
    (h : scanStep s c = some (s', out)) (t : Text) :
    scan s (c :: t) = (scan s' t).map (out ++ ·) := by
  rw [scan, h]

/-- A step that puts nothing out. -/
theorem scan_skip {s s' : ScanState} {c : Char} (h : scanStep s c = some (s', [])) (t : Text) :
    scan s (c :: t) = scan s' t := by
  rw [scan_cons h]
  simp

/-- Inside a literal the scanner does what the reader of the literal does, and goes on
behind it. -/
theorem scan_literal (s : LiteralState) (t : Text) :
    scan (.literal s) t = (readLiteral s t).bind fun r => (scan .code r.2).map (r.1 ++ ·) := by
  induction t generalizing s with
  | nil => rfl
  | cons c t ih =>
    rw [scan, readLiteral, scanStep]
    cases s.step c with
    | none => rfl
    | some next =>
      obtain ⟨state, out⟩ := next
      cases state with
      | none => rfl
      | some s' =>
        simp only [Option.map_some, Option.elim_some, ih]
        cases readLiteral s' t with
        | none => rfl
        | some r => simp [Function.comp_def]

/-- A literal puts out its bytes. -/
theorem scan_quoted {t : Text} {bytes : List UInt8} (h : wholeLiteral t = some bytes)
    (rest : Text) : scan .code (quoted t ++ rest) = (scan .code rest).map (bytes ++ ·) := by
  have hread := readLiteral_append (wholeLiteral_eq_some_iff.mp h) rest
  have hquote : scanStep .code '"' = some (.literal .chars, []) := rfl
  rw [quoted, List.cons_append, List.cons_append, scan_skip hquote, scan_literal, hread]
  rfl

theorem cBytes_quoted {t : Text} {bytes : List UInt8} (h : wholeLiteral t = some bytes) :
    cBytes (quoted t) = some bytes := by
  have hscan := scan_quoted h []
  rw [List.append_nil] at hscan
  rw [cBytes, hscan]
  simp [scan]

/-- What is compiled between quotes begins with a literal. -/
theorem exists_readLiteral_of_cBytes {t : Text} {bytes : List UInt8}
    (h : cBytes (quoted t) = some bytes) : ∃ r, readLiteral .chars (t ++ ['"']) = some r := by
  have hquote : scanStep .code '"' = some (.literal .chars, []) := rfl
  rw [cBytes, quoted, List.cons_append, scan_skip hquote, scan_literal] at h
  obtain ⟨r, hr, -⟩ := Option.bind_eq_some_iff.mp h
  exact ⟨r, hr⟩

/-! ## Units -/

/-- A character that stands for itself in a literal. -/
abbrev PlainChar := { c : Char // c ≠ '\\' ∧ c ≠ '"' ∧ c ≠ '\n' ∧ c ≠ '\r' }

/-- The units a literal is written from. -/
inductive CUnit where
  | plain (c : PlainChar)
  | newline
  | carriageReturn
  | quote
  | backslash
  | nul
  deriving DecidableEq

namespace CUnit

/-- How a unit is spelled. -/
def text : CUnit → Text
  | plain c => [c.val]
  | newline => ['\\', 'n']
  | carriageReturn => ['\\', 'r']
  | quote => ['\\', '"']
  | backslash => ['\\', '\\']
  | nul => ['\\', '0', '0', '0']

/-- The bytes of a unit. -/
def bytes : CUnit → List UInt8
  | plain c => String.utf8EncodeChar c.val
  | newline => [10]
  | carriageReturn => [13]
  | quote => [34]
  | backslash => [92]
  | nul => [0]

end CUnit

/-- The spelling of a sequence of units. -/
def unitsText (us : List CUnit) : Text := us.flatMap CUnit.text

/-- The bytes of a sequence of units. -/
def unitsBytes (us : List CUnit) : List UInt8 := us.flatMap CUnit.bytes

@[simp] theorem unitsText_nil : unitsText [] = [] := rfl

@[simp] theorem unitsText_cons (u : CUnit) (us : List CUnit) :
    unitsText (u :: us) = u.text ++ unitsText us := rfl

@[simp] theorem unitsText_append (us vs : List CUnit) :
    unitsText (us ++ vs) = unitsText us ++ unitsText vs := List.flatMap_append

@[simp] theorem unitsBytes_nil : unitsBytes [] = [] := rfl

@[simp] theorem unitsBytes_cons (u : CUnit) (us : List CUnit) :
    unitsBytes (u :: us) = u.bytes ++ unitsBytes us := rfl

@[simp] theorem unitsBytes_append (us vs : List CUnit) :
    unitsBytes (us ++ vs) = unitsBytes us ++ unitsBytes vs := List.flatMap_append

/-- A unit gives its bytes. -/
theorem readLiteral_unit (u : CUnit) (t : Text) :
    readLiteral .chars (u.text ++ t) =
      (readLiteral .chars t).map fun r => (u.bytes ++ r.1, r.2) := by
  cases u with
  | plain c =>
    obtain ⟨hslash, hquote, hnewline, hreturn⟩ := c.property
    refine readLiteral_cons ?_ t
    simp [LiteralState.step, charsStep, hslash, hquote, hnewline, hreturn]
    rfl
  | newline => exact (readLiteral_skip rfl _).trans (readLiteral_cons rfl t)
  | carriageReturn => exact (readLiteral_skip rfl _).trans (readLiteral_cons rfl t)
  | quote => exact (readLiteral_skip rfl _).trans (readLiteral_cons rfl t)
  | backslash => exact (readLiteral_skip rfl _).trans (readLiteral_cons rfl t)
  | nul =>
    exact (readLiteral_skip rfl _).trans ((readLiteral_skip rfl _).trans
      ((readLiteral_skip rfl _).trans (readLiteral_cons rfl t)))

/-- Units give their bytes. -/
theorem readLiteral_units (us : List CUnit) (t : Text) :
    readLiteral .chars (unitsText us ++ t) =
      (readLiteral .chars t).map fun r => (unitsBytes us ++ r.1, r.2) := by
  induction us with
  | nil => simp
  | cons u us ih =>
    rw [unitsText_cons, List.append_assoc, readLiteral_unit, ih, Option.map_map]
    simp [Function.comp_def]

/-- Units at the beginning of a literal. -/
theorem wholeLiteral_units_append (us : List CUnit) (t : Text) :
    wholeLiteral (unitsText us ++ t) = (wholeLiteral t).map (unitsBytes us ++ ·) := by
  rw [wholeLiteral, wholeLiteral, List.append_assoc, readLiteral_units]
  cases readLiteral .chars (t ++ ['"']) with
  | none => rfl
  | some r =>
    obtain ⟨bytes, rest⟩ := r
    cases rest <;> rfl

theorem wholeLiteral_units (us : List CUnit) :
    wholeLiteral (unitsText us) = some (unitsBytes us) := by
  have hempty : wholeLiteral [] = some [] := rfl
  have h := wholeLiteral_units_append us []
  rwa [List.append_nil, hempty, Option.map_some, List.append_nil] at h

theorem cBytes_quoted_units (us : List CUnit) :
    cBytes (quoted (unitsText us)) = some (unitsBytes us) := cBytes_quoted (wholeLiteral_units us)

/-! ## Escaped texts -/

/-- The unit for a character with backslashes, quotes and line breaks escaped. -/
def charUnit (c : Char) : CUnit :=
  if hbackslash : c = '\\' then .backslash
  else if hquote : c = '"' then .quote
  else if hnewline : c = '\n' then .newline
  else if hreturn : c = '\r' then .carriageReturn
  else .plain ⟨c, hbackslash, hquote, hnewline, hreturn⟩

theorem bytes_charUnit (c : Char) : (charUnit c).bytes = String.utf8EncodeChar c := by
  unfold charUnit
  split_ifs with hbackslash hquote hnewline hreturn
  · subst hbackslash
    decide
  · subst hquote
    decide
  · subst hnewline
    decide
  · subst hreturn
    decide
  · rfl

theorem charUnit_eq_plain {c : Char} (h : c ≠ '\\' ∧ c ≠ '"' ∧ c ≠ '\n' ∧ c ≠ '\r') :
    charUnit c = .plain ⟨c, h⟩ := by
  unfold charUnit
  rw [dif_neg h.1, dif_neg h.2.1, dif_neg h.2.2.1, dif_neg h.2.2.2]

theorem charUnit_eq_backslash_iff {c : Char} : charUnit c = .backslash ↔ c = '\\' := by
  unfold charUnit
  split
  · rename_i h
    simp [h]
  · rename_i h
    split_ifs <;> simp [h]

theorem unitsBytes_map {f : Char → CUnit} (hf : ∀ c, (f c).bytes = String.utf8EncodeChar c)
    (t : Text) : unitsBytes (t.map f) = utf8 t := by
  rw [unitsBytes, List.flatMap_map, utf8]
  exact List.flatMap_congr fun c _ => hf c

/-! ## Comments -/

/-- No star is directly followed by a slash. -/
def NoClose (c : Text) : Prop := c.IsChain fun x y => ¬ (x = '*' ∧ y = '/')

instance (c : Text) : Decidable (NoClose c) := inferInstanceAs (Decidable (List.IsChain _ _))

theorem NoClose.append {c d : Text} (hc : NoClose c) (hd : NoClose d)
    (h : c.getLast? ≠ some '*' ∨ d.head? ≠ some '/') : NoClose (c ++ d) := by
  refine List.isChain_append.mpr ⟨hc, hd, ?_⟩
  rintro x hx y hy ⟨rfl, rfl⟩
  rcases h with h | h
  · exact h hx
  · exact h hy

theorem noClose_of_not_mem {c : Text} (h : '*' ∉ c) : NoClose c := by
  induction c with
  | nil => exact .nil
  | cons x c ih =>
    rw [List.mem_cons, not_or] at h
    refine List.isChain_cons.mpr ⟨?_, ih h.2⟩
    rintro y - ⟨rfl, -⟩
    exact h.1 rfl

/-- A block comment ends at the first star and slash. -/
theorem scan_blockComment {c : Text} (h : NoClose c) (t : Text) :
    scan .blockComment (c ++ '*' :: '/' :: t) = scan .code t ∧
      (c.head? ≠ some '/' → scan .blockStar (c ++ '*' :: '/' :: t) = scan .code t) := by
  induction c with
  | nil =>
    have hend : scan .blockStar ('/' :: t) = scan .code t := scan_skip rfl t
    exact ⟨(scan_skip rfl _).trans hend, fun _ => (scan_skip rfl _).trans hend⟩
  | cons d c ih =>
    obtain ⟨hd, hc⟩ := List.isChain_cons.mp h
    obtain ⟨hcomment, hstar⟩ := ih hc
    by_cases hstar' : d = '*'
    · subst hstar'
      have hhead : c.head? ≠ some '/' := fun hslash => hd '/' hslash ⟨rfl, rfl⟩
      exact ⟨(scan_skip rfl _).trans (hstar hhead), fun _ => (scan_skip rfl _).trans (hstar hhead)⟩
    · have hblock : scanStep .blockComment d = some (.blockComment, []) := by
        simp [scanStep, hstar']
      refine ⟨(scan_skip hblock _).trans hcomment, fun hne => ?_⟩
      have hslash : d ≠ '/' := fun heq => hne (by rw [heq]; rfl)
      have hblock' : scanStep .blockStar d = some (.blockComment, []) := by
        simp [scanStep, hstar', hslash]
      exact (scan_skip hblock' _).trans hcomment

/-- A comment puts nothing out. -/
theorem scan_comment {c : Text} (h : NoClose c) (t : Text) :
    scan .code ('/' :: '*' :: c ++ '*' :: '/' :: t) = scan .code t := by
  rw [List.cons_append, List.cons_append, scan_skip rfl, scan_skip rfl]
  exact (scan_blockComment h t).1

end PmuEvents.Foundation
