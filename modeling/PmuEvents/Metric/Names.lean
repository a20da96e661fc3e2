import PmuEvents.Metric.Decode
set_option autoImplicit false

/-!
# Event names in a metric's text

The first regular expression takes the text apart: names, which become calls of
`Event`, and the characters between them.
-/

namespace PmuEvents.Metric

open PmuEvents.Foundation

/-! ## Names -/

/-- Characters other than those that end a name, and escaped characters. -/
def nameTail (s : Text) : Bool := escapes '\\' isNameChar (fun c => c ≠ '\n') s

/-- What the pattern of event names matches. -/
def isName : Text → Bool
  | c :: t => c.isAlpha && nameTail t
  | [] => false

/-- No name goes on here. -/
def EndsName (rest : Text) : Prop := spanName rest = ([], rest)

theorem not_isNameChar {c : Char}
    (h : c ∈ ['-', '+', '/', '*', ' ', '\\', '(', ')', ',']) : isNameChar c = false := by
  rw [isNameChar, List.contains_iff_mem.mpr h]
  rfl

/-- A name is characters that end no name, and begins with a letter. -/
theorem isName_iff {s : Text} :
    isName s = true ↔ nameTail s = true ∧ s.head?.any Char.isAlpha = true := by
  cases s with
  | nil => simp [isName]
  | cons c t =>
    rw [isName, Bool.and_eq_true, List.head?_cons, Option.any_some]
    constructor
    · rintro ⟨hc, ht⟩
      have hmem : c ∉ ['-', '+', '/', '*', ' ', '\\', '(', ')', ','] := by
        intro hmem
        have hall : ['-', '+', '/', '*', ' ', '\\', '(', ')', ','].all (fun c => !c.isAlpha) =
            true := by decide
        simpa [hc] using List.all_eq_true.mp hall c hmem
      refine ⟨?_, hc⟩
      rw [nameTail, escapes_cons fun heq => hmem (by simp [heq]), isNameChar,
        ← nameTail, ht, Bool.and_true, Bool.not_eq_true', ← Bool.not_eq_true,
        List.contains_iff_mem]
      exact hmem
    · rintro ⟨hct, hc⟩
      refine ⟨hc, ?_⟩
      have hslash : c ≠ '\\' := by
        rintro rfl
        cases hc
      rw [nameTail, escapes_cons hslash, Bool.and_eq_true] at hct
      exact hct.2

theorem endsName_nil : EndsName [] := rfl

/-- Every character that ends names ends one, the backslash apart. -/
theorem endsName_cons {c : Char} (hc : isNameChar c = false) (hslash : c ≠ '\\') (t : Text) :
    EndsName (c :: t) :=
  spanEscapes_stop hslash hc t

theorem spanName_append {n rest : Text} (hn : nameTail n = true) (hrest : EndsName rest) :
    spanName (n ++ rest) = (n, rest) := by
  rw [EndsName, spanName] at hrest
  rw [spanName, spanEscapes_append hn, hrest, List.append_nil]

theorem spanName_spec (t : Text) :
    t = (spanName t).1 ++ (spanName t).2 ∧ nameTail (spanName t).1 = true ∧
      EndsName (spanName t).2 :=
  spanEscapes_spec t

/-- Characters none of which ends a name. -/
theorem nameTail_of_all {q : Char → Bool}
    (hq : ['-', '+', '/', '*', ' ', '\\', '(', ')', ','].all (fun c => !q c) = true) {s : Text}
    (hs : s.all q = true) : nameTail s = true := by
  apply escapes_of_all
  intro c hc
  have hmem : c ∉ ['-', '+', '/', '*', ' ', '\\', '(', ')', ','] := by
    intro hmem
    have hnot := List.all_eq_true.mp hq c hmem
    rw [List.all_eq_true.mp hs c hc] at hnot
    cases hnot
  refine ⟨?_, ?_⟩
  · rintro rfl
    exact hmem (by simp)
  · rw [isNameChar, Bool.not_eq_true', ← Bool.not_eq_true, List.contains_iff_mem]
    exact hmem

/-- A round bracket in a name is escaped. -/
def isParen (c : Char) : Bool := c = '(' || c = ')'

theorem not_isNameChar_paren {d : Char} (h : isParen d = true) :
    d ≠ '\\' ∧ isNameChar d = false := by
  rw [isParen, Bool.or_eq_true, decide_eq_true_eq, decide_eq_true_eq] at h
  rcases h with rfl | rfl
  · exact ⟨by decide, not_isNameChar (by simp)⟩
  · exact ⟨by decide, not_isNameChar (by simp)⟩

theorem isName_paren {s pre suf : Text} {c d : Char} (h : isName s = true)
    (hs : s = pre ++ c :: d :: suf) (hd : isParen d = true) : c = '\\' := by
  obtain ⟨hslash, hplain⟩ := not_isNameChar_paren hd
  cases s with
  | nil => simp at hs
  | cons e t =>
    simp only [isName, Bool.and_eq_true] at h
    cases pre with
    | nil =>
      simp only [List.nil_append, List.cons.injEq] at hs
      have htail := h.2
      rw [hs.2, nameTail, escapes_cons hslash, hplain, Bool.false_and] at htail
      cases htail
    | cons e' pre =>
      simp only [List.cons_append, List.cons.injEq] at hs
      exact eq_esc_of_not_plain h.2 hs.2 hslash hplain

/-! ## Pieces -/

/-- The parts of a text: characters, names, and what the later expressions make of
some names with the character before them. -/
inductive Piece where
  | char (c : Char)
  | word (name : Text)
  | literal (name : Text)
  | hex (digits : Text)
  | exponent (digits : Text)
  | keyword (kw : Text)
  deriving DecidableEq, Repr

namespace Piece

/-- The text of a piece before the regular expressions. -/
def raw : Piece → Text
  | char c => [c]
  | word name => name
  | literal name => '#' :: name
  | hex digits => '0' :: 'x' :: digits
  | exponent digits => 'e' :: digits
  | keyword kw => kw

/-- The text of a piece in the Python expression. -/
def render : Piece → Text
  | char c => [c]
  | word name => eventOpen ++ (name ++ callClose)
  | literal name => literalOpen ++ ('#' :: name ++ callClose)
  | hex digits => hexOpen ++ (digits ++ callClose)
  | exponent digits => 'e' :: digits
  | keyword kw => kw

end Piece

/-- The pieces the first expression makes of a text: characters that begin no name,
and names as long as possible. -/
def Scanned : List Piece → Prop
  | [] => True
  | .char c :: ps => c.isAlpha = false ∧ Scanned ps
  | .word name :: ps => isName name = true ∧ EndsName (ps.flatMap Piece.raw) ∧ Scanned ps
  | _ => False

/-- The first expression wraps the names. -/
theorem substituteAll_eventPattern {ps : List Piece} (h : Scanned ps) :
    substituteAll eventPattern (ps.flatMap Piece.raw) = ps.flatMap Piece.render := by
  induction ps with
  | nil => rfl
  | cons p ps ih =>
    rw [List.flatMap_cons, List.flatMap_cons]
    cases p with
    | char c =>
      obtain ⟨hc, hps⟩ := h
      have hnone : eventPattern (c :: ps.flatMap Piece.raw) = none := by
        rw [eventPattern, if_neg (by simp [hc])]
      rw [Piece.raw, List.singleton_append, substituteAll_cons hnone, ih hps]
      rfl
    | word name =>
      obtain ⟨hname, hends, hps⟩ := h
      cases name with
      | nil => cases hname
      | cons c t =>
        simp only [isName, Bool.and_eq_true] at hname
        have hmatch : eventPattern (c :: (t ++ ps.flatMap Piece.raw)) =
            some (eventOpen ++ (c :: t ++ callClose), ps.flatMap Piece.raw) := by
          rw [eventPattern, if_pos hname.1, spanName_append hname.2 hends]
        rw [Piece.raw, List.cons_append, substituteAll_match hmatch, ih hps, Piece.render]
    | _ => exact h.elim

/-- Every text has pieces. -/
theorem exists_scanned (t : Text) : ∃ ps, Scanned ps ∧ ps.flatMap Piece.raw = t := by
  induction hn : t.length using Nat.strong_induction_on generalizing t with
  | _ n ih =>
    cases t with
    | nil => exact ⟨[], trivial, rfl⟩
    | cons c t =>
      cases hc : c.isAlpha with
      | false =>
        obtain ⟨ps, hps, hraw⟩ := ih t.length (by rw [← hn]; simp) t rfl
        refine ⟨.char c :: ps, ⟨hc, hps⟩, ?_⟩
        rw [List.flatMap_cons, hraw]
        rfl
      | true =>
        obtain ⟨hsplit, htail, hends⟩ := spanName_spec t
        have hlen : (spanName t).2.length < n := by
          have := congrArg List.length hsplit
          rw [List.length_append] at this
          rw [← hn, List.length_cons]
          omega
        obtain ⟨ps, hps, hraw⟩ := ih _ hlen (spanName t).2 rfl
        refine ⟨.word (c :: (spanName t).1) :: ps, ⟨?_, ?_, hps⟩, ?_⟩
        · simp [isName, hc, htail]
        · rw [hraw]
          exact hends
        · rw [List.flatMap_cons, hraw, Piece.raw, List.cons_append, ← hsplit]

end PmuEvents.Metric
