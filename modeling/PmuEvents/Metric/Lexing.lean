import PmuEvents.Metric.Pieces
set_option autoImplicit false

/-!
# Tokens of decoded pieces

What the regular expressions and Python's tokenizer together make of the parts of a
printed expression: names, literals, hexadecimal and decimal numbers, keywords,
operators and brackets, each with any text after it that can follow it.
-/

namespace PmuEvents.Metric

open PmuEvents.Foundation

/-! ## Pieces side by side -/

/-- The characters that follow an atom in a printed expression. -/
def boundaryChars : Text := [' ', '(', ')', ',']

/-- The pieces end, or go on with a character that can follow an atom. -/
def Bounded (ps : List Piece) : Prop :=
  ps = [] ∨ ∃ c qs, c ∈ boundaryChars ∧ ps = .char c :: qs

/-- A character that changes no name after it. -/
def inert (c : Char) : Bool := c ≠ '#' && !c.isDigit

theorem inert_boundary {c : Char} (h : c ∈ boundaryChars) : inert c = true := by
  have hall : boundaryChars.all inert = true := by decide
  exact List.all_eq_true.mp hall c h

/-- The three expressions that look at the character before a name. -/
structure Inert (change : Char → Text → Option (List Piece)) : Prop where
  none : ∀ c name, inert c = true → change c name = .none

theorem inert_literalPieces : Inert literalPieces where
  none c name hc := by
    simp only [inert, Bool.and_eq_true, decide_eq_true_eq] at hc
    rw [literalPieces, if_neg fun h => hc.1 h.1]

theorem inert_hexPieces : Inert hexPieces where
  none c name hc := by
    have hne : c ≠ '0' := by
      rintro rfl
      cases hc
    rw [hexPieces, if_neg hne]

theorem inert_exponentPieces : Inert exponentPieces where
  none c name hc := by
    simp only [inert, Bool.and_eq_true, Bool.not_eq_true'] at hc
    rw [exponentPieces, hc.2]
    rfl

section PairUp

variable {change : Char → Text → Option (List Piece)}

theorem Inert.pairUp_cons (h : Inert change) {c : Char} (hc : inert c = true) (ps : List Piece) :
    pairUp change (.char c :: ps) = .char c :: pairUp change ps := by
  cases ps with
  | nil => rfl
  | cons p ps =>
    cases p with
    | word name => rw [pairUp, h.none c name hc]
    | _ => rfl

theorem Inert.bounded (h : Inert change) {ps : List Piece} (hps : Bounded ps) :
    Bounded (pairUp change ps) := by
  rcases hps with rfl | ⟨c, qs, hc, rfl⟩
  · exact .inl rfl
  · rw [h.pairUp_cons (inert_boundary hc)]
    exact .inr ⟨c, _, hc, rfl⟩

/-- Nothing is changed across a place where an atom can end. -/
theorem pairUp_append (ps : List Piece) {qs : List Piece} (hqs : Bounded qs) :
    pairUp change (ps ++ qs) = pairUp change ps ++ pairUp change qs := by
  fun_induction pairUp change ps with
  | case1 c name ps out hchange ih =>
    rw [List.cons_append, List.cons_append, pairUp, hchange]
    simp only [ih, List.append_assoc]
  | case2 c name ps hchange ih =>
    rw [List.cons_append, List.cons_append, pairUp, hchange]
    simp only [List.cons_append] at ih
    simp only [ih, List.cons_append]
  | case3 p ps hne ih =>
    rw [List.cons_append, List.cons_append, ← ih, pairUp]
    intro c name ps' hp heq
    cases ps with
    | nil =>
      rcases hqs with rfl | ⟨d, qs', -, rfl⟩
      · cases heq
      · cases heq
    | cons p' ps =>
      obtain ⟨rfl, -⟩ := List.cons.inj heq
      exact hne c name ps hp rfl
  | case4 => rfl

/-- Characters in front of a character stay. -/
theorem pairUp_chars (s : Text) (c : Char) (ps : List Piece) :
    pairUp change (s.map Piece.char ++ .char c :: ps) =
      s.map Piece.char ++ pairUp change (.char c :: ps) := by
  induction s with
  | nil => rfl
  | cons d s ih =>
    cases s with
    | nil => rfl
    | cons d' s =>
      simp only [List.map_cons, List.cons_append] at ih ⊢
      rw [pairUp, ih]
      intro c' name ps' _ heq
      cases heq

end PairUp

theorem decodedPieces_append (ps : List Piece) {qs : List Piece} (hqs : Bounded qs) :
    decodedPieces (ps ++ qs) = decodedPieces ps ++ decodedPieces qs := by
  have hliterals := inert_literalPieces.bounded hqs
  have hhexes := inert_hexPieces.bounded hliterals
  simp only [decodedPieces, pairUp_append _ hqs, pairUp_append _ hliterals,
    pairUp_append _ hhexes, List.map_append]

theorem decodedPieces_cons {c : Char} (hc : inert c = true) (ps : List Piece) :
    decodedPieces (.char c :: ps) = .char c :: decodedPieces ps := by
  simp only [decodedPieces, inert_literalPieces.pairUp_cons hc, inert_hexPieces.pairUp_cons hc,
    inert_exponentPieces.pairUp_cons hc, List.map_cons, unwrapIn]

theorem decodedPieces_word (name : Text) (ps : List Piece) :
    decodedPieces (.word name :: ps) =
      (if name ∈ keywords then .keyword name else .word name) :: decodedPieces ps := by
  simp only [decodedPieces, pairUp, List.map_cons, unwrapIn]

theorem decodedPieces_nil : decodedPieces [] = [] := rfl

theorem pairUp_map_char (change : Char → Text → Option (List Piece)) (s : Text) :
    pairUp change (s.map Piece.char) = s.map Piece.char := by
  induction s with
  | nil => rfl
  | cons c s ih =>
    cases s with
    | nil => rfl
    | cons d s =>
      simp only [List.map_cons] at ih ⊢
      rw [pairUp, ih]
      intro c' name ps' _ heq
      cases heq

/-- Characters without names among them stay. -/
theorem decodedPieces_chars (s : Text) : decodedPieces (s.map Piece.char) = s.map Piece.char := by
  simp only [decodedPieces, pairUp_map_char, List.map_map]
  exact List.map_congr_left fun c _ => rfl

/-! ## Python's strings and words -/

/-- The contents of a raw string literal on one line. -/
def rawOk (s : Text) : Bool := escapes '\\' quotable (fun c => !endsLine c) s

/-- The contents of an ordinary string literal without escape sequences. -/
def plainOk (s : Text) : Bool := escapes '\\' quotable (fun c => !startsEscape c) s

theorem rawString_eq_some {t s rest : Text} :
    rawString t = some (s, rest) ↔ t = s ++ '"' :: rest ∧ rawOk s = true :=
  readDelimited_eq_some (by decide) (by decide)

theorem plainString_eq_some {t s rest : Text} :
    plainString t = some (s, rest) ↔ t = s ++ '"' :: rest ∧ plainOk s = true :=
  readDelimited_eq_some (by decide) (by decide)

theorem plainOk_cons {c : Char} (hc : c ≠ '\\') (t : Text) :
    plainOk (c :: t) = (quotable c && plainOk t) := escapes_cons hc t

/-- The letters are the two ranges of ASCII. -/
theorem isAlpha_iff {c : Char} :
    c.isAlpha = true ↔ 65 ≤ c.toNat ∧ c.toNat ≤ 90 ∨ 97 ≤ c.toNat ∧ c.toNat ≤ 122 := by
  have halpha : c.isAlpha = (decide ('A'.val ≤ c.val ∧ c.val ≤ 'Z'.val) ||
      (decide ('a'.val ≤ c.val) && decide (c.val ≤ 'z'.val))) := rfl
  have hval : c.val.toNat = c.toNat := rfl
  have hbounds : 'A'.val.toNat = 65 ∧ 'Z'.val.toNat = 90 ∧ 'a'.val.toNat = 97 ∧
      'z'.val.toNat = 122 := ⟨rfl, rfl, rfl, rfl⟩
  rw [halpha]
  simp only [Bool.or_eq_true, Bool.and_eq_true, decide_eq_true_eq, UInt32.le_iff_toNat_le, hval,
    hbounds]

/-- No character is a letter and a digit. -/
theorem isAlpha_of_isDigit {c : Char} (hc : c.isDigit = true) : c.isAlpha = false := by
  simp only [Char.isDigit, Bool.and_eq_true, decide_eq_true_eq, UInt32.le_iff_toNat_le,
    ge_iff_le] at hc
  have hnine : '9'.val.toNat = 57 := rfl
  have hval : c.val.toNat = c.toNat := rfl
  rw [← Bool.not_eq_true, isAlpha_iff]
  omega

section Lexer

variable (py : PyFloat)

/-- A letter begins a word. -/
theorem pyLexer_alpha {c : Char} (hc : c.isAlpha = true) (t : Text) :
    pyLexer py (c :: t) =
      wordToken ((c :: t).takeWhile isWordChar) ((c :: t).dropWhile isWordChar) := by
  have hne : ∀ d : Char, d.isAlpha = false → c ≠ d := by
    rintro d hd rfl
    rw [hc] at hd
    cases hd
  have hdigit : c.isDigit = false := by
    by_contra h
    rw [isAlpha_of_isDigit (by simpa using h)] at hc
    cases hc
  rw [pyLexer, if_neg, if_neg (hne '(' rfl), if_neg (hne ')' rfl), if_neg (hne ',' rfl), if_neg,
    if_pos (.inl hc)]
  · rw [hdigit]
    simp [hne '.' rfl]
  · simp [hne ' ' rfl, hne '\t' rfl, hne '\x0c' rfl]

theorem pyLexer_digit {c : Char} (hc : c.isDigit = true) (t : Text) :
    pyLexer py (c :: t) =
      (numberToken py (c :: t)).map fun x => ([.atom (.number x.1)], x.2) := by
  have hne : ∀ d : Char, d.isDigit = false → c ≠ d := by
    rintro d hd rfl
    rw [hc] at hd
    cases hd
  rw [pyLexer, if_neg, if_neg (hne '(' rfl), if_neg (hne ')' rfl), if_neg (hne ',' rfl),
    if_pos (.inl hc)]
  simp [hne ' ' rfl, hne '\t' rfl, hne '\x0c' rfl]

/-- A call of `Event` or `Literal` is one token, if its argument is one string literal. -/
theorem pyLexer_eventOpen (t : Text) :
    pyLexer py (eventOpen ++ t) =
      (stringArgument ('(' :: 'r' :: '"' :: t)).map fun s => ([.atom (.event s.1)], s.2) := by
  rw [eventOpen, List.cons_append, pyLexer_alpha py (by decide)]
  rfl

theorem pyLexer_literalOpen (t : Text) :
    pyLexer py (literalOpen ++ t) =
      (stringArgument ('(' :: '"' :: t)).map fun s => ([.atom (.literal s.1)], s.2) := by
  rw [literalOpen, List.cons_append, pyLexer_alpha py (by decide)]
  rfl

theorem pyLexer_hexOpen (t : Text) :
    pyLexer py (hexOpen ++ t) =
      (stringArgument ('(' :: '"' :: '0' :: 'x' :: t)).map fun s =>
        ([.atom (.event s.1)], s.2) := by
  rw [hexOpen, List.cons_append, pyLexer_alpha py (by decide)]
  rfl

theorem stringArgument_raw {t s rest : Text} :
    stringArgument ('(' :: 'r' :: '"' :: t) = some (s, rest) ↔
      t = s ++ '"' :: ')' :: rest ∧ rawOk s = true := by
  rw [stringArgument]
  constructor
  · intro h
    split at h
    · rename_i hstring
      simp only [Option.some.injEq, Prod.mk.injEq] at h
      obtain ⟨rfl, rfl⟩ := h
      exact rawString_eq_some.mp hstring
    · cases h
  · intro h
    rw [rawString_eq_some.mpr h]
    rfl

theorem stringArgument_plain {t s rest : Text} :
    stringArgument ('(' :: '"' :: t) = some (s, rest) ↔
      t = s ++ '"' :: ')' :: rest ∧ plainOk s = true := by
  rw [stringArgument]
  constructor
  · intro h
    split at h
    · rename_i hstring
      simp only [Option.some.injEq, Prod.mk.injEq] at h
      obtain ⟨rfl, rfl⟩ := h
      exact plainString_eq_some.mp hstring
    · cases h
  · intro h
    rw [plainString_eq_some.mpr h]
    rfl

/-- The call that a name was wrapped in. -/
theorem pyLexer_word {name : Text} (h : rawOk name = true) (rest : Text) :
    pyLexer py ((Piece.word name).render ++ rest) = some ([.atom (.event name)], rest) := by
  have hrender : (Piece.word name).render ++ rest =
      eventOpen ++ (name ++ '"' :: ')' :: rest) := by
    simp [Piece.render, callClose]
  rw [hrender, pyLexer_eventOpen, stringArgument_raw.mpr ⟨rfl, h⟩]
  rfl

theorem pyLexer_literal {name : Text} (h : plainOk name = true) (rest : Text) :
    pyLexer py ((Piece.literal name).render ++ rest) =
      some ([.atom (.literal ('#' :: name))], rest) := by
  have hok : plainOk ('#' :: name) = true := by
    rw [plainOk_cons (by decide), h]
    rfl
  have hrender : (Piece.literal name).render ++ rest =
      literalOpen ++ ('#' :: name ++ '"' :: ')' :: rest) := by
    simp [Piece.render, callClose]
  rw [hrender, pyLexer_literalOpen, stringArgument_plain.mpr ⟨rfl, hok⟩]
  rfl

theorem plainOk_hex {digits : Text} (h : digits.all isHexDigit = true) :
    plainOk digits = true := by
  apply escapes_of_all
  intro c hc
  have hne : ∀ d : Char, isHexDigit d = false → c ≠ d := by
    rintro d hd rfl
    rw [List.all_eq_true.mp h c hc] at hd
    cases hd
  refine ⟨hne '\\' (by decide), ?_⟩
  simp [quotable, endsLine, hne '"' (by decide), hne '\n' (by decide), hne '\r' (by decide),
    hne '\x00' (by decide)]

theorem pyLexer_hex {digits : Text} (h : digits.all isHexDigit = true) (rest : Text) :
    pyLexer py ((Piece.hex digits).render ++ rest) =
      some ([.atom (.event ('0' :: 'x' :: digits))], rest) := by
  have hok : plainOk ('0' :: 'x' :: digits) = true := by
    rw [plainOk_cons (by decide), plainOk_cons (by decide), plainOk_hex h]
    rfl
  have hrender : (Piece.hex digits).render ++ rest =
      hexOpen ++ (digits ++ '"' :: ')' :: rest) := by
    simp [Piece.render, callClose]
  have hargument : stringArgument ('(' :: '"' :: '0' :: 'x' :: (digits ++ '"' :: ')' :: rest)) =
      some ('0' :: 'x' :: digits, rest) := stringArgument_plain.mpr ⟨rfl, hok⟩
  rw [hrender, pyLexer_hexOpen, hargument]
  rfl

/-- No word goes on here. -/
def EndsWord (rest : Text) : Prop := rest.head?.any isWordChar = false

theorem takeWhile_append_stop {q : Char → Bool} {s rest : Text} (hs : s.all q = true)
    (hrest : rest.head?.any q = false) :
    (s ++ rest).takeWhile q = s ∧ (s ++ rest).dropWhile q = rest := by
  have hall := List.all_eq_true.mp hs
  rw [List.takeWhile_append_of_pos hall, List.dropWhile_append_of_pos hall]
  cases rest with
  | nil => simp
  | cons c rest =>
    rw [List.head?_cons, Option.any_some] at hrest
    rw [List.takeWhile_cons, List.dropWhile_cons, hrest]
    simp

/-- A keyword is a word of its own. -/
theorem pyLexer_keyword {kw : Text} (hkw : kw ∈ keywords) {rest : Text} (hrest : EndsWord rest) :
    pyLexer py (kw ++ rest) = wordToken kw rest := by
  have hall : keywords.all (fun kw => kw.all isWordChar && kw.head?.any Char.isAlpha) = true := by
    decide
  have hword := List.all_eq_true.mp hall kw hkw
  rw [Bool.and_eq_true] at hword
  obtain ⟨htake, hdrop⟩ := takeWhile_append_stop hword.1 hrest
  cases kw with
  | nil => simp at hword
  | cons c kw =>
    rw [List.cons_append, pyLexer_alpha py (by simpa using hword.2), ← List.cons_append, htake,
      hdrop]

/-! ## Numbers -/

/-- Digits, the digits after a point, and something that is neither. -/
theorem numberToken_eq {int frac : List Nat} (hint : ∀ d ∈ int, d < 10)
    (hfrac : ∀ d ∈ frac, d < 10) {rest : Text} (hdigit : rest.head?.any Char.isDigit = false)
    (hpoint : rest.head? ≠ some '.') :
    numberToken py (int.map Nat.digitChar ++ (pointText frac ++ rest)) =
      if (spanExponent rest).2.head?.any isWordChar then none
      else
        (literalValue py (int.map Nat.digitChar) (decide (frac ≠ [])) (frac.map Nat.digitChar)
          (spanExponent rest).1).map fun x => (x, (spanExponent rest).2) := by
  have hdigits : ∀ {ds : List Nat}, (∀ d ∈ ds, d < 10) →
      (ds.map Nat.digitChar).all Char.isDigit = true := by
    intro ds hds
    rw [List.all_map, List.all_eq_true]
    intro d hd
    exact (digitChar_spec (hds d hd)).1
  have hstop : (pointText frac ++ rest).head?.any Char.isDigit = false := by
    unfold pointText
    split
    · exact hdigit
    · rfl
  have hfraction : spanFraction (pointText frac ++ rest) =
      (decide (frac ≠ []), frac.map Nat.digitChar, rest) := by
    unfold pointText
    split
    · rename_i hnil
      subst hnil
      cases rest with
      | nil => rfl
      | cons c rest =>
        rw [List.nil_append, spanFraction]
        · rfl
        · intro t heq
          exact hpoint (by rw [(List.cons.inj heq).1]; rfl)
    · rename_i hne
      obtain ⟨htake, hdrop⟩ := takeWhile_append_stop (hdigits hfrac) hdigit
      rw [List.cons_append, spanFraction, htake, hdrop, decide_eq_true hne]
  obtain ⟨htake, hdrop⟩ := takeWhile_append_stop (hdigits hint) hstop
  unfold numberToken
  simp only [htake, hdrop, hfraction]

/-- The value of a spelled number; a negative exponent is none. -/
def spelledValue (s : Decimal.Spelling) : Option PyValue :=
  match s.exp with
  | none => literalValue py (s.int.map Nat.digitChar) (decide (s.frac ≠ []))
      (s.frac.map Nat.digitChar) []
  | some e =>
    if e < 0 then none
    else
      literalValue py (s.int.map Nat.digitChar) (decide (s.frac ≠ []))
        (s.frac.map Nat.digitChar) ((Numeral.digits 10 e.natAbs).map Nat.digitChar)

end Lexer

end PmuEvents.Metric
