import PmuEvents.Metric.Lexing
import PmuEvents.Metric.Print
set_option autoImplicit false

/-!
# The tokens Python reads in a printed expression

A printed expression is decoded token by token: every operator, bracket and keyword
stays, and every atom becomes the atom of its text alone, or an error where the text
alone is one.
-/

namespace PmuEvents.Metric

open PmuEvents.Foundation

variable (py : PyFloat)

/-! ## What follows an atom -/

theorem Bounded.endsName {ps : List Piece} (h : Bounded ps) : EndsName (ps.flatMap Piece.raw) := by
  rcases h with rfl | ⟨c, qs, hc, rfl⟩
  · exact endsName_nil
  · have hall : boundaryChars.all (fun c => !isNameChar c && c ≠ '\\') = true := by decide
    have hbound := List.all_eq_true.mp hall c hc
    simp only [Bool.and_eq_true, Bool.not_eq_true', decide_eq_true_eq] at hbound
    exact endsName_cons hbound.1 hbound.2 _

theorem Bounded.decoded {ps : List Piece} (h : Bounded ps) : Bounded (decodedPieces ps) := by
  rcases h with rfl | ⟨c, qs, hc, rfl⟩
  · exact .inl rfl
  · rw [decodedPieces_cons (inert_boundary hc)]
    exact .inr ⟨c, _, hc, rfl⟩

/-- The text of bounded pieces goes on with no word, number or fraction. -/
theorem Bounded.head {ps : List Piece} (h : Bounded ps) :
    EndsWord (ps.flatMap Piece.render) ∧
      (ps.flatMap Piece.render).head?.any Char.isDigit = false ∧
      (ps.flatMap Piece.render).head? ≠ some '.' ∧ (ps.flatMap Piece.render).head? ≠ some 'e' := by
  rcases h with rfl | ⟨c, qs, hc, rfl⟩
  · exact ⟨rfl, rfl, by simp, by simp⟩
  · have hall : boundaryChars.all (fun c => !isWordChar c && !c.isDigit && c ≠ '.' && c ≠ 'e') =
        true := by decide
    have hbound := List.all_eq_true.mp hall c hc
    simp only [Bool.and_eq_true, Bool.not_eq_true', decide_eq_true_eq] at hbound
    obtain ⟨⟨⟨hword, hdigit⟩, hpoint⟩, he⟩ := hbound
    refine ⟨hword, hdigit, ?_, ?_⟩
    · exact fun heq => hpoint (Option.some.inj heq)
    · exact fun heq => he (Option.some.inj heq)

/-! ## Texts that are decoded on their own -/

/-- The tokens of two parts. -/
def appendTokens (toks toks' : Option (List PyToken)) : Option (List PyToken) :=
  toks.bind fun toks => toks'.map (toks ++ ·)

/-- The pieces before others are decoded on their own and tokenized on their own. -/
def Separate (ps dps : List Piece) (toks : Option (List PyToken)) (qs : List Piece) : Prop :=
  (Scanned qs → Scanned (ps ++ qs)) ∧ decodedPieces (ps ++ qs) = dps ++ decodedPieces qs ∧
    tokenize (pyLexer py) ((dps ++ decodedPieces qs).flatMap Piece.render) =
      appendTokens toks (tokenize (pyLexer py) ((decodedPieces qs).flatMap Piece.render))

/-- The text of an expression: wherever it may end it is read on its own, as these tokens
or as an error. -/
def Reads (text : Text) (toks : Option (List PyToken)) : Prop :=
  ∃ ps dps : List Piece, ps.flatMap Piece.raw = text ∧
    ∀ qs, Bounded qs → Separate py ps dps toks qs

/-- The text of an operator, a bracket or a keyword: an expression can end before it,
and anything can follow it. -/
def Joins (text : Text) (tok : PyToken) : Prop :=
  ∃ ps dps : List Piece, ps.flatMap Piece.raw = text ∧ (∀ qs, Bounded (ps ++ qs)) ∧
    ∀ qs, Separate py ps dps (some [tok]) qs

/-- The names of events, decoded to events with this name. -/
structure EventName (name : Text) : Prop where
  shape : isName name = true
  raw : rawOk name = true
  unreserved : name ∉ keywords

theorem reads_event {name : Text} (h : EventName name) :
    Reads py name (some [.atom (.event name)]) := by
  refine ⟨[.word name], [.word name], by simp [Piece.raw], ?_⟩
  intro qs hqs
  refine ⟨fun hscanned => ⟨h.shape, hqs.endsName, hscanned⟩, ?_, ?_⟩
  · rw [List.singleton_append, decodedPieces_word, if_neg h.unreserved]
    rfl
  · rw [List.singleton_append, List.flatMap_cons]
    exact tokenize_piece (pyLexer_word py h.raw _)

theorem isName_keyword {kw : Text} (h : kw ∈ keywords) : isName kw = true := by
  have hall : keywords.all isName = true := by decide
  exact List.all_eq_true.mp hall kw h

/-- A keyword that is one token. -/
theorem reads_keyword {kw : Text} (h : kw ∈ keywords) {tok : PyToken}
    (htok : ∀ rest, wordToken kw rest = some ([tok], rest)) : Reads py kw (some [tok]) := by
  refine ⟨[.word kw], [.keyword kw], by simp [Piece.raw], ?_⟩
  intro qs hqs
  refine ⟨fun hscanned => ⟨isName_keyword h, hqs.endsName, hscanned⟩, ?_, ?_⟩
  · rw [List.singleton_append, decodedPieces_word, if_pos h]
    rfl
  · rw [List.singleton_append, List.flatMap_cons]
    have hlex := pyLexer_keyword py h hqs.decoded.head.1
    rw [htok] at hlex
    cases kw with
    | nil => cases isName_keyword h
    | cons c kw => exact tokenize_piece hlex

/-- The names of literals. -/
structure LiteralName (name : Text) : Prop where
  shape : isName name = true
  unquoted : name.all unquoted = true
  plain : plainOk name = true

theorem reads_literal {name : Text} (h : LiteralName name) :
    Reads py ('#' :: name) (some [.atom (.literal ('#' :: name))]) := by
  refine ⟨[.char '#', .word name], [.literal name], by simp [Piece.raw], ?_⟩
  intro qs hqs
  refine ⟨fun hscanned => ⟨rfl, h.shape, hqs.endsName, hscanned⟩, ?_, ?_⟩
  · have hpair : decodedPieces [.char '#', .word name] = [.literal name] := by
      simp [decodedPieces, pairUp, literalPieces, h.unquoted, unwrapIn]
    rw [decodedPieces_append _ hqs, hpair]
  · rw [List.singleton_append, List.flatMap_cons]
    exact tokenize_piece (pyLexer_literal py h.plain _)

theorem reads_hex {digits : Text} (h : digits.all isHexDigit = true) :
    Reads py ('0' :: 'x' :: digits) (some [.atom (.event ('0' :: 'x' :: digits))]) := by
  refine ⟨[.char '0', .word ('x' :: digits)], [.hex digits], by simp [Piece.raw], ?_⟩
  intro qs hqs
  have htail : nameTail digits = true := nameTail_of_all (by decide) h
  refine ⟨fun hscanned => ⟨rfl, ?_, hqs.endsName, hscanned⟩, ?_, ?_⟩
  · simp [isName, htail]
  · have hpair : decodedPieces [.char '0', .word ('x' :: digits)] = [.hex digits] := by
      simp [decodedPieces, pairUp, literalPieces, hexPieces, hexDigits, h, unwrapIn]
    rw [decodedPieces_append _ hqs, hpair]
  · rw [List.singleton_append, List.flatMap_cons]
    exact tokenize_piece (pyLexer_hex py h _)

theorem scanned_chars {s : Text} (h : s.all (fun c => !c.isAlpha) = true) {qs : List Piece}
    (hqs : Scanned qs) : Scanned (s.map Piece.char ++ qs) := by
  induction s with
  | nil => exact hqs
  | cons c s ih =>
    rw [List.all_cons, Bool.and_eq_true, Bool.not_eq_true'] at h
    exact ⟨h.1, ih h.2⟩

theorem raw_chars (s : Text) : (s.map Piece.char).flatMap Piece.raw = s := by
  induction s with
  | nil => rfl
  | cons c s ih =>
    rw [List.map_cons, List.flatMap_cons, ih]
    rfl

theorem render_chars (s : Text) : (s.map Piece.char).flatMap Piece.render = s := by
  induction s with
  | nil => rfl
  | cons c s ih =>
    rw [List.map_cons, List.flatMap_cons, ih]
    rfl

theorem decodedPieces_inert {s : Text} (h : s.all inert = true) (qs : List Piece) :
    decodedPieces (s.map Piece.char ++ qs) = s.map Piece.char ++ decodedPieces qs := by
  induction s with
  | nil => rfl
  | cons c s ih =>
    rw [List.all_cons, Bool.and_eq_true] at h
    rw [List.map_cons, List.cons_append, decodedPieces_cons h.1, ih h.2, List.cons_append]

/-- Characters that are one token by themselves, blanks around it aside. -/
theorem joins_chars {c : Char} {text : Text} {tok : PyToken} (hc : c ∈ boundaryChars)
    (halpha : (c :: text).all (fun c => !c.isAlpha) = true)
    (hinert : (c :: text).all inert = true)
    (hlex : ∀ rest, tokenize (pyLexer py) (c :: text ++ rest) =
      (tokenize (pyLexer py) rest).map (tok :: ·)) : Joins py (c :: text) tok := by
  refine ⟨(c :: text).map .char, (c :: text).map .char, raw_chars _, ?_, ?_⟩
  · intro qs
    exact .inr ⟨c, _, hc, rfl⟩
  · intro qs
    refine ⟨scanned_chars halpha, ?_, ?_⟩
    · exact decodedPieces_inert hinert qs
    · rw [List.flatMap_append, render_chars, hlex]
      rfl

/-! ## Numbers -/

theorem tokenize_number {c : Char} (hc : c.isDigit = true) {t rest : Text}
    {v : Option PyValue} (h : numberToken py (c :: (t ++ rest)) = v.map fun x => (x, rest)) :
    tokenize (pyLexer py) (c :: (t ++ rest)) =
      v.bind fun x => (tokenize (pyLexer py) rest).map (.atom (.number x) :: ·) := by
  cases v with
  | none =>
    apply tokenize_error
    rw [pyLexer_digit py hc, h]
    rfl
  | some x =>
    have hlex : pyLexer py (c :: (t ++ rest)) = some ([.atom (.number x)], rest) := by
      rw [pyLexer_digit py hc, h]
      rfl
    exact tokenize_piece hlex

/-- The digits and the point of a number begin and end with a digit. -/
theorem mantissa_cases {int frac : List Nat} (hne : int ≠ []) (hint : ∀ d ∈ int, d < 10)
    (hfrac : ∀ d ∈ frac, d < 10) :
    (int.map Nat.digitChar ++ pointText frac).all (fun c => !c.isAlpha) = true ∧
      (∃ c t, int.map Nat.digitChar ++ pointText frac = c :: t ∧ c.isDigit = true) ∧
      ∃ t d, int.map Nat.digitChar ++ pointText frac = t ++ [d] ∧ d.isDigit = true := by
  have hdigit : ∀ d, d < 10 → (Nat.digitChar d).isDigit = true := fun d hd => (digitChar_spec hd).1
  have halpha : ∀ d, d < 10 → (Nat.digitChar d).isAlpha = false :=
    fun d hd => isAlpha_of_isDigit (hdigit d hd)
  refine ⟨?_, ?_, ?_⟩
  · unfold pointText
    split
    · rw [List.append_nil, List.all_map, List.all_eq_true]
      intro d hd
      simp [halpha d (hint d hd)]
    · rw [List.all_append, List.all_cons, List.all_map, List.all_map, Bool.and_eq_true,
        Bool.and_eq_true, List.all_eq_true, List.all_eq_true]
      refine ⟨?_, by decide, ?_⟩
      · intro d hd
        simp [halpha d (hint d hd)]
      · intro d hd
        simp [halpha d (hfrac d hd)]
  · obtain ⟨k, int', rfl⟩ := List.exists_cons_of_ne_nil hne
    exact ⟨_, _, rfl, hdigit k (hint k List.mem_cons_self)⟩
  · unfold pointText
    split
    · rcases List.eq_nil_or_concat int with rfl | ⟨int', k, rfl⟩
      · exact absurd rfl hne
      · exact ⟨int'.map Nat.digitChar, Nat.digitChar k, by simp, hdigit k (hint k (by simp))⟩
    · rename_i hfracne
      rcases List.eq_nil_or_concat frac with rfl | ⟨frac', k, rfl⟩
      · exact absurd rfl hfracne
      · exact ⟨int.map Nat.digitChar ++ '.' :: frac'.map Nat.digitChar, Nat.digitChar k,
          by simp, hdigit k (hfrac k (by simp))⟩

/-- The text of an unsigned number. -/
structure NumberSpelling (s : Decimal.Spelling) : Prop where
  int_ne : s.int ≠ []
  int : ∀ d ∈ s.int, d < 10
  frac : ∀ d ∈ s.frac, d < 10

theorem digits_all (n : Nat) :
    ((Numeral.digits 10 n).map Nat.digitChar).all Char.isDigit = true := by
  rw [List.all_map, List.all_eq_true]
  intro d hd
  exact (digitChar_spec (Numeral.digits_lt (by decide) n d hd)).1

/-- A name or the end after the digits of a number, as far as the number is concerned. -/
theorem spanExponent_stop {rest : Text} (h : rest.head? ≠ some 'e') :
    spanExponent rest = ([], rest) := by
  unfold spanExponent
  split
  · exact absurd rfl h
  · rfl

/-- A digit, and an exponent that is a name of its own. -/
theorem decodedPieces_exponent (t : Text) {d : Char} (hd : d.isDigit = true) {digits : Text}
    (hne : digits ≠ []) (hdigits : digits.all Char.isDigit = true) :
    decodedPieces (t.map Piece.char ++ [.char d, .word ('e' :: digits)]) =
      t.map Piece.char ++ [.char d, .exponent digits] := by
  have hhash : d ≠ '#' := by
    rintro rfl
    cases hd
  have hliteral : pairUp literalPieces [.char d, .word ('e' :: digits)] =
      [.char d, .word ('e' :: digits)] := by
    simp [pairUp, literalPieces, hhash]
  have hhex : pairUp hexPieces [.char d, .word ('e' :: digits)] =
      [.char d, .word ('e' :: digits)] := by
    simp [pairUp, hexPieces, hexDigits]
  have hexponent : pairUp exponentPieces [.char d, .word ('e' :: digits)] =
      [.char d, .exponent digits] := by
    have hall := List.all_eq_true.mp hdigits
    simp only [pairUp, exponentPieces, hd, if_true, exponentDigits, hne, ne_eq, not_false_iff,
      hdigits, true_and, Option.map_some, List.append_nil]
  rw [decodedPieces, pairUp_chars, hliteral, pairUp_chars, hhex, pairUp_chars, hexponent,
    List.map_append, List.map_map]
  rfl

/-- An exponent with a sign is cut off after its `e`. -/
theorem decodedPieces_signed (t : Text) {d : Char} (hd : d.isDigit = true) (digits : Text) :
    decodedPieces (t.map Piece.char ++ .char d :: .word ['e'] :: (('-' :: digits).map Piece.char)) =
      t.map Piece.char ++ .char d :: .word ['e'] :: (('-' :: digits).map Piece.char) := by
  have hhash : d ≠ '#' := by
    rintro rfl
    cases hd
  have hword : unwrapIn keywords (.word ['e']) = .word ['e'] := by decide
  have hpair : ∀ change : Char → Text → Option (List Piece), change d ['e'] = none →
      pairUp change (.char d :: .word ['e'] :: (('-' :: digits).map Piece.char)) =
        .char d :: .word ['e'] :: (('-' :: digits).map Piece.char) := by
    intro change hchange
    rw [pairUp, hchange]
    simp only
    rw [pairUp, pairUp_map_char]
    intro c name ps heq
    cases heq
  rw [decodedPieces, pairUp_chars, hpair _ (by simp [literalPieces, hhash]), pairUp_chars,
    hpair _ (by simp [hexPieces, hexDigits]), pairUp_chars,
    hpair _ (by simp [exponentPieces, exponentDigits]), List.map_append, List.map_map,
    List.map_cons, List.map_cons, List.map_map, hword]
  rfl

theorem appendTokens_number (v : Option PyValue) (toks : Option (List PyToken)) :
    appendTokens (v.map fun x => [.atom (.number x)]) toks =
      v.bind fun x => toks.map (.atom (.number x) :: ·) := by
  cases v <;> rfl

section Number

variable {int frac : List Nat}

/-- A number without an exponent. -/
theorem reads_mantissa (hne : int ≠ []) (hint : ∀ d ∈ int, d < 10) (hfrac : ∀ d ∈ frac, d < 10) :
    Reads py (int.map Nat.digitChar ++ pointText frac)
      ((literalValue py (int.map Nat.digitChar) (decide (frac ≠ [])) (frac.map Nat.digitChar)
        []).map fun x => [.atom (.number x)]) := by
  obtain ⟨halpha, ⟨c, t, hfirst, hc⟩, -⟩ := mantissa_cases hne hint hfrac
  refine ⟨(int.map Nat.digitChar ++ pointText frac).map .char,
    (int.map Nat.digitChar ++ pointText frac).map .char, raw_chars _, ?_⟩
  intro qs hqs
  obtain ⟨hword, hdigit, hpoint, he⟩ := hqs.decoded.head
  refine ⟨scanned_chars halpha, ?_, ?_⟩
  · rw [decodedPieces_append _ hqs, decodedPieces_chars]
  · rw [List.flatMap_append, render_chars, appendTokens_number, hfirst, List.cons_append]
    apply tokenize_number py hc
    rw [← List.cons_append, ← hfirst, List.append_assoc,
      numberToken_eq py hint hfrac hdigit hpoint, spanExponent_stop he, hword]
    rfl

/-- A number with a negative exponent: Python finds the digits run into the `Event` of the
exponent. -/
theorem reads_negativeExponent (hne : int ≠ []) (hint : ∀ d ∈ int, d < 10)
    (hfrac : ∀ d ∈ frac, d < 10) {digits : Text} (hdigits : digits.all Char.isDigit = true) :
    Reads py (int.map Nat.digitChar ++ pointText frac ++ 'e' :: '-' :: digits) none := by
  obtain ⟨halpha, ⟨c, t, hfirst, hc⟩, t', d, hlast, hd⟩ := mantissa_cases hne hint hfrac
  have hsplit : t'.all (fun c => !c.isAlpha) = true ∧ d.isAlpha = false := by
    rw [hlast, List.all_append, Bool.and_eq_true] at halpha
    simpa using halpha
  have hnoalpha : ('-' :: digits).all (fun x => !x.isAlpha) = true := by
    refine List.all_eq_true.mpr ?_
    intro x hx
    rcases List.mem_cons.mp hx with rfl | hx
    · rfl
    · simp [isAlpha_of_isDigit (List.all_eq_true.mp hdigits x hx)]
  refine ⟨t'.map .char ++ .char d :: .word ['e'] :: (('-' :: digits).map .char),
    t'.map .char ++ .char d :: .word ['e'] :: (('-' :: digits).map .char), ?_, ?_⟩
  · rw [List.flatMap_append, raw_chars, hlast, List.flatMap_cons, List.flatMap_cons, raw_chars]
    simp [Piece.raw]
  · intro qs hqs
    refine ⟨?_, ?_, ?_⟩
    · intro hscanned
      rw [List.append_assoc]
      refine scanned_chars hsplit.1 ⟨hsplit.2, rfl, ?_, ?_⟩
      · exact endsName_cons (by decide) (by decide) _
      · exact scanned_chars hnoalpha hscanned
    · rw [decodedPieces_append _ hqs, decodedPieces_signed t' hd]
    · rw [appendTokens, Option.bind_none, List.append_assoc, List.flatMap_append, render_chars,
        List.cons_append, List.flatMap_cons, Piece.render, ← List.append_assoc, ← hlast,
        List.cons_append, List.flatMap_cons, Piece.render, hfirst, List.cons_append]
      have hevent : ∀ rest, (eventOpen ++ rest).head? = some 'E' := fun _ => rfl
      apply tokenize_error
      rw [pyLexer_digit py hc, ← List.cons_append, ← hfirst, List.append_assoc, List.append_assoc,
        numberToken_eq py hint hfrac rfl (by rw [hevent]; decide),
        spanExponent_stop (by rw [hevent]; decide)]
      rfl

/-- A number with an exponent that is not negative. -/
theorem reads_exponent (hne : int ≠ []) (hint : ∀ d ∈ int, d < 10) (hfrac : ∀ d ∈ frac, d < 10)
    {digits : Text} (hdigitsne : digits ≠ []) (hdigits : digits.all Char.isDigit = true) :
    Reads py (int.map Nat.digitChar ++ pointText frac ++ 'e' :: digits)
      ((literalValue py (int.map Nat.digitChar) (decide (frac ≠ [])) (frac.map Nat.digitChar)
        digits).map fun x => [.atom (.number x)]) := by
  obtain ⟨halpha, ⟨c, t, hfirst, hc⟩, t', d, hlast, hd⟩ := mantissa_cases hne hint hfrac
  have hsplit : t'.all (fun c => !c.isAlpha) = true ∧ d.isAlpha = false := by
    rw [hlast, List.all_append, Bool.and_eq_true] at halpha
    simpa using halpha
  refine ⟨t'.map .char ++ [.char d, .word ('e' :: digits)],
    t'.map .char ++ [.char d, .exponent digits], ?_, ?_⟩
  · rw [List.flatMap_append, raw_chars, hlast]
    simp [Piece.raw]
  · intro qs hqs
    obtain ⟨hword, hdigit, -, -⟩ := hqs.decoded.head
    refine ⟨?_, ?_, ?_⟩
    · intro hscanned
      rw [List.append_assoc]
      refine scanned_chars hsplit.1 ⟨hsplit.2, ?_, hqs.endsName, hscanned⟩
      simp [isName, nameTail_of_all (by decide) hdigits]
    · rw [decodedPieces_append _ hqs, decodedPieces_exponent t' hd hdigitsne hdigits]
    · obtain ⟨htake, hdrop⟩ := takeWhile_append_stop hdigits hdigit
      have hspan : spanExponent ('e' :: (digits ++ (decodedPieces qs).flatMap Piece.render)) =
          (digits, (decodedPieces qs).flatMap Piece.render) := by
        rw [spanExponent, htake, hdrop, if_neg hdigitsne]
      have htoken : numberToken py (c :: ((t ++ 'e' :: digits) ++
            (decodedPieces qs).flatMap Piece.render)) =
          (literalValue py (int.map Nat.digitChar) (decide (frac ≠ [])) (frac.map Nat.digitChar)
            digits).map fun x => (x, (decodedPieces qs).flatMap Piece.render) := by
        rw [List.append_assoc, ← List.cons_append, ← hfirst, List.append_assoc, List.cons_append,
          numberToken_eq py hint hfrac rfl (by simp), hspan, hword]
        rfl
      have htokens := tokenize_number py hc htoken
      rw [appendTokens_number, List.append_assoc, List.flatMap_append, render_chars,
        List.cons_append, List.flatMap_cons, Piece.render, ← List.append_assoc, ← hlast,
        List.cons_append, List.flatMap_cons, Piece.render, hfirst, List.cons_append]
      rw [List.append_assoc] at htokens
      exact htokens

end Number

theorem reads_number {s : Decimal.Spelling} (h : NumberSpelling s) :
    Reads py (unsignedText s) ((spelledValue py s).map fun x => [.atom (.number x)]) := by
  rw [unsignedText, ← List.append_assoc, spelledValue]
  cases s.exp with
  | none =>
    rw [exponentText, List.append_nil]
    exact reads_mantissa py h.int_ne h.int h.frac
  | some e =>
    have hdigits := digits_all e.natAbs
    have hdigitsne : (Numeral.digits 10 e.natAbs).map Nat.digitChar ≠ [] := by
      simpa using Numeral.digits_ne_nil (by decide) e.natAbs
    dsimp only
    by_cases hneg : e < 0
    · rw [exponentText, if_pos hneg, if_pos hneg]
      exact reads_negativeExponent py h.int_ne h.int h.frac hdigits
    · rw [exponentText, if_neg hneg, if_neg hneg]
      exact reads_exponent py h.int_ne h.int h.frac hdigitsne hdigits

/-! ## Texts one after the other -/

section Compose

variable {py} {text text' mid : Text} {toks toks' : Option (List PyToken)} {tok : PyToken}

theorem Separate.append {ps dps ps' dps' qs : List Piece} (h : Separate py ps dps toks (ps' ++ qs))
    (h' : Separate py ps' dps' toks' qs) :
    Separate py (ps ++ ps') (dps ++ dps') (appendTokens toks toks') qs := by
  obtain ⟨hscan, hdecode, hlex⟩ := h
  obtain ⟨hscan', hdecode', hlex'⟩ := h'
  refine ⟨?_, ?_, ?_⟩
  · intro hscanned
    rw [List.append_assoc]
    exact hscan (hscan' hscanned)
  · rw [List.append_assoc, hdecode, hdecode', List.append_assoc]
  · rw [List.append_assoc, ← hdecode', hlex, hdecode', hlex']
    cases toks with
    | none => rfl
    | some toks =>
      cases toks' with
      | none => rfl
      | some toks' =>
        simp only [appendTokens, Option.bind_some, Option.map_map, Option.map_some]
        congr 1
        funext l
        simp

theorem Reads.join (h : Reads py text toks) (hmid : Joins py mid tok)
    (h' : Reads py text' toks') :
    Reads py (text ++ (mid ++ text')) (appendTokens toks (appendTokens (some [tok]) toks')) := by
  obtain ⟨ps, dps, hraw, hsep⟩ := h
  obtain ⟨pm, dpm, hrawm, hbounded, hsepm⟩ := hmid
  obtain ⟨ps', dps', hraw', hsep'⟩ := h'
  refine ⟨ps ++ (pm ++ ps'), dps ++ (dpm ++ dps'), ?_, ?_⟩
  · rw [List.flatMap_append, List.flatMap_append, hraw, hrawm, hraw']
  · intro qs hqs
    have hrest := (hsepm (ps' ++ qs)).append (hsep' qs hqs)
    exact (hsep ((pm ++ ps') ++ qs) (by rw [List.append_assoc]; exact hbounded _)).append hrest

theorem Reads.close (h : Reads py text toks) (hmid : Joins py mid tok) :
    Reads py (text ++ mid) (appendTokens toks (some [tok])) := by
  obtain ⟨ps, dps, hraw, hsep⟩ := h
  obtain ⟨pm, dpm, hrawm, hbounded, hsepm⟩ := hmid
  refine ⟨ps ++ pm, dps ++ dpm, ?_, ?_⟩
  · rw [List.flatMap_append, hraw, hrawm]
  · intro qs _
    exact (hsep (pm ++ qs) (hbounded qs)).append (hsepm qs)

theorem Joins.before (hmid : Joins py mid tok) (h : Reads py text toks) :
    Reads py (mid ++ text) (appendTokens (some [tok]) toks) := by
  obtain ⟨pm, dpm, hrawm, -, hsepm⟩ := hmid
  obtain ⟨ps, dps, hraw, hsep⟩ := h
  refine ⟨pm ++ ps, dpm ++ dps, ?_, ?_⟩
  · rw [List.flatMap_append, hrawm, hraw]
  · intro qs hqs
    exact (hsepm (ps ++ qs)).append (hsep qs hqs)

end Compose

/-! ## Operators, brackets and keywords -/

theorem tokenize_blank (rest : Text) :
    tokenize (pyLexer py) (' ' :: rest) = tokenize (pyLexer py) rest := by
  have hlex : pyLexer py (' ' :: ([] ++ rest)) = some ([], rest) := rfl
  have hpiece := tokenize_piece hlex
  simpa using hpiece

theorem tokenize_char {c : Char} {rest : Text} {tok : PyToken}
    (h : pyLexer py (c :: rest) = some ([tok], rest)) :
    tokenize (pyLexer py) (c :: rest) = (tokenize (pyLexer py) rest).map (tok :: ·) := by
  have hlex : pyLexer py (c :: ([] ++ rest)) = some ([tok], rest) := h
  exact tokenize_piece hlex

theorem joins_op (op : BinOp) : Joins py (tokenText (.op op)) (.op op) := by
  have hlex : ∀ rest, tokenize (pyLexer py) (' ' :: (op.text ++ [' ']) ++ rest) =
      (tokenize (pyLexer py) rest).map (.op op :: ·) := by
    intro rest
    rw [← tokenize_blank py rest, List.cons_append, tokenize_blank, List.append_assoc]
    cases op with
    | _ => exact tokenize_char py rfl
  cases op with
  | _ => exact joins_chars py (by decide) (by decide) (by decide) hlex

theorem joins_lpar : Joins py (tokenText .lpar) .lpar :=
  joins_chars py (by decide) (by decide) (by decide) fun _ => tokenize_char py rfl

theorem joins_rpar : Joins py (tokenText .rpar) .rpar :=
  joins_chars py (by decide) (by decide) (by decide) fun _ => tokenize_char py rfl

theorem joins_comma : Joins py (tokenText .comma) .comma := by
  have hjoin : Joins py [',', ' '] .comma := by
    apply joins_chars py (by decide) (by decide) (by decide)
    intro rest
    rw [← tokenize_blank py rest]
    exact tokenize_char py rfl
  exact hjoin

/-- A keyword between blanks. -/
theorem joins_keyword {kw : Text} (h : kw ∈ keywords) {tok : PyToken}
    (htok : ∀ rest, wordToken kw rest = some ([tok], rest)) :
    Joins py (' ' :: (kw ++ [' '])) tok := by
  refine ⟨[.char ' ', .word kw, .char ' '], [.char ' ', .keyword kw, .char ' '], ?_, ?_, ?_⟩
  · simp [Piece.raw]
  · intro qs
    exact .inr ⟨' ', _, by decide, rfl⟩
  · intro qs
    refine ⟨?_, ?_, ?_⟩
    · intro hscanned
      exact ⟨rfl, isName_keyword h, endsName_cons (by decide) (by decide) _, rfl, hscanned⟩
    · simp only [List.cons_append, List.nil_append, decodedPieces_cons (c := ' ') rfl,
        decodedPieces_word, if_pos h]
    · have hword : EndsWord (' ' :: (decodedPieces qs).flatMap Piece.render) := rfl
      have hlex := pyLexer_keyword py h hword
      rw [htok] at hlex
      have hblank : tokenize (pyLexer py) (' ' :: (kw ++ ' ' ::
          (decodedPieces qs).flatMap Piece.render)) =
          (tokenize (pyLexer py) ((decodedPieces qs).flatMap Piece.render)).map (tok :: ·) := by
        rw [tokenize_blank, ← tokenize_blank py ((decodedPieces qs).flatMap Piece.render)]
        cases kw with
        | nil => cases isName_keyword h
        | cons c kw => exact tokenize_piece hlex
      exact hblank

theorem joins_if : Joins py (tokenText .if_) .if_ := by
  have hjoin : Joins py (' ' :: ("if".toList ++ [' '])) .if_ :=
    joins_keyword py (by decide) fun _ => rfl
  exact hjoin

theorem joins_else : Joins py (tokenText .else_) .else_ := by
  have hjoin : Joins py (' ' :: ("else".toList ++ [' '])) .else_ :=
    joins_keyword py (by decide) fun _ => rfl
  exact hjoin

end PmuEvents.Metric
