import PmuEvents.Metric.TokenEnds
set_option autoImplicit false

/-!
# Tokens of any metric's text

Of whatever pieces the regular expressions make of a text, a token takes whole pieces.
So the names in the tokens are those of the pieces: names as the first expression
matches them that are no keywords, names of literals, and hexadecimal numbers.
-/

namespace PmuEvents.Metric

open PmuEvents.Foundation

/-! ## Texts made of pieces -/

/-- A piece after all regular expressions. -/
def Piece.Decoded (p : Piece) : Prop := p.Ok ∧ ∀ name, p = .word name → name ∉ keywords

/-- A text that decoded pieces make. -/
def Rendered (t : Text) : Prop :=
  ∃ ps : List Piece, (∀ p ∈ ps, p.Decoded) ∧ t = ps.flatMap Piece.render

theorem decoded_decodedPieces {ps : List Piece} (h : Scanned ps) :
    ∀ p ∈ decodedPieces ps, p.Decoded := by
  intro p hp
  obtain ⟨q, hq, rfl⟩ := List.mem_map.mp hp
  have hok := ok_exponents (early_hexes (early_literals h.early)) q hq
  cases q with
  | word name =>
    rw [unwrapIn]
    split
    · rename_i hmem
      exact ⟨hmem, fun _ heq => by cases heq⟩
    · rename_i hmem
      refine ⟨hok, ?_⟩
      rintro _ ⟨⟩
      exact hmem
  | _ => exact ⟨hok, fun _ heq => by cases heq⟩

theorem rendered_pythonText (orig : Text) : Rendered (pythonText orig) := by
  obtain ⟨ps, hps, hraw⟩ := exists_scanned (strip orig)
  exact ⟨decodedPieces ps, decoded_decodedPieces hps, pythonText_eq hps hraw⟩

/-- Every piece other than a character begins with a letter. -/
theorem Piece.Ok.first {p : Piece} (h : p.Ok) {c : Char} {t rest : Text}
    (ht : p.render ++ rest = c :: t) :
    (p = .char c ∧ t = rest) ∨ c.isAlpha = true := by
  cases p with
  | char c' =>
    rw [Piece.render, List.singleton_append, List.cons.injEq] at ht
    obtain ⟨rfl, rfl⟩ := ht
    exact .inl ⟨rfl, rfl⟩
  | keyword kw =>
    have hall : keywords.all (fun kw => kw.head?.any Char.isAlpha) = true := by decide
    have hhead := List.all_eq_true.mp hall kw h
    cases kw with
    | nil => cases hhead
    | cons c' kw =>
      rw [Piece.render, List.cons_append, List.cons.injEq] at ht
      obtain ⟨rfl, -⟩ := ht
      exact .inr (by simpa using hhead)
  | _ =>
    obtain ⟨rfl, -⟩ := List.cons.inj ht
    exact .inr rfl

section Rendered

variable {c : Char} {t : Text}

theorem Rendered.first (h : Rendered (c :: t)) :
    ∃ (p : Piece) (rest : Text), p.Decoded ∧ Rendered rest ∧ c :: t = p.render ++ rest := by
  obtain ⟨ps, hps, ht⟩ := h
  cases ps with
  | nil => cases ht
  | cons p ps =>
    exact ⟨p, ps.flatMap Piece.render, hps p List.mem_cons_self,
      ⟨ps, fun q hq => hps q (List.mem_cons_of_mem p hq), rfl⟩, ht⟩

/-- A character that is no letter is a piece of its own. -/
theorem Rendered.tail (h : Rendered (c :: t)) (hc : c.isAlpha = false) : Rendered t := by
  obtain ⟨p, rest, hp, hrest, ht⟩ := h.first
  rcases hp.1.first ht.symm with ⟨-, rfl⟩ | halpha
  · exact hrest
  · rw [hc] at halpha
    cases halpha

theorem Rendered.dropDigits (h : Rendered t) : Rendered (t.dropWhile Char.isDigit) := by
  induction t with
  | nil => exact h
  | cons c t ih =>
    rw [List.dropWhile_cons]
    split
    · rename_i hc
      exact ih (h.tail (isAlpha_of_isDigit hc))
    · exact h

theorem Rendered.fraction (h : Rendered t) : Rendered (spanFraction t).2.2 := by
  unfold spanFraction
  split
  · exact (h.tail rfl).dropDigits
  · exact h

/-- Digits after an `e` are those of an exponent. -/
theorem Rendered.exponent (h : Rendered t) : Rendered (spanExponent t).2 := by
  unfold spanExponent
  split
  · rename_i t
    split
    · exact h
    · rename_i hdigits
      obtain ⟨p, rest, hp, hrest, ht⟩ := h.first
      cases p with
      | exponent digits =>
        rw [Piece.render, List.cons_append, List.cons.injEq] at ht
        obtain ⟨-, rfl⟩ := ht
        have hall := List.all_eq_true.mp hp.1.2
        have hdrop : (digits ++ rest).dropWhile Char.isDigit = rest.dropWhile Char.isDigit :=
          List.dropWhile_append_of_pos hall
        exact hdrop ▸ hrest.dropDigits
      | char c =>
        obtain ⟨rfl, -⟩ := List.cons.inj ht
        have hletter : Char.isAlpha 'e' = false := hp.1
        cases hletter
      | keyword kw =>
        -- the only keyword that begins with an `e` goes on with a letter
        have hall : keywords.all (fun kw => kw.head? ≠ some 'e' ||
            kw.tail.head?.any (fun c => !c.isDigit)) = true := by decide
        have hkw := List.all_eq_true.mp hall kw hp.1
        cases kw with
        | nil =>
          have hmem : [] ∈ keywords := hp.1
          exact absurd hmem (by decide)
        | cons c' kw =>
          cases kw with
          | nil =>
            obtain ⟨rfl, -⟩ := List.cons.inj ht
            cases hkw
          | cons d kw =>
            simp only [Piece.render, List.cons_append, List.cons.injEq] at ht
            obtain ⟨rfl, rfl⟩ := ht
            simp at hkw
            simp [hkw] at hdigits
      | _ => exact absurd (List.cons.inj ht).1 (by decide)
  · exact h

end Rendered

/-! ## Names in tokens -/

/-- A token as the decoder's text has it. -/
def TokenOk : PyToken → Prop
  | .atom (.event name) => EventText name
  | .atom (.literal value) => ∃ name, value = '#' :: name ∧ LiteralName name
  | _ => True

theorem tokenOk_of_value_eq_none {toks : List PyToken}
    (h : ∀ a, .atom a ∈ toks → a.value = none) : ∀ tok ∈ toks, TokenOk tok := by
  intro tok htok
  cases tok with
  | atom a =>
    have hvalue := h a htok
    cases a with
    | event name => cases hvalue
    | literal value => cases hvalue
    | _ => trivial
  | _ => trivial

/-- A name ends where its call does: no raw string literal reaches over it. -/
theorem stringArgument_name {name s t rest : Text} (hname : isName name = true)
    (h : stringArgument ('(' :: 'r' :: '"' :: (name ++ '"' :: ')' :: t)) = some (s, rest)) :
    s = name ∧ rest = t ∧ rawOk name = true := by
  obtain ⟨heq, hraw⟩ := stringArgument_raw.mp h
  obtain ⟨w, hw, hw'⟩ | ⟨w, hw, hw'⟩ := List.append_eq_append_iff.mp heq
  · match w with
    | [] =>
      rw [List.append_nil] at hw
      simp only [List.nil_append, List.cons.injEq, true_and] at hw'
      exact ⟨hw, hw'.symm, hw ▸ hraw⟩
    | c :: w =>
      obtain rfl : '"' = c := (List.cons.inj hw').1
      -- the quote in the string would need a backslash that the name does not leave it
      rw [hw] at hraw
      have hquote := escapes_of_append (isName_iff.mp hname).1 hraw
      rw [escapes_cons (by decide)] at hquote
      cases hquote
  · match w with
    | [] =>
      rw [List.append_nil] at hw
      simp only [List.nil_append, List.cons.injEq, true_and] at hw'
      exact ⟨hw.symm, hw', hw.symm ▸ hraw⟩
    | [c] => simp at hw'
    | c :: d :: w =>
      simp only [List.cons_append, List.cons.injEq] at hw'
      obtain ⟨rfl, rfl, -⟩ := hw'
      exact absurd hw (name_ne_close hname s w)

/-- An ordinary string literal without escape sequences has no quote in it. -/
theorem not_mem_of_plainOk {s : Text} (h : plainOk s = true) : '"' ∉ s := by
  induction h using escapes_induction with
  | nil => simp
  | pair d s hd hs ih =>
    rw [List.mem_cons, List.mem_cons, not_or, not_or]
    refine ⟨by decide, ?_, ih⟩
    rintro rfl
    cases hd
  | cons c s hc hplain hs ih =>
    rw [List.mem_cons, not_or]
    refine ⟨?_, ih⟩
    rintro rfl
    cases hplain

theorem stringArgument_literal {name s t rest : Text} (hname : name.all unquoted = true)
    (h : stringArgument ('(' :: '"' :: '#' :: (name ++ '"' :: ')' :: t)) = some (s, rest)) :
    s = '#' :: name ∧ rest = t ∧ plainOk name = true := by
  obtain ⟨heq, hplain⟩ := stringArgument_plain.mp h
  have hquote : '"' ∉ '#' :: name := by
    rw [List.mem_cons, not_or]
    refine ⟨by decide, ?_⟩
    intro hmem
    cases List.all_eq_true.mp hname '"' hmem
  rw [← List.cons_append] at heq
  obtain ⟨rfl, hrest⟩ := split_unique hquote (not_mem_of_plainOk hplain) heq
  rw [plainOk_cons (by decide), Bool.and_eq_true] at hplain
  exact ⟨rfl, (List.cons.inj hrest).2.symm, hplain.2⟩

/-- The words that are tokens. -/
def knownWords : List Text := "Event".toList :: "Literal".toList :: keywords

section Lexer

variable {py : PyFloat}

theorem wordToken_known {w rest rest' : Text} {toks : List PyToken}
    (h : wordToken w rest = some (toks, rest')) : w ∈ knownWords := by
  rcases wordToken_cases h with ⟨hw, -⟩ | ⟨rfl, -⟩ | ⟨rfl, -⟩
  · simp [knownWords, hw]
  · simp [knownWords]
  · simp [knownWords]

/-- A keyword is a token of its own, since no word that is a token goes on from it. -/
theorem wordToken_keyword {kw rest rest' : Text} {toks : List PyToken} (hkw : kw ∈ keywords)
    (h : wordToken ((kw ++ rest).takeWhile isWordChar) ((kw ++ rest).dropWhile isWordChar) =
      some (toks, rest')) : rest' = rest ∧ ∀ a, .atom a ∈ toks → a.value = none := by
  have hword : ∀ c ∈ kw, isWordChar c = true := by
    have hall : keywords.all (fun kw => kw.all isWordChar) = true := by decide
    exact List.all_eq_true.mp (List.all_eq_true.mp hall kw hkw)
  have halone : keywords.all (fun kw => knownWords.all fun w =>
      !kw.isPrefixOf w || (w = kw && w ∉ ["Event".toList, "Literal".toList])) = true := by decide
  rw [List.takeWhile_append_of_pos hword, List.dropWhile_append_of_pos hword] at h
  have hknown := List.all_eq_true.mp (List.all_eq_true.mp halone kw hkw) _ (wordToken_known h)
  have hpre : kw.isPrefixOf (kw ++ rest.takeWhile isWordChar) = true := by simp
  rw [hpre, Bool.not_true, Bool.false_or, Bool.and_eq_true, decide_eq_true_eq,
    decide_eq_true_eq] at hknown
  have hend : rest.takeWhile isWordChar = [] := by simpa using hknown.1
  have hrest : rest.dropWhile isWordChar = rest := by
    have hsplit := List.takeWhile_append_dropWhile (p := isWordChar) (l := rest)
    rwa [hend] at hsplit
  rcases wordToken_cases h with ⟨-, rfl, hnone⟩ | ⟨hw, -⟩ | ⟨hw, -⟩
  · exact ⟨hrest, hnone⟩
  · exact absurd (by simp [hw]) hknown.2
  · exact absurd (by simp [hw]) hknown.2

/-- No word that is a token begins with an underscore, or with an `e` and a digit. -/
theorem wordToken_eq_none {c : Char} {t rest : Text}
    (hc : c = '_' ∨ (c = 'e' ∧ t.head?.any Char.isDigit = true)) :
    wordToken ((c :: t).takeWhile isWordChar) rest = none := by
  cases h : wordToken ((c :: t).takeWhile isWordChar) rest with
  | none => rfl
  | some r =>
    exfalso
    have hall : knownWords.all (fun w => w.head? ≠ some '_' &&
        (w.head? ≠ some 'e' || w.tail.head?.any (fun c => !c.isDigit))) = true := by decide
    have hknown := List.all_eq_true.mp hall _ (wordToken_known h)
    rcases hc with rfl | ⟨rfl, ht⟩
    · simp [isWordChar] at hknown
    · cases t with
      | nil => cases ht
      | cons d t =>
        have hd : d.isDigit = true := ht
        have hword : isWordChar d = true := by simp [isWordChar, Char.isAlphanum, hd]
        have he : isWordChar 'e' = true := rfl
        simp [he, hword, hd] at hknown

/-- A token takes whole pieces, and its name is that of a piece. -/
theorem Rendered.step {c : Char} {t rest : Text} {toks : List PyToken} (h : Rendered (c :: t))
    (hlex : pyLexer py (c :: t) = some (toks, rest)) :
    Rendered rest ∧ ∀ tok ∈ toks, TokenOk tok := by
  obtain ⟨p, after, hp, hafter, ht⟩ := h.first
  cases p with
  | word name =>
    have hrender : c :: t = eventOpen ++ (name ++ '"' :: ')' :: after) := by
      rw [ht]
      simp [Piece.render, callClose]
    rw [hrender, pyLexer_eventOpen] at hlex
    obtain ⟨⟨s, r⟩, hs, hr⟩ := Option.map_eq_some_iff.mp hlex
    simp only [Prod.mk.injEq] at hr
    obtain ⟨rfl, rfl⟩ := hr
    obtain ⟨rfl, rfl, hraw⟩ := stringArgument_name hp.1 hs
    refine ⟨hafter, ?_⟩
    intro tok htok
    obtain rfl := List.mem_singleton.mp htok
    exact .inl ⟨hp.1, hraw, hp.2 _ rfl⟩
  | literal name =>
    have hrender : c :: t = literalOpen ++ ('#' :: (name ++ '"' :: ')' :: after)) := by
      rw [ht]
      simp [Piece.render, callClose]
    rw [hrender, pyLexer_literalOpen] at hlex
    obtain ⟨⟨s, r⟩, hs, hr⟩ := Option.map_eq_some_iff.mp hlex
    simp only [Prod.mk.injEq] at hr
    obtain ⟨rfl, rfl⟩ := hr
    obtain ⟨rfl, rfl, hplain⟩ := stringArgument_literal hp.1.2 hs
    refine ⟨hafter, ?_⟩
    intro tok htok
    obtain rfl := List.mem_singleton.mp htok
    exact ⟨name, rfl, hp.1.1, hp.1.2, hplain⟩
  | hex digits =>
    rw [ht, pyLexer_hex py hp.1] at hlex
    simp only [Option.some.injEq, Prod.mk.injEq] at hlex
    obtain ⟨rfl, rfl⟩ := hlex
    refine ⟨hafter, ?_⟩
    intro tok htok
    obtain rfl := List.mem_singleton.mp htok
    exact .inr ⟨digits, rfl, hp.1⟩
  | keyword kw =>
    have halpha : c.isAlpha = true := by
      rcases hp.1.first ht.symm with ⟨heq, -⟩ | halpha
      · cases heq
      · exact halpha
    rw [pyLexer_alpha py halpha, ht] at hlex
    obtain ⟨rfl, hnone⟩ := wordToken_keyword hp.1 hlex
    exact ⟨hafter, tokenOk_of_value_eq_none hnone⟩
  | exponent digits =>
    rw [Piece.render, List.cons_append, List.cons.injEq] at ht
    obtain ⟨rfl, rfl⟩ := ht
    have hdigit : (digits ++ after).head?.any Char.isDigit = true := by
      obtain ⟨hne, hall⟩ := hp.1
      cases digits with
      | nil => exact absurd rfl hne
      | cons d digits =>
        rw [List.all_cons, Bool.and_eq_true] at hall
        exact hall.1
    rw [pyLexer_alpha py (by decide), wordToken_eq_none (.inr ⟨rfl, hdigit⟩)] at hlex
    cases hlex
  | char c' =>
    rw [Piece.render, List.singleton_append, List.cons.injEq] at ht
    obtain ⟨rfl, rfl⟩ := ht
    have halpha : c.isAlpha = false := hp.1
    have hsingle : ∀ {toks'}, (∀ a, OpToken.atom a ∈ toks' → a.value = none) →
        some (toks', t) = some (toks, rest) → Rendered rest ∧ ∀ tok ∈ toks, TokenOk tok := by
      intro toks' hnone heq
      simp only [Option.some.injEq, Prod.mk.injEq] at heq
      obtain ⟨rfl, rfl⟩ := heq
      exact ⟨hafter, tokenOk_of_value_eq_none hnone⟩
    rw [pyLexer] at hlex
    split at hlex
    · exact hsingle (by simp) hlex
    split at hlex
    · exact hsingle (by simp) hlex
    split at hlex
    · exact hsingle (by simp) hlex
    split at hlex
    · exact hsingle (by simp) hlex
    split at hlex
    · obtain ⟨⟨x, r⟩, hx, hr⟩ := Option.map_eq_some_iff.mp hlex
      simp only [Prod.mk.injEq] at hr
      obtain ⟨rfl, rfl⟩ := hr
      refine ⟨?_, ?_⟩
      · rw [numberToken_rest hx]
        exact h.dropDigits.fraction.exponent
      · intro tok htok
        obtain rfl := List.mem_singleton.mp htok
        trivial
    split at hlex
    · rename_i hc
      rw [wordToken_eq_none (.inl (by simpa [halpha] using hc))] at hlex
      cases hlex
    · obtain ⟨op, -, hr⟩ := Option.map_eq_some_iff.mp hlex
      exact hsingle (by simp) (congrArg some hr)

/-- The names in the tokens of a text made of pieces are names of pieces. -/
theorem Rendered.tokens {t : Text} {toks : List PyToken} (h : Rendered t)
    (htoks : tokenize (pyLexer py) t = some toks) : ∀ tok ∈ toks, TokenOk tok := by
  have hgoal : Rendered t → ∀ tok ∈ toks, TokenOk tok := by
    refine tokenize_induction
      (motive := fun t toks => Rendered t → ∀ tok ∈ toks, TokenOk tok)
      (advances_pyLexer py) ?_ ?_ htoks
    · simp
    · intro c t toks rest toks' hlex ih hrendered tok htok
      obtain ⟨hrest, hok⟩ := hrendered.step hlex
      rcases List.mem_append.mp htok with htok | htok
      · exact hok tok htok
      · exact ih hrest tok htok
  exact hgoal h

end Lexer

end PmuEvents.Metric
