import PmuEvents.Metric.Reparse
set_option autoImplicit false

/-!
# What Python's tokens take from a text

Every token takes the beginning of the text it is read from, its last character is no
backslash, and the name in it is part of what it takes.  In the text that the regular
expressions make, a token takes whole pieces, so the names are names of the pieces.
-/

namespace PmuEvents.Metric

open PmuEvents.Foundation

/-! ## The part of the text that is taken -/

/-- The characters of numbers. -/
def isNumberChar (c : Char) : Bool := c.isDigit || c = '.' || c = 'e'

theorem all_isNumberChar_digits (t : Text) :
    (t.takeWhile Char.isDigit).all isNumberChar = true := by
  rw [List.all_eq_true]
  intro c hc
  have hdigit := List.all_eq_true.mp (List.all_takeWhile (l := t) (p := Char.isDigit)) c hc
  rw [isNumberChar, hdigit]
  rfl

theorem spanFraction_split (t : Text) :
    ∃ s, t = s ++ (spanFraction t).2.2 ∧ s.all isNumberChar = true := by
  unfold spanFraction
  split
  · rename_i t
    refine ⟨'.' :: t.takeWhile Char.isDigit, ?_, ?_⟩
    · rw [List.cons_append, List.takeWhile_append_dropWhile]
    · rw [List.all_cons, all_isNumberChar_digits]
      rfl
  · exact ⟨[], rfl, rfl⟩

theorem spanExponent_split (t : Text) :
    ∃ s, t = s ++ (spanExponent t).2 ∧ s.all isNumberChar = true := by
  unfold spanExponent
  split
  · rename_i t
    split
    · exact ⟨[], rfl, rfl⟩
    · refine ⟨'e' :: t.takeWhile Char.isDigit, ?_, ?_⟩
      · rw [List.cons_append, List.takeWhile_append_dropWhile]
      · rw [List.all_cons, all_isNumberChar_digits]
        rfl
  · exact ⟨[], rfl, rfl⟩

section Lexer

variable {py : PyFloat}

/-- What follows a numeric literal. -/
theorem numberToken_rest {t rest : Text} {x : PyValue} (h : numberToken py t = some (x, rest)) :
    rest = (spanExponent (spanFraction (t.dropWhile Char.isDigit)).2.2).2 := by
  unfold numberToken at h
  dsimp only at h
  split at h
  · cases h
  · obtain ⟨v, -, hv⟩ := Option.map_eq_some_iff.mp h
    exact (Prod.mk.inj hv).2.symm

theorem numberToken_split {c : Char} {t rest : Text} {x : PyValue}
    (hc : c.isDigit = true ∨ c = '.') (h : numberToken py (c :: t) = some (x, rest)) :
    ∃ s, t = s ++ rest ∧ (c :: s).all isNumberChar = true := by
  rw [numberToken_rest h]
  rcases hc with hc | rfl
  · obtain ⟨sf, hf, hallf⟩ := spanFraction_split (t.dropWhile Char.isDigit)
    obtain ⟨se, he, halle⟩ := spanExponent_split (spanFraction (t.dropWhile Char.isDigit)).2.2
    have hdrop : (c :: t).dropWhile Char.isDigit = t.dropWhile Char.isDigit := by
      rw [List.dropWhile_cons, hc, if_pos rfl]
    refine ⟨t.takeWhile Char.isDigit ++ (sf ++ se), ?_, ?_⟩
    · rw [hdrop, List.append_assoc, List.append_assoc, ← he, ← hf,
        List.takeWhile_append_dropWhile]
    · rw [List.all_cons, List.all_append, List.all_append, all_isNumberChar_digits, hallf, halle,
        isNumberChar, hc]
      rfl
  · obtain ⟨se, he, halle⟩ := spanExponent_split (t.dropWhile Char.isDigit)
    have hfraction : (spanFraction (('.' :: t).dropWhile Char.isDigit)).2.2 =
        t.dropWhile Char.isDigit := rfl
    refine ⟨t.takeWhile Char.isDigit ++ se, ?_, ?_⟩
    · rw [hfraction, List.append_assoc, ← he, List.takeWhile_append_dropWhile]
    · rw [List.all_cons, List.all_append, all_isNumberChar_digits, halle]
      rfl

theorem stringArgument_split {t s rest : Text} (h : stringArgument t = some (s, rest)) :
    ∃ pre, t = pre ++ (s ++ '"' :: ')' :: rest) := by
  unfold stringArgument at h
  split at h
  · rename_i t
    obtain ⟨rfl, -⟩ := stringArgument_raw.mp h
    exact ⟨['(', 'r', '"'], rfl⟩
  · rename_i t _
    obtain ⟨rfl, -⟩ := stringArgument_plain.mp h
    exact ⟨['(', '"'], rfl⟩
  · cases h

/-- A word is a keyword, or a call with one string literal. -/
theorem wordToken_cases {w rest rest' : Text} {toks : List PyToken}
    (h : wordToken w rest = some (toks, rest')) :
    (w ∈ keywords ∧ rest' = rest ∧ ∀ a, .atom a ∈ toks → a.value = none) ∨
      (w = "Event".toList ∧ ∃ s, stringArgument rest = some (s, rest') ∧
        toks = [.atom (.event s)]) ∨
      (w = "Literal".toList ∧ ∃ s, stringArgument rest = some (s, rest') ∧
        toks = [.atom (.literal s)]) := by
  have hfn : ∀ {a}, knownFunctions.lookup w = some a → w ∈ keywords ∧ a.value = none := by
    intro a ha
    have hall : knownFunctions.all (fun p => keywords.contains p.1 && p.2.value.isNone) = true := by
      decide
    obtain ⟨l, l', hl, -⟩ := List.lookup_eq_some_iff.mp ha
    have hmem : (w, a) ∈ knownFunctions := by
      rw [hl]
      exact List.mem_append_right l List.mem_cons_self
    simpa using List.all_eq_true.mp hall _ hmem
  rw [wordToken] at h
  split at h
  · rename_i hw
    simp only [Option.some.injEq, Prod.mk.injEq] at h
    obtain ⟨rfl, rfl⟩ := h
    exact .inl ⟨by rw [hw]; decide, rfl, by simp⟩
  split at h
  · rename_i hw
    simp only [Option.some.injEq, Prod.mk.injEq] at h
    obtain ⟨rfl, rfl⟩ := h
    exact .inl ⟨by rw [hw]; decide, rfl, by simp⟩
  split at h
  · rename_i hw
    obtain ⟨⟨s, r⟩, hs, hr⟩ := Option.map_eq_some_iff.mp h
    simp only [Prod.mk.injEq] at hr
    obtain ⟨rfl, rfl⟩ := hr
    exact .inr (.inl ⟨hw, s, hs, rfl⟩)
  split at h
  · rename_i hw
    obtain ⟨⟨s, r⟩, hs, hr⟩ := Option.map_eq_some_iff.mp h
    simp only [Prod.mk.injEq] at hr
    obtain ⟨rfl, rfl⟩ := hr
    exact .inr (.inr ⟨hw, s, hs, rfl⟩)
  · obtain ⟨a, ha, hr⟩ := Option.map_eq_some_iff.mp h
    simp only [Prod.mk.injEq] at hr
    obtain ⟨rfl, rfl⟩ := hr
    obtain ⟨hw, hnone⟩ := hfn ha
    exact .inl ⟨hw, rfl, by simpa using hnone⟩

/-- The name in a token. -/
def tokenName : PyToken → Text
  | .atom (.event name) => name
  | .atom (.literal value) => value
  | _ => []

theorem tokenName_of_value_eq_none {toks : List PyToken}
    (h : ∀ a, .atom a ∈ toks → a.value = none) : toks.flatMap tokenName = [] := by
  rw [List.flatMap_eq_nil_iff]
  intro tok htok
  cases tok with
  | atom a =>
    have hvalue := h a htok
    cases a <;> first | rfl | cases hvalue
  | _ => rfl

theorem exists_concat_of_all {q : Char → Bool} (hq : q '\\' = false) {c : Char} {s : Text}
    (h : (c :: s).all q = true) : ∃ t d, c :: s = t ++ [d] ∧ d ≠ '\\' := by
  rcases List.eq_nil_or_concat' (c :: s) with hnil | ⟨t, d, ht⟩
  · cases hnil
  · refine ⟨t, d, ht, ?_⟩
    rintro rfl
    rw [List.all_eq_true] at h
    have hslash := h '\\' (by simp [ht])
    rw [hq] at hslash
    cases hslash

/-- What a token takes: its last character is no backslash, and it has the characters
of the token's name. -/
def Takes (t : Text) (toks : List PyToken) (rest : Text) : Prop :=
  ∃ s d, t = s ++ d :: rest ∧ d ≠ '\\' ∧ (toks.flatMap tokenName).Sublist s

theorem Takes.of_all {q : Char → Bool} (hq : q '\\' = false) {c : Char} {s rest : Text}
    {toks : List PyToken} (h : (c :: s).all q = true) (hname : toks.flatMap tokenName = []) :
    Takes (c :: s ++ rest) toks rest := by
  obtain ⟨t, d, ht, hd⟩ := exists_concat_of_all hq h
  refine ⟨t, d, ?_, hd, ?_⟩
  · rw [ht, List.append_assoc]
    rfl
  · rw [hname]
    exact List.nil_sublist t

theorem Takes.of_string {t pre s rest : Text} {toks : List PyToken}
    (ht : t = pre ++ (s ++ '"' :: ')' :: rest)) (hname : toks.flatMap tokenName = s) :
    Takes t toks rest := by
  refine ⟨pre ++ (s ++ ['"']), ')', ?_, by decide, ?_⟩
  · rw [ht]
    simp
  · rw [hname]
    exact (List.sublist_append_left s ['"']).trans (List.sublist_append_right pre _)

theorem takes_wordToken {c : Char} {t rest : Text} {toks : List PyToken}
    (hc : isWordChar c = true)
    (h : wordToken ((c :: t).takeWhile isWordChar) ((c :: t).dropWhile isWordChar) =
      some (toks, rest)) : Takes (c :: t) toks rest := by
  have hsplit : c :: t = (c :: t.takeWhile isWordChar) ++ (c :: t).dropWhile isWordChar := by
    rw [List.dropWhile_cons, hc, if_pos rfl, List.cons_append, List.takeWhile_append_dropWhile]
  rcases wordToken_cases h with ⟨-, rfl, hnone⟩ | ⟨-, s, hs, rfl⟩ | ⟨-, s, hs, rfl⟩
  · have hall : (c :: t.takeWhile isWordChar).all isWordChar = true := by
      rw [List.all_cons, hc, List.all_takeWhile]
      rfl
    have htakes : Takes (_ ++ (c :: t).dropWhile isWordChar) toks _ :=
      Takes.of_all (by decide) hall (tokenName_of_value_eq_none hnone)
    rw [← hsplit] at htakes
    exact htakes
  · obtain ⟨pre, hpre⟩ := stringArgument_split hs
    rw [hpre, ← List.append_assoc] at hsplit
    exact Takes.of_string hsplit (by simp [tokenName])
  · obtain ⟨pre, hpre⟩ := stringArgument_split hs
    rw [hpre, ← List.append_assoc] at hsplit
    exact Takes.of_string hsplit (by simp [tokenName])

/-- What the lexer takes of a text. -/
theorem takes_pyLexer {c : Char} {t rest : Text} {toks : List PyToken}
    (h : pyLexer py (c :: t) = some (toks, rest)) : Takes (c :: t) toks rest := by
  have hsingle : ∀ {toks'}, c ≠ '\\' → toks'.flatMap tokenName = [] →
      some (toks', t) = some (toks, rest) → Takes (c :: t) toks rest := by
    intro toks' hc hname heq
    simp only [Option.some.injEq, Prod.mk.injEq] at heq
    obtain ⟨rfl, rfl⟩ := heq
    exact ⟨[], c, rfl, hc, by rw [hname]⟩
  rw [pyLexer] at h
  split at h
  · rename_i hc
    refine hsingle ?_ rfl h
    rcases hc with rfl | rfl | rfl <;> decide
  split at h
  · rename_i hc
    exact hsingle (by rw [hc]; decide) rfl h
  split at h
  · rename_i hc
    exact hsingle (by rw [hc]; decide) rfl h
  split at h
  · rename_i hc
    exact hsingle (by rw [hc]; decide) rfl h
  split at h
  · rename_i hc
    obtain ⟨⟨x, r⟩, hx, hr⟩ := Option.map_eq_some_iff.mp h
    simp only [Prod.mk.injEq] at hr
    obtain ⟨rfl, rfl⟩ := hr
    obtain ⟨s, rfl, hall⟩ := numberToken_split (by simpa using hc) hx
    exact Takes.of_all (by decide) hall rfl
  split at h
  · rename_i hc
    apply takes_wordToken _ h
    rcases hc with hc | rfl
    · simp [isWordChar, Char.isAlphanum, hc]
    · rfl
  · obtain ⟨op, hop, hr⟩ := Option.map_eq_some_iff.mp h
    refine hsingle ?_ rfl (congrArg some hr)
    rintro rfl
    cases hop

theorem advances_pyLexer (py : PyFloat) : Advances (pyLexer py) := by
  intro c t toks rest h
  obtain ⟨s, d, hs, -, -⟩ := takes_pyLexer h
  cases s with
  | nil => exact ⟨[], (List.cons.inj hs).2⟩
  | cons c' s => exact ⟨s ++ [d], by rw [(List.cons.inj hs).2]; simp⟩

/-- The names in the tokens come from the text. -/
theorem sublist_tokenName {t : Text} {toks : List PyToken}
    (h : tokenize (pyLexer py) t = some toks) : (toks.flatMap tokenName).Sublist t := by
  refine tokenize_induction (motive := fun t toks => (toks.flatMap tokenName).Sublist t)
    (advances_pyLexer py) ?_ ?_ h
  · exact List.Sublist.refl []
  · intro c t toks rest toks' hlex ih
    obtain ⟨u, d, hu, -, hname⟩ := takes_pyLexer hlex
    rw [hu, List.flatMap_append]
    exact hname.append (ih.cons d)

end Lexer

end PmuEvents.Metric
