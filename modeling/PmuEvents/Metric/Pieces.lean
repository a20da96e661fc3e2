import PmuEvents.Metric.Names
set_option autoImplicit false

/-!
# The later regular expressions

Each of the later expressions looks for a call of `Event` that the first one wrote,
with at most a `#`, a `0` or digits before it.  No such call begins inside a name, so
an expression changes whole pieces only.
-/

namespace PmuEvents.Metric

open PmuEvents.Foundation

/-! ## Where calls of Event begin -/

/-- What `[^"]` matches. -/
def unquoted (c : Char) : Bool := c ≠ '"'

/-- The piece holds what it should. -/
def Piece.Ok : Piece → Prop
  | char c => c.isAlpha = false
  | word name => isName name = true
  | literal name => isName name = true ∧ name.all unquoted = true
  | hex digits => digits.all isHexDigit = true
  | exponent digits => digits ≠ [] ∧ digits.all Char.isDigit = true
  | keyword kw => kw ∈ keywords

/-- Text without a call of `Event` in it, and a closing bracket after it, begins no
such call, also not with other text before the call. -/
theorem not_open {s pre suf before rest after : Text} (hs : ¬ eventOpen <:+: s)
    (hsplit : s = pre ++ suf) (hbefore : ')' ∉ before) :
    suf ++ ')' :: rest ≠ before ++ (eventOpen ++ after) := by
  intro heq
  have hinfix : ∀ w, suf = before ++ eventOpen ++ w → False := by
    intro w hw
    exact hs ⟨pre ++ before, w, by rw [hsplit, hw]; simp only [List.append_assoc]⟩
  rw [← List.append_assoc] at heq
  obtain ⟨w, hw, hw'⟩ | ⟨w, hw, -⟩ := List.append_eq_append_iff.mp heq
  · cases w with
    | nil => exact hinfix [] (by rw [hw, List.append_nil, List.append_nil])
    | cons c w =>
      obtain rfl : ')' = c := (List.cons.inj hw').1
      have hmem : ')' ∈ before ++ eventOpen := by simp [hw]
      rcases List.mem_append.mp hmem with hmem | hmem
      · exact hbefore hmem
      · exact absurd hmem (by decide)
  · exact hinfix w hw

/-- A name has no bracket right after a `t`, so it holds no call. -/
theorem not_infix_name {name : Text} (h : isName name = true) :
    ¬ eventOpen <:+: name ++ ['"'] := by
  rintro ⟨pre, suf, heq⟩
  have hparen : ∀ after, name ≠ (pre ++ ['E', 'v', 'e', 'n']) ++ 't' :: '(' :: after := by
    intro after hname
    exact absurd (isName_paren h hname (by decide)) (by decide)
  rcases List.eq_nil_or_concat suf with rfl | ⟨suf, x, rfl⟩
  · have hend : (pre ++ ['E', 'v', 'e', 'n', 't', '(', 'r']) ++ ['"'] = name ++ ['"'] := by
      rw [← heq]
      simp [eventOpen]
    exact hparen ['r'] (by rw [← List.append_cancel_right hend]; simp)
  · have hend : (pre ++ eventOpen ++ suf) ++ [x] = name ++ ['"'] := by
      rw [← heq]
      simp
    have hname := (List.append_inj' hend rfl).1
    exact hparen ('r' :: '"' :: suf) (by rw [← hname]; simp [eventOpen])

/-- A call begins with its first letter. -/
theorem not_infix_cons {c : Char} {s : Text} (hc : c ≠ 'E') (hs : ¬ eventOpen <:+: s) :
    ¬ eventOpen <:+: c :: s := by
  rw [List.infix_cons_iff, not_or]
  refine ⟨?_, hs⟩
  rintro ⟨suf, heq⟩
  exact hc (List.cons.inj heq).1.symm

/-- The call of a name holds no other call. -/
theorem not_infix_word {name : Text} (h : isName name = true) :
    ¬ eventOpen <:+: eventOpen.tail ++ (name ++ ['"']) := by
  have hname := not_infix_name h
  iterate 7 refine not_infix_cons (by decide) ?_
  exact hname

theorem not_infix_literal {name : Text} (h : isName name = true) :
    ¬ eventOpen <:+: literalOpen ++ '#' :: (name ++ ['"']) := by
  have hname := not_infix_name h
  iterate 10 refine not_infix_cons (by decide) ?_
  exact hname

/-- Hexadecimal digits hold no call: they have no `v`. -/
theorem not_infix_hex {digits : Text} (h : digits.all isHexDigit = true) :
    ¬ eventOpen <:+: hexOpen ++ (digits ++ ['"']) := by
  have hdigits : ¬ eventOpen <:+: digits ++ ['"'] := by
    intro hinfix
    have hmem : 'v' ∈ digits ++ ['"'] := hinfix.subset (by decide)
    rcases List.mem_append.mp hmem with hmem | hmem
    · exact absurd (List.all_eq_true.mp h 'v' hmem) (by decide)
    · simp at hmem
  have htail : ¬ eventOpen <:+: hexOpen.tail ++ (digits ++ ['"']) := by
    iterate 8 refine not_infix_cons (by decide) ?_
    exact hdigits
  rw [hexOpen, List.cons_append, List.infix_cons_iff, not_or]
  refine ⟨?_, htail⟩
  rintro ⟨suf, heq⟩
  simp [eventOpen] at heq

/-! ## What an expression copies -/

/-- The matches of a pattern have a call of `Event` in them, and no closing bracket
before it. -/
def Opens (pattern : Pattern Char) : Prop :=
  ∀ t, pattern t ≠ none → ∃ before after, t = before ++ (eventOpen ++ after) ∧ ')' ∉ before

section Copy

variable {pattern : Pattern Char}

theorem Opens.copies (h : Opens pattern) {s : Text} (hs : ¬ eventOpen <:+: s) (rest : Text) :
    substituteAll pattern (s ++ ')' :: rest) = s ++ ')' :: substituteAll pattern rest := by
  have hcopy : substituteAll pattern ((s ++ [')']) ++ rest) =
      (s ++ [')']) ++ substituteAll pattern rest := by
    apply substituteAll_append
    intro pre c suf hsplit
    by_contra hmatch
    obtain ⟨before, after, heq, hbefore⟩ := h _ hmatch
    rcases List.eq_nil_or_concat suf with rfl | ⟨suf, x, rfl⟩
    · obtain ⟨rfl, hc⟩ := List.append_inj' hsplit rfl
      obtain rfl := (List.cons.inj hc).1
      exact not_open hs (List.append_nil s).symm hbefore heq
    · have hsplit' : s ++ [')'] = (pre ++ c :: suf) ++ [x] := by
        rw [hsplit]
        simp
      obtain ⟨hs', hx⟩ := List.append_inj' hsplit' rfl
      obtain rfl := (List.cons.inj hx).1
      have heq' : (c :: suf) ++ ')' :: rest = before ++ (eventOpen ++ after) := by
        rw [← heq]
        simp
      exact not_open hs hs' hbefore heq'
  simpa using hcopy

theorem Opens.copies_word (h : Opens pattern) {name : Text} (hname : isName name = true)
    {rest : Text} (hfirst : pattern ((Piece.word name).render ++ rest) = none) :
    substituteAll pattern ((Piece.word name).render ++ rest) =
      (Piece.word name).render ++ substituteAll pattern rest := by
  have htail := h.copies (not_infix_word hname) rest
  have hrender : ∀ rest, (Piece.word name).render ++ rest =
      'E' :: ((eventOpen.tail ++ (name ++ ['"'])) ++ ')' :: rest) := by
    intro rest
    simp [Piece.render, eventOpen, callClose]
  rw [hrender] at hfirst
  rw [hrender, substituteAll_cons hfirst, htail, hrender]

theorem Opens.copies_literal (h : Opens pattern) {name : Text} (hname : isName name = true)
    (rest : Text) :
    substituteAll pattern ((Piece.literal name).render ++ rest) =
      (Piece.literal name).render ++ substituteAll pattern rest := by
  have hcopy := h.copies (not_infix_literal hname) rest
  have hrender : ∀ rest, (Piece.literal name).render ++ rest =
      (literalOpen ++ '#' :: (name ++ ['"'])) ++ ')' :: rest := by
    intro rest
    simp [Piece.render, callClose]
  rw [hrender, hcopy, hrender]

theorem Opens.copies_hex (h : Opens pattern) {digits : Text}
    (hdigits : digits.all isHexDigit = true) (rest : Text) :
    substituteAll pattern ((Piece.hex digits).render ++ rest) =
      (Piece.hex digits).render ++ substituteAll pattern rest := by
  have hcopy := h.copies (not_infix_hex hdigits) rest
  have hrender : ∀ rest, (Piece.hex digits).render ++ rest =
      (hexOpen ++ (digits ++ ['"'])) ++ ')' :: rest := by
    intro rest
    simp [Piece.render, callClose]
  rw [hrender, hcopy, hrender]

end Copy

/-- A run of characters that has to reach the end of a name reaches it, or what is
looked for after it is not there. -/
theorem afterWord_callClose {q : Char → Bool} (hq : q '"' = false) {s : Text}
    (hs : ∀ pre suf, s ≠ pre ++ '"' :: ')' :: suf) (rest : Text) :
    afterWord callClose ((s ++ (callClose ++ rest)).dropWhile q) =
      if s.all q then some rest else none := by
  induction s with
  | nil =>
    have hstop : (callClose ++ rest).dropWhile q = callClose ++ rest := by
      rw [callClose, List.cons_append, List.dropWhile_cons, hq]
      rfl
    rw [List.nil_append, hstop, afterWord_append]
    rfl
  | cons c s ih =>
    rw [List.cons_append, List.dropWhile_cons, List.all_cons]
    cases hc : q c with
    | true =>
      rw [if_pos rfl, Bool.true_and]
      apply ih
      intro pre suf heq
      exact hs (c :: pre) suf (by rw [heq, List.cons_append])
    | false =>
      rw [if_neg Bool.false_ne_true, Bool.false_and, if_neg Bool.false_ne_true]
      rw [callClose, afterWord]
      split
      · rename_i heq
        -- a quote inside the name, which no bracket follows
        cases s with
        | nil => rfl
        | cons d s =>
          have hd : ')' ≠ d := by
            rintro rfl
            exact hs [] s (by rw [← heq]; rfl)
          rw [List.cons_append, afterWord, if_neg hd]
      · rfl

theorem takeWhile_callClose {q : Char → Bool} (hq : q '"' = false) {s : Text}
    (hs : s.all q = true) (rest : Text) : (s ++ (callClose ++ rest)).takeWhile q = s := by
  rw [List.takeWhile_append_of_pos (List.all_eq_true.mp hs), callClose, List.cons_append,
    List.takeWhile_cons, hq]
  simp

/-- No quote in a name has a bracket right after it. -/
theorem name_ne_close {name : Text} (h : isName name = true) (pre suf : Text) :
    name ≠ pre ++ '"' :: ')' :: suf :=
  fun heq => absurd (isName_paren h heq (by decide)) (by decide)

/-! ## Names with the character before them -/

/-- A piece as it can be before numbers with exponents are put together. -/
def Piece.Early : Piece → Prop
  | exponent _ => False
  | keyword _ => False
  | p => p.Ok

/-- A call of `Event` with a raw string begins with a piece that is a name. -/
theorem afterWord_eventOpen {ps : List Piece} (hps : ∀ p ∈ ps, p.Early)
    (hword : ∀ name ps', ps ≠ .word name :: ps') :
    afterWord eventOpen (ps.flatMap Piece.render) = none := by
  cases ps with
  | nil => rfl
  | cons p ps =>
    have hp := hps p List.mem_cons_self
    rw [List.flatMap_cons]
    cases p with
    | char c =>
      have hc : 'E' ≠ c := by
        rintro rfl
        cases hp
      rw [Piece.render, List.singleton_append, eventOpen, afterWord, if_neg hc]
    | word name => exact absurd rfl (hword name ps)
    | literal name => rfl
    | hex digits => rfl
    | exponent digits => exact hp.elim
    | keyword kw => exact hp.elim

/-- The pieces after names were changed together with the character before them. -/
def pairUp (change : Char → Text → Option (List Piece)) : List Piece → List Piece
  | .char c :: .word name :: ps =>
    match change c name with
    | some qs => qs ++ pairUp change ps
    | none => .char c :: pairUp change (.word name :: ps)
  | p :: ps => p :: pairUp change ps
  | [] => []

/-- The pattern matches a character and the call of a name, and only where the name
and the character are to be changed. -/
structure PairPattern (pattern : Pattern Char) (change : Char → Text → Option (List Piece)) :
    Prop where
  opens : Opens pattern
  first : ∀ t, pattern ('E' :: t) = none
  word : ∀ c name rest, isName name = true →
    pattern (c :: ((Piece.word name).render ++ rest)) =
      (change c name).map fun qs => (qs.flatMap Piece.render, rest)
  other : ∀ c t, afterWord eventOpen t = none →
    substituteAll pattern (c :: t) = c :: substituteAll pattern t

section PairUp

variable {pattern : Pattern Char} {change : Char → Text → Option (List Piece)}

theorem PairPattern.substituteAll (hp : PairPattern pattern change) {ps : List Piece}
    (h : ∀ p ∈ ps, p.Early) :
    substituteAll pattern (ps.flatMap Piece.render) =
      (pairUp change ps).flatMap Piece.render := by
  fun_induction pairUp change ps with
  | case1 c name ps qs hchange ih =>
    have hname : isName name = true := h (.word name) (by simp)
    have hmatch := hp.word c name (ps.flatMap Piece.render) hname
    rw [hchange, Option.map_some] at hmatch
    rw [List.flatMap_append, ← ih fun p hp => h p (by simp [hp])]
    simp only [List.flatMap_cons]
    exact substituteAll_match hmatch
  | case2 c name ps hchange ih =>
    have hname : isName name = true := h (.word name) (by simp)
    have hnone := hp.word c name (ps.flatMap Piece.render) hname
    rw [hchange, Option.map_none] at hnone
    have hrest := ih fun p hp => h p (List.mem_cons_of_mem _ hp)
    exact (substituteAll_cons hnone).trans (congrArg (c :: ·) hrest)
  | case3 p ps hne ih =>
    have hok := h p List.mem_cons_self
    rw [List.flatMap_cons, List.flatMap_cons, ← ih fun p hp => h p (List.mem_cons_of_mem _ hp)]
    cases p with
    | char c =>
      apply hp.other
      apply afterWord_eventOpen fun p hp => h p (List.mem_cons_of_mem _ hp)
      intro name ps' heq
      exact hne c name ps' rfl heq
    | word name => exact hp.opens.copies_word hok (hp.first _)
    | literal name => exact hp.opens.copies_literal hok.1 _
    | hex digits => exact hp.opens.copies_hex hok _
    | exponent digits => exact hok.elim
    | keyword kw => exact hok.elim
  | case4 => rfl

/-- Pieces keep a property that the changed ones have. -/
theorem forall_pairUp {motive : Piece → Prop} {ps : List Piece} (h : ∀ p ∈ ps, motive p)
    (hchange : ∀ c name qs, change c name = some qs → motive (.char c) → motive (.word name) →
      ∀ q ∈ qs, motive q) : ∀ p ∈ pairUp change ps, motive p := by
  fun_induction pairUp change ps with
  | case1 c name ps qs hsome ih =>
    intro p hp
    rcases List.mem_append.mp hp with hp | hp
    · exact hchange c name qs hsome (h _ (by simp)) (h _ (by simp)) p hp
    · exact ih (fun p hp => h p (by simp [hp])) p hp
  | case2 c name ps hnone ih =>
    intro p hp
    rcases List.mem_cons.mp hp with rfl | hp
    · exact h _ (by simp)
    · exact ih (fun p hp => h p (List.mem_cons_of_mem _ hp)) p hp
  | case3 p ps hne ih =>
    intro p' hp
    rcases List.mem_cons.mp hp with rfl | hp
    · exact h _ (by simp)
    · exact ih (fun p hp => h p (List.mem_cons_of_mem _ hp)) p' hp
  | case4 => simp

end PairUp

/-! ## Literals -/

/-- A name after `#` becomes a literal. -/
def literalPieces (c : Char) (name : Text) : Option (List Piece) :=
  if c = '#' ∧ name.all unquoted = true then some [.literal name] else none

theorem literalPattern_none {c : Char} {t : Text} (h : c ≠ '#' ∨ afterWord eventOpen t = none) :
    literalPattern (c :: t) = none := by
  have hafter : afterWord ('#' :: eventOpen) (c :: t) = none := by
    rw [afterWord]
    split
    · rename_i hc
      exact h.resolve_left fun hne => hne hc.symm
    · rfl
  rw [literalPattern, hafter]
  rfl

theorem literalPattern_word {name : Text} (h : isName name = true) (rest : Text) :
    literalPattern ('#' :: ((Piece.word name).render ++ rest)) =
      if name.all unquoted then some ((Piece.literal name).render, rest) else none := by
  have hafter : afterWord ('#' :: eventOpen) ('#' :: ((Piece.word name).render ++ rest)) =
      some (name ++ (callClose ++ rest)) := by
    rw [Piece.render, List.append_assoc, List.append_assoc]
    exact afterWord_append _ _
  have hclose := afterWord_callClose (q := unquoted) rfl (name_ne_close h) rest
  unfold literalPattern
  rw [hafter]
  simp only [Option.bind_eq_bind, Option.bind_some]
  rw [show (fun c => decide (c ≠ '"')) = unquoted from rfl, hclose]
  cases hall : name.all unquoted with
  | true => simp [takeWhile_callClose (q := unquoted) rfl hall, Piece.render]
  | false => rfl

theorem pairPattern_literal : PairPattern literalPattern literalPieces where
  opens t ht := by
    rw [literalPattern] at ht
    cases hafter : afterWord ('#' :: eventOpen) t with
    | none =>
      rw [hafter] at ht
      exact absurd rfl ht
    | some after => exact ⟨['#'], after, by simpa using afterWord_eq_some.mp hafter, by decide⟩
  first t := rfl
  word c name rest hname := by
    rw [literalPieces]
    by_cases hc : c = '#'
    · rw [hc, literalPattern_word hname]
      split
      · rename_i hall
        simp [hall]
      · rename_i hall
        simp [hall]
    · rw [literalPattern_none (.inl hc), if_neg fun h => hc h.1]
      rfl
  other c t ht := substituteAll_cons (literalPattern_none (.inr ht))

/-! ## Hexadecimal numbers -/

/-- Hexadecimal digits after an `x`. -/
def hexDigits : Text → Option Text
  | x :: digits => if (x = 'x' ∨ x = 'X') ∧ digits.all isHexDigit then some digits else none
  | [] => none

/-- A name of hexadecimal digits after `0` becomes an event of its own. -/
def hexPieces (c : Char) (name : Text) : Option (List Piece) :=
  if c = '0' then (hexDigits name).map fun digits => [.hex digits] else none

theorem hexPattern_none {c : Char} {t : Text} (h : c ≠ '0' ∨ afterWord eventOpen t = none) :
    hexPattern (c :: t) = none := by
  have hafter : afterWord ('0' :: eventOpen) (c :: t) = none := by
    rw [afterWord]
    split
    · rename_i hc
      exact h.resolve_left fun hne => hne hc.symm
    · rfl
  rw [hexPattern, hafter]
  rfl

theorem hexPattern_word {name : Text} (h : isName name = true) (rest : Text) :
    hexPattern ('0' :: ((Piece.word name).render ++ rest)) =
      (hexDigits name).map fun digits => ((Piece.hex digits).render, rest) := by
  have hafter : afterWord ('0' :: eventOpen) ('0' :: ((Piece.word name).render ++ rest)) =
      some (name ++ (callClose ++ rest)) := by
    rw [Piece.render, List.append_assoc, List.append_assoc]
    exact afterWord_append _ _
  unfold hexPattern
  rw [hafter]
  simp only [Option.bind_eq_bind, Option.bind_some]
  cases name with
  | nil => simp [isName] at h
  | cons x digits =>
    have hne : ∀ pre suf, digits ≠ pre ++ '"' :: ')' :: suf := by
      intro pre suf heq
      exact name_ne_close h (x :: pre) suf (by rw [heq, List.cons_append])
    have hclose := afterWord_callClose (q := isHexDigit) (by decide) hne rest
    rw [List.cons_append, hexDigits]
    simp only [hclose]
    by_cases hx : x = 'x' ∨ x = 'X'
    · cases hall : digits.all isHexDigit with
      | true =>
        simp [hx, takeWhile_callClose (q := isHexDigit) (by decide) hall, Piece.render]
      | false => simp [hx]
    · simp [hx]

theorem pairPattern_hex : PairPattern hexPattern hexPieces where
  opens t ht := by
    rw [hexPattern] at ht
    cases hafter : afterWord ('0' :: eventOpen) t with
    | none =>
      rw [hafter] at ht
      exact absurd rfl ht
    | some after => exact ⟨['0'], after, by simpa using afterWord_eq_some.mp hafter, by decide⟩
  first t := rfl
  word c name rest hname := by
    rw [hexPieces]
    by_cases hc : c = '0'
    · rw [hc, hexPattern_word hname, if_pos rfl, Option.map_map]
      congr 1
      funext digits
      simp
    · rw [hexPattern_none (.inl hc), if_neg hc]
      rfl
  other c t ht := substituteAll_cons (hexPattern_none (.inr ht))

/-! ## Exponents -/

/-- Digits after an `e`. -/
def exponentDigits : Text → Option Text
  | 'e' :: digits => if digits ≠ [] ∧ digits.all Char.isDigit then some digits else none
  | _ => none

/-- A name of digits after `e` becomes an exponent where a digit precedes it. -/
def exponentPieces (c : Char) (name : Text) : Option (List Piece) :=
  if c.isDigit then (exponentDigits name).map fun digits => [.char c, .exponent digits] else none

theorem exponentPattern_of_not_digit {c : Char} (hc : c.isDigit = false) (t : Text) :
    exponentPattern (c :: t) = none := by
  rw [exponentPattern, List.takeWhile_cons, hc]
  rfl

/-- One more digit in front. -/
theorem exponentPattern_digit {c d : Char} (hc : c.isDigit = true) (hd : d.isDigit = true)
    (t : Text) :
    exponentPattern (c :: d :: t) =
      (exponentPattern (d :: t)).map fun s => (c :: s.1, s.2) := by
  rw [exponentPattern, exponentPattern]
  simp only [List.takeWhile_cons, List.dropWhile_cons, hc, hd, if_true, reduceCtorEq, if_false]
  cases afterWord eventOpen (t.dropWhile Char.isDigit) with
  | none => rfl
  | some after =>
    simp only [Option.bind_eq_bind, Option.bind_some]
    split
    · split
      · rfl
      · rename_i digits _
        cases afterWord callClose (digits.dropWhile Char.isDigit) with
        | none => rfl
        | some rest => rfl
    · rfl

/-- A last digit, and no call after it. -/
theorem exponentPattern_none {c : Char} {t : Text} (hdigit : t.head?.any Char.isDigit = false)
    (ht : afterWord eventOpen t = none) : exponentPattern (c :: t) = none := by
  cases hc : c.isDigit with
  | false => exact exponentPattern_of_not_digit hc t
  | true =>
    have hdrop : t.dropWhile Char.isDigit = t := by
      cases t with
      | nil => rfl
      | cons d t =>
        rw [List.head?_cons, Option.any_some] at hdigit
        rw [List.dropWhile_cons, hdigit]
        rfl
    rw [exponentPattern, List.takeWhile_cons, hc, List.dropWhile_cons, hc]
    simp only [if_true, reduceCtorEq, if_false, hdrop, ht]
    rfl

theorem exponentPattern_word {c : Char} (hc : c.isDigit = true) {name : Text}
    (h : isName name = true) (rest : Text) :
    exponentPattern (c :: ((Piece.word name).render ++ rest)) =
      (exponentDigits name).map fun digits => (c :: (Piece.exponent digits).render, rest) := by
  have hrun : (c :: ((Piece.word name).render ++ rest)).takeWhile Char.isDigit = [c] := by
    rw [List.takeWhile_cons, hc]
    rfl
  have hdrop : (c :: ((Piece.word name).render ++ rest)).dropWhile Char.isDigit =
      (Piece.word name).render ++ rest := by
    rw [List.dropWhile_cons, hc]
    rfl
  have hafter : afterWord eventOpen ((Piece.word name).render ++ rest) =
      some (name ++ (callClose ++ rest)) := by
    rw [Piece.render, List.append_assoc, List.append_assoc]
    exact afterWord_append _ _
  unfold exponentPattern
  rw [hrun, hdrop, hafter]
  simp only [reduceCtorEq, if_false, Option.bind_eq_bind, Option.bind_some]
  cases name with
  | nil => simp [isName] at h
  | cons x digits =>
    have hne : ∀ pre suf, digits ≠ pre ++ '"' :: ')' :: suf := by
      intro pre suf heq
      exact name_ne_close h (x :: pre) suf (by rw [heq, List.cons_append])
    have hclose := afterWord_callClose (q := Char.isDigit) (by decide) hne rest
    rw [List.cons_append]
    by_cases hx : x = 'e'
    · subst hx
      simp only [hclose, exponentDigits]
      cases hall : digits.all Char.isDigit with
      | true =>
        rw [takeWhile_callClose (q := Char.isDigit) (by decide) hall]
        by_cases hnil : digits = []
        · simp [hnil]
        · simp [hnil, Piece.render]
      | false => simp
    · have hdigits : exponentDigits (x :: digits) = none := by
        rw [exponentDigits]
        exact fun _ heq => hx (List.cons.inj heq).1
      rw [hdigits]
      split
      · rename_i heq
        exact absurd (List.cons.inj heq).1 hx
      · rfl

/-- What is left after a match is an end of the text. -/
theorem exponentPattern_split {d : Char} {t : Text} {s : Text × Text}
    (h : exponentPattern (d :: t) = some s) : ∃ u, t = u ++ s.2 := by
  rw [exponentPattern] at h
  split at h
  · cases h
  · rename_i hne
    cases hafter : afterWord eventOpen ((d :: t).dropWhile Char.isDigit) with
    | none =>
      rw [hafter] at h
      cases h
    | some after =>
      rw [hafter] at h
      simp only [Option.bind_eq_bind, Option.bind_some] at h
      split at h
      · rename_i digits
        split at h
        · cases h
        · cases hclose : afterWord callClose (digits.dropWhile Char.isDigit) with
          | none =>
            rw [hclose] at h
            cases h
          | some rest =>
            rw [hclose] at h
            obtain rfl := Option.some.inj h
            have hsplit : d :: t = (d :: t).takeWhile Char.isDigit ++ (eventOpen ++
                ('e' :: (digits.takeWhile Char.isDigit ++ (callClose ++ rest)))) := by
              rw [← afterWord_eq_some.mp hclose, List.takeWhile_append_dropWhile,
                ← afterWord_eq_some.mp hafter, List.takeWhile_append_dropWhile]
            cases hrun : (d :: t).takeWhile Char.isDigit with
            | nil => exact absurd hrun hne
            | cons c run =>
              rw [hrun, List.cons_append, List.cons.injEq] at hsplit
              exact ⟨run ++ (eventOpen ++ ('e' :: (digits.takeWhile Char.isDigit ++ callClose))),
                by rw [hsplit.2]; simp⟩
      · cases h

theorem pairPattern_exponent : PairPattern exponentPattern exponentPieces where
  opens t ht := by
    rw [exponentPattern] at ht
    split at ht
    · exact absurd rfl ht
    · cases hafter : afterWord eventOpen (t.dropWhile Char.isDigit) with
      | none =>
        rw [hafter] at ht
        exact absurd rfl ht
      | some after =>
        refine ⟨t.takeWhile Char.isDigit, after, ?_, ?_⟩
        · rw [← afterWord_eq_some.mp hafter, List.takeWhile_append_dropWhile]
        · intro hmem
          have hdigits := List.all_takeWhile (l := t) (p := Char.isDigit)
          have hdigit := List.all_eq_true.mp hdigits ')' hmem
          exact absurd hdigit (by decide)
  first t := rfl
  word c name rest hname := by
    rw [exponentPieces]
    cases hc : c.isDigit with
    | true =>
      rw [exponentPattern_word hc hname, if_pos rfl, Option.map_map]
      congr 1
      funext digits
      simp [Piece.render]
    | false =>
      rw [exponentPattern_of_not_digit hc]
      rfl
  other c t ht := by
    cases t with
    | nil => exact substituteAll_cons (exponentPattern_none rfl ht)
    | cons d t =>
      cases hd : d.isDigit with
      | false => exact substituteAll_cons (exponentPattern_none hd ht)
      | true =>
        cases hc : c.isDigit with
        | false => exact substituteAll_cons (exponentPattern_of_not_digit hc _)
        | true =>
          -- the match at the next digit is the one here without this digit
          have hboth := exponentPattern_digit hc hd t
          cases hmatch : exponentPattern (d :: t) with
          | none =>
            rw [hmatch] at hboth
            exact substituteAll_cons hboth
          | some s =>
            obtain ⟨u, rfl⟩ := exponentPattern_split hmatch
            rw [hmatch, Option.map_some] at hboth
            have hlong : substituteAll exponentPattern (c :: ((d :: u) ++ s.2)) =
                (c :: s.1) ++ substituteAll exponentPattern s.2 := substituteAll_match hboth
            rw [substituteAll_match hmatch]
            exact hlong

/-! ## Keywords -/

/-- The call of a keyword becomes the keyword. -/
def unwrap (kw : Text) : Piece → Piece
  | .word name => if name = kw then .keyword name else .word name
  | p => p

theorem keywordPattern_none {kw : Text} {c : Char} (hc : c ≠ 'E') (t : Text) :
    keywordPattern kw (c :: t) = none := by
  rw [keywordPattern, eventOpen, List.cons_append, List.cons_append, afterWord, if_neg hc.symm]
  rfl

theorem opens_keywordPattern (kw : Text) : Opens (keywordPattern kw) := by
  intro t ht
  rw [keywordPattern] at ht
  cases hafter : afterWord (eventOpen ++ kw ++ callClose) t with
  | none =>
    rw [hafter] at ht
    exact absurd rfl ht
  | some after =>
    refine ⟨[], kw ++ (callClose ++ after), ?_, by simp⟩
    rw [afterWord_eq_some.mp hafter]
    simp

theorem keywordPattern_word {kw name : Text} (hkw : kw.all unquoted = true)
    (hname : isName name = true) (rest : Text) :
    keywordPattern kw ((Piece.word name).render ++ rest) =
      if name = kw then some (kw, rest) else none := by
  have hopen : ∀ t, afterWord (eventOpen ++ (kw ++ callClose)) (eventOpen ++ t) =
      afterWord (kw ++ callClose) t := fun t => rfl
  rw [keywordPattern, Piece.render, List.append_assoc, List.append_assoc, hopen,
    List.append_assoc]
  split
  · rename_i heq
    rw [heq, ← List.append_assoc, afterWord_append]
    rfl
  · rename_i hne
    cases hafter : afterWord (kw ++ callClose) (name ++ (callClose ++ rest)) with
    | none => rfl
    | some after =>
      exfalso
      have heq := afterWord_eq_some.mp hafter
      rw [List.append_assoc] at heq
      obtain ⟨w, hw, hw'⟩ | ⟨w, hw, hw'⟩ := List.append_eq_append_iff.mp heq
      · cases w with
        | nil => exact hne (by rw [hw, List.append_nil])
        | cons c w =>
          obtain rfl : '"' = c := (List.cons.inj hw').1
          have hquote := List.all_eq_true.mp hkw '"' (by simp [hw])
          exact absurd hquote (by decide)
      · cases w with
        | nil => exact hne (by rw [hw, List.append_nil])
        | cons c w =>
          cases w with
          | nil => simp [callClose] at hw'
          | cons d w =>
            simp only [callClose, List.cons_append, List.cons.injEq] at hw'
            exact name_ne_close hname kw w (by rw [hw, ← hw'.1, ← hw'.2.1])

/-- No keyword has a capital `E` or a quote. -/
theorem keyword_chars {kw : Text} (h : kw ∈ keywords) :
    kw.all (fun c => c ≠ 'E') = true ∧ kw.all unquoted = true := by
  have hall : keywords.all (fun kw => kw.all (fun c => c ≠ 'E') && kw.all unquoted) = true := by
    decide
  simpa using List.all_eq_true.mp hall kw h

theorem substituteAll_keywordPattern {kw : Text} (hkw : kw.all unquoted = true)
    {ps : List Piece} (h : ∀ p ∈ ps, p.Ok) :
    substituteAll (keywordPattern kw) (ps.flatMap Piece.render) =
      (ps.map (unwrap kw)).flatMap Piece.render := by
  have hcopy : ∀ s rest : Text, s.all (fun c => c ≠ 'E') = true →
      substituteAll (keywordPattern kw) (s ++ rest) =
        s ++ substituteAll (keywordPattern kw) rest := by
    intro s rest hs
    apply substituteAll_append
    intro pre c suf hsplit
    have hc := List.all_eq_true.mp hs c (by simp [hsplit])
    exact keywordPattern_none (of_decide_eq_true hc) _
  induction ps with
  | nil => rfl
  | cons p ps ih =>
    have hok := h p List.mem_cons_self
    rw [List.map_cons, List.flatMap_cons, List.flatMap_cons,
      ← ih fun p hp => h p (List.mem_cons_of_mem _ hp)]
    cases p with
    | char c =>
      have hc : c ≠ 'E' := by
        rintro rfl
        cases hok
      exact substituteAll_cons (keywordPattern_none hc _)
    | word name =>
      have hpattern := keywordPattern_word hkw hok (ps.flatMap Piece.render)
      rw [unwrap]
      split
      · rename_i heq
        rw [if_pos heq] at hpattern
        subst heq
        exact substituteAll_match hpattern
      · rename_i hne
        rw [if_neg hne] at hpattern
        exact (opens_keywordPattern kw).copies_word hok hpattern
    | literal name => exact (opens_keywordPattern kw).copies_literal hok.1 _
    | hex digits => exact (opens_keywordPattern kw).copies_hex hok _
    | exponent digits =>
      apply hcopy ('e' :: digits)
      rw [List.all_cons, Bool.and_eq_true, List.all_eq_true]
      refine ⟨by decide, ?_⟩
      intro c hc
      have hdigit := List.all_eq_true.mp hok.2 c hc
      rw [decide_eq_true_eq]
      rintro rfl
      exact absurd hdigit (by decide)
    | keyword kw' => exact hcopy kw' _ (keyword_chars hok).1

/-! ## All expressions together -/

/-- The calls of several keywords become the keywords. -/
def unwrapIn (kws : List Text) : Piece → Piece
  | .word name => if name ∈ kws then .keyword name else .word name
  | p => p

/-- What the later expressions make of the pieces. -/
def decodedPieces (ps : List Piece) : List Piece :=
  (pairUp exponentPieces (pairUp hexPieces (pairUp literalPieces ps))).map (unwrapIn keywords)

theorem Piece.Early.ok {p : Piece} (h : p.Early) : p.Ok := by
  cases p with
  | exponent digits => exact h.elim
  | keyword kw => exact h.elim
  | _ => exact h

theorem Scanned.early {ps : List Piece} (h : Scanned ps) : ∀ p ∈ ps, p.Early := by
  induction ps with
  | nil => simp
  | cons p ps ih =>
    intro p' hp'
    cases p with
    | char c =>
      rcases List.mem_cons.mp hp' with rfl | hp'
      · exact h.1
      · exact ih h.2 p' hp'
    | word name =>
      rcases List.mem_cons.mp hp' with rfl | hp'
      · exact h.1
      · exact ih h.2.2 p' hp'
    | _ => exact h.elim

theorem early_literals {ps : List Piece} (h : ∀ p ∈ ps, p.Early) :
    ∀ p ∈ pairUp literalPieces ps, p.Early := by
  apply forall_pairUp h
  intro c name qs hqs _ hname q hq
  rw [literalPieces] at hqs
  split at hqs
  · rename_i hcond
    obtain rfl := Option.some.inj hqs
    obtain rfl := List.mem_singleton.mp hq
    exact ⟨hname, hcond.2⟩
  · cases hqs

theorem hexDigits_all {name digits : Text} (h : hexDigits name = some digits) :
    digits.all isHexDigit = true := by
  unfold hexDigits at h
  split at h
  · split at h
    · rename_i hcond
      obtain rfl := Option.some.inj h
      exact hcond.2
    · cases h
  · cases h

theorem early_hexes {ps : List Piece} (h : ∀ p ∈ ps, p.Early) :
    ∀ p ∈ pairUp hexPieces ps, p.Early := by
  apply forall_pairUp h
  intro c name qs hqs _ _ q hq
  rw [hexPieces] at hqs
  split at hqs
  · obtain ⟨digits, hdigits, rfl⟩ := Option.map_eq_some_iff.mp hqs
    obtain rfl := List.mem_singleton.mp hq
    exact hexDigits_all hdigits
  · cases hqs

theorem exponentDigits_all {name digits : Text} (h : exponentDigits name = some digits) :
    digits ≠ [] ∧ digits.all Char.isDigit = true := by
  unfold exponentDigits at h
  split at h
  · split at h
    · rename_i hcond
      obtain rfl := Option.some.inj h
      exact hcond
    · cases h
  · cases h

theorem ok_exponents {ps : List Piece} (h : ∀ p ∈ ps, p.Early) :
    ∀ p ∈ pairUp exponentPieces ps, p.Ok := by
  apply forall_pairUp fun p hp => (h p hp).ok
  intro c name qs hqs hc _ q hq
  rw [exponentPieces] at hqs
  split at hqs
  · obtain ⟨digits, hdigits, rfl⟩ := Option.map_eq_some_iff.mp hqs
    rcases List.mem_cons.mp hq with rfl | hq
    · exact hc
    · obtain rfl := List.mem_singleton.mp hq
      exact exponentDigits_all hdigits
  · cases hqs

theorem ok_unwrap {kw : Text} (hkw : kw ∈ keywords) {ps : List Piece} (h : ∀ p ∈ ps, p.Ok) :
    ∀ p ∈ ps.map (unwrap kw), p.Ok := by
  intro q hq
  obtain ⟨p, hp, rfl⟩ := List.mem_map.mp hq
  have hok := h p hp
  cases p with
  | word name =>
    rw [unwrap]
    split
    · rename_i heq
      exact heq ▸ hkw
    · exact hok
  | _ => exact hok

/-- Keyword after keyword. -/
theorem foldl_keywordPattern {kws : List Text} (hkws : ∀ kw ∈ kws, kw ∈ keywords)
    {ps : List Piece} (h : ∀ p ∈ ps, p.Ok) :
    kws.foldl (fun py kw => substituteAll (keywordPattern kw) py) (ps.flatMap Piece.render) =
      (ps.map (unwrapIn kws)).flatMap Piece.render := by
  induction kws generalizing ps with
  | nil =>
    have hid : ∀ p, unwrapIn [] p = p := by
      intro p
      cases p with
      | word name => simp [unwrapIn]
      | _ => rfl
    rw [List.foldl_nil, List.map_congr_left fun p _ => hid p, List.map_id']
  | cons kw kws ih =>
    have hkw := hkws kw List.mem_cons_self
    have hstep : ∀ p, unwrapIn kws (unwrap kw p) = unwrapIn (kw :: kws) p := by
      intro p
      cases p with
      | word name =>
        by_cases heq : name = kw
        · simp [unwrap, unwrapIn, heq]
        · simp [unwrap, unwrapIn, heq]
      | _ => rfl
    rw [List.foldl_cons, substituteAll_keywordPattern (keyword_chars hkw).2 h,
      ih (fun kw' hkw' => hkws kw' (List.mem_cons_of_mem _ hkw')) (ok_unwrap hkw h),
      List.map_map]
    exact congrArg (fun qs => qs.flatMap Piece.render) (List.map_congr_left fun p _ => hstep p)

/-- The Python expression is made of the decoded pieces. -/
theorem pythonText_eq {orig : Text} {ps : List Piece} (h : Scanned ps)
    (hraw : ps.flatMap Piece.raw = strip orig) :
    pythonText orig = (decodedPieces ps).flatMap Piece.render := by
  have hearly := h.early
  have hliterals := early_literals hearly
  have hhexes := early_hexes hliterals
  rw [pythonText]
  rw [← hraw, substituteAll_eventPattern h, pairPattern_literal.substituteAll hearly,
    pairPattern_hex.substituteAll hliterals, pairPattern_exponent.substituteAll hhexes,
    foldl_keywordPattern (fun _ hkw => hkw) (ok_exponents hhexes)]
  rfl

end PmuEvents.Metric
