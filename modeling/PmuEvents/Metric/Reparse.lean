import PmuEvents.Foundation.Bracketing
import PmuEvents.Metric.PrintedTokens
set_option autoImplicit false

/-!
# What Python parses for a printed expression

The leaves of an expression that the decoder made, the atoms Python reads for their
printed texts, and the tokens it reads for the whole: those of the tree of atoms,
written with the brackets of the printer.
-/

namespace PmuEvents.Metric

open PmuEvents.Foundation

/-! ## Printed names -/

/-- The change the printer makes to a name. -/
def slashChar (c : Char) : Char := if c = '/' then '@' else c

theorem slashChar_ne {c d : Char} (hd : d ≠ '@') (hc : c ≠ d) : slashChar c ≠ d := by
  rw [slashChar]
  split
  · exact hd.symm
  · exact hc

theorem nameTail_map_slashChar {s : Text} (h : nameTail s = true) :
    nameTail (s.map slashChar) = true := by
  refine escapes_map rfl ?_ ?_ h
  · intro c hslash hplain
    have hc : slashChar c = c := by
      rw [slashChar, if_neg]
      rintro rfl
      simp [not_isNameChar] at hplain
    rw [hc]
    exact ⟨hslash, hplain⟩
  · intro d hd
    rw [decide_eq_true_eq] at hd ⊢
    exact slashChar_ne (by decide) hd

theorem isName_map_slashChar {s : Text} (h : isName s = true) :
    isName (s.map slashChar) = true := by
  cases s with
  | nil => exact h
  | cons c t =>
    simp only [isName, Bool.and_eq_true] at h
    have hc : slashChar c = c := by
      rw [slashChar, if_neg]
      rintro rfl
      simp at h
    rw [List.map_cons, hc, isName, h.1, nameTail_map_slashChar h.2]
    rfl

theorem endsLine_slashChar (c : Char) : endsLine (slashChar c) = endsLine c := by
  unfold slashChar
  split
  · rename_i heq
    rw [heq]
    rfl
  · rfl

theorem rawOk_map_slashChar {s : Text} (h : rawOk s = true) :
    rawOk (s.map slashChar) = true := by
  refine escapes_map rfl ?_ ?_ h
  · intro c hslash hplain
    refine ⟨slashChar_ne (by decide) hslash, ?_⟩
    rw [quotable, Bool.and_eq_true, decide_eq_true_eq] at hplain ⊢
    rw [endsLine_slashChar]
    exact ⟨slashChar_ne (by decide) hplain.1, hplain.2⟩
  · intro d hd
    rw [endsLine_slashChar]
    exact hd

theorem map_slashChar_of_not_mem {s : Text} (h : '/' ∉ s) : s.map slashChar = s := by
  calc s.map slashChar = s.map id :=
        List.map_congr_left fun c hc => if_neg fun heq : c = '/' => h (heq ▸ hc)
    _ = s := List.map_id s

/-- A printed name is no keyword: it is as it was, or holds an `@`. -/
theorem map_slashChar_not_mem_keywords {s : Text} (h : s ∉ keywords) :
    s.map slashChar ∉ keywords := by
  intro hmem
  by_cases hslash : '/' ∈ s
  · have hat : '@' ∈ s.map slashChar := List.mem_map.mpr ⟨'/', hslash, rfl⟩
    have hall : keywords.all (fun kw => !kw.contains '@') = true := by decide
    have hnot := List.all_eq_true.mp hall _ hmem
    rw [Bool.not_eq_true', ← Bool.not_eq_true, List.contains_iff_mem] at hnot
    exact hnot hat
  · rw [map_slashChar_of_not_mem hslash] at hmem
    exact h hmem

theorem EventName.printed {name : Text} (h : EventName name) : EventName (name.map slashChar) where
  shape := isName_map_slashChar h.shape
  raw := rawOk_map_slashChar h.raw
  unreserved := map_slashChar_not_mem_keywords h.unreserved

/-! ## Leaves -/

/-- The name of an event that the decoder makes: a name in the text, or a hexadecimal
number. -/
def EventText (name : Text) : Prop :=
  EventName name ∨ ∃ digits : Text, name = '0' :: 'x' :: digits ∧ digits.all isHexDigit = true

/-- The atom Python reads for the text of a constant: a number, or an event for one
that is spelled with letters. -/
def constantAtom (py : PyFloat) (value : Text) : Option PyAtom :=
  if isName value then some (.event value)
  else
    match numberToken py value with
    | some (x, []) => some (.number x)
    | _ => none

theorem spanExponent_nil {t : Text} (h : (spanExponent t).1 = []) : (spanExponent t).2 = t := by
  unfold spanExponent at h ⊢
  split at h
  · split at h
    · rename_i hnil
      rw [if_pos hnil]
    · rename_i hne
      exact absurd h hne
  · rfl

/-- A text that Python reads as a number is no name. -/
theorem isName_of_numberToken {py : PyFloat} {value : Text} {x : PyValue × Text}
    (h : numberToken py value = some x) : isName value = false := by
  cases value with
  | nil => rfl
  | cons c t =>
    rw [isName]
    cases hc : c.isAlpha with
    | false => rfl
    | true =>
      exfalso
      have hdigit : c.isDigit = false := by
        by_contra hdigit
        rw [isAlpha_of_isDigit (by simpa using hdigit)] at hc
        cases hc
      have hword : isWordChar c = true := by simp [isWordChar, Char.isAlphanum, hc]
      have hfraction : spanFraction (c :: t) = (false, [], c :: t) := by
        rw [spanFraction]
        rintro _ ⟨rfl, -⟩
        cases hc
      unfold numberToken at h
      simp only [List.takeWhile_cons, List.dropWhile_cons, hdigit, Bool.false_eq_true, if_false,
        hfraction] at h
      split at h
      · cases h
      · rename_i hnot
        rw [Option.map_eq_some_iff] at h
        obtain ⟨v, hv, -⟩ := h
        rw [literalValue] at hv
        split at hv
        · rename_i hexp
          apply hnot
          rw [spanExponent_nil hexp.2, List.head?_cons, Option.any_some, hword]
        · simp at hv

namespace Expr

/-- The leaves are those the decoder makes. -/
def LeavesOk : Expr → Prop
  | operator _ lhs rhs => lhs.LeavesOk ∧ rhs.LeavesOk
  | select true_val cond false_val => true_val.LeavesOk ∧ cond.LeavesOk ∧ false_val.LeavesOk
  | function1 _ lhs => lhs.LeavesOk
  | function2 _ lhs rhs => lhs.LeavesOk ∧ rhs.LeavesOk
  | event name => EventText name
  | constant value => ∃ x : PyNumber, value = constantText x
  | literal value => ∃ name, value = '#' :: name ∧ LiteralName name

/-- No constant is negative. -/
def Unsigned : Expr → Prop
  | operator _ lhs rhs => lhs.Unsigned ∧ rhs.Unsigned
  | select true_val cond false_val => true_val.Unsigned ∧ cond.Unsigned ∧ false_val.Unsigned
  | function1 _ lhs => lhs.Unsigned
  | function2 _ lhs rhs => lhs.Unsigned ∧ rhs.Unsigned
  | constant value => value.head? ≠ some '-'
  | _ => True

/-- The tree of the atoms Python reads for the leaves. -/
def pyTree (py : PyFloat) : Expr → Option (OpTree BinOp PyAtom)
  | operator op lhs rhs => do
    let l ← lhs.pyTree py
    let r ← rhs.pyTree py
    return .binary op l r
  | select true_val cond false_val => do
    let t ← true_val.pyTree py
    let c ← cond.pyTree py
    let f ← false_val.pyTree py
    return .cond t c f
  | function1 fn lhs => do
    let x ← lhs.pyTree py
    return .call1 (.fn1 fn) x
  | function2 fn lhs rhs => do
    let x ← lhs.pyTree py
    let y ← rhs.pyTree py
    return .call2 (.fn2 fn) x y
  | event name => some (.atom (.event (name.map slashChar)))
  | constant value => (constantAtom py value).map .atom
  | literal value => some (.atom (.literal value))

end Expr

section Inversion

variable {py : PyFloat} {t : OpTree BinOp PyAtom}

theorem Expr.pyTree_operator {op : BinOp} {lhs rhs : Expr} :
    (operator op lhs rhs).pyTree py = some t ↔
      ∃ l r, lhs.pyTree py = some l ∧ rhs.pyTree py = some r ∧ t = .binary op l r := by
  simp only [pyTree, Option.bind_eq_bind, Option.bind_eq_some_iff, Option.pure_def,
    Option.some.injEq]
  constructor
  · rintro ⟨l, hl, r, hr, rfl⟩
    exact ⟨l, r, hl, hr, rfl⟩
  · rintro ⟨l, r, hl, hr, rfl⟩
    exact ⟨l, hl, r, hr, rfl⟩

theorem Expr.pyTree_select {true_val cond false_val : Expr} :
    (select true_val cond false_val).pyTree py = some t ↔
      ∃ tt tc tf, true_val.pyTree py = some tt ∧ cond.pyTree py = some tc ∧
        false_val.pyTree py = some tf ∧ t = .cond tt tc tf := by
  simp only [pyTree, Option.bind_eq_bind, Option.bind_eq_some_iff, Option.pure_def,
    Option.some.injEq]
  constructor
  · rintro ⟨tt, ht, tc, hc, tf, hf, rfl⟩
    exact ⟨tt, tc, tf, ht, hc, hf, rfl⟩
  · rintro ⟨tt, tc, tf, ht, hc, hf, rfl⟩
    exact ⟨tt, ht, tc, hc, tf, hf, rfl⟩

theorem Expr.pyTree_function1 {fn : Fn1} {lhs : Expr} :
    (function1 fn lhs).pyTree py = some t ↔
      ∃ x, lhs.pyTree py = some x ∧ t = .call1 (.fn1 fn) x := by
  simp only [pyTree, Option.bind_eq_bind, Option.bind_eq_some_iff, Option.pure_def,
    Option.some.injEq]
  exact exists_congr fun x => and_congr_right fun _ => eq_comm

theorem Expr.pyTree_function2 {fn : Fn2} {lhs rhs : Expr} :
    (function2 fn lhs rhs).pyTree py = some t ↔
      ∃ x y, lhs.pyTree py = some x ∧ rhs.pyTree py = some y ∧ t = .call2 (.fn2 fn) x y := by
  simp only [pyTree, Option.bind_eq_bind, Option.bind_eq_some_iff, Option.pure_def,
    Option.some.injEq]
  constructor
  · rintro ⟨x, hx, y, hy, rfl⟩
    exact ⟨x, y, hx, hy, rfl⟩
  · rintro ⟨x, y, hx, hy, rfl⟩
    exact ⟨x, hx, y, hy, rfl⟩

theorem Expr.pyTree_constant {value : Text} :
    (constant value).pyTree py = some t ↔
      ∃ a, constantAtom py value = some a ∧ t = .atom a := by
  rw [pyTree, Option.map_eq_some_iff]
  exact exists_congr fun a => and_congr_right fun _ => eq_comm

end Inversion

theorem numberSpelling_round (d : Decimal) : NumberSpelling (d.round 20).normalize.engSpelling := by
  obtain ⟨hint, hfrac⟩ := (d.round 20).normalize.engSpelling_digits
  exact ⟨(d.round 20).normalize.engSpelling_int_ne_nil, hint, hfrac⟩

variable (py : PyFloat)

/-- Python reads the text of an unsigned number, and nothing is left of it. -/
theorem constantAtom_unsignedText {s : Decimal.Spelling} (h : NumberSpelling s) :
    constantAtom py (unsignedText s) = (spelledValue py s).map .number := by
  obtain ⟨-, ⟨c, t, hfirst, hc⟩, -⟩ := mantissa_cases h.int_ne h.int h.frac
  have hname : isName (unsignedText s) = false := by
    rw [unsignedText, ← List.append_assoc, hfirst, List.cons_append, isName,
      isAlpha_of_isDigit hc]
    rfl
  rw [constantAtom, hname, if_neg Bool.false_ne_true, unsignedText, spelledValue]
  cases hexp : s.exp with
  | none =>
    dsimp only
    have hspan : spanExponent [] = ([], []) := rfl
    rw [exponentText, numberToken_eq py h.int h.frac rfl (by simp), hspan]
    generalize literalValue py _ _ _ _ = v
    cases v <;> rfl
  | some e =>
    dsimp only
    have hdigits := digits_all e.natAbs
    have hdigitsne : (Numeral.digits 10 e.natAbs).map Nat.digitChar ≠ [] := by
      simpa using Numeral.digits_ne_nil (by decide) e.natAbs
    by_cases hneg : e < 0
    · rw [exponentText, if_pos hneg, if_pos hneg, numberToken_eq py h.int h.frac rfl (by simp)]
      rfl
    · have hspan : spanExponent (exponentText (some e)) =
          ((Numeral.digits 10 e.natAbs).map Nat.digitChar, []) := by
        obtain ⟨htake, hdrop⟩ := @takeWhile_append_stop Char.isDigit _ [] hdigits rfl
        rw [List.append_nil] at htake hdrop
        rw [exponentText, if_neg hneg, List.nil_append, spanExponent, htake, hdrop,
          if_neg hdigitsne]
      rw [if_neg hneg, numberToken_eq py h.int h.frac rfl (by simp [exponentText]), hspan]
      generalize literalValue py _ _ _ _ = v
      cases v <;> rfl

theorem reads_constant {value : Text} (h : (Expr.constant value).LeavesOk)
    (hsign : (Expr.constant value).Unsigned) :
    Reads py value ((constantAtom py value).map fun a => [.atom a]) := by
  obtain ⟨x, rfl⟩ := h
  cases x with
  | finite d =>
    rw [Expr.Unsigned, constantText_finite] at hsign
    rw [constantText_finite]
    cases hneg : d.neg with
    | true => simp [hneg] at hsign
    | false =>
      rw [if_neg Bool.false_ne_true, List.nil_append]
      have hspelling := numberSpelling_round d
      rw [constantAtom_unsignedText py hspelling, Option.map_map]
      exact reads_number py hspelling
  | infinity neg =>
    cases neg with
    | true => exact absurd rfl hsign
    | false => exact reads_event py ⟨by decide, by decide, by decide⟩
  | nan => exact reads_event py ⟨by decide, by decide, by decide⟩

/-! ## Whole expressions -/

section Reads

variable {py}

theorem reads_fn1 (fn : Fn1) : Reads py fn.text (some [.atom (.fn1 fn)]) := by
  cases fn with
  | _ => exact reads_keyword py (by decide) fun rest => rfl

theorem reads_fn2 (fn : Fn2) : Reads py fn.text (some [.atom (.fn2 fn)]) := by
  cases fn with
  | _ => exact reads_keyword py (by decide) fun rest => rfl

/-- The tokens of a tree with the printer's brackets. -/
abbrev printedTokens (t : OpTree BinOp PyAtom) : List PyToken :=
  writeTokens PrintedTree.brackets t

theorem reads_brackets {text : Text} {toks : Option (List PyToken)} (h : Reads py text toks) :
    Reads py ('(' :: text ++ [')']) (toks.map fun toks => .lpar :: (toks ++ [.rpar])) := by
  have hin := (joins_lpar py).before (h.close (joins_rpar py))
  cases toks with
  | none => exact hin
  | some toks => exact hin

/-- The tokens of an operand, in brackets where the printer puts them. -/
def bracketTokens (op : BinOp) (rhs : Bool) : Expr → List PyToken → List PyToken
  | .operator inner _ _, toks =>
    if PrintedTree.brackets op rhs inner then .lpar :: (toks ++ [.rpar]) else toks
  | _, toks => toks

/-- The operand of an operator has the operator of its tree. -/
theorem writeOperand_pyTree (op : BinOp) (rhs : Bool) {other : Expr} {t : OpTree BinOp PyAtom}
    (h : other.pyTree py = some t) (toks : List PyToken) :
    writeOperand PrintedTree.brackets op rhs t toks = bracketTokens op rhs other toks := by
  cases other with
  | operator inner l r =>
    obtain ⟨tl, tr, -, -, rfl⟩ := Expr.pyTree_operator.mp h
    rfl
  | select t c f =>
    obtain ⟨tt, tc, tf, -, -, -, rfl⟩ := Expr.pyTree_select.mp h
    rfl
  | function1 fn x =>
    obtain ⟨tx, -, rfl⟩ := Expr.pyTree_function1.mp h
    rfl
  | function2 fn x y =>
    obtain ⟨tx, ty, -, -, rfl⟩ := Expr.pyTree_function2.mp h
    rfl
  | event name =>
    obtain rfl := Option.some.inj h
    rfl
  | constant value =>
    obtain ⟨a, -, rfl⟩ := Expr.pyTree_constant.mp h
    rfl
  | literal value =>
    obtain rfl := Option.some.inj h
    rfl

/-- An operand reads with its brackets. -/
theorem reads_operand (op : BinOp) (rhs : Bool) {other : Expr}
    (h : Reads py other.toPerfJson ((other.pyTree py).map printedTokens)) :
    Reads py (other.bracket op other.toPerfJson rhs)
      ((other.pyTree py).map fun t =>
        writeOperand PrintedTree.brackets op rhs t (printedTokens t)) := by
  have hmap : ((other.pyTree py).map fun t =>
      writeOperand PrintedTree.brackets op rhs t (printedTokens t)) =
      ((other.pyTree py).map printedTokens).map (bracketTokens op rhs other) := by
    rw [Option.map_map]
    apply Option.map_congr
    intro t ht
    exact writeOperand_pyTree op rhs (Option.mem_def.mp ht) _
  rw [hmap]
  cases other with
  | operator inner l r =>
    have htokens : bracketTokens op rhs (.operator inner l r) = fun toks =>
        if PrintedTree.brackets op rhs inner then .lpar :: (toks ++ [.rpar]) else toks := rfl
    rw [Expr.bracket, htokens]
    by_cases hcond : op.precedence > inner.precedence ∨
        (rhs = true ∧ op.precedence = inner.precedence)
    · have hbrackets : PrintedTree.brackets op rhs inner = true := decide_eq_true hcond
      simp only [if_pos hcond, hbrackets, if_true]
      exact reads_brackets h
    · have hbrackets : PrintedTree.brackets op rhs inner = false := decide_eq_false hcond
      simp only [if_neg hcond, hbrackets, Bool.false_eq_true, if_false, Option.map_id']
      exact h
  | _ =>
    rw [Expr.bracket]
    · have htokens : ∀ toks : Option (List PyToken), toks.map (fun toks => toks) = toks :=
        fun _ => Option.map_id'
      exact (htokens _).symm ▸ h
    · intro inner l r heq
      cases heq

/-- A printed expression reads as the tokens of its tree. -/
theorem reads_expr {e : Expr} (h : e.LeavesOk) (hsign : e.Unsigned) :
    Reads py e.toPerfJson ((e.pyTree py).map printedTokens) := by
  induction e with
  | operator op l r ihl ihr =>
    have hjoin := (reads_operand op false (ihl h.1 hsign.1)).join (joins_op py op)
      (reads_operand op true (ihr h.2 hsign.2))
    rw [Expr.toPerfJson, Expr.pyTree]
    cases hl : l.pyTree py with
    | none => simpa [hl, tokenText, appendTokens] using hjoin
    | some tl =>
      cases hr : r.pyTree py with
      | none => simpa [hl, hr, tokenText, appendTokens] using hjoin
      | some tr => simpa [hl, hr, tokenText, appendTokens, printedTokens, writeTokens] using hjoin
  | select t c f iht ihc ihf =>
    have hrest := (ihc h.2.1 hsign.2.1).join (joins_else py)
      ((ihf h.2.2 hsign.2.2).close (joins_rpar py))
    have hjoin := (joins_lpar py).before ((iht h.1 hsign.1).join (joins_if py) hrest)
    rw [Expr.toPerfJson, Expr.pyTree]
    cases ht : t.pyTree py with
    | none => simpa [ht, tokenText, appendTokens] using hjoin
    | some tt =>
      cases hc : c.pyTree py with
      | none => simpa [ht, hc, tokenText, appendTokens] using hjoin
      | some tc =>
        cases hf : f.pyTree py with
        | none => simpa [ht, hc, hf, tokenText, appendTokens] using hjoin
        | some tf =>
          simpa [ht, hc, hf, tokenText, appendTokens, printedTokens, writeTokens] using hjoin
  | function1 fn x ih =>
    have hjoin := (reads_fn1 fn).join (joins_lpar py) ((ih h hsign).close (joins_rpar py))
    rw [Expr.toPerfJson, Expr.pyTree]
    cases hx : x.pyTree py with
    | none => simpa [hx, tokenText, appendTokens] using hjoin
    | some tx => simpa [hx, tokenText, appendTokens, printedTokens, writeTokens] using hjoin
  | function2 fn x y ihx ihy =>
    have hrest := (ihx h.1 hsign.1).join (joins_comma py) ((ihy h.2 hsign.2).close (joins_rpar py))
    have hjoin := (reads_fn2 fn).join (joins_lpar py) hrest
    rw [Expr.toPerfJson, Expr.pyTree]
    cases hx : x.pyTree py with
    | none => simpa [hx, tokenText, appendTokens] using hjoin
    | some tx =>
      cases hy : y.pyTree py with
      | none => simpa [hx, hy, tokenText, appendTokens] using hjoin
      | some ty => simpa [hx, hy, tokenText, appendTokens, printedTokens, writeTokens] using hjoin
  | event name =>
    rcases h with h | ⟨digits, rfl, hdigits⟩
    · exact reads_event py h.printed
    · have hslash : ('0' :: 'x' :: digits).map slashChar = '0' :: 'x' :: digits := by
        apply map_slashChar_of_not_mem
        intro hmem
        simp only [List.mem_cons, Char.reduceEq, false_or] at hmem
        exact absurd (List.all_eq_true.mp hdigits '/' hmem) (by decide)
      have hread : Reads py (('0' :: 'x' :: digits).map slashChar)
          (some [.atom (.event (('0' :: 'x' :: digits).map slashChar))]) := by
        rw [hslash]
        exact reads_hex py hdigits
      exact hread
  | constant value =>
    have hread := reads_constant py h hsign
    rw [Expr.toPerfJson, Expr.pyTree, Option.map_map]
    exact hread
  | literal value =>
    obtain ⟨name, rfl, hname⟩ := h
    exact reads_literal py hname

/-- The regular expressions and Python's tokenizer make the tokens of the tree of a
printed expression. -/
theorem tokenize_toPerfJson {e : Expr} (h : e.LeavesOk) (hsign : e.Unsigned)
    (hstrip : strip e.toPerfJson = e.toPerfJson) :
    tokenize (pyLexer py) (pythonText e.toPerfJson) = (e.pyTree py).map printedTokens := by
  obtain ⟨ps, dps, hraw, hseparate⟩ := reads_expr h hsign
  obtain ⟨hscan, hdecode, hlex⟩ := hseparate [] (.inl rfl)
  rw [List.append_nil] at hscan hdecode
  rw [decodedPieces_nil, List.append_nil] at hdecode hlex
  rw [pythonText_eq (hscan trivial) (hraw.trans hstrip.symm), hdecode, hlex]
  cases e.pyTree py with
  | none => rfl
  | some t => simp [appendTokens]

end Reads

end PmuEvents.Metric
