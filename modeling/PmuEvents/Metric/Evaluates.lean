import PmuEvents.Metric.PieceTokens
set_option autoImplicit false

/-!
# What evaluation makes

Evaluation as a relation, with one rule for each way a comparison can go on, and what
it gives: expressions whose leaves are those of the tokens and whose operators are as
`Expression`'s operator methods leave them.
-/

namespace PmuEvents.Metric

open PmuEvents.Foundation

/-! ## The relation -/

/-- An expression evaluates to a value, and to the last operand of a comparison without
brackets. -/
inductive Evaluates (py : PyFloat) : Cst BinOp PyAtom → Value → Option Value → Prop
  | atom {a : PyAtom} {v : Value} (ha : a.value = some v) : Evaluates py (.atom a) v none
  | brackets {t : Cst BinOp PyAtom} {v : Value} {last : Option Value}
      (ht : Evaluates py t v last) : Evaluates py (.brackets t) v none
  | skipped {op : BinOp} {l r : Cst BinOp PyAtom} {v middle : Value}
      (hl : Evaluates py l v (some middle)) (hop : op.isComparison = true) :
      Evaluates py (.binary op l r) v (some middle)
  | chained {op : BinOp} {l r : Cst BinOp PyAtom} {vl middle vr v : Value}
      {lastr : Option Value} (hl : Evaluates py l vl (some middle))
      (hop : op.isComparison = true) (hr : Evaluates py r vr lastr)
      (hv : middle.apply py op vr = some v) : Evaluates py (.binary op l r) v (some vr)
  | binary {op : BinOp} {l r : Cst BinOp PyAtom} {vl vr v : Value} {lastl lastr : Option Value}
      (hl : Evaluates py l vl lastl) (hlast : op.isComparison = true → lastl = none)
      (hr : Evaluates py r vr lastr) (hv : vl.apply py op vr = some v) :
      Evaluates py (.binary op l r) v (if op.isComparison then some vr else none)
  | cond {t c f : Cst BinOp PyAtom} {vt vc vf : Value} {lastt lastc lastf : Option Value}
      (ht : Evaluates py t vt lastt) (hc : Evaluates py c vc lastc)
      (hf : Evaluates py f vf lastf) :
      Evaluates py (.cond t c f) (.expr (.select vt.constify vc.constify vf.constify)) none
  | call1 {fn : Fn1} {x : Cst BinOp PyAtom} {vx : Value} {lastx : Option Value}
      (hx : Evaluates py x vx lastx) :
      Evaluates py (.call1 (.fn1 fn) x) (.expr (.function1 fn vx.constify)) none
  | call2 {fn : Fn2} {x y : Cst BinOp PyAtom} {vx vy : Value} {lastx lasty : Option Value}
      (hx : Evaluates py x vx lastx) (hy : Evaluates py y vy lasty) :
      Evaluates py (.call2 (.fn2 fn) x y) (.expr (.function2 fn vx.constify vy.constify)) none

section Sound

variable {py : PyFloat}

theorem evaluates_of_evalPy {t : Cst BinOp PyAtom} {v : Value} {last : Option Value}
    (h : evalPy py t = some (v, last)) : Evaluates py t v last := by
  induction t generalizing v last with
  | atom a =>
    obtain ⟨v', ha, heq⟩ := Option.map_eq_some_iff.mp h
    obtain ⟨rfl, rfl⟩ := Prod.mk.inj heq
    exact .atom ha
  | brackets t ih =>
    obtain ⟨⟨v', last'⟩, ht, heq⟩ := Option.map_eq_some_iff.mp h
    obtain ⟨rfl, rfl⟩ := Prod.mk.inj heq
    exact .brackets (ih ht)
  | binary op l r ihl ihr =>
    rw [evalPy, Option.bind_eq_bind, Option.bind_eq_some_iff] at h
    obtain ⟨⟨vl, lastl⟩, hl, h⟩ := h
    split at h
    · rename_i middle hmiddle
      split at hmiddle
      · rename_i hop
        obtain rfl : lastl = some middle := hmiddle
        split at h
        · obtain ⟨rfl, rfl⟩ := Prod.mk.inj (Option.some.inj h)
          exact .skipped (ihl hl) hop
        · simp only [Option.bind_eq_bind, Option.bind_eq_some_iff, Option.pure_def,
            Option.some.injEq, Prod.mk.injEq] at h
          obtain ⟨⟨vr, lastr⟩, hr, v', hv, rfl, rfl⟩ := h
          exact .chained (ihl hl) hop (ihr hr) hv
      · cases hmiddle
    · rename_i hmiddle
      simp only [Option.bind_eq_bind, Option.bind_eq_some_iff, Option.pure_def,
        Option.some.injEq, Prod.mk.injEq] at h
      obtain ⟨⟨vr, lastr⟩, hr, v', hv, rfl, rfl⟩ := h
      refine .binary (ihl hl) ?_ (ihr hr) hv
      intro hop
      rw [if_pos hop] at hmiddle
      exact hmiddle
  | cond t c f iht ihc ihf =>
    simp only [evalPy, Option.bind_eq_bind, Option.bind_eq_some_iff, Option.pure_def,
      Option.some.injEq, Prod.mk.injEq] at h
    obtain ⟨⟨vt, lastt⟩, ht, ⟨vc, lastc⟩, hc, ⟨vf, lastf⟩, hf, rfl, rfl⟩ := h
    exact .cond (iht ht) (ihc hc) (ihf hf)
  | call1 fn x ih =>
    cases fn with
    | fn1 fn =>
      simp only [evalPy, Option.bind_eq_bind, Option.bind_eq_some_iff, Option.pure_def,
        Option.some.injEq, Prod.mk.injEq] at h
      obtain ⟨⟨vx, lastx⟩, hx, rfl, rfl⟩ := h
      exact .call1 (ih hx)
    | _ => cases h
  | call2 fn x y ihx ihy =>
    cases fn with
    | fn2 fn =>
      simp only [evalPy, Option.bind_eq_bind, Option.bind_eq_some_iff, Option.pure_def,
        Option.some.injEq, Prod.mk.injEq] at h
      obtain ⟨⟨vx, lastx⟩, hx, ⟨vy, lasty⟩, hy, rfl, rfl⟩ := h
      exact .call2 (ihx hx) (ihy hy)
    | _ => cases h

end Sound

/-! ## What comes of it -/

/-- The operators that a number on the left does not reach. -/
def BinOp.swaps : BinOp → Bool
  | lt | gt | xor | mod => true
  | _ => false

namespace Expr

/-- Whether the expression is a constant. -/
def isConstant : Expr → Bool
  | constant _ => true
  | _ => false

/-- The operators are those evaluation leaves: not applied to two numbers, and `^`, `%`
and comparisons not to a number on the left. -/
def Evaluated : Expr → Prop
  | operator op lhs rhs =>
    (lhs.isConstant = true → rhs.isConstant = false ∧ op.swaps = false) ∧
      lhs.Evaluated ∧ rhs.Evaluated
  | select true_val cond false_val => true_val.Evaluated ∧ cond.Evaluated ∧ false_val.Evaluated
  | function1 _ lhs => lhs.Evaluated
  | function2 _ lhs rhs => lhs.Evaluated ∧ rhs.Evaluated
  | _ => True

end Expr

/-- A value that evaluation can give. -/
def Value.Made : Value → Prop
  | number _ => True
  | expr e => e.LeavesOk ∧ e.Evaluated ∧ e.isConstant = false

theorem Value.constify_expr (e : Expr) : (Value.expr e).constify = e := rfl

theorem Value.Made.constify {v : Value} (h : v.Made) :
    v.constify.LeavesOk ∧ v.constify.Evaluated := by
  cases v with
  | number x => exact ⟨⟨x.number, rfl⟩, trivial⟩
  | expr e => exact ⟨h.1, h.2.1⟩

/-- The operator methods keep constants to the right where they have to. -/
theorem Value.Made.apply {py : PyFloat} {op : BinOp} {l r v : Value} (hl : l.Made) (hr : r.Made)
    (h : l.apply py op r = some v) : v.Made := by
  cases l with
  | expr e =>
    obtain rfl := Option.some.inj h
    obtain ⟨hleaves, hevaluated⟩ := hr.constify
    refine ⟨⟨hl.1, hleaves⟩, ⟨?_, hl.2.1, hevaluated⟩, rfl⟩
    intro hconst
    rw [hl.2.2] at hconst
    cases hconst
  | number x =>
    cases r with
    | number y =>
      obtain ⟨z, -, rfl⟩ := Option.map_eq_some_iff.mp h
      trivial
    | expr e =>
      have hconst : (Value.constify (number x)).LeavesOk := ⟨x.number, rfl⟩
      have hswapped : ∀ inner, (Value.expr (.operator inner e (Value.number x).constify)).Made := by
        intro inner
        refine ⟨⟨hr.1, hconst⟩, ⟨?_, hr.2.1, trivial⟩, rfl⟩
        intro he
        rw [hr.2.2] at he
        cases he
      have hkept : ∀ inner : BinOp, inner.swaps = false →
          (Value.expr (.operator inner (Value.number x).constify e)).Made :=
        fun inner hinner => ⟨⟨hconst, hr.1⟩, ⟨fun _ => ⟨hr.2.2, hinner⟩, trivial, hr.2.1⟩, rfl⟩
      cases op with
      | lt =>
        obtain rfl := Option.some.inj h
        exact hswapped .gt
      | gt =>
        obtain rfl := Option.some.inj h
        exact hswapped .lt
      | xor => cases h
      | mod => cases h
      | _ =>
        obtain rfl := Option.some.inj h
        exact hkept _ rfl

/-! ## Names after _FixEscapes -/

/-- The backslashes go between units. -/
theorem escapes_fixEscape {plain escaped : Char → Bool} {x : Char} (hslash : x ≠ '\\')
    (hx : escaped x = true) {s : Text} (h : escapes '\\' plain escaped s = true) :
    escapes '\\' plain escaped (fixEscape x s) = true ∧
      ∀ d, ∃ u, fixEscape x (d :: s) = d :: u ∧ escapes '\\' plain escaped u = true := by
  induction h using escapes_induction with
  | nil => exact ⟨rfl, fun d => ⟨[], rfl, rfl⟩⟩
  | pair c s hc hs ih =>
    have hfirst : escapes '\\' plain escaped (fixEscape x ('\\' :: c :: s)) = true := by
      obtain ⟨u, hu, hescapes⟩ := ih.2 c
      rw [fixEscape, if_neg (by simp), hu, escapes_pair, hc, hescapes, Bool.true_and]
    refine ⟨hfirst, ?_⟩
    intro d
    refine ⟨_, ?_, hfirst⟩
    rw [fixEscape, if_neg]
    exact fun heq => hslash heq.2.symm
  | cons c s hc hplain hs ih =>
    have hfirst : escapes '\\' plain escaped (fixEscape x (c :: s)) = true := by
      obtain ⟨u, hu, hescapes⟩ := ih.2 c
      rw [hu, escapes_cons hc, hplain, hescapes, Bool.true_and]
    refine ⟨hfirst, ?_⟩
    intro d
    rw [fixEscape]
    split
    · refine ⟨_, rfl, ?_⟩
      rw [escapes_pair, hx, ih.1, Bool.true_and]
    · exact ⟨_, rfl, hfirst⟩

theorem head?_fixEscape (x : Char) (s : Text) : (fixEscape x s).head? = s.head? := by
  fun_cases fixEscape x s <;> rfl

/-- Where no backslash is left, none was put in. -/
theorem fixEscape_eq_self {x : Char} {s : Text} (h : '\\' ∉ fixEscape x s) :
    fixEscape x s = s := by
  fun_induction fixEscape x s with
  | case1 c d s hcd ih => simp at h
  | case2 c d s hcd ih =>
    rw [List.mem_cons, not_or] at h
    rw [ih h.2]
  | case3 s hs => rfl

theorem EventName.fixEscapes {name : Text} (h : EventName name) :
    EventName (fixEscapes name) where
  shape := by
    obtain ⟨htail, hhead⟩ := isName_iff.mp h.shape
    refine isName_iff.mpr ⟨?_, ?_⟩
    · have hcomma := (escapes_fixEscape (x := ',') (by decide) (by decide) htail).1
      exact (escapes_fixEscape (by decide) (by decide) hcomma).1
    · rw [Metric.fixEscapes, head?_fixEscape, head?_fixEscape]
      exact hhead
  raw := by
    have hcomma := (escapes_fixEscape (x := ',') (by decide) (by decide) h.raw).1
    exact (escapes_fixEscape (by decide) (by decide) hcomma).1
  unreserved := by
    intro hmem
    have hall : keywords.all (fun kw => !kw.contains '\\') = true := by decide
    have hslash := List.all_eq_true.mp hall _ hmem
    rw [Bool.not_eq_true', ← Bool.not_eq_true, List.contains_iff_mem] at hslash
    have hequal : Metric.fixEscapes name = fixEscape ',' name := fixEscape_eq_self hslash
    rw [hequal] at hslash hmem
    rw [fixEscape_eq_self hslash] at hmem
    exact h.unreserved hmem

theorem EventText.fixEscapes {name : Text} (h : EventText name) :
    EventText (fixEscapes name) := by
  rcases h with h | ⟨digits, rfl, hdigits⟩
  · exact .inl h.fixEscapes
  · refine .inr ⟨digits, ?_, hdigits⟩
    have hnot : ∀ c, isHexDigit c = false → c ∉ digits := by
      intro c hc hmem
      rw [List.all_eq_true.mp hdigits c hmem] at hc
      cases hc
    apply fixEscapes_of_not_mem
    · simpa using hnot ',' (by decide)
    · simpa using hnot '=' (by decide)

/-! ## Whole expressions -/

section Made

variable {py : PyFloat}

theorem made_value {a : PyAtom} {v : Value} (h : a.value = some v) (hok : TokenOk (.atom a)) :
    v.Made := by
  cases a with
  | number x =>
    obtain rfl := Option.some.inj h
    trivial
  | event name =>
    obtain rfl := Option.some.inj h
    exact ⟨EventText.fixEscapes hok, trivial, rfl⟩
  | literal value =>
    obtain rfl := Option.some.inj h
    exact ⟨hok, trivial, rfl⟩
  | _ => cases h

/-- The tokens of a tree are those of decoded texts. -/
def TokensOk (t : Cst BinOp PyAtom) : Prop := ∀ tok ∈ t.tokens, TokenOk tok

section Tokens

variable {op : BinOp} {fn a : PyAtom} {t c f l r x y : Cst BinOp PyAtom}

theorem TokensOk.atom (h : TokensOk (.atom a)) : TokenOk (.atom a) :=
  h _ (by simp [Cst.tokens])

theorem TokensOk.brackets (h : TokensOk (.brackets t)) : TokensOk t :=
  fun tok htok => h tok (by simp [Cst.tokens, htok])

theorem TokensOk.binary (h : TokensOk (.binary op l r)) : TokensOk l ∧ TokensOk r :=
  ⟨fun tok htok => h tok (by simp [Cst.tokens, htok]),
    fun tok htok => h tok (by simp [Cst.tokens, htok])⟩

theorem TokensOk.cond (h : TokensOk (.cond t c f)) : TokensOk t ∧ TokensOk c ∧ TokensOk f :=
  ⟨fun tok htok => h tok (by simp [Cst.tokens, htok]),
    fun tok htok => h tok (by simp [Cst.tokens, htok]),
    fun tok htok => h tok (by simp [Cst.tokens, htok])⟩

theorem TokensOk.call1 (h : TokensOk (.call1 fn x)) : TokensOk x :=
  fun tok htok => h tok (by simp [Cst.tokens, htok])

theorem TokensOk.call2 (h : TokensOk (.call2 fn x y)) : TokensOk x ∧ TokensOk y :=
  ⟨fun tok htok => h tok (by simp [Cst.tokens, htok]),
    fun tok htok => h tok (by simp [Cst.tokens, htok])⟩

end Tokens

/-- Evaluation gives expressions with leaves of the tokens, and operators as the
operator methods leave them. -/
theorem Evaluates.made {t : Cst BinOp PyAtom} {v : Value} {last : Option Value}
    (h : Evaluates py t v last) (hok : TokensOk t) :
    v.Made ∧ ∀ m, last = some m → m.Made := by
  induction h with
  | atom ha => exact ⟨made_value ha hok.atom, by simp⟩
  | brackets _ ih => exact ⟨(ih hok.brackets).1, by simp⟩
  | skipped _ _ ih => exact ih hok.binary.1
  | chained _ _ _ hv ihl ihr =>
    have hmiddle := (ihl hok.binary.1).2 _ rfl
    have hr := (ihr hok.binary.2).1
    refine ⟨hmiddle.apply hr hv, ?_⟩
    rintro _ ⟨⟩
    exact hr
  | binary _ _ _ hv ihl ihr =>
    have hl := (ihl hok.binary.1).1
    have hr := (ihr hok.binary.2).1
    refine ⟨hl.apply hr hv, ?_⟩
    intro m hm
    split at hm
    · exact Option.some.inj hm ▸ hr
    · cases hm
  | cond _ _ _ iht ihc ihf =>
    obtain ⟨hokt, hokc, hokf⟩ := hok.cond
    have ht := (iht hokt).1.constify
    have hc := (ihc hokc).1.constify
    have hf := (ihf hokf).1.constify
    exact ⟨⟨⟨ht.1, hc.1, hf.1⟩, ⟨ht.2, hc.2, hf.2⟩, rfl⟩, by simp⟩
  | call1 _ ih =>
    have hx := (ih hok.call1).1.constify
    exact ⟨⟨hx.1, hx.2, rfl⟩, by simp⟩
  | call2 _ _ ihx ihy =>
    have hx := (ihx hok.call2.1).1.constify
    have hy := (ihy hok.call2.2).1.constify
    exact ⟨⟨⟨hx.1, hy.1⟩, ⟨hx.2, hy.2⟩, rfl⟩, by simp⟩

/-- The steps of the decoder. -/
theorem parsePerfJson_eq_some {orig : Text} {e : Expr} (h : parsePerfJson py orig = some e) :
    ∃ toks parsed v last, tokenize (pyLexer py) (pythonText orig) = some toks ∧
      Cst.readTokens BinOp.pyLevel toks = some parsed ∧ Evaluates py parsed v last ∧
      v.constify = e := by
  simp only [parsePerfJson, Option.bind_eq_bind, Option.bind_eq_some_iff, Option.pure_def,
    Option.some.injEq] at h
  obtain ⟨toks, htoks, parsed, hparsed, ⟨v, last⟩, hv, he⟩ := h
  exact ⟨toks, parsed, v, last, htoks, hparsed, evaluates_of_evalPy hv, he⟩

/-- The expressions the decoder makes. -/
theorem parsePerfJson_made {orig : Text} {e : Expr} (h : parsePerfJson py orig = some e) :
    e.LeavesOk ∧ e.Evaluated := by
  obtain ⟨toks, parsed, v, last, htoks, hparsed, heval, rfl⟩ := parsePerfJson_eq_some h
  obtain ⟨rfl, -⟩ := Cst.readTokens_sound hparsed
  exact (heval.made ((rendered_pythonText orig).tokens htoks)).1.constify

end Made

end PmuEvents.Metric
