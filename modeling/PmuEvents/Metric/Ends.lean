import PmuEvents.Metric.Returns
import Mathlib.Data.List.TakeWhile
set_option autoImplicit false

/-!
# White space at the end of a printed expression

`strip` takes white space from the end of the text, where only a name can have it.  The
text that is left has less white space in its names, so the expression does not come
back.
-/

namespace PmuEvents.Metric

open PmuEvents.Foundation

/-! ## White space in names -/

/-- The white space in the name of an item. -/
def Item.spaces : Item → Nat
  | text name => name.countP isSpace
  | _ => 0

theorem countP_fixEscape {x : Char} (s : Text) :
    (fixEscape x s).countP isSpace ≤ s.countP isSpace := by
  have hslash : isSpace '\\' = false := by decide
  fun_induction fixEscape x s with
  | case1 c d s hcd ih =>
    simp only [List.countP_cons, hslash, hcd.2, Bool.false_eq_true, if_false]
    omega
  | case2 c d s hcd ih =>
    simp only [List.countP_cons] at ih ⊢
    omega
  | case3 s hs => exact Nat.le_refl _

theorem measures_spaces : Measures Item.spaces where
  turned := rfl
  letters := rfl
  escapes name := (countP_fixEscape _).trans (countP_fixEscape name)

theorem isSpace_slashChar (c : Char) : isSpace (slashChar c) = isSpace c := by
  unfold slashChar
  split
  · rename_i heq
    rw [heq]
    decide
  · rfl

theorem spaces_map_slashChar (name : Text) :
    Item.spaces (.text (name.map slashChar)) = Item.spaces (.text name) := by
  simp only [Item.spaces, List.countP_map]
  congr 1
  funext c
  exact isSpace_slashChar c

theorem isSpace_digitChar {d : Nat} (h : d < 10) : isSpace (Nat.digitChar d) = false := by
  have hall : ∀ k : Fin 10, isSpace (Nat.digitChar k.val) = false := by decide
  exact hall ⟨d, h⟩

/-- No constant has white space in its text. -/
theorem isSpace_of_mem_constantText {x : PyNumber} {c : Char} (h : c ∈ constantText x) :
    isSpace c = false := by
  have hdigits : ∀ {ds : List Nat}, (∀ d ∈ ds, d < 10) → c ∈ ds.map Nat.digitChar →
      isSpace c = false := by
    intro ds hds hmem
    obtain ⟨d, hd, rfl⟩ := List.mem_map.mp hmem
    exact isSpace_digitChar (hds d hd)
  have hall : ∀ {s : Text}, s.all (fun c => !isSpace c) = true → c ∈ s → isSpace c = false := by
    intro s hs hmem
    simpa using List.all_eq_true.mp hs c hmem
  cases x with
  | finite d =>
    obtain ⟨hne, hint, hfrac⟩ := numberSpelling_round d
    rw [constantText_finite, unsignedText, pointText] at h
    simp only [List.mem_append] at h
    rcases h with h | h | h | h
    · split at h
      · exact hall (by decide) h
      · cases h
    · exact hdigits hint h
    · split at h
      · cases h
      · rcases List.mem_cons.mp h with rfl | h
        · decide
        · exact hdigits hfrac h
    · cases hexp : (d.round 20).normalize.engSpelling.exp with
      | none =>
        rw [hexp] at h
        cases h
      | some e =>
        rw [hexp, exponentText, List.mem_cons, List.mem_append] at h
        rcases h with rfl | h | h
        · decide
        · split at h
          · exact hall (by decide) h
          · cases h
        · exact hdigits (fun d hd => Numeral.digits_lt (by decide) _ d hd) h
  | infinity neg => cases neg <;> exact hall (by decide) h
  | nan => exact hall (by decide) h

theorem spaces_constantText (x : PyNumber) :
    Item.spaces (.text (constantText x)) = Item.spaces (.text []) := by
  rw [Item.spaces, List.countP_eq_zero.mpr]
  · rfl
  · intro c hc
    simp [isSpace_of_mem_constantText hc]

theorem constantText_ne_nil (x : PyNumber) : constantText x ≠ [] := by
  cases x with
  | finite d =>
    rw [constantText_finite, unsignedText]
    have hne := (numberSpelling_round d).int_ne
    simp [hne]
  | infinity neg => cases neg <;> decide
  | nan => decide

/-- The white space in the names of tokens. -/
theorem weight_tokenItems (toks : List PyToken) :
    weight Item.spaces (toks.flatMap tokenItems) = (toks.flatMap tokenName).countP isSpace := by
  induction toks with
  | nil => rfl
  | cons tok toks ih =>
    rw [List.flatMap_cons, List.flatMap_cons, weight_append, List.countP_append, ih]
    congr 1
    cases tok with
    | atom a => cases a <;> simp [tokenItems, tokenName, Item.spaces]
    | _ => rfl

/-! ## White space in pieces -/

theorem countP_render (p : Piece) : p.render.countP isSpace = p.raw.countP isSpace := by
  have hopen : eventOpen.countP isSpace = 0 := by decide
  have hliteral : literalOpen.countP isSpace = 0 := by decide
  have hhex : hexOpen.countP isSpace = 0 := by decide
  have hclose : callClose.countP isSpace = 0 := by decide
  have hzero : isSpace '0' = false := by decide
  have hx : isSpace 'x' = false := by decide
  cases p <;>
    simp [Piece.render, Piece.raw, List.countP_append, hopen, hliteral, hhex, hclose,
      List.countP_cons, hzero, hx]

theorem countP_flatMap_render (ps : List Piece) :
    (ps.flatMap Piece.render).countP isSpace = (ps.flatMap Piece.raw).countP isSpace := by
  induction ps with
  | nil => rfl
  | cons p ps ih =>
    rw [List.flatMap_cons, List.flatMap_cons, List.countP_append, List.countP_append, ih,
      countP_render]

theorem countP_pairUp {change : Char → Text → Option (List Piece)}
    (h : ∀ c name qs, change c name = some qs →
      (qs.flatMap Piece.raw).countP isSpace = (c :: name).countP isSpace) (ps : List Piece) :
    ((pairUp change ps).flatMap Piece.raw).countP isSpace =
      (ps.flatMap Piece.raw).countP isSpace := by
  fun_induction pairUp change ps with
  | case1 c name ps qs hchange ih =>
    have hqs := h c name qs hchange
    rw [List.flatMap_append, List.countP_append, ih, hqs, List.flatMap_cons, List.flatMap_cons,
      List.countP_append, List.countP_append, Piece.raw, Piece.raw, List.countP_cons,
      List.countP_cons, List.countP_nil]
    omega
  | case2 c name ps hchange ih =>
    rw [List.flatMap_cons, List.flatMap_cons, List.countP_append, List.countP_append, ih]
  | case3 p ps hne ih =>
    rw [List.flatMap_cons, List.flatMap_cons, List.countP_append, List.countP_append, ih]
  | case4 => rfl

theorem countP_decodedPieces (ps : List Piece) :
    ((decodedPieces ps).flatMap Piece.render).countP isSpace =
      (ps.flatMap Piece.raw).countP isSpace := by
  have hunwrap : ∀ qs : List Piece, (qs.map (unwrapIn keywords)).flatMap Piece.raw =
      qs.flatMap Piece.raw := by
    intro qs
    rw [List.flatMap_map]
    congr 1
    funext p
    cases p with
    | word name =>
      rw [unwrapIn]
      split <;> rfl
    | _ => rfl
  have hliteral : ∀ c name qs, literalPieces c name = some qs →
      (qs.flatMap Piece.raw).countP isSpace = (c :: name).countP isSpace := by
    intro c name qs h
    rw [literalPieces] at h
    split at h
    · rename_i hc
      obtain rfl := Option.some.inj h
      rw [hc.1]
      simp [Piece.raw]
    · cases h
  have hhex : ∀ c name qs, hexPieces c name = some qs →
      (qs.flatMap Piece.raw).countP isSpace = (c :: name).countP isSpace := by
    intro c name qs h
    rw [hexPieces] at h
    split at h
    · rename_i hc
      obtain ⟨digits, hdigits, rfl⟩ := Option.map_eq_some_iff.mp h
      unfold hexDigits at hdigits
      split at hdigits
      · split at hdigits
        · rename_i hx
          obtain rfl := Option.some.inj hdigits
          have hsmall : isSpace 'x' = false := by decide
          have hbig : isSpace 'X' = false := by decide
          rcases hx.1 with rfl | rfl <;> simp [hc, Piece.raw, List.countP_cons, hsmall, hbig]
        · cases hdigits
      · cases hdigits
    · cases h
  have hexponent : ∀ c name qs, exponentPieces c name = some qs →
      (qs.flatMap Piece.raw).countP isSpace = (c :: name).countP isSpace := by
    intro c name qs h
    rw [exponentPieces] at h
    split at h
    · obtain ⟨digits, hdigits, rfl⟩ := Option.map_eq_some_iff.mp h
      unfold exponentDigits at hdigits
      split at hdigits
      · split at hdigits
        · obtain rfl := Option.some.inj hdigits
          simp [Piece.raw, List.countP_cons]
        · cases hdigits
      · cases hdigits
    · cases h
  rw [countP_flatMap_render, decodedPieces, hunwrap, countP_pairUp hexponent, countP_pairUp hhex,
    countP_pairUp hliteral]

/-! ## Texts at the end -/

section Ends

variable {py : PyFloat}

/-- The text is read as these tokens with nothing after it. -/
def Ends (py : PyFloat) (text : Text) (toks : Option (List PyToken)) : Prop :=
  ∃ ps dps : List Piece, ps.flatMap Piece.raw = text ∧ Separate py ps dps toks []

/-- Every text is read somehow, with no more white space in the names than in the text. -/
theorem exists_ends (py : PyFloat) (text : Text) : ∃ toks, Ends py text toks ∧ ∀ l, toks = some l →
    weight Item.spaces (l.flatMap tokenItems) ≤ text.countP isSpace := by
  obtain ⟨ps, hscanned, hraw⟩ := exists_scanned text
  refine ⟨tokenize (pyLexer py) ((decodedPieces ps).flatMap Piece.render),
    ⟨ps, decodedPieces ps, hraw, ?_, ?_, ?_⟩, ?_⟩
  · intro _
    rw [List.append_nil]
    exact hscanned
  · rw [decodedPieces_nil, List.append_nil, List.append_nil]
  · rw [decodedPieces_nil, List.append_nil]
    cases tokenize (pyLexer py) ((decodedPieces ps).flatMap Piece.render) with
    | none => rfl
    | some l => simp [appendTokens]
  · intro l hl
    rw [weight_tokenItems, ← hraw, ← countP_decodedPieces]
    exact (sublist_tokenName hl).countP_le

theorem Reads.joinEnd {text text' mid : Text} {toks toks' : Option (List PyToken)}
    {tok : PyToken} (h : Reads py text toks) (hmid : Joins py mid tok)
    (h' : Ends py text' toks') :
    Ends py (text ++ (mid ++ text')) (appendTokens toks (appendTokens (some [tok]) toks')) := by
  obtain ⟨ps, dps, hraw, hsep⟩ := h
  obtain ⟨pm, dpm, hrawm, hbounded, hsepm⟩ := hmid
  obtain ⟨ps', dps', hraw', hsep'⟩ := h'
  refine ⟨ps ++ (pm ++ ps'), dps ++ (dpm ++ dps'), ?_, ?_⟩
  · rw [List.flatMap_append, List.flatMap_append, hraw, hrawm, hraw']
  · have hrest := (hsepm (ps' ++ [])).append hsep'
    exact (hsep ((pm ++ ps') ++ []) (by rw [List.append_assoc]; exact hbounded _)).append hrest

theorem Ends.tokenize {text orig : Text} {toks : Option (List PyToken)} (h : Ends py text toks)
    (hstrip : strip orig = text) : tokenize (pyLexer py) (pythonText orig) = toks := by
  obtain ⟨ps, dps, hraw, hscan, hdecode, hlex⟩ := h
  rw [List.append_nil] at hscan hdecode
  rw [decodedPieces_nil, List.append_nil] at hdecode hlex
  rw [pythonText_eq (hscan trivial) (hraw.trans hstrip.symm), hdecode, hlex]
  cases toks with
  | none => rfl
  | some l => simp [appendTokens]

/-- The white space of the names in an expression's own tokens. -/
theorem spaces_printedTokens {e : Expr} (hleaves : e.LeavesOk) {t : OpTree BinOp PyAtom}
    (h : e.pyTree py = some t) :
    weight Item.spaces ((printedTokens t).flatMap tokenItems) = weight Item.spaces e.items := by
  have hmap := map_write spaces_map_slashChar (fun x _ => spaces_constantText x) hleaves h
  rw [treeItems, Cst.tokens_write] at hmap
  rw [weight, weight, printedTokens, hmap]

theorem appendTokens_assoc (toks toks' toks'' : Option (List PyToken)) :
    appendTokens (appendTokens toks toks') toks'' =
      appendTokens toks (appendTokens toks' toks'') := by
  cases toks <;> cases toks' <;> cases toks'' <;> simp [appendTokens]

theorem appendTokens_eq_some {toks toks' : Option (List PyToken)} {l : List PyToken} :
    appendTokens toks toks' = some l ↔
      ∃ a b, toks = some a ∧ toks' = some b ∧ l = a ++ b := by
  cases toks <;> cases toks' <;> simp [appendTokens, eq_comm]

theorem weight_writeOperand (op : BinOp) (rhs : Bool) (other : OpTree BinOp PyAtom)
    (toks : List PyToken) :
    weight Item.spaces
        ((writeOperand PrintedTree.brackets op rhs other toks).flatMap tokenItems) =
      weight Item.spaces (toks.flatMap tokenItems) := by
  cases other with
  | binary inner l r =>
    rw [writeOperand]
    split
    · simp [tokenItems]
    · rfl
  | _ => rfl

theorem bracket_of_hasBrackets {op : BinOp} {e : Expr} (h : e.hasBrackets op = false)
    (text : Text) : e.bracket op text true = text := by
  cases e with
  | operator inner l r => rw [Expr.bracket, if_neg (of_decide_eq_false h)]
  | _ => rfl

/-- The name at the end of a printed text: whatever text stands in its place is read
after the tokens before it. -/
theorem exists_lastName (py : PyFloat) {e : Expr} (hleaves : e.LeavesOk) (hsign : e.Unsigned)
    {name : Text} (h : e.lastName = some name) :
    ∃ (pre : Text) (toks : Option (List PyToken)), e.toPerfJson = pre ++ name ∧
      (∀ l, toks = some l → weight Item.spaces (l.flatMap tokenItems) + name.countP isSpace ≤
        weight Item.spaces e.items) ∧
      ∀ text toks', Ends py text toks' → Ends py (pre ++ text) (appendTokens toks toks') := by
  have hnil : ∀ toks' : Option (List PyToken), appendTokens (some []) toks' = toks' := by
    intro toks'
    cases toks' <;> rfl
  induction e with
  | operator op l r ihl ihr =>
    rw [Expr.lastName] at h
    split at h
    · cases h
    · rename_i hbrackets
      obtain ⟨pre, toks, htext, hweight, hends⟩ := ihr hleaves.2 hsign.2 h
      have hl : Reads py _ _ := reads_operand op false (reads_expr hleaves.1 hsign.1)
      refine ⟨l.bracket op l.toPerfJson false ++ (tokenText (.op op) ++ pre),
        appendTokens ((l.pyTree py).map fun t =>
          writeOperand PrintedTree.brackets op false t (printedTokens t))
          (appendTokens (some [.op op]) toks), ?_, ?_, ?_⟩
      · rw [Expr.toPerfJson, bracket_of_hasBrackets (by simpa using hbrackets), htext]
        simp [tokenText]
      · intro toks' htoks
        obtain ⟨a, b, ha, hb, rfl⟩ := appendTokens_eq_some.mp htoks
        obtain ⟨o, c, ho, hc, rfl⟩ := appendTokens_eq_some.mp hb
        obtain ⟨t, ht, rfl⟩ := Option.map_eq_some_iff.mp ha
        obtain rfl := Option.some.inj ho
        have hrest := hweight c hc
        have hfirst := spaces_printedTokens hleaves.1 ht
        have hop : ∀ op, Item.spaces (.op op) = 0 := fun _ => rfl
        simp only [List.flatMap_append, List.flatMap_cons, List.flatMap_nil, tokenItems,
          weight_append, weight_cons, weight_nil, weight_writeOperand, Expr.items, hop]
        omega
      · intro text toks' htext
        have hjoin := hl.joinEnd (joins_op py op) (hends text toks' htext)
        rw [appendTokens_assoc, appendTokens_assoc, List.append_assoc, List.append_assoc]
        exact hjoin
  | event name' =>
    obtain rfl := Option.some.inj h
    refine ⟨[], some [], rfl, ?_, ?_⟩
    · rintro _ ⟨⟩
      have hspaces := spaces_map_slashChar name'
      simp only [Item.spaces] at hspaces
      simp [Expr.items, Item.spaces, hspaces]
    · intro text toks' hends
      rw [hnil]
      exact hends
  | literal value =>
    obtain rfl := Option.some.inj h
    refine ⟨[], some [], rfl, ?_, ?_⟩
    · rintro _ ⟨⟩
      simp [Expr.items, Item.spaces]
    · intro text toks' hends
      rw [hnil]
      exact hends
  | _ => cases h

/-! ## What strip leaves -/

theorem isSpace_of_isAlpha {c : Char} (hc : c.isAlpha = true) : isSpace c = false := by
  have hall : ∀ n : Fin 128,
      (Char.ofNat n.val).isAlpha = true → isSpace (Char.ofNat n.val) = false := by
    decide
  have hsmall : c.toNat < 128 := by
    have hletter := isAlpha_iff.mp hc
    omega
  have hchar := hall ⟨c.toNat, hsmall⟩
  simp only [Char.ofNat_toNat] at hchar
  exact hchar hc

/-- No printed text begins with white space. -/
theorem exists_first {e : Expr} (hleaves : e.LeavesOk) :
    ∃ c t, e.toPerfJson = c :: t ∧ isSpace c = false := by
  induction e with
  | operator op l r ihl ihr =>
    obtain ⟨c, t, htext, hc⟩ := ihl hleaves.1
    have hbracket : ∃ c t, l.bracket op l.toPerfJson false = c :: t ∧ isSpace c = false := by
      cases l with
      | operator inner ll lr =>
        rw [Expr.bracket]
        split
        · exact ⟨'(', _, rfl, by decide⟩
        · exact ⟨c, t, htext, hc⟩
      | _ => exact ⟨c, t, htext, hc⟩
    obtain ⟨c, t, htext, hc⟩ := hbracket
    refine ⟨c, t ++ ' ' :: op.text ++ ' ' :: r.bracket op r.toPerfJson true, ?_, hc⟩
    rw [Expr.toPerfJson, htext]
    simp
  | select t c f _ _ _ => exact ⟨'(', _, rfl, by decide⟩
  | function1 fn x _ => cases fn with | _ => exact ⟨_, _, rfl, by decide⟩
  | function2 fn x y _ _ => cases fn with | _ => exact ⟨_, _, rfl, by decide⟩
  | event name =>
    rcases hleaves with h | ⟨digits, rfl, -⟩
    · obtain ⟨-, hfirst⟩ := isName_iff.mp h.shape
      cases name with
      | nil => cases hfirst
      | cons c t =>
        refine ⟨slashChar c, t.map slashChar, rfl, ?_⟩
        rw [isSpace_slashChar]
        exact isSpace_of_isAlpha hfirst
    · exact ⟨'0', _, rfl, by decide⟩
  | constant value =>
    obtain ⟨x, rfl⟩ := hleaves
    obtain ⟨c, t, htext⟩ := List.exists_cons_of_ne_nil (constantText_ne_nil x)
    exact ⟨c, t, htext, isSpace_of_mem_constantText (htext ▸ List.mem_cons_self)⟩
  | literal value =>
    obtain ⟨name, rfl, -⟩ := hleaves
    exact ⟨'#', name, rfl, by decide⟩

/-- Only names end a printed text in white space. -/
theorem exists_last {e : Expr} (hleaves : e.LeavesOk) (h : e.lastName = none) :
    ∃ t c, e.toPerfJson = t ++ [c] ∧ isSpace c = false := by
  induction e with
  | operator op l r ihl ihr =>
    rw [Expr.lastName] at h
    split at h
    · rename_i hbrackets
      have hbracket : r.bracket op r.toPerfJson true = '(' :: r.toPerfJson ++ [')'] := by
        cases r with
        | operator inner rl rr => rw [Expr.bracket, if_pos (of_decide_eq_true hbrackets)]
        | _ => cases hbrackets
      refine ⟨l.bracket op l.toPerfJson false ++ ' ' :: op.text ++ ' ' :: '(' :: r.toPerfJson, ')',
        ?_, by decide⟩
      rw [Expr.toPerfJson, hbracket]
      simp
    · rename_i hbrackets
      obtain ⟨t, c, htext, hc⟩ := ihr hleaves.2 h
      refine ⟨l.bracket op l.toPerfJson false ++ ' ' :: op.text ++ ' ' :: t, c, ?_, hc⟩
      rw [Expr.toPerfJson, bracket_of_hasBrackets (by simpa using hbrackets), htext]
      simp
  | select t c f _ _ _ =>
    refine ⟨'(' :: t.toPerfJson ++ " if ".toList ++ c.toPerfJson ++ " else ".toList ++
      f.toPerfJson, ')', ?_, by decide⟩
    rw [Expr.toPerfJson]
  | function1 fn x _ =>
    refine ⟨fn.text ++ '(' :: x.toPerfJson, ')', ?_, by decide⟩
    rw [Expr.toPerfJson]
  | function2 fn x y _ _ =>
    refine ⟨fn.text ++ '(' :: x.toPerfJson ++ ", ".toList ++ y.toPerfJson, ')', ?_, by decide⟩
    rw [Expr.toPerfJson]
  | event name => cases h
  | constant value =>
    obtain ⟨x, rfl⟩ := hleaves
    rcases List.eq_nil_or_concat' (constantText x) with hnil | ⟨t, c, htext⟩
    · exact absurd hnil (constantText_ne_nil x)
    · have hmem : c ∈ constantText x := by
        rw [htext]
        simp
      exact ⟨t, c, htext, isSpace_of_mem_constantText hmem⟩
  | literal value => cases h

/-- No name begins with white space. -/
theorem exists_first_lastName {e : Expr} (hleaves : e.LeavesOk) {name : Text}
    (h : e.lastName = some name) : ∃ c t, name = c :: t ∧ isSpace c = false := by
  induction e with
  | operator op l r ihl ihr =>
    rw [Expr.lastName] at h
    split at h
    · cases h
    · exact ihr hleaves.2 h
  | event name' =>
    obtain rfl := Option.some.inj h
    exact exists_first hleaves
  | literal value =>
    obtain rfl := Option.some.inj h
    exact exists_first hleaves
  | _ => cases h

/-- What `strip` takes from a text that begins with none of it. -/
theorem strip_cons {c : Char} {t : Text} (hc : isSpace c = false) :
    strip (c :: t) = ((c :: t).reverse.dropWhile isSpace).reverse := by
  rw [strip, List.dropWhile_cons, hc, if_neg Bool.false_ne_true]

theorem strip_concat {c d : Char} {t s : Text} (hc : isSpace c = false) (hd : isSpace d = false)
    (h : c :: t = s ++ [d]) : strip (c :: t) = c :: t := by
  rw [strip_cons hc, h, List.reverse_append, List.reverse_singleton, List.singleton_append,
    List.dropWhile_cons, hd, if_neg Bool.false_ne_true]
  simp

/-- The text without the white space at the end of its last name. -/
theorem strip_append {c d : Char} {t pre s : Text} (hc : isSpace c = false)
    (hd : isSpace d = false) (h : c :: t = pre ++ d :: s) :
    strip (c :: t) = pre ++ ((d :: s).reverse.dropWhile isSpace).reverse := by
  have hne : ((d :: s).reverse.dropWhile isSpace).isEmpty = false := by
    rw [List.isEmpty_eq_false_iff]
    intro hnil
    have hall := List.dropWhile_eq_nil_iff.mp hnil d (by simp)
    rw [hd] at hall
    cases hall
  rw [strip_cons hc, h, List.reverse_append, List.dropWhile_append, hne,
    if_neg Bool.false_ne_true, List.reverse_append, List.reverse_reverse]

theorem strip_of_tight {e : Expr} (hleaves : e.LeavesOk) (hsign : e.Unsigned)
    (h : ∀ name, e.lastName = some name → name.getLast?.any isSpace = false) :
    strip e.toPerfJson = e.toPerfJson := by
  have hlast : ∃ s d, e.toPerfJson = s ++ [d] ∧ isSpace d = false := by
    cases hname : e.lastName with
    | none => exact exists_last hleaves hname
    | some name =>
      obtain ⟨d, s, rfl, -⟩ := exists_first_lastName hleaves hname
      obtain ⟨pre, toks, htext, -⟩ :=
        exists_lastName ⟨fun _ => .nan, fun _ _ _ => none⟩ hleaves hsign hname
      have htight := h _ hname
      rcases List.eq_nil_or_concat' (d :: s) with hnil | ⟨init, d', hconcat⟩
      · cases hnil
      · rw [hconcat] at htext htight
        refine ⟨pre ++ init, d', by rw [htext, List.append_assoc], ?_⟩
        simpa using htight
  obtain ⟨c, t, hfirst, hc⟩ := exists_first hleaves
  obtain ⟨s, d, hconcat, hd⟩ := hlast
  rw [hfirst] at hconcat ⊢
  exact strip_concat hc hd hconcat

/-- A name loses white space with its end. -/
theorem countP_strip_lt {name : Text} (h : name.getLast?.any isSpace = true) :
    (name.reverse.dropWhile isSpace).reverse.countP isSpace < name.countP isSpace := by
  rcases List.eq_nil_or_concat' name with rfl | ⟨init, d, rfl⟩
  · cases h
  · have hd : isSpace d = true := by simpa using h
    have hdrop : ((init ++ [d]).reverse.dropWhile isSpace).countP isSpace ≤
        init.reverse.countP isSpace := by
      rw [List.reverse_append, List.reverse_singleton, List.singleton_append,
        List.dropWhile_cons, if_pos hd]
      exact (List.dropWhile_suffix isSpace).sublist.countP_le
    rw [List.countP_reverse] at hdrop
    rw [List.countP_reverse, List.countP_append, List.countP_cons, hd, List.countP_nil]
    simp only [if_true]
    omega

/-- An expression whose text has white space at its end does not come back. -/
theorem tight_of_parsed {e : Expr} (hleaves : e.LeavesOk) (hsign : e.Unsigned)
    (h : parsePerfJson py e.toPerfJson = some e) {name : Text} (hname : e.lastName = some name) :
    name.getLast?.any isSpace = false := by
  cases hspace : name.getLast?.any isSpace with
  | false => rfl
  | true =>
    exfalso
    have hless := countP_strip_lt hspace
    obtain ⟨toks, parsed, v, last, htoks, hparsed, heval, hvalue⟩ := parsePerfJson_eq_some h
    obtain ⟨pre, before, htext, hweight, hends⟩ := exists_lastName py hleaves hsign hname
    obtain ⟨after, hafter, hafterWeight⟩ :=
      exists_ends py (name.reverse.dropWhile isSpace).reverse
    obtain ⟨c, t, hfirst, hc⟩ := exists_first hleaves
    obtain ⟨d, s, rfl, hd⟩ := exists_first_lastName hleaves hname
    have hstrip := strip_append hc hd (hfirst.symm.trans htext)
    rw [← hfirst] at hstrip
    rw [(hends _ after hafter).tokenize hstrip] at htoks
    obtain ⟨a, b, ha, hb, rfl⟩ := appendTokens_eq_some.mp htoks
    have hbefore := hweight a ha
    have hrest := hafterWeight b hb
    have hvalueWeight := (heval.weight_le measures_spaces).1
    rw [hvalue, treeItems, (Cst.readTokens_sound hparsed).1, List.flatMap_append,
      weight_append] at hvalueWeight
    omega

end Ends

end PmuEvents.Metric
