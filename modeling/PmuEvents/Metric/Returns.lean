import PmuEvents.Metric.Items
import PmuEvents.Metric.Survival
set_option autoImplicit false

/-!
# What comes back survived

The converse: where the printed text of an expression is parsed to the expression, the
parsed tree is the written one, so Python found every operand where the printer had it
and every leaf for itself.
-/

namespace PmuEvents.Metric

open PmuEvents.Foundation

/-! ## The parsed tree is the written one -/

section Tree

variable {py : PyFloat}

theorem treeItems_writeOperand (op : BinOp) (rhs : Bool) (other : OpTree BinOp PyAtom)
    (c : Cst BinOp PyAtom) :
    treeItems (Cst.writeOperand PrintedTree.brackets op rhs other c) = treeItems c := by
  cases other with
  | binary inner l r =>
    rw [Cst.writeOperand]
    split
    · exact treeItems_brackets c
    · rfl
  | _ => rfl

theorem mirrors_writeOperand {op : BinOp} {rhs : Bool} {other : OpTree BinOp PyAtom}
    {c : Cst BinOp PyAtom} {e : Expr} :
    Mirrors (Cst.writeOperand PrintedTree.brackets op rhs other c) e ↔ Mirrors c e := by
  cases other with
  | binary inner l r =>
    rw [Cst.writeOperand]
    split <;> rfl
  | _ => rfl

theorem map_constantAtom {β : Type} {f : Item → β} {value : Text} {a : PyAtom}
    (hletters : isName value = true → f (.text value) = f (.text []))
    (h : constantAtom py value = some a) :
    (treeItems (.atom a)).map f = (Expr.constant value).items.map f := by
  rw [constantAtom] at h
  split at h
  · rename_i hname
    obtain rfl := Option.some.inj h
    rw [Expr.items, if_pos hname]
    exact congrArg (fun i => [i]) (hletters hname)
  · rename_i hname
    split at h
    · obtain rfl := Option.some.inj h
      rw [Expr.items, if_neg hname]
      rfl
    · cases h

/-- What the names of items have in common with their printed forms is the same for an
expression and its written tree. -/
theorem map_write {β : Type} {f : Item → β}
    (hslash : ∀ name : Text, f (.text (name.map slashChar)) = f (.text name))
    (hletters : ∀ x : PyNumber, isName (constantText x) = true →
      f (.text (constantText x)) = f (.text []))
    {e : Expr} (hleaves : e.LeavesOk) {t : OpTree BinOp PyAtom} (h : e.pyTree py = some t) :
    (treeItems (Cst.write PrintedTree.brackets t)).map f = e.items.map f := by
  induction e generalizing t with
  | operator op l r ihl ihr =>
    obtain ⟨tl, tr, hl, hr, rfl⟩ := Expr.pyTree_operator.mp h
    simp only [Cst.write, treeItems_binary, treeItems_writeOperand, Expr.items, List.map_append,
      List.map_cons, ihl hleaves.1 hl, ihr hleaves.2 hr]
  | select t c f iht ihc ihf =>
    obtain ⟨tt, tc, tf, ht, hc, hf, rfl⟩ := Expr.pyTree_select.mp h
    simp only [Cst.write, treeItems_brackets, treeItems_cond, Expr.items, List.map_append,
      List.map_cons, iht hleaves.1 ht, ihc hleaves.2.1 hc, ihf hleaves.2.2 hf]
  | function1 fn x ih =>
    obtain ⟨tx, hx, rfl⟩ := Expr.pyTree_function1.mp h
    simp only [Cst.write, treeItems_call1, Expr.items, List.map_cons, ih hleaves hx]
  | function2 fn x y ihx ihy =>
    obtain ⟨tx, ty, hx, hy, rfl⟩ := Expr.pyTree_function2.mp h
    simp only [Cst.write, treeItems_call2, Expr.items, List.map_append, List.map_cons,
      ihx hleaves.1 hx, ihy hleaves.2 hy]
  | event name =>
    obtain rfl := Option.some.inj h
    exact congrArg (fun i => [i]) (hslash name)
  | constant value =>
    obtain ⟨a, ha, rfl⟩ := Expr.pyTree_constant.mp h
    obtain ⟨x, rfl⟩ := hleaves
    exact map_constantAtom (hletters x) ha
  | literal value =>
    obtain rfl := Option.some.inj h
    rfl

/-- A tree that an expression mirrors has the structure of the expression's own tree. -/
theorem erase_of_mirrors {c : Cst BinOp PyAtom} {e : Expr} (hmirrors : Mirrors c e)
    {t : OpTree BinOp PyAtom} (h : e.pyTree py = some t) :
    c.erase.map (fun _ => ()) = t.map (fun _ => ()) := by
  induction c generalizing e t with
  | atom a =>
    obtain ⟨v, ha, rfl⟩ := hmirrors
    cases a with
    | number x =>
      obtain rfl := Option.some.inj ha
      obtain ⟨a, -, rfl⟩ := Expr.pyTree_constant.mp h
      rfl
    | event name =>
      obtain rfl := Option.some.inj ha
      obtain rfl := Option.some.inj h
      rfl
    | literal value =>
      obtain rfl := Option.some.inj ha
      obtain rfl := Option.some.inj h
      rfl
    | _ => cases ha
  | brackets c ih => exact ih hmirrors h
  | binary op l r ihl ihr =>
    cases e with
    | operator op' lhs rhs =>
      obtain ⟨rfl, -, hl, hr⟩ := hmirrors
      obtain ⟨tl, tr, htl, htr, rfl⟩ := Expr.pyTree_operator.mp h
      simp only [Cst.erase, OpTree.map, ihl hl htl, ihr hr htr]
    | _ => exact hmirrors.elim
  | cond t' c f iht ihc ihf =>
    cases e with
    | select true_val test false_val =>
      obtain ⟨ht, hc, hf⟩ := hmirrors
      obtain ⟨tt, tc, tf, htt, htc, htf, rfl⟩ := Expr.pyTree_select.mp h
      simp only [Cst.erase, OpTree.map, iht ht htt, ihc hc htc, ihf hf htf]
    | _ => exact hmirrors.elim
  | call1 fn x ih =>
    cases e with
    | function1 fn' lhs =>
      obtain ⟨tx, htx, rfl⟩ := Expr.pyTree_function1.mp h
      simp only [Cst.erase, OpTree.map, ih hmirrors.2 htx]
    | _ => exact hmirrors.elim
  | call2 fn x y ihx ihy =>
    cases e with
    | function2 fn' lhs rhs =>
      obtain ⟨tx, ty, htx, hty, rfl⟩ := Expr.pyTree_function2.mp h
      simp only [Cst.erase, OpTree.map, ihx hmirrors.2.1 htx, ihy hmirrors.2.2 hty]
    | _ => exact hmirrors.elim

/-! ## Leaves and comparisons -/

theorem map_slashChar_not_mem (name : Text) : '/' ∉ name.map slashChar := by
  intro hmem
  obtain ⟨c, -, hc⟩ := List.mem_map.mp hmem
  unfold slashChar at hc
  split at hc
  · cases hc
  · rename_i hne
    exact hne hc

theorem mem_of_mem_fixEscape {x c : Char} (hx : c ≠ x) (hslash : c ≠ '\\') {s : Text}
    (h : c ∈ fixEscape x s) : c ∈ s := by
  fun_induction fixEscape x s with
  | case1 a b s hab ih =>
    simp only [List.mem_cons, hslash, hx, false_or] at h
    rcases h with rfl | h
    · exact List.mem_cons_self
    · exact List.mem_cons_of_mem _ (List.mem_cons_of_mem _ (ih h))
  | case2 a b s hab ih =>
    rcases List.mem_cons.mp h with rfl | h
    · exact List.mem_cons_self
    · exact List.mem_cons_of_mem _ (ih h)
  | case3 s hs => exact h

/-- A name that comes back from its printed form has no slash in it. -/
theorem name_survives {name : Text} (h : fixEscapes (name.map slashChar) = name) :
    '/' ∉ name ∧ fixEscapes name = name := by
  have hslash : '/' ∉ name := by
    intro hmem
    rw [← h] at hmem
    have hcomma := mem_of_mem_fixEscape (by decide) (by decide) hmem
    exact map_slashChar_not_mem name (mem_of_mem_fixEscape (by decide) (by decide) hcomma)
  rw [map_slashChar_of_not_mem hslash] at h
  exact ⟨hslash, h⟩

/-- An expression that its own written tree mirrors has leaves that survive. -/
theorem leavesSurvive_of_mirrors {e : Expr} {t : OpTree BinOp PyAtom} (h : e.pyTree py = some t)
    (hmirrors : Mirrors (Cst.write PrintedTree.brackets t) e) : e.LeavesSurvive py := by
  induction e generalizing t with
  | operator op l r ihl ihr =>
    obtain ⟨tl, tr, hl, hr, rfl⟩ := Expr.pyTree_operator.mp h
    obtain ⟨-, -, hml, hmr⟩ := hmirrors
    exact ⟨ihl hl (mirrors_writeOperand.mp hml), ihr hr (mirrors_writeOperand.mp hmr)⟩
  | select t c f iht ihc ihf =>
    obtain ⟨tt, tc, tf, ht, hc, hf, rfl⟩ := Expr.pyTree_select.mp h
    exact ⟨iht ht hmirrors.1, ihc hc hmirrors.2.1, ihf hf hmirrors.2.2⟩
  | function1 fn x ih =>
    obtain ⟨tx, hx, rfl⟩ := Expr.pyTree_function1.mp h
    have hleaves := ih hx hmirrors.2
    exact hleaves
  | function2 fn x y ihx ihy =>
    obtain ⟨tx, ty, hx, hy, rfl⟩ := Expr.pyTree_function2.mp h
    exact ⟨ihx hx hmirrors.2.1, ihy hy hmirrors.2.2⟩
  | event name =>
    obtain rfl := Option.some.inj h
    obtain ⟨v, hv, hname⟩ := hmirrors
    obtain rfl := Option.some.inj hv
    exact name_survives (Expr.event.inj hname)
  | constant value =>
    obtain ⟨a, ha, rfl⟩ := Expr.pyTree_constant.mp h
    obtain ⟨v, hv, hvalue⟩ := hmirrors
    rw [constantAtom] at ha
    split at ha
    · obtain rfl := Option.some.inj ha
      obtain rfl := Option.some.inj hv
      cases hvalue
    · split at ha
      · rename_i x hread
        obtain rfl := Option.some.inj ha
        obtain rfl := Option.some.inj hv
        exact ⟨x, hread, Expr.constant.inj hvalue⟩
      · cases ha
  | literal value => trivial

/-- Where Python finds every operand of a written tree and no comparison goes on, no
comparison is where it would be read otherwise. -/
theorem comparesApart_of_mirrors {e : Expr} {t : OpTree BinOp PyAtom} (h : e.pyTree py = some t)
    (hoperands : t.Operands (Cst.Stands PrintedTree.brackets BinOp.pyLevel))
    (hmirrors : Mirrors (Cst.write PrintedTree.brackets t) e) : e.ComparesApart := by
  induction e generalizing t with
  | operator op l r ihl ihr =>
    obtain ⟨tl, tr, hl, hr, rfl⟩ := Expr.pyTree_operator.mp h
    obtain ⟨hrootl, hrootr, hopl, hopr⟩ := hoperands
    obtain ⟨-, hchain, hml, hmr⟩ := hmirrors
    refine ⟨?_, ?_, ihl hl hopl (mirrors_writeOperand.mp hml),
      ihr hr hopr (mirrors_writeOperand.mp hmr)⟩
    · exact fun hbit => ⟨(root_stands hl op false).mp hrootl hbit,
        (root_stands hr op true).mp hrootr hbit⟩
    · intro hop
      have hfirst := hchain hop
      cases l with
      | operator inner ll lr =>
        obtain ⟨tll, tlr, -, -, rfl⟩ := Expr.pyTree_operator.mp hl
        have hnone : inner.isComparison = true → PrintedTree.brackets op false inner = false := by
          cases op <;> cases inner <;> first | decide | cases hop
        by_contra hinner
        rw [Expr.isComparison, Bool.not_eq_false] at hinner
        rw [Cst.writeOperand, hnone hinner, if_neg Bool.false_ne_true] at hfirst
        rw [Cst.write, compares, hinner] at hfirst
        cases hfirst
      | _ => rfl
  | select t c f iht ihc ihf =>
    obtain ⟨tt, tc, tf, ht, hc, hf, rfl⟩ := Expr.pyTree_select.mp h
    exact ⟨iht ht hoperands.1 hmirrors.1, ihc hc hoperands.2.1 hmirrors.2.1,
      ihf hf hoperands.2.2 hmirrors.2.2⟩
  | function1 fn x ih =>
    obtain ⟨tx, hx, rfl⟩ := Expr.pyTree_function1.mp h
    have happart := ih hx hoperands hmirrors.2
    exact happart
  | function2 fn x y ihx ihy =>
    obtain ⟨tx, ty, hx, hy, rfl⟩ := Expr.pyTree_function2.mp h
    exact ⟨ihx hx hoperands.1 hmirrors.2.1, ihy hy hoperands.2 hmirrors.2.2⟩
  | _ => trivial

/-- A printed expression that is parsed to itself survives, if its text has no white
space at its ends. -/
theorem survives_of_parsed {e : Expr} (hleaves : e.LeavesOk) (hsign : e.Unsigned)
    (hstrip : strip e.toPerfJson = e.toPerfJson)
    (h : parsePerfJson py e.toPerfJson = some e) : e.LeavesSurvive py ∧ e.ComparesApart := by
  obtain ⟨toks, parsed, v, last, htoks, hparsed, heval, hvalue⟩ := parsePerfJson_eq_some h
  have hok := (rendered_pythonText e.toPerfJson).tokens htoks
  obtain ⟨hsame, hfits⟩ := Cst.readTokens_sound hparsed
  rw [tokenize_toPerfJson hleaves hsign hstrip, Option.map_eq_some_iff] at htoks
  obtain ⟨t, htree, rfl⟩ := htoks
  rw [printedTokens, ← Cst.tokens_write] at hsame
  have hshape : v.constify.items.map Item.shape = (treeItems parsed).map Item.shape := by
    rw [hvalue, ← map_write (fun _ => rfl) (fun _ _ => rfl) hleaves htree, treeItems, treeItems,
      hsame]
  have hmirrors := heval.mirrors (fun tok htok => hok tok (by
    rw [printedTokens, ← Cst.tokens_write, ← hsame]
    exact htok)) hshape
  rw [hvalue] at hmirrors
  have herase := erase_of_mirrors hmirrors htree
  obtain rfl : parsed = Cst.write PrintedTree.brackets t := by
    apply Cst.eq_of_tokens_eq (fun _ => ()) hsame
    rw [Cst.erase_write, herase]
  have hoperands := ((Cst.fits_write_iff pyLevel_pos t 0).mp hfits).2
  exact ⟨leavesSurvive_of_mirrors htree hmirrors,
    comparesApart_of_mirrors htree hoperands hmirrors⟩

end Tree

end PmuEvents.Metric
