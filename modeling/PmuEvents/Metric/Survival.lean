import PmuEvents.Metric.Evaluates
set_option autoImplicit false

/-!
# What survives printing and parsing

The shape of the expressions that evaluation gives, and the conditions under which a
printed expression is evaluated to itself: Python reads every leaf as the leaf it was
printed for, and no comparison stands without brackets where Python's precedences
and chained comparisons read another tree.
-/

namespace PmuEvents.Metric

open PmuEvents.Foundation

/-- The bitwise operators. -/
def BinOp.isBitwise : BinOp → Bool
  | or | xor | and => true
  | _ => false

namespace Expr

/-- Whether the expression is a comparison. -/
def isComparison : Expr → Bool
  | operator op _ _ => op.isComparison
  | _ => false

/-- No comparison is an operand of a bitwise operator or the left operand of a comparison. -/
def ComparesApart : Expr → Prop
  | operator op lhs rhs =>
    (op.isBitwise = true → lhs.isComparison = false ∧ rhs.isComparison = false) ∧
      (op.isComparison = true → lhs.isComparison = false) ∧
        lhs.ComparesApart ∧ rhs.ComparesApart
  | select true_val cond false_val =>
    true_val.ComparesApart ∧ cond.ComparesApart ∧ false_val.ComparesApart
  | function1 _ lhs => lhs.ComparesApart
  | function2 _ lhs rhs => lhs.ComparesApart ∧ rhs.ComparesApart
  | _ => True

/-- Every event name prints as it is and is left alone by `_FixEscapes`, and Python reads
every constant as a number that is spelled the same. -/
def LeavesSurvive (py : PyFloat) : Expr → Prop
  | operator _ lhs rhs => lhs.LeavesSurvive py ∧ rhs.LeavesSurvive py
  | select true_val cond false_val =>
    true_val.LeavesSurvive py ∧ cond.LeavesSurvive py ∧ false_val.LeavesSurvive py
  | function1 _ lhs => lhs.LeavesSurvive py
  | function2 _ lhs rhs => lhs.LeavesSurvive py ∧ rhs.LeavesSurvive py
  | event name => '/' ∉ name ∧ fixEscapes name = name
  | constant value => ∃ x, numberToken py value = some (x, []) ∧ constantText x.number = value
  | literal _ => True

/-- Whether the printer puts the expression in brackets to the right of an operator. -/
def hasBrackets (op : BinOp) : Expr → Bool
  | operator inner _ _ => PrintedTree.brackets op true inner
  | _ => false

/-- The printed name that the text ends with, if a name ends it. -/
def lastName : Expr → Option Text
  | operator op _ rhs => if rhs.hasBrackets op then none else rhs.lastName
  | event name => some (name.map slashChar)
  | literal value => some value
  | _ => none

/-- No white space ends a name at the end of the text, the leaves survive and the
comparisons stand apart. -/
structure Survives (py : PyFloat) (e : Expr) : Prop where
  tight : ∀ name, e.lastName = some name → name.getLast?.any isSpace = false
  leaves : e.LeavesSurvive py
  apart : e.ComparesApart

end Expr

/-! ## Operands -/

/-- Without brackets Python finds an operand where the printer had it, unless it is a
comparison under a bitwise operator. -/
theorem stands_iff (op : BinOp) (rhs : Bool) (inner : BinOp) :
    Cst.Stands PrintedTree.brackets BinOp.pyLevel op rhs inner ↔
      ¬ (op.isBitwise = true ∧ inner.isComparison = true) := by
  unfold Cst.Stands
  cases op <;> cases rhs <;> cases inner <;> decide

theorem pyLevel_pos (op : BinOp) : 0 < op.pyLevel := by
  cases op <;> decide

section Operands

variable {py : PyFloat}

/-- The operator of the tree is that of the expression. -/
theorem root_pyTree {e : Expr} {t : OpTree BinOp PyAtom} (h : e.pyTree py = some t)
    (p : BinOp → Prop) :
    t.Root p ↔ ∀ op l r, e = .operator op l r → p op := by
  cases e with
  | operator op l r =>
    obtain ⟨tl, tr, -, -, rfl⟩ := Expr.pyTree_operator.mp h
    constructor
    · rintro hp _ _ _ ⟨rfl, rfl, rfl⟩
      exact hp
    · exact fun hp => hp op l r rfl
  | select t c f =>
    obtain ⟨tt, tc, tf, -, -, -, rfl⟩ := Expr.pyTree_select.mp h
    simp [OpTree.Root]
  | function1 fn x =>
    obtain ⟨tx, -, rfl⟩ := Expr.pyTree_function1.mp h
    simp [OpTree.Root]
  | function2 fn x y =>
    obtain ⟨tx, ty, -, -, rfl⟩ := Expr.pyTree_function2.mp h
    simp [OpTree.Root]
  | event name =>
    obtain rfl := Option.some.inj h
    simp [OpTree.Root]
  | constant value =>
    obtain ⟨a, -, rfl⟩ := Expr.pyTree_constant.mp h
    simp [OpTree.Root]
  | literal value =>
    obtain rfl := Option.some.inj h
    simp [OpTree.Root]

theorem root_stands {e : Expr} {t : OpTree BinOp PyAtom} (h : e.pyTree py = some t)
    (op : BinOp) (rhs : Bool) :
    t.Root (Cst.Stands PrintedTree.brackets BinOp.pyLevel op rhs) ↔
      (op.isBitwise = true → e.isComparison = false) := by
  rw [root_pyTree h]
  constructor
  · intro hroot hbit
    cases e with
    | operator inner l r =>
      have hstands := (stands_iff op rhs inner).mp (hroot inner l r rfl)
      exact Bool.eq_false_iff.mpr fun hcomp => hstands ⟨hbit, hcomp⟩
    | _ => rfl
  · rintro hcomp inner l r rfl
    rw [stands_iff]
    rintro ⟨hbit, hinner⟩
    exact Bool.eq_false_iff.mp (hcomp hbit) hinner

/-- Where comparisons stand apart, Python finds every operand where the printer had it. -/
theorem operands_pyTree {e : Expr} (happart : e.ComparesApart) {t : OpTree BinOp PyAtom}
    (h : e.pyTree py = some t) :
    t.Operands (Cst.Stands PrintedTree.brackets BinOp.pyLevel) := by
  induction e generalizing t with
  | operator op l r ihl ihr =>
    obtain ⟨tl, tr, hl, hr, rfl⟩ := Expr.pyTree_operator.mp h
    obtain ⟨hbit, -, hal, har⟩ := happart
    exact ⟨(root_stands hl op false).mpr fun hop => (hbit hop).1,
      (root_stands hr op true).mpr fun hop => (hbit hop).2, ihl hal hl, ihr har hr⟩
  | select t c f iht ihc ihf =>
    obtain ⟨tt, tc, tf, ht, hc, hf, rfl⟩ := Expr.pyTree_select.mp h
    exact ⟨iht happart.1 ht, ihc happart.2.1 hc, ihf happart.2.2 hf⟩
  | function1 fn x ih =>
    obtain ⟨tx, hx, rfl⟩ := Expr.pyTree_function1.mp h
    have hoperands := ih happart hx
    exact hoperands
  | function2 fn x y ihx ihy =>
    obtain ⟨tx, ty, hx, hy, rfl⟩ := Expr.pyTree_function2.mp h
    exact ⟨ihx happart.1 hx, ihy happart.2 hy⟩
  | event name =>
    obtain rfl := Option.some.inj h
    trivial
  | constant value =>
    obtain ⟨a, -, rfl⟩ := Expr.pyTree_constant.mp h
    trivial
  | literal value =>
    obtain rfl := Option.some.inj h
    trivial

end Operands

/-! ## Evaluation gives the expression back -/

section Evaluate

variable {py : PyFloat}

/-- The value is the expression, and a number exactly for a constant. -/
def Gives (v : Value) (e : Expr) : Prop :=
  v.constify = e ∧ ((∃ x, v = .number x) ↔ e.isConstant = true)

theorem Gives.apply {op : BinOp} {lhs rhs : Expr} {l r : Value} (hl : Gives l lhs)
    (hr : Gives r rhs) (h : lhs.isConstant = true → rhs.isConstant = false ∧ op.swaps = false) :
    l.apply py op r = some (.expr (.operator op lhs rhs)) := by
  obtain ⟨rfl, hlnum⟩ := hl
  obtain ⟨rfl, hrnum⟩ := hr
  cases l with
  | expr e => rfl
  | number x =>
    obtain ⟨hrhs, hswap⟩ := h (hlnum.mp ⟨x, rfl⟩)
    cases r with
    | number y => rw [hrnum.mp ⟨y, rfl⟩] at hrhs; cases hrhs
    | expr e => cases op <;> first | rfl | cases hswap

/-- An operand has the value it has without the brackets around it; the brackets only
end a chain of comparisons. -/
theorem evalPy_writeOperand (op : BinOp) (rhs : Bool) (t : OpTree BinOp PyAtom)
    {c : Cst BinOp PyAtom} {v : Value} {last : Option Value} (h : evalPy py c = some (v, last)) :
    ∃ last', evalPy py (Cst.writeOperand PrintedTree.brackets op rhs t c) = some (v, last') ∧
      (last = none → last' = none) := by
  have hbrackets : evalPy py (.brackets c) = some (v, none) := by
    rw [evalPy, h]
    rfl
  cases t with
  | binary inner l r =>
    rw [Cst.writeOperand]
    split
    · exact ⟨none, hbrackets, fun _ => rfl⟩
    · exact ⟨last, h, id⟩
  | _ => exact ⟨last, h, id⟩

/-- Where leaves survive and comparisons stand apart, the written tree of an expression
evaluates to the expression. -/
theorem evalPy_write {e : Expr} (hevaluated : e.Evaluated) (hleaves : e.LeavesSurvive py)
    (happart : e.ComparesApart) :
    ∃ t v last, e.pyTree py = some t ∧
      evalPy py (Cst.write PrintedTree.brackets t) = some (v, last) ∧ Gives v e ∧
        (e.isComparison = false → last = none) := by
  induction e with
  | operator op l r ihl ihr =>
    obtain ⟨hconst, hel, her⟩ := hevaluated
    obtain ⟨hll, hlr⟩ := hleaves
    obtain ⟨-, hchain, hal, har⟩ := happart
    obtain ⟨tl, vl, lastl, htl, hevall, hgl, hlastl⟩ := ihl hel hll hal
    obtain ⟨tr, vr, lastr, htr, hevalr, hgr, -⟩ := ihr her hlr har
    obtain ⟨lastl', hopl, hnonel⟩ := evalPy_writeOperand op false tl hevall
    obtain ⟨lastr', hopr, -⟩ := evalPy_writeOperand op true tr hevalr
    have hmiddle : (if op.isComparison then lastl' else none) = none := by
      split
      · rename_i hop
        exact hnonel (hlastl (hchain hop))
      · rfl
    refine ⟨.binary op tl tr, .expr (.operator op l r),
      if op.isComparison then some vr else none,
      Expr.pyTree_operator.mpr ⟨tl, tr, htl, htr, rfl⟩, ?_, ⟨rfl, ?_⟩, ?_⟩
    · rw [Cst.write, evalPy, hopl]
      simp only [Option.bind_eq_bind, Option.bind_some, hmiddle, hopr, hgl.apply hgr hconst]
      rfl
    · simp [Expr.isConstant]
    · intro hcomp
      exact if_neg (by simpa [Expr.isComparison] using hcomp)
  | select t c f iht ihc ihf =>
    obtain ⟨tt, vt, lastt, htt, hevalt, hgt, -⟩ := iht hevaluated.1 hleaves.1 happart.1
    obtain ⟨tc, vc, lastc, htc, hevalc, hgc, -⟩ := ihc hevaluated.2.1 hleaves.2.1 happart.2.1
    obtain ⟨tf, vf, lastf, htf, hevalf, hgf, -⟩ := ihf hevaluated.2.2 hleaves.2.2 happart.2.2
    refine ⟨.cond tt tc tf, .expr (.select t c f), none,
      Expr.pyTree_select.mpr ⟨tt, tc, tf, htt, htc, htf, rfl⟩, ?_, ⟨rfl, ?_⟩, fun _ => rfl⟩
    · simp only [Cst.write, evalPy, hevalt, hevalc, hevalf, Option.bind_eq_bind, Option.bind_some,
        hgt.1, hgc.1, hgf.1]
      rfl
    · simp [Expr.isConstant]
  | function1 fn x ih =>
    obtain ⟨tx, vx, lastx, htx, hevalx, hgx, -⟩ := ih hevaluated hleaves happart
    refine ⟨.call1 (.fn1 fn) tx, .expr (.function1 fn x), none,
      Expr.pyTree_function1.mpr ⟨tx, htx, rfl⟩, ?_, ⟨rfl, ?_⟩, fun _ => rfl⟩
    · simp only [Cst.write, evalPy, hevalx, Option.bind_eq_bind, Option.bind_some, hgx.1]
      rfl
    · simp [Expr.isConstant]
  | function2 fn x y ihx ihy =>
    obtain ⟨tx, vx, lastx, htx, hevalx, hgx, -⟩ := ihx hevaluated.1 hleaves.1 happart.1
    obtain ⟨ty, vy, lasty, hty, hevaly, hgy, -⟩ := ihy hevaluated.2 hleaves.2 happart.2
    refine ⟨.call2 (.fn2 fn) tx ty, .expr (.function2 fn x y), none,
      Expr.pyTree_function2.mpr ⟨tx, ty, htx, hty, rfl⟩, ?_, ⟨rfl, ?_⟩, fun _ => rfl⟩
    · simp only [Cst.write, evalPy, hevalx, hevaly, Option.bind_eq_bind, Option.bind_some, hgx.1,
        hgy.1]
      rfl
    · simp [Expr.isConstant]
  | event name =>
    have hname : Expr.mkEvent (name.map slashChar) = .event name := by
      rw [map_slashChar_of_not_mem hleaves.1, Expr.mkEvent, hleaves.2]
    refine ⟨_, .expr (.event name), none, rfl, ?_, ⟨rfl, ?_⟩, fun _ => rfl⟩
    · rw [Cst.write, evalPy, PyAtom.value, hname]
      rfl
    · simp [Expr.isConstant]
  | constant value =>
    obtain ⟨x, hread, hspell⟩ := hleaves
    have hatom : constantAtom py value = some (.number x) := by
      rw [constantAtom, isName_of_numberToken hread, if_neg Bool.false_ne_true, hread]
    refine ⟨.atom (.number x), .number x, none,
      Expr.pyTree_constant.mpr ⟨_, hatom, rfl⟩, rfl, ⟨?_, ?_⟩, fun _ => rfl⟩
    · rw [Value.constify, Expr.mkConstant, hspell]
    · simp [Expr.isConstant]
  | literal value =>
    refine ⟨.atom (.literal value), .expr (.literal value), none, rfl, rfl, ⟨rfl, ?_⟩,
      fun _ => rfl⟩
    simp [Expr.isConstant]

end Evaluate

end PmuEvents.Metric
