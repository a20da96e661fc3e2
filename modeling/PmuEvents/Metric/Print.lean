import PmuEvents.Foundation.OperatorGrammar
import PmuEvents.Metric.Expr
set_option autoImplicit false

/-!
# Printing and the expression grammar

`ToPerfJson` over trees whose leaves are printed already and whose functions have
arbitrary names and one or two arguments.  The printed text is the text of a list
of tokens, and in the grammar with the precedences of `_PRECEDENCE` these tokens
derive the tree that was printed and no other.
-/

namespace PmuEvents.Metric

open PmuEvents.Foundation

/-- An expression tree with each leaf taken as its printed text. -/
abbrev PrintedTree := OpTree BinOp Text

namespace PrintedTree

/-- `Operator.Bracket` for the operator `op`. -/
def bracket (op : BinOp) (other : PrintedTree) (other_str : Text) (rhs : Bool) : Text :=
  match other with
  | .binary inner _ _ =>
    if op.precedence > inner.precedence ∨ (rhs = true ∧ op.precedence = inner.precedence) then
      '(' :: other_str ++ [')']
    else other_str
  | _ => other_str

/-- `ToPerfJson` of the three kinds of inner nodes. -/
def toPerfJson : PrintedTree → Text
  | .atom text => text
  | .binary op lhs rhs =>
    bracket op lhs (toPerfJson lhs) false ++ ' ' :: op.text ++ ' ' ::
      bracket op rhs (toPerfJson rhs) true
  | .cond true_val cond false_val =>
    '(' :: toPerfJson true_val ++ " if ".toList ++ toPerfJson cond ++ " else ".toList ++
      toPerfJson false_val ++ [')']
  | .call1 fn lhs => fn ++ '(' :: toPerfJson lhs ++ [')']
  | .call2 fn lhs rhs => fn ++ '(' :: toPerfJson lhs ++ ", ".toList ++ toPerfJson rhs ++ [')']

/-- The rule of `Bracket` on the operators alone. -/
def brackets (op : BinOp) (rhs : Bool) (inner : BinOp) : Bool :=
  op.precedence > inner.precedence ∨ (rhs = true ∧ op.precedence = inner.precedence)

/-- The tokens of the printed text. -/
def tokens (t : PrintedTree) : List (OpToken BinOp Text) := writeTokens brackets t

end PrintedTree

/-- The text of a token, with the blanks around operators and keywords and after
the comma. -/
def tokenText : OpToken BinOp Text → Text
  | .atom text => text
  | .op op => ' ' :: op.text ++ [' ']
  | .lpar => ['(']
  | .rpar => [')']
  | .comma => ", ".toList
  | .if_ => " if ".toList
  | .else_ => " else ".toList

namespace PrintedTree

theorem bracket_eq (op : BinOp) (other : PrintedTree) (rhs : Bool)
    (toks : List (OpToken BinOp Text)) :
    bracket op other (toks.flatMap tokenText) rhs =
      (writeOperand brackets op rhs other toks).flatMap tokenText := by
  cases other with
  | binary inner l r =>
    rw [bracket, writeOperand, brackets]
    simp only [decide_eq_true_eq]
    split
    · simp [tokenText]
    · rfl
  | _ => rfl

/-- The printed text is the text of the tokens. -/
theorem toPerfJson_eq (t : PrintedTree) : t.toPerfJson = t.tokens.flatMap tokenText := by
  unfold tokens
  induction t with
  | atom text => simp [toPerfJson, writeTokens, tokenText]
  | binary op l r ihl ihr =>
    rw [toPerfJson, ihl, ihr, bracket_eq, bracket_eq, writeTokens]
    simp [tokenText]
  | cond t c f iht ihc ihf =>
    rw [toPerfJson, iht, ihc, ihf, writeTokens]
    simp [tokenText]
  | call1 fn x ih =>
    rw [toPerfJson, ih, writeTokens]
    simp [tokenText]
  | call2 fn x y ihx ihy =>
    rw [toPerfJson, ihx, ihy, writeTokens]
    simp [tokenText]

/-- The tokens derive the tree that was printed. -/
theorem derives_tokens (t : PrintedTree) : Derives BinOp.precedence 0 t.tokens t := by
  apply derives_writeTokens
  · intro op inner hno
    simp only [brackets, decide_eq_false_iff_not, not_or, Nat.not_lt] at hno
    exact hno.1
  · intro op inner hno
    simp only [brackets, decide_eq_false_iff_not, not_or, Nat.not_lt, true_and] at hno
    exact Nat.lt_of_le_of_ne hno.1 hno.2
  · exact t.fits_zero

end PrintedTree

/-- The tree of an expression with its leaves printed. -/
def Expr.printed : Expr → PrintedTree
  | .operator op lhs rhs => .binary op lhs.printed rhs.printed
  | .select true_val cond false_val => .cond true_val.printed cond.printed false_val.printed
  | .function1 fn lhs => .call1 fn.text lhs.printed
  | .function2 fn lhs rhs => .call2 fn.text lhs.printed rhs.printed
  | .event name => .atom (Expr.event name).toPerfJson
  | .constant value => .atom value
  | .literal value => .atom value

theorem Expr.bracket_printed (op : BinOp) (other : Expr) (other_str : Text) (rhs : Bool) :
    PrintedTree.bracket op other.printed other_str rhs = other.bracket op other_str rhs := by
  cases other <;> rfl

/-- An expression prints as its tree with printed leaves does. -/
theorem Expr.toPerfJson_printed (e : Expr) : e.printed.toPerfJson = e.toPerfJson := by
  induction e with
  | operator op lhs rhs ihl ihr =>
    rw [printed, PrintedTree.toPerfJson, ihl, ihr, bracket_printed, bracket_printed]
    rfl
  | select t c f iht ihc ihf =>
    rw [printed, PrintedTree.toPerfJson, iht, ihc, ihf]
    rfl
  | function1 fn lhs ih =>
    rw [printed, PrintedTree.toPerfJson, ih]
    rfl
  | function2 fn lhs rhs ihl ihr =>
    rw [printed, PrintedTree.toPerfJson, ihl, ihr]
    rfl
  | event name => rfl
  | constant value => rfl
  | literal value => rfl

/-- The operators are told apart by their texts. -/
theorem BinOp.text_injective : Function.Injective BinOp.text := by
  intro a b h
  cases a <;> cases b <;> first | rfl | exact absurd h (by decide)

/-- Printing loses no structure: the text printed for a tree is a list of tokens
that the grammar of the precedences gives one tree only, the one that was printed,
and reading the tokens returns it.  The text is that of every expression with this
tree, and no operator is spelled as another one. -/
theorem PrintedTree.readTokens_tokens (t : PrintedTree) :
    t.toPerfJson = t.tokens.flatMap tokenText ∧
      readTokens BinOp.precedence t.tokens = some t ∧
      (∀ t', Derives BinOp.precedence 0 t.tokens t' ↔ t' = t) ∧
      (∀ e : Expr, e.printed = t → e.toPerfJson = t.toPerfJson) ∧
      Function.Injective BinOp.text := by
  refine ⟨t.toPerfJson_eq, t.derives_tokens.readTokens, ?_, ?_, BinOp.text_injective⟩
  · intro t'
    constructor
    · intro h
      exact h.unique t.derives_tokens
    · rintro rfl
      exact derives_tokens t'
  · rintro e rfl
    exact e.toPerfJson_printed.symm

end PmuEvents.Metric
