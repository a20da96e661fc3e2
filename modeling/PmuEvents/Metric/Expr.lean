import PmuEvents.Foundation.Utf8
set_option autoImplicit false

/-!
# Metric expressions

The expression trees of `metric.py`, with the comparison and the substitution
that the rewriting of metrics uses and the text form that goes into the tables.
The parser admits the six functions below only, each with a fixed number of
arguments, so the two arities are two constructors.
-/

namespace PmuEvents.Metric

open PmuEvents.Foundation

/-- The operators of the expression parser. -/
inductive BinOp where
  | or | xor | and | lt | gt | add | sub | mul | div | mod
  deriving DecidableEq, Repr

namespace BinOp

/-- The symbol of an operator. -/
def text : BinOp → Text
  | or => ['|']
  | xor => ['^']
  | and => ['&']
  | lt => ['<']
  | gt => ['>']
  | add => ['+']
  | sub => ['-']
  | mul => ['*']
  | div => ['/']
  | mod => ['%']

/-- `_PRECEDENCE`. -/
def precedence : BinOp → Nat
  | or => 0
  | xor => 1
  | and => 2
  | lt => 3
  | gt => 3
  | add => 4
  | sub => 4
  | mul => 5
  | div => 5
  | mod => 5

end BinOp

/-- The functions of one argument. -/
inductive Fn1 where
  | source_count | has_event | strcmp_cpuid_str
  deriving DecidableEq, Repr

/-- The functions of two arguments. -/
inductive Fn2 where
  | min | max | d_ratio
  deriving DecidableEq, Repr

/-- The name of a function of one argument. -/
def Fn1.text : Fn1 → Text
  | source_count => "source_count".toList
  | has_event => "has_event".toList
  | strcmp_cpuid_str => "strcmp_cpuid_str".toList

/-- The name of a function of two arguments. -/
def Fn2.text : Fn2 → Text
  | min => "min".toList
  | max => "max".toList
  | d_ratio => "d_ratio".toList

/-- The subclasses of `Expression`.  An event holds its name as the constructor
of `Event` left it, a constant its normalised text. -/
inductive Expr where
  | operator (operator : BinOp) (lhs rhs : Expr)
  | select (true_val cond false_val : Expr)
  | function1 (fn : Fn1) (lhs : Expr)
  | function2 (fn : Fn2) (lhs rhs : Expr)
  | event (name : Text)
  | constant (value : Text)
  | literal (value : Text)
  deriving DecidableEq, Repr, Inhabited

/-- `re.sub(r'([^\\])x', r'\1\\x', s)` for a single character `x`: matches are
taken from the left and do not overlap. -/
def fixEscape (x : Char) : Text → Text
  | c :: d :: s =>
    if c ≠ '\\' ∧ d = x then c :: '\\' :: x :: fixEscape x s else c :: fixEscape x (d :: s)
  | s => s

/-- `_FixEscapes`: commas, then equals signs. -/
def fixEscapes (s : Text) : Text := fixEscape '=' (fixEscape ',' s)

theorem fixEscape_of_not_mem {x : Char} {s : Text} (h : x ∉ s) : fixEscape x s = s := by
  fun_induction fixEscape x s with
  | case1 c d s hcd ih => exact absurd (hcd.2 ▸ by simp) h
  | case2 c d s hcd ih => rw [ih (fun hmem => h (List.mem_cons_of_mem c hmem))]
  | case3 s hs => rfl

theorem fixEscapes_of_not_mem {s : Text} (hcomma : ',' ∉ s) (heq : '=' ∉ s) :
    fixEscapes s = s := by
  rw [fixEscapes, fixEscape_of_not_mem hcomma, fixEscape_of_not_mem heq]

namespace Expr

/-- The constructor of `Event`. -/
def mkEvent (name : Text) : Expr := event (fixEscapes name)

/-- `Operator.Bracket` for the operator `op`. -/
def bracket (op : BinOp) (other : Expr) (other_str : Text) (rhs : Bool) : Text :=
  match other with
  | operator inner _ _ =>
    if op.precedence > inner.precedence ∨ (rhs = true ∧ op.precedence = inner.precedence) then
      '(' :: other_str ++ [')']
    else other_str
  | _ => other_str

/-- `ToPerfJson`. -/
def toPerfJson : Expr → Text
  | operator op lhs rhs =>
    bracket op lhs lhs.toPerfJson false ++ ' ' :: op.text ++ ' ' ::
      bracket op rhs rhs.toPerfJson true
  | select true_val cond false_val =>
    '(' :: true_val.toPerfJson ++ " if ".toList ++ cond.toPerfJson ++ " else ".toList ++
      false_val.toPerfJson ++ [')']
  | function1 fn lhs => fn.text ++ '(' :: lhs.toPerfJson ++ [')']
  | function2 fn lhs rhs =>
    fn.text ++ '(' :: lhs.toPerfJson ++ ", ".toList ++ rhs.toPerfJson ++ [')']
  | event name => name.map fun c => if c = '/' then '@' else c
  | constant value => value
  | literal value => value

/-- `Equals`.  Functions of different arity have different names. -/
def equals : Expr → Expr → Bool
  | operator op lhs rhs, operator op' lhs' rhs' =>
    op = op' && lhs.equals lhs' && rhs.equals rhs'
  | select true_val cond false_val, select true_val' cond' false_val' =>
    cond.equals cond' && false_val.equals false_val' && true_val.equals true_val'
  | function1 fn lhs, function1 fn' lhs' => fn = fn' && lhs.equals lhs'
  | function2 fn lhs rhs, function2 fn' lhs' rhs' =>
    fn = fn' && lhs.equals lhs' && rhs.equals rhs'
  | event name, event name' => name = name'
  | constant value, constant value' => value = value'
  | literal value, literal value' => value = value'
  | _, _ => false

/-- `Equals` compares whole trees. -/
theorem equals_iff (e e' : Expr) : e.equals e' ↔ e = e' := by
  fun_induction equals e e' with
  | case1 op lhs rhs op' lhs' rhs' ihl ihr => simp [ihl, ihr, and_assoc]
  | case2 t c f t' c' f' ihc ihf iht =>
    simp only [Bool.and_eq_true, ihc, ihf, iht, select.injEq]
    tauto
  | case3 fn lhs fn' lhs' ih => simp [ih]
  | case4 fn lhs rhs fn' lhs' rhs' ihl ihr => simp [ihl, ihr, and_assoc]
  | case5 name name' => simp
  | case6 value value' => simp
  | case7 value value' => simp
  | case8 e e' h1 h2 h3 h4 h5 h6 h7 =>
    simp only [Bool.false_eq_true, false_iff]
    rintro rfl
    cases e with
    | operator op lhs rhs => exact h1 op lhs rhs op lhs rhs rfl rfl
    | select t c f => exact h2 t c f t c f rfl rfl
    | function1 fn lhs => exact h3 fn lhs fn lhs rfl rfl
    | function2 fn lhs rhs => exact h4 fn lhs rhs fn lhs rhs rfl rfl
    | event name => exact h5 name name rfl rfl
    | constant value => exact h6 value value rfl rfl
    | literal value => exact h7 value value rfl rfl

/-- `Substitute`: an operator, select or function node that equals the expression
becomes a reference to the name; leaves stay. -/
def substitute (self : Expr) (name : Text) (expression : Expr) : Expr :=
  match self with
  | operator op lhs rhs =>
    if (operator op lhs rhs).equals expression then mkEvent name
    else operator op (lhs.substitute name expression) (rhs.substitute name expression)
  | select true_val cond false_val =>
    if (select true_val cond false_val).equals expression then mkEvent name
    else
      select (true_val.substitute name expression) (cond.substitute name expression)
        (false_val.substitute name expression)
  | function1 fn lhs =>
    if (function1 fn lhs).equals expression then mkEvent name
    else function1 fn (lhs.substitute name expression)
  | function2 fn lhs rhs =>
    if (function2 fn lhs rhs).equals expression then mkEvent name
    else function2 fn (lhs.substitute name expression) (rhs.substitute name expression)
  | event name' => event name'
  | constant value => constant value
  | literal value => literal value

/-- The nodes that can be replaced: operators, selects and functions. -/
def nodes : Expr → List Expr
  | operator op lhs rhs => operator op lhs rhs :: (lhs.nodes ++ rhs.nodes)
  | select true_val cond false_val =>
    select true_val cond false_val :: (true_val.nodes ++ cond.nodes ++ false_val.nodes)
  | function1 fn lhs => function1 fn lhs :: lhs.nodes
  | function2 fn lhs rhs => function2 fn lhs rhs :: (lhs.nodes ++ rhs.nodes)
  | _ => []

/-- The names of the events that occur in an expression. -/
def events : Expr → List Text
  | operator _ lhs rhs => lhs.events ++ rhs.events
  | select true_val cond false_val => true_val.events ++ cond.events ++ false_val.events
  | function1 _ lhs => lhs.events
  | function2 _ lhs rhs => lhs.events ++ rhs.events
  | event name => [name]
  | _ => []

/-- A substitution changes an expression exactly when one of its nodes is the
expression replaced, and then it has fewer nodes. -/
theorem substitute_eq_or_lt (e : Expr) (name : Text) (expression : Expr) :
    (expression ∉ e.nodes ∧ e.substitute name expression = e) ∨
      (expression ∈ e.nodes ∧
        (e.substitute name expression).nodes.length < e.nodes.length) := by
  fun_induction substitute e name expression with
  | case1 op lhs rhs h => simp_all [equals_iff, nodes, mkEvent]
  | case2 op lhs rhs h ihl ihr => grind [equals_iff, nodes]
  | case3 t c f h => simp_all [equals_iff, nodes, mkEvent]
  | case4 t c f h iht ihc ihf => grind [equals_iff, nodes]
  | case5 fn lhs h => simp_all [equals_iff, nodes, mkEvent]
  | case6 fn lhs h ih => grind [equals_iff, nodes]
  | case7 fn lhs rhs h => simp_all [equals_iff, nodes, mkEvent]
  | case8 fn lhs rhs h ihl ihr => grind [equals_iff, nodes]
  | case9 name' => exact .inl ⟨by simp [nodes], rfl⟩
  | case10 value => exact .inl ⟨by simp [nodes], rfl⟩
  | case11 value => exact .inl ⟨by simp [nodes], rfl⟩

end Expr

end PmuEvents.Metric
