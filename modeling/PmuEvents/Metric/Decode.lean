import PmuEvents.Foundation.ConcreteSyntax
import PmuEvents.Foundation.Escapes
import PmuEvents.Foundation.Scan
import PmuEvents.Metric.Constant
set_option autoImplicit false

/-!
# ParsePerfJson

The decoder of metric expressions: regular expressions turn the text into a Python
expression, which is parsed and evaluated.  Of Python the part is modelled that
metrics use: decimal numbers, the calls with one string literal that the regular
expressions write, the known functions, the binary operators, conditionals and
brackets.  Anything else is an error here, so are string literals anywhere else,
escape sequences of ordinary string literals, numbers that run into a word, unary
operators and line breaks.  What Python makes of floating-point numbers is a
parameter.
-/

namespace PmuEvents.Metric

open PmuEvents.Foundation

/-! ## The regular expressions -/

/-- The white space that `strip` removes. -/
def isSpace (c : Char) : Bool :=
  c = ' ' || ('\t' ≤ c && c ≤ '\r') || ('\x1c' ≤ c && c ≤ '\x1f') || c = '\u0085' ||
    c = '\u00a0' || c = '\u1680' || ('\u2000' ≤ c && c ≤ '\u200a') || c = '\u2028' ||
    c = '\u2029' || c = '\u202f' || c = '\u205f' || c = '\u3000'

/-- `strip`. -/
def strip (s : Text) : Text := ((s.dropWhile isSpace).reverse.dropWhile isSpace).reverse

/-- `[^-+/\* \\\(\),]`. -/
def isNameChar (c : Char) : Bool :=
  !(['-', '+', '/', '*', ' ', '\\', '(', ')', ','].contains c)

/-- `[^-+/\* \\\(\),]*(?:\\.[^-+/\* \\\(\),]*)*`: the match and what follows it. -/
def spanName (t : Text) : Text × Text := spanEscapes '\\' isNameChar (fun c => c ≠ '\n') t

/-- `Event(r"`. -/
def eventOpen : Text := ['E', 'v', 'e', 'n', 't', '(', 'r', '"']

/-- `Literal("`. -/
def literalOpen : Text := ['L', 'i', 't', 'e', 'r', 'a', 'l', '(', '"']

/-- `Event("0x`. -/
def hexOpen : Text := ['E', 'v', 'e', 'n', 't', '(', '"', '0', 'x']

/-- `")`. -/
def callClose : Text := ['"', ')']

/-- Everything that looks like an event name becomes a call of `Event`. -/
def eventPattern : Pattern Char
  | c :: t =>
    if c.isAlpha then some (eventOpen ++ (c :: (spanName t).1 ++ callClose), (spanName t).2)
    else none
  | [] => none

/-- `#Event\(r"([^"]*)"\)` becomes `Literal("#\1")`. -/
def literalPattern : Pattern Char := fun t => do
  let name ← afterWord ('#' :: eventOpen) t
  let rest ← afterWord callClose (name.dropWhile fun c => c ≠ '"')
  return (literalOpen ++ ('#' :: (name.takeWhile fun c => c ≠ '"') ++ callClose), rest)

/-- `[0-9a-fA-F]`. -/
def isHexDigit (c : Char) : Bool := c.isDigit || ('a' ≤ c && c ≤ 'f') || ('A' ≤ c && c ≤ 'F')

/-- `0Event\(r"[xX]([0-9a-fA-F]*)"\)` becomes `Event("0x\1")`. -/
def hexPattern : Pattern Char := fun t => do
  match ← afterWord ('0' :: eventOpen) t with
  | x :: digits =>
    if x = 'x' ∨ x = 'X' then
      let rest ← afterWord callClose (digits.dropWhile isHexDigit)
      return (hexOpen ++ (digits.takeWhile isHexDigit ++ callClose), rest)
    else none
  | [] => none

/-- `([0-9]+)Event\(r"(e[0-9]+)"\)` becomes `\1\2`. -/
def exponentPattern : Pattern Char := fun t => do
  if t.takeWhile Char.isDigit = [] then none
  else
    match ← afterWord eventOpen (t.dropWhile Char.isDigit) with
    | 'e' :: digits =>
      if digits.takeWhile Char.isDigit = [] then none
      else
        let rest ← afterWord callClose (digits.dropWhile Char.isDigit)
        return (t.takeWhile Char.isDigit ++ 'e' :: digits.takeWhile Char.isDigit, rest)
    | _ => none

/-- `Event\(r"{kw}"\)` becomes the keyword. -/
def keywordPattern (kw : Text) : Pattern Char := fun t => do
  let rest ← afterWord (eventOpen ++ kw ++ callClose) t
  return (kw, rest)

/-- The keywords and the known functions. -/
def keywords : List Text :=
  ["if".toList, "else".toList, Fn2.min.text, Fn2.max.text, Fn2.d_ratio.text,
    Fn1.source_count.text, Fn1.has_event.text, Fn1.strcmp_cpuid_str.text]

/-- The Python expression that is parsed. -/
def pythonText (orig : Text) : Text :=
  let py := strip orig
  let py := substituteAll eventPattern py
  let py := substituteAll literalPattern py
  let py := substituteAll hexPattern py
  let py := substituteAll exponentPattern py
  keywords.foldl (fun py kw => substituteAll (keywordPattern kw) py) py

/-! ## Python's tokens -/

/-- An `int` or, as its `repr` spells it, a `float`. -/
inductive PyValue where
  | int (n : Int)
  | float (x : PyNumber)
  deriving DecidableEq, Repr

/-- The number `Constant` is given. -/
def PyValue.number : PyValue → PyNumber
  | int n => .ofInt n
  | float x => x

/-- What Python makes of numbers: the `float` of a decimal literal, and an operator
applied to two numbers, comparisons giving 1 or 0. -/
structure PyFloat where
  ofDecimal : Decimal → PyNumber
  arith : BinOp → PyValue → PyValue → Option PyValue

/-- The atoms of a Python expression. -/
inductive PyAtom where
  | number (x : PyValue)
  | event (name : Text)
  | literal (value : Text)
  | fn1 (fn : Fn1)
  | fn2 (fn : Fn2)
  deriving DecidableEq, Repr

/-- The characters no string literal on one line holds. -/
def endsLine (c : Char) : Bool := c = '\n' || c = '\r' || c = '\x00'

/-- The characters of a string literal that need no backslash. -/
def quotable (c : Char) : Bool := c ≠ '"' && !endsLine c

/-- The contents of a raw string literal after its opening quote, and what follows
its closing quote. -/
def rawString (t : Text) : Option (Text × Text) :=
  readDelimited '\\' quotable (fun c => !endsLine c) '"' t

/-- The characters that make an escape sequence of a backslash before them. -/
def startsEscape (c : Char) : Bool :=
  "\\'\"abfnrtvxNuU01234567".toList.contains c || endsLine c

/-- The contents of an ordinary string literal; a backslash that starts no escape
sequence stands for itself. -/
def plainString (t : Text) : Option (Text × Text) :=
  readDelimited '\\' quotable (fun c => !startsEscape c) '"' t

/-- The argument of a call with one string literal. -/
def stringArgument : Text → Option (Text × Text)
  | '(' :: 'r' :: '"' :: t =>
    match rawString t with
    | some (s, ')' :: rest) => some (s, rest)
    | _ => none
  | '(' :: '"' :: t =>
    match plainString t with
    | some (s, ')' :: rest) => some (s, rest)
    | _ => none
  | _ => none

/-- The known functions. -/
def knownFunctions : List (Text × PyAtom) :=
  [(Fn2.min.text, .fn2 .min), (Fn2.max.text, .fn2 .max), (Fn2.d_ratio.text, .fn2 .d_ratio),
    (Fn1.source_count.text, .fn1 .source_count), (Fn1.has_event.text, .fn1 .has_event),
    (Fn1.strcmp_cpuid_str.text, .fn1 .strcmp_cpuid_str)]

/-- The tokens of expressions. -/
abbrev PyToken := OpToken BinOp PyAtom

/-- The token of a word, with the string literal an `Event` or `Literal` is made of. -/
def wordToken (w rest : Text) : Option (List PyToken × Text) :=
  if w = "if".toList then some ([.if_], rest)
  else if w = "else".toList then some ([.else_], rest)
  else if w = "Event".toList then
    (stringArgument rest).map fun s => ([.atom (.event s.1)], s.2)
  else if w = "Literal".toList then
    (stringArgument rest).map fun s => ([.atom (.literal s.1)], s.2)
  else (knownFunctions.lookup w).map fun fn => ([.atom fn], rest)

/-- The characters of words. -/
def isWordChar (c : Char) : Bool := c.isAlphanum || c = '_'

/-- The digits after a point, and whether there is one. -/
def spanFraction : Text → Bool × Text × Text
  | '.' :: t => (true, t.takeWhile Char.isDigit, t.dropWhile Char.isDigit)
  | t => (false, [], t)

/-- The digits of an exponent; its sign is never reached, since the regular
expressions put the digits before it together with `Event`. -/
def spanExponent : Text → Text × Text
  | 'e' :: t =>
    if t.takeWhile Char.isDigit = [] then ([], 'e' :: t)
    else (t.takeWhile Char.isDigit, t.dropWhile Char.isDigit)
  | t => ([], t)

/-- The number a run of digits denotes. -/
def digitsValue (digits : Text) : Nat := Numeral.value 10 (digits.map digitValue)

/-- The value of a numeric literal.  Without point and exponent it is an `int`,
which has no zeros in front unless it is zero. -/
def literalValue (py : PyFloat) (int : Text) (point : Bool) (frac exp : Text) :
    Option PyValue :=
  if point = false ∧ exp = [] then
    if int.head? = some '0' ∧ digitsValue int ≠ 0 then none else some (.int (digitsValue int))
  else if int = [] ∧ frac = [] then none
  else
    some (.float (py.ofDecimal
      { neg := false, coeff := digitsValue (int ++ frac)
        exp := (digitsValue exp : Int) - frac.length }))

/-- A numeric literal, which no word follows directly. -/
def numberToken (py : PyFloat) (t : Text) : Option (PyValue × Text) :=
  let int := t.takeWhile Char.isDigit
  let fraction := spanFraction (t.dropWhile Char.isDigit)
  let exponent := spanExponent fraction.2.2
  if exponent.2.head?.any isWordChar then none
  else
    (literalValue py int fraction.1 fraction.2.1 exponent.1).map fun x => (x, exponent.2)

/-- The operator of a symbol. -/
def opOfChar : Char → Option BinOp
  | '|' => some .or
  | '^' => some .xor
  | '&' => some .and
  | '<' => some .lt
  | '>' => some .gt
  | '+' => some .add
  | '-' => some .sub
  | '*' => some .mul
  | '/' => some .div
  | '%' => some .mod
  | _ => none

/-- The first token; blanks are none. -/
def pyLexer (py : PyFloat) : Lexer Char PyToken
  | [] => none
  | c :: t =>
    if c = ' ' ∨ c = '\t' ∨ c = '\x0c' then some ([], t)
    else if c = '(' then some ([.lpar], t)
    else if c = ')' then some ([.rpar], t)
    else if c = ',' then some ([.comma], t)
    else if c.isDigit ∨ c = '.' then
      (numberToken py (c :: t)).map fun x => ([.atom (.number x.1)], x.2)
    else if c.isAlpha ∨ c = '_' then
      wordToken ((c :: t).takeWhile isWordChar) ((c :: t).dropWhile isWordChar)
    else (opOfChar c).map fun op => ([.op op], t)

/-! ## Python's grammar and evaluation -/

/-- Python's precedences, lowest first. -/
def BinOp.pyLevel : BinOp → Nat
  | lt => 1
  | gt => 1
  | or => 2
  | xor => 3
  | and => 4
  | add => 5
  | sub => 5
  | mul => 6
  | div => 6
  | mod => 6

/-- The operators that chain. -/
def BinOp.isComparison : BinOp → Bool
  | lt | gt => true
  | _ => false

/-- What an expression evaluates to. -/
inductive Value where
  | number (x : PyValue)
  | expr (e : Expr)
  deriving DecidableEq, Repr

namespace Value

/-- `_Constify`. -/
def constify : Value → Expr
  | number x => .mkConstant x.number
  | expr e => e

/-- The numbers that count as false; every `Expression` counts as true. -/
def isFalse : Value → Bool
  | number (.int n) => n = 0
  | number (.float (.finite d)) => d.coeff = 0
  | _ => false

/-- An operator on two values.  A number on the left leaves the operation to the
reflected method of the right operand; `^` and `%` have none, and the one of a
comparison is the opposite comparison. -/
def apply (py : PyFloat) (op : BinOp) : Value → Value → Option Value
  | number x, number y => (py.arith op x y).map number
  | number x, expr e =>
    match op with
    | .lt => some (expr (.operator .gt e (constify (number x))))
    | .gt => some (expr (.operator .lt e (constify (number x))))
    | .xor => none
    | .mod => none
    | op => some (expr (.operator op (constify (number x)) e))
  | expr e, v => some (expr (.operator op e v.constify))

end Value

/-- The value of an atom. -/
def PyAtom.value : PyAtom → Option Value
  | number x => some (.number x)
  | event name => some (.expr (.mkEvent name))
  | literal value => some (.expr (.literal value))
  | _ => none

/-- The value of an expression, with the last operand of a comparison without
brackets: a comparison that follows it compares with this operand, if the one before
was not false. -/
def evalPy (py : PyFloat) : Cst BinOp PyAtom → Option (Value × Option Value)
  | .atom a => a.value.map fun v => (v, none)
  | .brackets t => (evalPy py t).map fun v => (v.1, none)
  | .binary op l r => do
    let left ← evalPy py l
    match if op.isComparison then left.2 else none with
    | some middle =>
      if left.1.isFalse then return left
      else
        let right ← evalPy py r
        let v ← Value.apply py op middle right.1
        return (v, some right.1)
    | none =>
      let right ← evalPy py r
      let v ← Value.apply py op left.1 right.1
      return (v, if op.isComparison then some right.1 else none)
  | .cond t c f => do
    let true_val ← evalPy py t
    let cond ← evalPy py c
    let false_val ← evalPy py f
    return (.expr (.select true_val.1.constify cond.1.constify false_val.1.constify), none)
  | .call1 (.fn1 fn) x => do
    let lhs ← evalPy py x
    return (.expr (.function1 fn lhs.1.constify), none)
  | .call2 (.fn2 fn) x y => do
    let lhs ← evalPy py x
    let rhs ← evalPy py y
    return (.expr (.function2 fn lhs.1.constify rhs.1.constify), none)
  | _ => none

/-- `ParsePerfJson`; `none` is an exception. -/
def parsePerfJson (py : PyFloat) (orig : Text) : Option Expr := do
  let toks ← tokenize (pyLexer py) (pythonText orig)
  let parsed ← Cst.readTokens BinOp.pyLevel toks
  let v ← evalPy py parsed
  return v.1.constify

end PmuEvents.Metric
