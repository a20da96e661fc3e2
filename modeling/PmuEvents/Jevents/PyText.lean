import PmuEvents.Foundation.Utf8
set_option autoImplicit false

/-!
# Python's text operations

The string methods and number conversions `jevents.py` uses, as the language
defines them.  `int` is modelled on ASCII text: its digits, the surrounding white
space, the sign, the base prefixes and the underscores between digits.
-/

namespace PmuEvents.Jevents

open PmuEvents.Foundation

/-- The exceptions that loading an event can raise. -/
inductive PyError where
  | valueError
  | keyError
  | nameError
  | syntaxError
  | argumentTypeError (arch_std : Text)
  deriving DecidableEq, Repr

section Except

variable {α β : Type}

theorem bind_eq_ok {x : Except PyError α} {f : α → Except PyError β} {b : β} :
    (x >>= f) = .ok b ↔ ∃ a, x = .ok a ∧ f a = .ok b := by
  cases x <;> simp [bind, Except.bind]

theorem map_eq_ok {x : Except PyError α} {f : α → β} {b : β} :
    x.map f = .ok b ↔ ∃ a, x = .ok a ∧ f a = b := by
  cases x <;> simp [Except.map]

theorem pure_eq_ok {a b : α} : (pure a : Except PyError α) = .ok b ↔ a = b :=
  Except.ok.injEq a b ▸ Iff.rfl

end Except

/-! ## Strings -/

/-- Truth of an attribute: neither None nor the empty string. -/
def truthy (x : Option Text) : Bool := x.any fun s => !s.isEmpty

/-- `removesuffix`, for a suffix that is not empty. -/
def removesuffix (s suffix : Text) : Text :=
  if suffix.isSuffixOf s then s.take (s.length - suffix.length) else s

/-- `s.replace(c, r)` for a single character `c`. -/
def replaceChar (c : Char) (r : Text) (s : Text) : Text :=
  s.flatMap fun d => if d = c then r else [d]

/-- `s.split(',', 1)[0]`. -/
def firstOfList (s : Text) : Text := s.takeWhile (· ≠ ',')

/-! ## Integers -/

/-- The value of a digit below the base. -/
def digitValue (base : Nat) (c : Char) : Option Nat :=
  let d :=
    if '0' ≤ c ∧ c ≤ '9' then some (c.toNat - '0'.toNat)
    else if 'a' ≤ c ∧ c ≤ 'z' then some (c.toNat - 'a'.toNat + 10)
    else if 'A' ≤ c ∧ c ≤ 'Z' then some (c.toNat - 'A'.toNat + 10)
    else none
  d.filter (· < base)

/-- A run of digits with single underscores between them; `after_digit` says
whether a digit came last. -/
def readDigits (base : Nat) : Nat → Bool → Text → Option Nat
  | acc, after_digit, [] => if after_digit then some acc else none
  | acc, after_digit, c :: s =>
    if c = '_' then
      if after_digit then readDigits base acc false s else none
    else
      match digitValue base c with
      | some d => readDigits base (base * acc + d) true s
      | none => none

/-- What follows the prefix `0x`, `0o` or `0b` and an underscore after it. -/
def afterBasePrefix (letter : Char) : Text → Option Text
  | '0' :: c :: s =>
    if c.toLower = letter then
      match s with
      | '_' :: s => some s
      | s => some s
    else none
  | _ => none

/-- The unsigned part of `int(s, base)` for the bases 10, 16 and 0. -/
def readUnsigned (base : Nat) (s : Text) : Option Nat :=
  if base = 16 then readDigits 16 0 false ((afterBasePrefix 'x' s).getD s)
  else if base = 0 then
    match afterBasePrefix 'x' s, afterBasePrefix 'o' s, afterBasePrefix 'b' s with
    | some hex, _, _ => readDigits 16 0 false hex
    | none, some oct, _ => readDigits 8 0 false oct
    | none, none, some bin => readDigits 2 0 false bin
    | none, none, none =>
      -- a decimal number other than zero may not begin with a zero
      (readDigits 10 0 false s).filter fun n => s.head? ≠ some '0' ∨ n = 0
  else readDigits base 0 false s

/-- The white space `int` ignores around a number. -/
def isSpace (c : Char) : Bool :=
  c = ' ' || c = '\t' || c = '\n' || c = '\r' || c = '\x0b' || c = '\x0c'

/-- `s.strip()` on ASCII text. -/
def strip (s : Text) : Text := ((s.dropWhile isSpace).reverse.dropWhile isSpace).reverse

/-- The zeros of the scripts beyond ASCII that have decimal digits, each followed by the
other nine (Unicode 14). -/
def decimalZeros : List Nat :=
  [0x660, 0x6f0, 0x7c0, 0x966, 0x9e6, 0xa66, 0xae6, 0xb66, 0xbe6, 0xc66, 0xce6, 0xd66, 0xde6,
    0xe50, 0xed0, 0xf20, 0x1040, 0x1090, 0x17e0, 0x1810, 0x1946, 0x19d0, 0x1a80, 0x1a90, 0x1b50,
    0x1bb0, 0x1c40, 0x1c50, 0xa620, 0xa8d0, 0xa900, 0xa9d0, 0xa9f0, 0xaa50, 0xabf0, 0xff10,
    0x104a0, 0x10d30, 0x11066, 0x110f0, 0x11136, 0x111d0, 0x112f0, 0x11450, 0x114d0, 0x11650,
    0x116c0, 0x11730, 0x118e0, 0x11950, 0x11c50, 0x11d50, 0x11da0, 0x16a60, 0x16ac0, 0x16b50,
    0x1d7ce, 0x1d7d8, 0x1d7e2, 0x1d7ec, 0x1d7f6, 0x1e140, 0x1e2f0, 0x1e950, 0x1fbf0]

/-- The white space beyond ASCII. -/
def wideSpaces : List Nat :=
  [0x85, 0xa0, 0x1680, 0x2000, 0x2001, 0x2002, 0x2003, 0x2004, 0x2005, 0x2006, 0x2007, 0x2008,
    0x2009, 0x200a, 0x2028, 0x2029, 0x202f, 0x205f, 0x3000]

/-- A decimal digit or white space as the one of ASCII; nothing else beyond ASCII stands
in a number. -/
def decimalAndSpaceToAscii (c : Char) : Char :=
  if c.toNat < 127 then c
  else if c.toNat ∈ wideSpaces then ' '
  else
    match decimalZeros.find? fun d => d ≤ c.toNat ∧ c.toNat < d + 10 with
    | some d => Char.ofNat ('0'.toNat + (c.toNat - d))
    | none => '?'

/-- `int(s, base)`. -/
def pyInt (base : Nat) (s : Text) : Except PyError Int :=
  let value : Option Int :=
    match strip (s.map decimalAndSpaceToAscii) with
    | '-' :: t => (readUnsigned base t).map fun n => -(n : Int)
    | '+' :: t => (readUnsigned base t).map fun n => (n : Int)
    | t => (readUnsigned base t).map fun n => (n : Int)
  match value with
  | some x => .ok x
  | none => .error .valueError

/-- `str(x)`. -/
def pyStr (x : Int) : Text :=
  if x < 0 then '-' :: Nat.toDigits 10 x.natAbs else Nat.toDigits 10 x.natAbs

/-- `hex(x)`. -/
def pyHex (x : Int) : Text :=
  if x < 0 then '-' :: '0' :: 'x' :: Nat.toDigits 16 x.natAbs
  else '0' :: 'x' :: Nat.toDigits 16 x.natAbs

example : pyInt 0 "0x1_F".toList = .ok 31 := by decide
example : pyInt 0 "010".toList = .error .valueError := by decide
example : pyInt 10 " 010 ".toList = .ok 10 := by decide
example : pyInt 10 ['\u00a0', '\u0663', '\uff14'] = .ok 34 := by decide

end PmuEvents.Jevents
