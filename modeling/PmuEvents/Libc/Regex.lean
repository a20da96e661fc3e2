import PmuEvents.Foundation.FirstMatch
import PmuEvents.Libc.CString
import Mathlib.Computability.RegularExpressions
import Mathlib.Order.CompletePartialOrder
set_option autoImplicit false

/-!
# C library: `regcomp` and `regexec`

The extended regular expressions of POSIX without the period, anchors and escapes, in the
POSIX locale: a character is a byte, and ranges go by the byte.  An expression is a tree
whose types are the levels of precedence, so its text needs no parentheses but its own
groups.  The two functions are parameters of what uses them: `Compiles` says that
`regcomp` takes an expression and that `regexec` reports its leftmost longest match.
-/

namespace PmuEvents.Libc

open PmuEvents.Foundation

/-! ## Bracket expressions -/

/-- The character classes of the POSIX locale. -/
inductive CharClass where
  | alnum | alpha | blank | cntrl | digit | graph | lower | print | punct | space | upper | xdigit
  deriving DecidableEq, Repr

/-- The name of a class between `[:` and `:]`. -/
def CharClass.name : CharClass → CStr
  | alnum => cs "alnum"
  | alpha => cs "alpha"
  | blank => cs "blank"
  | cntrl => cs "cntrl"
  | digit => cs "digit"
  | graph => cs "graph"
  | lower => cs "lower"
  | print => cs "print"
  | punct => cs "punct"
  | space => cs "space"
  | upper => cs "upper"
  | xdigit => cs "xdigit"

/-- The bytes of a class, as ranges with both ends. -/
def CharClass.ranges : CharClass → List (UInt8 × UInt8)
  | alnum => [(0x30, 0x39), (0x41, 0x5a), (0x61, 0x7a)]
  | alpha => [(0x41, 0x5a), (0x61, 0x7a)]
  | blank => [(0x09, 0x09), (0x20, 0x20)]
  | cntrl => [(0x00, 0x1f), (0x7f, 0x7f)]
  | digit => [(0x30, 0x39)]
  | graph => [(0x21, 0x7e)]
  | lower => [(0x61, 0x7a)]
  | print => [(0x20, 0x7e)]
  | punct => [(0x21, 0x2f), (0x3a, 0x40), (0x5b, 0x60), (0x7b, 0x7e)]
  | space => [(0x09, 0x0d), (0x20, 0x20)]
  | upper => [(0x41, 0x5a)]
  | xdigit => [(0x30, 0x39), (0x41, 0x46), (0x61, 0x66)]

/-- A single byte in a bracket expression: as it stands, or as a collating symbol. -/
inductive BracketElement where
  | plain (b : UInt8) (h : b ≠ 0 ∧ b ∉ cs "[]^-")
  | symbol (b : UInt8) (h : b ≠ 0)

def BracketElement.byte : BracketElement → UInt8
  | plain b _ => b
  | symbol b _ => b

def BracketElement.text : BracketElement → CStr
  | plain b _ => [b]
  | symbol b _ => cs "[." ++ b :: cs ".]"

/-- What stands in a bracket expression. -/
inductive BracketItem where
  | element (e : BracketElement)
  | range (low high : BracketElement) (h : low.byte ≤ high.byte)
  | equivalence (b : UInt8) (h : b ≠ 0)
  | charClass (c : CharClass)

def BracketItem.text : BracketItem → CStr
  | element e => e.text
  | range low high _ => low.text ++ chr '-' :: high.text
  | equivalence b _ => cs "[=" ++ b :: cs "=]"
  | charClass c => cs "[:" ++ c.name ++ cs ":]"

def BracketItem.accepts : BracketItem → UInt8 → Bool
  | element e, b => b = e.byte
  | range low high _, b => low.byte ≤ b && b ≤ high.byte
  | equivalence c _, b => b = c
  | charClass c, b => c.ranges.any fun range => range.1 ≤ b && b ≤ range.2

/-- A `]` or `-` that stands for itself because it comes first. -/
inductive BracketStart where
  | none
  | bracket
  | dash

def BracketStart.text : BracketStart → CStr
  | none => []
  | bracket => cs "]"
  | dash => cs "-"

/-- A bracket expression: `[`, perhaps `^`, a first byte that stands for itself, the items,
perhaps a `-` that stands for itself because it comes last, and `]`. -/
structure Bracket where
  negated : Bool
  start : BracketStart
  items : List BracketItem
  last_dash : Bool
  nonempty : start.text ++ items.flatMap BracketItem.text ++ (if last_dash then cs "-" else []) ≠ []

def Bracket.text (e : Bracket) : CStr :=
  chr '[' :: (if e.negated then cs "^" else []) ++ e.start.text ++
    e.items.flatMap BracketItem.text ++ (if e.last_dash then cs "-" else []) ++ cs "]"

/-- Is a byte in the list of a bracket expression? -/
def Bracket.lists (e : Bracket) (b : UInt8) : Bool :=
  e.start.text.contains b || e.items.any (fun item => item.accepts b) ||
    (e.last_dash && b = chr '-')

def Bracket.accepts (e : Bracket) (b : UInt8) : Bool := b ≠ 0 && (e.lists b ^^ e.negated)

/-! ## Expressions -/

/-- How often an atom is repeated. -/
inductive Repetition where
  | star
  | plus
  | optional
  | exactly (count : Nat)
  | atLeast (low : Nat)
  | between (low more : Nat)

def Repetition.text : Repetition → CStr
  | star => cs "*"
  | plus => cs "+"
  | optional => cs "?"
  | exactly count => chr '\x7b' :: utf8 (Nat.toDigits 10 count) ++ cs "\x7d"
  | atLeast low => chr '\x7b' :: utf8 (Nat.toDigits 10 low) ++ cs ",\x7d"
  | between low more =>
    chr '\x7b' :: utf8 (Nat.toDigits 10 low) ++ chr ',' :: utf8 (Nat.toDigits 10 (low + more)) ++
      cs "\x7d"

/-- The levels of precedence. -/
inductive Level where
  | atom
  | piece
  | branch
  | alternatives

/-- The bytes that stand for themselves outside of bracket expressions. -/
def Ordinary (b : UInt8) : Prop := b ≠ 0 ∧ b ∉ cs "^.[$()|*+?\x7b\\"

instance (b : UInt8) : Decidable (Ordinary b) := inferInstanceAs (Decidable (_ ∧ _))

/-- Extended regular expressions. -/
inductive Ere : Level → Type where
  | ordinary (b : UInt8) (h : Ordinary b) : Ere .atom
  | bracket (e : Bracket) : Ere .atom
  | group (e : Ere .alternatives) : Ere .atom
  | once (e : Ere .atom) : Ere .piece
  | repeated (e : Ere .atom) (r : Repetition) : Ere .piece
  | single (e : Ere .piece) : Ere .branch
  | followed (e : Ere .piece) (f : Ere .branch) : Ere .branch
  | only (e : Ere .branch) : Ere .alternatives
  | or (e : Ere .branch) (f : Ere .alternatives) : Ere .alternatives

/-- The text of an expression. -/
def Ere.text {l : Level} : Ere l → CStr
  | ordinary b _ => [b]
  | bracket e => e.text
  | group e => chr '(' :: e.text ++ cs ")"
  | once e => e.text
  | repeated e r => e.text ++ r.text
  | single e => e.text
  | followed e f => e.text ++ f.text
  | only e => e.text
  | or e f => e.text ++ chr '|' :: f.text

/-- The bytes that stand for themselves in an expression, outside of bracket expressions. -/
def Ere.literals {l : Level} : Ere l → List UInt8
  | ordinary b _ => [b]
  | bracket _ => []
  | group e => e.literals
  | once e => e.literals
  | repeated e _ => e.literals
  | single e => e.literals
  | followed e f => e.literals ++ f.literals
  | only e => e.literals
  | or e f => e.literals ++ f.literals

/-- Any one of some bytes. -/
def anyOf (bytes : List UInt8) : RegularExpression UInt8 :=
  bytes.foldr (fun b r => .char b + r) 0

/-- All bytes. -/
def allBytes : List UInt8 := (List.range 256).map UInt8.ofNat

def Repetition.regular (r : Repetition) (e : RegularExpression UInt8) : RegularExpression UInt8 :=
  match r with
  | star => e.star
  | plus => e * e.star
  | optional => 1 + e
  | exactly count => e ^ count
  | atLeast low => e ^ low * e.star
  | between low more => e ^ low * (1 + e) ^ more

/-- An expression without brackets and classes, for the same words. -/
def Ere.regular {l : Level} : Ere l → RegularExpression UInt8
  | ordinary b _ => .char b
  | bracket e => anyOf (allBytes.filter e.accepts)
  | group e => e.regular
  | once e => e.regular
  | repeated e r => r.regular e.regular
  | single e => e.regular
  | followed e f => e.regular * f.regular
  | only e => e.regular
  | or e f => e.regular + f.regular

/-- The words of an expression. -/
def Ere.language {l : Level} (e : Ere l) : Language UInt8 := e.regular.matches'

instance {l : Level} (e : Ere l) : DecidablePred (· ∈ e.language) :=
  inferInstanceAs (DecidablePred (· ∈ e.regular.matches'))

/-! ## Literals before an expression -/

/-- Bytes that stand for themselves before a branch. -/
def Ere.prependBranch (e : Ere .branch) :
    (bytes : List UInt8) → (∀ b ∈ bytes, Ordinary b) → Ere .branch
  | [], _ => e
  | b :: bytes, h =>
    .followed (.once (.ordinary b (h b List.mem_cons_self)))
      (e.prependBranch bytes fun b hb => h b (List.mem_cons_of_mem _ hb))

/-- Bytes that stand for themselves before an expression, so before its first branch. -/
def Ere.prepend (bytes : List UInt8) (h : ∀ b ∈ bytes, Ordinary b) :
    Ere .alternatives → Ere .alternatives
  | only e => .only (e.prependBranch bytes h)
  | or e f => .or (e.prependBranch bytes h) f

section Prepend

variable {bytes : List UInt8} (h : ∀ b ∈ bytes, Ordinary b)

theorem Ere.prependBranch_text (e : Ere .branch) :
    (e.prependBranch bytes h).text = bytes ++ e.text := by
  induction bytes with
  | nil => rfl
  | cons b bytes ih => simp [prependBranch, text, ih]

theorem Ere.prepend_text (e : Ere .alternatives) :
    (e.prepend bytes h).text = bytes ++ e.text := by
  cases e with
  | only e => exact e.prependBranch_text h
  | or e f => simp [prepend, text, e.prependBranch_text h]

theorem Ere.mem_prependBranch {e : Ere .branch} {w : List UInt8} :
    w ∈ (e.prependBranch bytes h).language ↔ ∃ v ∈ e.language, w = bytes ++ v := by
  induction bytes generalizing w with
  | nil => simp [prependBranch]
  | cons b bytes ih =>
    have ih := @ih fun b hb => h b (List.mem_cons_of_mem _ hb)
    simp only [language] at ih
    simp only [prependBranch, language, regular, RegularExpression.matches'_mul,
      RegularExpression.matches'_char, Language.mem_mul, ih]
    constructor
    · rintro ⟨_, rfl, _, ⟨v, hv, rfl⟩, rfl⟩
      exact ⟨v, hv, rfl⟩
    · rintro ⟨v, hv, rfl⟩
      exact ⟨[b], rfl, bytes ++ v, ⟨v, hv, rfl⟩, rfl⟩

/-- Literals stand before words of the first branch, and of the first branch alone. -/
theorem Ere.of_mem_prepend {e : Ere .alternatives} {w : List UInt8}
    (hw : w ∈ (e.prepend bytes h).language) :
    w ∈ e.language ∨ ∃ v ∈ e.language, w = bytes ++ v := by
  cases e with
  | only e => exact .inr ((mem_prependBranch h).mp hw)
  | or e f =>
    rcases hw with hw | hw
    · obtain ⟨v, hv, hcut⟩ := (mem_prependBranch h).mp hw
      exact .inr ⟨v, .inl hv, hcut⟩
    · exact .inl (.inr hw)

end Prepend

/-! ## Words without a byte -/

/-- No part of an expression accepts a byte. -/
def Ere.Avoids {l : Level} (c : UInt8) : Ere l → Prop
  | ordinary b _ => b ≠ c
  | bracket e => e.accepts c = false
  | group e => e.Avoids c
  | once e => e.Avoids c
  | repeated e _ => e.Avoids c
  | single e => e.Avoids c
  | followed e f => e.Avoids c ∧ f.Avoids c
  | only e => e.Avoids c
  | or e f => e.Avoids c ∧ f.Avoids c

/-- The words without a byte. -/
def without (c : UInt8) : Language UInt8 := {w | c ∉ w}

section Without

variable {c : UInt8}

theorem one_le_without : 1 ≤ without c := by
  intro w hw
  obtain rfl := Language.mem_one w |>.mp hw
  exact List.not_mem_nil

theorem mul_le_without {a b : Language UInt8} (ha : a ≤ without c) (hb : b ≤ without c) :
    a * b ≤ without c := by
  rintro _ ⟨v, hv, w, hw, rfl⟩
  exact fun hmem => (List.mem_append.mp hmem).elim (ha hv) (hb hw)

theorem pow_le_without {a : Language UInt8} (ha : a ≤ without c) (n : Nat) :
    a ^ n ≤ without c := by
  induction n with
  | zero => exact one_le_without
  | succ n ih =>
    rw [pow_succ]
    exact mul_le_without ih ha

theorem kstar_le_without {a : Language UInt8} (ha : a ≤ without c) :
    KStar.kstar a ≤ without c :=
  kstar_le_of_mul_le_left one_le_without (mul_le_without le_rfl ha)

theorem Repetition.matches_le_without (r : Repetition) {e : RegularExpression UInt8}
    (h : e.matches' ≤ without c) : (r.regular e).matches' ≤ without c := by
  cases r with
  | star => exact kstar_le_without h
  | plus => exact mul_le_without h (kstar_le_without h)
  | optional => exact sup_le one_le_without h
  | exactly count =>
    rw [regular, RegularExpression.matches'_pow]
    exact pow_le_without h count
  | atLeast low =>
    rw [regular, RegularExpression.matches'_mul, RegularExpression.matches'_pow]
    exact mul_le_without (pow_le_without h low) (kstar_le_without h)
  | between low more =>
    rw [regular, RegularExpression.matches'_mul, RegularExpression.matches'_pow,
      RegularExpression.matches'_pow]
    exact mul_le_without (pow_le_without h low) (pow_le_without (sup_le one_le_without h) more)

theorem mem_anyOf {bytes : List UInt8} {w : List UInt8} :
    w ∈ (anyOf bytes).matches' ↔ ∃ b ∈ bytes, w = [b] := by
  induction bytes with
  | nil => simp [anyOf]
  | cons b bytes ih =>
    have hcons : (anyOf (b :: bytes)).matches' = {[b]} + (anyOf bytes).matches' := rfl
    rw [hcons, Language.mem_add, ih, List.exists_mem_cons_iff]
    rfl

/-- An expression without a byte has no word with it. -/
theorem Ere.language_le_without {l : Level} {e : Ere l} (h : e.Avoids c) :
    e.language ≤ without c := by
  induction e with
  | ordinary b hb =>
    rintro _ rfl
    exact fun hmem => h (List.mem_singleton.mp hmem).symm
  | bracket e =>
    intro w hw
    obtain ⟨b, hb, rfl⟩ := mem_anyOf.mp hw
    intro hmem
    rw [List.mem_singleton.mp hmem, Avoids, (List.mem_filter.mp hb).2] at h
    cases h
  | group e ih => exact ih h
  | once e ih => exact ih h
  | repeated e r ih => exact r.matches_le_without (ih h)
  | single e ih => exact ih h
  | followed e f ihe ihf => exact mul_le_without (ihe h.1) (ihf h.2)
  | only e ih => exact ih h
  | or e f ihe ihf => exact sup_le (ihe h.1) (ihf h.2)

end Without

/-! ## The functions -/

/-- `regexec` on a compiled expression, with room for one match: where it starts and
ends, `none` for `REG_NOMATCH`. -/
abbrev Regexec := CStr → Option (Nat × Nat)

/-- `regcomp` with `REG_EXTENDED`: what it compiles to, `none` when it fails. -/
abbrev Regcomp := CStr → Option Regexec

/-- `regcomp` takes an expression, and `regexec` reports its first match in every string. -/
def Compiles {l : Level} (regcomp : Regcomp) (e : Ere l) : Prop :=
  ∃ regexec, regcomp e.text = some regexec ∧ ∀ s, ReportsMatch e.language s (regexec s)

/-- A `regcomp` that knows one expression. -/
def regcompOf {l : Level} (e : Ere l) : Regcomp :=
  fun text => if text = e.text then some (search fun w => e.regular.rmatch w) else none

theorem compiles_regcompOf {l : Level} (e : Ere l) : Compiles (regcompOf e) e := by
  refine ⟨search fun w => e.regular.rmatch w, if_pos rfl, ?_⟩
  intro s
  have hwords : {w | e.regular.rmatch w} = (e.language : Set (List UInt8)) := by
    ext w
    exact e.regular.rmatch_iff_matches' w
  rw [← hwords]
  exact reportsMatch_search _ s

end PmuEvents.Libc
