import Mathlib.Data.List.Basic
import Mathlib.Tactic.Common
set_option autoImplicit false

/-!
# Operator grammars

Expressions with binary operators on numbered levels that associate to the left,
a bracketed conditional and calls with one or two arguments, over arbitrary
operators and atoms.  A call is an atom in front of a bracket.  The grammar is a
relation between token lists and trees; the reader climbs the levels.  The main
results: the reader finds every tree the grammar derives, so the grammar is
unambiguous, and a writer that brackets whatever is not on a high enough level
is undone by the reader.
-/

namespace PmuEvents.Foundation

/-- Expression trees over operators and atoms. -/
inductive OpTree (Op α : Type) where
  | atom (a : α)
  | binary (op : Op) (lhs rhs : OpTree Op α)
  | cond (true_val cond false_val : OpTree Op α)
  | call1 (fn : α) (lhs : OpTree Op α)
  | call2 (fn : α) (lhs rhs : OpTree Op α)
  deriving DecidableEq, Repr

/-- The tokens of an expression. -/
inductive OpToken (Op α : Type) where
  | atom (a : α)
  | op (op : Op)
  | lpar | rpar | comma | if_ | else_
  deriving DecidableEq, Repr

variable {Op α : Type}

/-! ## The grammar -/

section Grammar

variable (level : Op → Nat)

/-- The token list is an expression whose operators outside brackets are on the
given level or above, and this is its tree. -/
inductive Derives : Nat → List (OpToken Op α) → OpTree Op α → Prop
  | atom (k : Nat) (a : α) : Derives k [.atom a] (.atom a)
  | brackets {toks : List (OpToken Op α)} {t : OpTree Op α} (k : Nat)
      (h : Derives 0 toks t) : Derives k (.lpar :: (toks ++ [.rpar])) t
  | cond {tt tc tf : List (OpToken Op α)} {t c f : OpTree Op α} (k : Nat)
      (ht : Derives 0 tt t) (hc : Derives 0 tc c) (hf : Derives 0 tf f) :
      Derives k (.lpar :: (tt ++ .if_ :: (tc ++ .else_ :: (tf ++ [.rpar])))) (.cond t c f)
  | call1 {toks : List (OpToken Op α)} {x : OpTree Op α} (k : Nat) (fn : α)
      (h : Derives 0 toks x) :
      Derives k (.atom fn :: .lpar :: (toks ++ [.rpar])) (.call1 fn x)
  | call2 {tx ty : List (OpToken Op α)} {x y : OpTree Op α} (k : Nat) (fn : α)
      (hx : Derives 0 tx x) (hy : Derives 0 ty y) :
      Derives k (.atom fn :: .lpar :: (tx ++ .comma :: (ty ++ [.rpar]))) (.call2 fn x y)
  | binary {tl tr : List (OpToken Op α)} {l r : OpTree Op α} {k : Nat} {op : Op}
      (hk : k ≤ level op) (hl : Derives (level op) tl l) (hr : Derives (level op + 1) tr r) :
      Derives k (tl ++ .op op :: tr) (.binary op l r)

end Grammar

/-! ## The reader -/

section Reader

variable (level : Op → Nat)

mutual

/-- An expression of a level: an operand, and the operators of that level or
above that follow it. -/
def readExpr : Nat → Nat → List (OpToken Op α) → Option (OpTree Op α × List (OpToken Op α))
  | 0, _, _ => none
  | n + 1, k, toks =>
    match readOperand n toks with
    | none => none
    | some (lhs, rest) => readOps n k lhs rest

/-- An atom, a call, or an expression or conditional in brackets. -/
def readOperand : Nat → List (OpToken Op α) → Option (OpTree Op α × List (OpToken Op α))
  | n + 1, .atom fn :: .lpar :: toks =>
    match readExpr n 0 toks with
    | some (x, .rpar :: rest) => some (.call1 fn x, rest)
    | some (x, .comma :: rest) =>
      match readExpr n 0 rest with
      | some (y, .rpar :: rest) => some (.call2 fn x y, rest)
      | _ => none
    | _ => none
  | _ + 1, .atom a :: toks => some (.atom a, toks)
  | n + 1, .lpar :: toks =>
    match readExpr n 0 toks with
    | some (x, .rpar :: rest) => some (x, rest)
    | some (x, .if_ :: rest) =>
      match readExpr n 0 rest with
      | some (c, .else_ :: rest) =>
        match readExpr n 0 rest with
        | some (f, .rpar :: rest) => some (.cond x c f, rest)
        | _ => none
      | _ => none
    | _ => none
  | _, _ => none

/-- The operators that follow a left operand, as far as they are on the level or above. -/
def readOps : Nat → Nat → OpTree Op α → List (OpToken Op α) →
    Option (OpTree Op α × List (OpToken Op α))
  | n, k, lhs, .op op :: toks =>
    if k ≤ level op then
      match n with
      | 0 => none
      | n + 1 =>
        match readExpr n (level op + 1) toks with
        | none => none
        | some (rhs, rest) => readOps n k (.binary op lhs rhs) rest
    else some (lhs, .op op :: toks)
  | _, _, lhs, toks => some (lhs, toks)

end

/-- The tree of a token list: an expression and nothing after it. -/
def readTokens (toks : List (OpToken Op α)) : Option (OpTree Op α) :=
  match readExpr level (2 * toks.length) 0 toks with
  | some (t, []) => some t
  | _ => none

end Reader

/-! ## The reader finds every derivation -/

section Complete

variable (level : Op → Nat)

/-- The tokens after an expression of a level: no bracket, which would make a call
of a last atom, and no operator of a higher level. -/
def Follows (k : Nat) (rest : List (OpToken Op α)) : Prop :=
  match rest with
  | .lpar :: _ => False
  | .op op :: _ => level op ≤ k
  | _ => True

/-- The tokens that end an expression inside brackets. -/
def OpToken.Ends : OpToken Op α → Prop
  | .rpar | .comma | .if_ | .else_ => True
  | _ => False

theorem Follows.mono {k k' : Nat} {rest : List (OpToken Op α)} (h : Follows level k rest)
    (hk : k ≤ k') : Follows level k' rest := by
  unfold Follows at h ⊢
  split
  · exact h
  · exact Nat.le_trans h hk
  · trivial

theorem OpToken.Ends.follows {tok : OpToken Op α} (h : tok.Ends) (k : Nat)
    (rest : List (OpToken Op α)) : Follows level k (tok :: rest) := by
  cases tok with
  | atom a => exact h.elim
  | op op => exact h.elim
  | lpar => exact h.elim
  | _ => trivial

variable {level}

/-- The operator loop stops where no operator of its level follows. -/
theorem readOps_of_follows {k k' : Nat} {rest : List (OpToken Op α)}
    (h : Follows level k rest) (hk : k < k') (n : Nat) (lhs : OpTree Op α) :
    readOps level n k' lhs rest = some (lhs, rest) := by
  unfold readOps
  split
  · have hlevel : ¬ k' ≤ level _ := Nat.not_le.mpr (Nat.lt_of_le_of_lt h hk)
    rw [if_neg hlevel]
  · rfl

theorem readOps_of_ends {tok : OpToken Op α} (h : tok.Ends) (n k : Nat) (lhs : OpTree Op α)
    (rest : List (OpToken Op α)) :
    readOps level n k lhs (tok :: rest) = some (lhs, tok :: rest) := by
  cases tok with
  | atom a => exact h.elim
  | op op => exact h.elim
  | lpar => exact h.elim
  | _ => rw [readOps]; simp

/-- The reader gets through the tokens of an expression: what is left to do is the
operator loop with the expression as left operand. -/
def Reads (level : Op → Nat) (k : Nat) (toks : List (OpToken Op α)) (t : OpTree Op α) : Prop :=
  ∀ n k' rest, 2 * toks.length ≤ n → k' ≤ k → Follows level k rest →
    ∃ m, m < n ∧ n ≤ m + toks.length ∧
      readExpr level n k' (toks ++ rest) = readOps level m k' t rest

/-- An operand read in one go. -/
theorem Reads.of_operand {k : Nat} {toks : List (OpToken Op α)} {t : OpTree Op α}
    (hne : toks ≠ [])
    (h : ∀ n rest, 2 * toks.length ≤ n + 1 → Follows level k rest →
      readOperand level n (toks ++ rest) = some (t, rest)) : Reads level k toks t := by
  intro n k' rest hn hk hrest
  have hpos : 0 < toks.length := List.length_pos_iff.mpr hne
  obtain ⟨m, rfl⟩ : ∃ m, n = m + 1 := ⟨n - 1, by omega⟩
  refine ⟨m, by omega, by omega, ?_⟩
  rw [readExpr, h m rest hn hrest]

/-- An expression in front of a token that ends it is read in full. -/
theorem Reads.ended {toks : List (OpToken Op α)} {t : OpTree Op α} (h : Reads level 0 toks t)
    (tok : OpToken Op α) (htok : tok.Ends) {n : Nat} (hn : 2 * toks.length ≤ n)
    (rest : List (OpToken Op α)) :
    readExpr level n 0 (toks ++ tok :: rest) = some (t, tok :: rest) := by
  obtain ⟨m, -, -, hread⟩ := h n 0 (tok :: rest) hn (Nat.le_refl 0) (htok.follows level 0 rest)
  rw [hread, readOps_of_ends htok]

theorem Reads.binary {k : Nat} {op : Op} {tl tr : List (OpToken Op α)} {l r : OpTree Op α}
    (hk : k ≤ level op) (hl : Reads level (level op) tl l)
    (hr : Reads level (level op + 1) tr r) :
    Reads level k (tl ++ .op op :: tr) (.binary op l r) := by
  intro n k' rest hn hk' hrest
  simp only [List.length_append, List.length_cons] at hn
  have hop : Follows level (level op) (.op op :: (tr ++ rest)) := Nat.le_refl (level op)
  obtain ⟨m, hm, hmn, hleft⟩ :=
    hl n k' (.op op :: (tr ++ rest)) (by omega) (Nat.le_trans hk' hk) hop
  obtain ⟨m', rfl⟩ : ∃ m', m = m' + 1 := ⟨m - 1, by omega⟩
  obtain ⟨m'', -, -, hright⟩ :=
    hr m' (level op + 1) rest (by omega) (Nat.le_refl _)
      (hrest.mono level (Nat.le_succ_of_le hk))
  refine ⟨m', by omega, ?_, ?_⟩
  · simp only [List.length_append, List.length_cons]
    omega
  · rw [List.append_assoc, List.cons_append, hleft, readOps, if_pos (Nat.le_trans hk' hk)]
    simp only [hright, readOps_of_follows hrest (Nat.lt_succ_of_le hk)]

/-- The reader gets through whatever the grammar derives. -/
theorem Derives.reads {k : Nat} {toks : List (OpToken Op α)} {t : OpTree Op α}
    (h : Derives level k toks t) : Reads level k toks t := by
  induction h with
  | atom k a =>
    apply Reads.of_operand (by simp)
    intro n rest hn hrest
    obtain ⟨m, rfl⟩ : ∃ m, n = m + 1 := ⟨n - 1, by simp at hn; omega⟩
    cases rest with
    | nil => rw [List.append_nil, readOperand]; simp
    | cons tok rest =>
      cases tok with
      | lpar => exact hrest.elim
      | _ => rw [List.singleton_append, readOperand]; simp
  | @brackets toks t k _ ih =>
    apply Reads.of_operand (by simp)
    intro n rest hn hrest
    simp only [List.length_cons, List.length_append, List.length_nil] at hn
    obtain ⟨m, rfl⟩ : ∃ m, n = m + 1 := ⟨n - 1, by omega⟩
    have hin := ih.ended .rpar trivial (n := m) (by omega) rest
    simp only [List.cons_append, List.append_assoc, List.nil_append, readOperand, hin]
  | @cond tt tc tf t c f k _ _ _ iht ihc ihf =>
    apply Reads.of_operand (by simp)
    intro n rest hn hrest
    simp only [List.length_cons, List.length_append, List.length_nil] at hn
    obtain ⟨m, rfl⟩ : ∃ m, n = m + 1 := ⟨n - 1, by omega⟩
    have hf := ihf.ended .rpar trivial (n := m) (by omega) rest
    have hc := ihc.ended .else_ trivial (n := m) (by omega) (tf ++ .rpar :: rest)
    have ht := iht.ended .if_ trivial (n := m) (by omega)
      (tc ++ .else_ :: (tf ++ .rpar :: rest))
    simp only [List.cons_append, List.append_assoc, List.nil_append, readOperand, ht, hc, hf]
  | @call1 toks x k fn _ ih =>
    apply Reads.of_operand (by simp)
    intro n rest hn hrest
    simp only [List.length_cons, List.length_append, List.length_nil] at hn
    obtain ⟨m, rfl⟩ : ∃ m, n = m + 1 := ⟨n - 1, by omega⟩
    have hin := ih.ended .rpar trivial (n := m) (by omega) rest
    simp only [List.cons_append, List.append_assoc, List.nil_append, readOperand, hin]
  | @call2 tx ty x y k fn _ _ ihx ihy =>
    apply Reads.of_operand (by simp)
    intro n rest hn hrest
    simp only [List.length_cons, List.length_append, List.length_nil] at hn
    obtain ⟨m, rfl⟩ : ∃ m, n = m + 1 := ⟨n - 1, by omega⟩
    have hy := ihy.ended .rpar trivial (n := m) (by omega) rest
    have hx := ihx.ended .comma trivial (n := m) (by omega) (ty ++ .rpar :: rest)
    simp only [List.cons_append, List.append_assoc, List.nil_append, readOperand, hx, hy]
  | binary hk _ _ ihl ihr => exact Reads.binary hk ihl ihr

/-- The reader returns the tree of every expression of the grammar. -/
theorem Derives.readTokens {toks : List (OpToken Op α)} {t : OpTree Op α}
    (h : Derives level 0 toks t) : readTokens level toks = some t := by
  obtain ⟨m, -, -, hread⟩ :=
    h.reads (2 * toks.length) 0 [] (Nat.le_refl _) (Nat.le_refl 0) trivial
  rw [List.append_nil] at hread
  have hops : readOps level m 0 t ([] : List (OpToken Op α)) = some (t, []) := by
    rw [readOps]
    simp
  rw [Foundation.readTokens, hread, hops]

/-- The grammar is unambiguous. -/
theorem Derives.unique {toks : List (OpToken Op α)} {t t' : OpTree Op α}
    (h : Derives level 0 toks t) (h' : Derives level 0 toks t') : t = t' :=
  Option.some.inj (h.readTokens.symm.trans h'.readTokens)

end Complete

/-! ## Writing with brackets -/

section Writer

variable (brackets : Op → Bool → Op → Bool)

/-- The tokens of an operand: in brackets where the operator around it, the side
and its own operator ask for them. -/
def writeOperand (op : Op) (rhs : Bool) (other : OpTree Op α) (toks : List (OpToken Op α)) :
    List (OpToken Op α) :=
  match other with
  | .binary inner _ _ => if brackets op rhs inner then .lpar :: (toks ++ [.rpar]) else toks
  | _ => toks

/-- The tokens of a tree. -/
def writeTokens : OpTree Op α → List (OpToken Op α)
  | .atom a => [.atom a]
  | .binary op lhs rhs =>
    writeOperand brackets op false lhs (writeTokens lhs) ++
      .op op :: writeOperand brackets op true rhs (writeTokens rhs)
  | .cond true_val cond false_val =>
    .lpar :: (writeTokens true_val ++ .if_ :: (writeTokens cond ++ .else_ ::
      (writeTokens false_val ++ [.rpar])))
  | .call1 fn lhs => .atom fn :: .lpar :: (writeTokens lhs ++ [.rpar])
  | .call2 fn lhs rhs =>
    .atom fn :: .lpar :: (writeTokens lhs ++ .comma :: (writeTokens rhs ++ [.rpar]))

variable (level : Op → Nat)

/-- The levels on which a tree can stand without brackets. -/
def OpTree.Fits (k : Nat) : OpTree Op α → Prop
  | .binary op _ _ => k ≤ level op
  | _ => True

variable {brackets level}

theorem OpTree.fits_zero (t : OpTree Op α) : t.Fits level 0 := by
  cases t with
  | binary op l r => exact Nat.zero_le _
  | _ => trivial

/-- An operand without brackets is on the level asked for; one in brackets is on any. -/
theorem derives_writeOperand {op : Op} {rhs : Bool} {k : Nat} {other : OpTree Op α}
    {toks : List (OpToken Op α)}
    (hbrackets : ∀ inner, brackets op rhs inner = false → k ≤ level inner)
    (h : ∀ k, other.Fits level k → Derives level k toks other) :
    Derives level k (writeOperand brackets op rhs other toks) other := by
  cases other with
  | binary inner l r =>
    rw [writeOperand]
    split
    · exact .brackets k (h 0 (Nat.zero_le _))
    · rename_i hno
      exact h k (hbrackets inner (by simpa using hno))
  | _ => exact h k trivial

/-- What is written derives the tree it was written from, if left operands without
brackets are on the level of the operator or above, and right ones above. -/
theorem derives_writeTokens
    (hleft : ∀ op inner, brackets op false inner = false → level op ≤ level inner)
    (hright : ∀ op inner, brackets op true inner = false → level op < level inner)
    (t : OpTree Op α) (k : Nat) (hk : t.Fits level k) :
    Derives level k (writeTokens brackets t) t := by
  induction t generalizing k with
  | atom a => exact .atom k a
  | binary op l r ihl ihr =>
    exact .binary hk (derives_writeOperand (hleft op) ihl) (derives_writeOperand (hright op) ihr)
  | cond t c f iht ihc ihf =>
    exact .cond k (iht 0 t.fits_zero) (ihc 0 c.fits_zero) (ihf 0 f.fits_zero)
  | call1 fn x ih => exact .call1 k fn (ih 0 x.fits_zero)
  | call2 fn x y ihx ihy => exact .call2 k fn (ihx 0 x.fits_zero) (ihy 0 y.fits_zero)

end Writer

end PmuEvents.Foundation
