import PmuEvents.Foundation.ConcreteSyntax
set_option autoImplicit false

/-!
# Where the brackets are

A tree is written with brackets around the operands that a rule asks for.  The
result follows the grammar exactly when every operand without brackets is on a
level high enough.  Two trees with the same tokens that are the same without their
brackets, atoms left aside, have the same brackets: the first bracket of an operand
is closed before the operator after it.
-/

namespace PmuEvents.Foundation

variable {Op α β : Type}

namespace Cst

/-! ## Positions in a token list -/

/-- Opening brackets less closing ones. -/
def depth : List (OpToken Op α) → Int
  | [] => 0
  | .lpar :: toks => depth toks + 1
  | .rpar :: toks => depth toks - 1
  | _ :: toks => depth toks

theorem depth_append (s toks : List (OpToken Op α)) :
    depth (s ++ toks) = depth s + depth toks := by
  induction s with
  | nil => simp [depth]
  | cons tok s ih =>
    cases tok <;> simp only [List.cons_append, depth, ih] <;> omega

/-- Brackets are closed after they were opened, and all are closed in the end. -/
structure Balanced (toks : List (OpToken Op α)) : Prop where
  total : depth toks = 0
  before : ∀ s s', toks = s ++ s' → 0 ≤ depth s

theorem Balanced.append {s toks : List (OpToken Op α)} (hs : Balanced s) (ht : Balanced toks) :
    Balanced (s ++ toks) where
  total := by rw [depth_append, hs.total, ht.total, Int.add_zero]
  before u v huv := by
    obtain ⟨w, rfl, hw⟩ | ⟨w, hw, -⟩ := List.append_eq_append_iff.mp huv
    · rw [depth_append, hs.total, Int.zero_add]
      exact ht.before w v hw
    · exact hs.before u w hw

theorem Balanced.of_plain {tok : OpToken Op α} (hl : tok ≠ .lpar) (hr : tok ≠ .rpar) :
    Balanced [tok] where
  total := by cases tok <;> simp_all [depth]
  before s s' h := by
    cases s with
    | nil => simp [depth]
    | cons c s =>
      obtain ⟨rfl, hs⟩ := List.cons.inj h
      obtain ⟨rfl, -⟩ := List.append_eq_nil_iff.mp hs.symm
      cases tok <;> simp_all [depth]

theorem Balanced.brackets {toks : List (OpToken Op α)} (h : Balanced toks) :
    Balanced (.lpar :: (toks ++ [.rpar])) where
  total := by simp [depth, depth_append, h.total]
  before s s' hs := by
    cases s with
    | nil => simp [depth]
    | cons c s =>
      rw [List.cons_append, List.cons.injEq, List.append_eq_append_iff] at hs
      obtain ⟨rfl, hs⟩ := hs
      obtain ⟨w, rfl, hw⟩ | ⟨w, hw, -⟩ := hs
      · have hin : -1 ≤ depth w := by
          cases w with
          | nil => simp [depth]
          | cons c w =>
            rw [List.cons_append, List.cons.injEq] at hw
            obtain ⟨rfl, hw⟩ := hw
            obtain ⟨rfl, -⟩ := List.append_eq_nil_iff.mp hw.symm
            simp [depth]
        simp only [depth, depth_append, h.total]
        omega
      · have hin := h.before s w hw
        simp only [depth]
        omega

theorem Balanced.cons {tok : OpToken Op α} {toks : List (OpToken Op α)} (hl : tok ≠ .lpar)
    (hr : tok ≠ .rpar) (h : Balanced toks) : Balanced (tok :: toks) :=
  (Balanced.of_plain hl hr).append h

theorem balanced_tokens (t : Cst Op α) : Balanced t.tokens := by
  induction t with
  | atom a => exact Balanced.of_plain (by simp) (by simp)
  | brackets t ih => exact ih.brackets
  | binary op l r ihl ihr => exact ihl.append (ihr.cons (by simp) (by simp))
  | cond t c f iht ihc ihf =>
    exact iht.append ((ihc.append (ihf.cons (by simp) (by simp))).cons (by simp) (by simp))
  | call1 fn x ih => exact ih.brackets.cons (by simp) (by simp)
  | call2 fn x y ihx ihy =>
    have hargs : Balanced (x.tokens ++ .comma :: y.tokens) :=
      ihx.append (ihy.cons (by simp) (by simp))
    have hcall : Balanced (.atom fn :: .lpar :: ((x.tokens ++ .comma :: y.tokens) ++ [.rpar])) :=
      hargs.brackets.cons (by simp) (by simp)
    simpa [tokens] using hcall

/-- An operand and something after it are no expression in brackets. -/
theorem tokens_append_ne_brackets (l t : Cst Op α) (tok : OpToken Op α)
    (toks : List (OpToken Op α)) :
    l.tokens ++ tok :: toks ≠ .lpar :: (t.tokens ++ [.rpar]) := by
  intro heq
  cases hl : l.tokens with
  | nil => cases l <;> simp [tokens] at hl
  | cons c s =>
    rw [hl, List.cons_append] at heq
    obtain ⟨rfl, hs⟩ := List.cons.inj heq
    have htotal := (balanced_tokens l).total
    rw [hl, depth] at htotal
    have hpos : 0 ≤ depth s := by
      obtain ⟨w, hw, -⟩ | ⟨w, hw, hw'⟩ := List.append_eq_append_iff.mp hs
      · exact (balanced_tokens t).before s w hw
      · cases w with
        | nil =>
          rw [List.append_nil] at hw
          exact Int.le_of_eq (by rw [hw, (balanced_tokens t).total])
        | cons c w => simp at hw'
    omega

/-- Whether a token is a bracket. -/
def isPlain : OpToken Op α → Bool
  | .lpar | .rpar => false
  | _ => true

/-- Lists that are the same have the same part before their n-th plain token. -/
theorem append_cons_inj {s s' toks toks' : List (OpToken Op α)} {x x' : OpToken Op α}
    (hx : isPlain x) (hx' : isPlain x') (hcount : s.countP isPlain = s'.countP isPlain)
    (h : s ++ x :: toks = s' ++ x' :: toks') : s = s' ∧ x = x' ∧ toks = toks' := by
  induction s generalizing s' with
  | nil =>
    cases s' with
    | nil =>
      obtain ⟨rfl, rfl⟩ := List.cons.inj h
      exact ⟨rfl, rfl, rfl⟩
    | cons c s' =>
      obtain ⟨rfl, -⟩ := List.cons.inj h
      simp [hx] at hcount
  | cons c s ih =>
    cases s' with
    | nil =>
      obtain ⟨rfl, -⟩ := List.cons.inj h
      simp [hx'] at hcount
    | cons c' s' =>
      simp only [List.cons_append, List.cons.injEq] at h
      obtain ⟨rfl, h⟩ := h
      simp only [List.countP_cons, Nat.add_right_cancel_iff] at hcount
      obtain ⟨rfl, hrest⟩ := ih hcount h
      exact ⟨rfl, hrest⟩

end Cst

/-- The number of tokens other than brackets. -/
def OpTree.plainTokens : OpTree Op α → Nat
  | .atom _ => 1
  | .binary _ l r => l.plainTokens + r.plainTokens + 1
  | .cond t c f => t.plainTokens + c.plainTokens + f.plainTokens + 2
  | .call1 _ x => x.plainTokens + 1
  | .call2 _ x y => x.plainTokens + y.plainTokens + 2

theorem OpTree.plainTokens_map (f : α → β) (t : OpTree Op α) :
    (t.map f).plainTokens = t.plainTokens := by
  induction t <;> simp_all [OpTree.map, plainTokens]

namespace Cst

theorem countP_tokens (t : Cst Op α) : t.tokens.countP isPlain = t.erase.plainTokens := by
  induction t with
  | atom a => rfl
  | brackets t ih => simp [tokens, erase, isPlain, ih]
  | binary op l r ihl ihr =>
    simp only [tokens, erase, OpTree.plainTokens, List.countP_append, List.countP_cons, isPlain,
      ihl, ihr, if_true]
    omega
  | cond t c f iht ihc ihf =>
    simp only [tokens, erase, OpTree.plainTokens, List.countP_append, List.countP_cons, isPlain,
      iht, ihc, ihf, if_true]
    omega
  | call1 fn x ih =>
    simp only [tokens, erase, OpTree.plainTokens, List.countP_append, List.countP_cons, isPlain,
      ih, if_true, List.countP_nil]
    simp
  | call2 fn x y ihx ihy =>
    simp only [tokens, erase, OpTree.plainTokens, List.countP_append, List.countP_cons, isPlain,
      ihx, ihy, if_true, List.countP_nil]
    simp
    omega

/-- Same tokens and, without brackets and with the atoms under a map, same trees:
then the brackets are the same. -/
theorem eq_of_tokens_eq (f : α → β) {t t' : Cst Op α} (htokens : t.tokens = t'.tokens)
    (herase : t.erase.map f = t'.erase.map f) : t = t' := by
  have hcount : ∀ u u' : Cst Op α, u.erase.map f = u'.erase.map f →
      u.tokens.countP isPlain = u'.tokens.countP isPlain := by
    intro u u' h
    rw [countP_tokens, countP_tokens, ← OpTree.plainTokens_map f, h, OpTree.plainTokens_map]
  induction t generalizing t' with
  | atom a =>
    cases t' with
    | atom a' =>
      simp only [tokens, List.cons.injEq, OpToken.atom.injEq, and_true] at htokens
      rw [htokens]
    | brackets t' => simp [tokens] at htokens
    | _ => simp [erase, OpTree.map] at herase
  | brackets t ih =>
    cases t' with
    | brackets t' =>
      simp only [tokens, List.cons.injEq, true_and] at htokens
      rw [ih (List.append_cancel_right htokens) herase]
    | atom a' => simp [tokens] at htokens
    | binary op' l' r' =>
      exact absurd htokens.symm (tokens_append_ne_brackets l' t _ _)
    | cond t' c' f' =>
      exact absurd htokens.symm (tokens_append_ne_brackets t' t _ _)
    | _ => simp [tokens] at htokens
  | binary op l r ihl ihr =>
    cases t' with
    | binary op' l' r' =>
      simp only [erase, OpTree.map, OpTree.binary.injEq] at herase
      obtain ⟨rfl, hl, hr⟩ := herase
      obtain ⟨hltoks, -, hrtoks⟩ := append_cons_inj rfl rfl (hcount l l' hl) htokens
      rw [ihl hltoks hl, ihr hrtoks hr]
    | brackets t' => exact absurd htokens (tokens_append_ne_brackets l t' _ _)
    | _ => simp [erase, OpTree.map] at herase
  | cond t c f iht ihc ihf =>
    cases t' with
    | cond t' c' f' =>
      simp only [erase, OpTree.map, OpTree.cond.injEq] at herase
      obtain ⟨ht, hc, hf⟩ := herase
      obtain ⟨httoks, -, hrest⟩ := append_cons_inj rfl rfl (hcount t t' ht) htokens
      obtain ⟨hctoks, -, hftoks⟩ := append_cons_inj rfl rfl (hcount c c' hc) hrest
      rw [iht httoks ht, ihc hctoks hc, ihf hftoks hf]
    | brackets t' => exact absurd htokens (tokens_append_ne_brackets t t' _ _)
    | _ => simp [erase, OpTree.map] at herase
  | call1 fn x ih =>
    cases t' with
    | call1 fn' x' =>
      simp only [tokens, List.cons.injEq, OpToken.atom.injEq, true_and] at htokens
      simp only [erase, OpTree.map, OpTree.call1.injEq] at herase
      rw [htokens.1, ih (List.append_cancel_right htokens.2) herase.2]
    | brackets t' => simp [tokens] at htokens
    | _ => simp [erase, OpTree.map] at herase
  | call2 fn x y ihx ihy =>
    cases t' with
    | call2 fn' x' y' =>
      simp only [tokens, List.cons.injEq, OpToken.atom.injEq, true_and] at htokens
      simp only [erase, OpTree.map, OpTree.call2.injEq] at herase
      obtain ⟨hxtoks, -, hytoks⟩ :=
        append_cons_inj rfl rfl (hcount x x' herase.2.1) htokens.2
      rw [htokens.1, ihx hxtoks herase.2.1, ihy (List.append_cancel_right hytoks) herase.2.2]
    | brackets t' => simp [tokens] at htokens
    | _ => simp [erase, OpTree.map] at herase

end Cst

/-! ## Trees written with brackets -/

/-- The operator of an operand has a property; other operands have every property. -/
def OpTree.Root (p : Op → Prop) : OpTree Op α → Prop
  | .binary op _ _ => p op
  | _ => True

/-- The operators of all direct operands have a property that depends on the operator
around them and the side. -/
def OpTree.Operands (p : Op → Bool → Op → Prop) : OpTree Op α → Prop
  | .atom _ => True
  | .binary op l r =>
    l.Root (p op false) ∧ r.Root (p op true) ∧ l.Operands p ∧ r.Operands p
  | .cond t c f => t.Operands p ∧ c.Operands p ∧ f.Operands p
  | .call1 _ x => x.Operands p
  | .call2 _ x y => x.Operands p ∧ y.Operands p

namespace Cst

section Writer

variable (brackets : Op → Bool → Op → Bool)

/-- An operand, in brackets where the rule asks for them. -/
def writeOperand (op : Op) (rhs : Bool) (other : OpTree Op α) (t : Cst Op α) : Cst Op α :=
  match other with
  | .binary inner _ _ => if brackets op rhs inner then .brackets t else t
  | _ => t

/-- A tree with the brackets of the rule, and brackets around conditionals. -/
def write : OpTree Op α → Cst Op α
  | .atom a => .atom a
  | .binary op l r =>
    .binary op (writeOperand brackets op false l (write l))
      (writeOperand brackets op true r (write r))
  | .cond t c f => .brackets (.cond (write t) (write c) (write f))
  | .call1 fn x => .call1 fn (write x)
  | .call2 fn x y => .call2 fn (write x) (write y)

theorem tokens_writeOperand (op : Op) (rhs : Bool) (other : OpTree Op α) (t : Cst Op α) :
    (writeOperand brackets op rhs other t).tokens =
      Foundation.writeOperand brackets op rhs other t.tokens := by
  cases other with
  | binary inner l r =>
    rw [writeOperand, Foundation.writeOperand]
    split <;> rfl
  | _ => rfl

/-- The tokens are those of the list writer. -/
theorem tokens_write (t : OpTree Op α) : (write brackets t).tokens = writeTokens brackets t := by
  induction t with
  | atom a => rfl
  | binary op l r ihl ihr =>
    rw [write, tokens, tokens_writeOperand, tokens_writeOperand, ihl, ihr, writeTokens]
  | cond t c f iht ihc ihf =>
    simp only [write, tokens, writeTokens, iht, ihc, ihf, List.append_assoc, List.cons_append]
  | call1 fn x ih => rw [write, tokens, ih, writeTokens]
  | call2 fn x y ihx ihy => rw [write, tokens, ihx, ihy, writeTokens]

theorem erase_writeOperand (op : Op) (rhs : Bool) (other : OpTree Op α) (t : Cst Op α) :
    (writeOperand brackets op rhs other t).erase = t.erase := by
  cases other with
  | binary inner l r =>
    rw [writeOperand]
    split <;> rfl
  | _ => rfl

/-- Without its brackets the written tree is the tree. -/
theorem erase_write (t : OpTree Op α) : (write brackets t).erase = t := by
  induction t with
  | atom a => rfl
  | binary op l r ihl ihr =>
    rw [write, erase, erase_writeOperand, erase_writeOperand, ihl, ihr]
  | cond t c f iht ihc ihf => rw [write, erase, erase, iht, ihc, ihf]
  | call1 fn x ih => rw [write, erase, ih]
  | call2 fn x y ihx ihy => rw [write, erase, ihx, ihy]

/-- The operand has brackets, or is on the level of the operator, above it on the right. -/
def Stands (level : Op → Nat) (op : Op) (rhs : Bool) (inner : Op) : Prop :=
  brackets op rhs inner = true ∨ (if rhs then level op + 1 else level op) ≤ level inner

variable {brackets} {level : Op → Nat}

theorem fits_writeOperand (op : Op) (rhs : Bool) {other : OpTree Op α}
    (h : ∀ k, (write brackets other).Fits level k ↔
      other.Fits level k ∧ other.Operands (Stands brackets level)) :
    (writeOperand brackets op rhs other (write brackets other)).Fits level
        (if rhs then level op + 1 else level op) ↔
      other.Root (Stands brackets level op rhs) ∧ other.Operands (Stands brackets level) := by
  cases other with
  | binary inner l r =>
    rw [writeOperand, OpTree.Root, Stands]
    cases hbrackets : brackets op rhs inner with
    | true =>
      rw [if_pos rfl]
      have hin := h 0
      simp only [OpTree.fits_zero, true_and] at hin
      simp only [true_or, true_and]
      exact hin
    | false =>
      rw [if_neg Bool.false_ne_true, h]
      simp only [OpTree.Fits, Bool.false_eq_true, false_or]
  | _ => simp only [writeOperand, h, OpTree.Fits, OpTree.Root]

/-- What is written follows the grammar exactly when every operand stands. -/
theorem fits_write_iff (hlevel : ∀ op, 0 < level op) (t : OpTree Op α) (k : Nat) :
    (write brackets t).Fits level k ↔
      t.Fits level k ∧ t.Operands (Stands brackets level) := by
  have hone : ∀ t : OpTree Op α, t.Fits level 1 := by
    intro t
    cases t with
    | binary op l r => exact hlevel op
    | _ => trivial
  induction t generalizing k with
  | atom a => simp [write, Fits, OpTree.Fits, OpTree.Operands]
  | binary op l r ihl ihr =>
    have hleft := fits_writeOperand op false ihl
    have hright := fits_writeOperand op true ihr
    simp only [Bool.false_eq_true, if_false, if_true] at hleft hright
    rw [write, Fits, hleft, hright, OpTree.Fits, OpTree.Operands]
    tauto
  | cond t c f iht ihc ihf =>
    simp only [write, Fits, (iht 1), (ihc 1), (ihf 0), OpTree.Operands, hone, OpTree.fits_zero,
      true_and]
    exact (and_iff_right trivial).symm
  | call1 fn x ih =>
    simp only [write, Fits, (ih 0), OpTree.Operands, OpTree.fits_zero, true_and]
    exact (and_iff_right trivial).symm
  | call2 fn x y ihx ihy =>
    simp only [write, Fits, (ihx 0), (ihy 0), OpTree.Operands, OpTree.fits_zero, true_and]
    exact (and_iff_right trivial).symm

end Writer

end Cst

end PmuEvents.Foundation
