import PmuEvents.Foundation.Runs
import PmuEvents.Metric.Decode
set_option autoImplicit false

/-!
# `Simplify`

The simplification of metric expressions.  Two constant operands are handed to
`ast.literal_eval` in a form it refuses, and one rule reads an attribute that not
every child has, so the outcome is an expression or an exception.  The main
result: an expression simplifies exactly when no operator and no call of two
arguments meets the shapes that raise.
-/

namespace PmuEvents.Metric

open PmuEvents.Foundation

/-- The exceptions of `Simplify`. -/
inductive SimplifyError where
  /-- `ast.literal_eval` got neither a literal nor its text -/
  | valueError
  /-- `value` was read from an operator, select, function or event -/
  | attributeError
  deriving DecidableEq, Repr

namespace Expr

/-- An event with `slots` in its name, ignoring case. -/
def isSlots : Expr → Bool
  | event name => "slots".toList <:+: name.map Char.toLower
  | _ => false

/-- The attribute `value`. -/
def valueAttr : Expr → Option Text
  | constant value => some value
  | literal value => some value
  | _ => none

/-- The rules for a constant on the left, whose text is `value`. -/
def constantLhsRule (op : BinOp) (value : Text) (rhs : Expr) : Option Expr :=
  if (op = .add ∨ op = .or) ∧ value = ['0'] then some rhs
  -- multiplication by 0 stays for the slots event, which is introduced that way
  else if op = .mul ∧ value = ['0'] ∧ ¬ rhs.isSlots then some (mkConstant (.ofInt 0))
  else if op = .mul ∧ value = ['1'] then some rhs
  else none

/-- The rules that apply when the left child was a constant to begin with. -/
def lhsRule (op : BinOp) (self_lhs lhs rhs : Expr) : Option Expr :=
  match self_lhs, lhs with
  | constant _, constant value => constantLhsRule op value rhs
  | _, _ => none

/-- The rules for a constant on the right, whose text is `value`; the last one
asks the child as it was before its simplification. -/
def rhsRule (op : BinOp) (lhs : Expr) (value : Text) (self_rhs : Expr) :
    Except SimplifyError (Option Expr) :=
  if (op = .add ∨ op = .or) ∧ value = ['0'] then .ok (some lhs)
  else if op = .mul ∧ value = ['0'] then .ok (some (mkConstant (.ofInt 0)))
  else if op = .mul then
    match self_rhs.valueAttr with
    | none => .error .attributeError
    | some value => .ok (if value = ['1'] then some lhs else none)
  else .ok none

/-- `Operator.Simplify` after the simplification of the operands. -/
def simplifyOperator (op : BinOp) (self_lhs self_rhs lhs rhs : Expr) :
    Except SimplifyError Expr :=
  match lhs, rhs with
  | constant _, constant _ => .error .valueError
  | lhs, rhs =>
    match lhsRule op self_lhs lhs rhs with
    | some e => .ok e
    | none =>
      match rhs with
      | constant value =>
        match rhsRule op lhs value self_rhs with
        | .error err => .error err
        | .ok (some e) => .ok e
        | .ok none => .ok (operator op lhs rhs)
      | _ => .ok (operator op lhs rhs)

/-- `Select.Simplify` after the simplification of the children. -/
def simplifySelect (true_val cond false_val : Expr) : Expr :=
  match cond with
  | constant value => if value = ['0'] then false_val else true_val
  | _ => if true_val.equals false_val then true_val else select true_val cond false_val

/-- `Function.Simplify` for two arguments after their simplification. -/
def simplifyFunction2 (fn : Fn2) (lhs rhs : Expr) : Except SimplifyError Expr :=
  match lhs, rhs with
  | constant _, constant value =>
    if fn = .d_ratio ∧ value = ['0'] then .ok (mkConstant (.ofInt 0)) else .error .valueError
  | _, _ => .ok (function2 fn lhs rhs)

/-- `Simplify`. -/
def simplify : Expr → Except SimplifyError Expr
  | operator op self_lhs self_rhs => do
    let lhs ← self_lhs.simplify
    let rhs ← self_rhs.simplify
    simplifyOperator op self_lhs self_rhs lhs rhs
  | select self_true_val self_cond self_false_val => do
    let cond ← self_cond.simplify
    let true_val ← self_true_val.simplify
    let false_val ← self_false_val.simplify
    return simplifySelect true_val cond false_val
  | function1 fn self_lhs => do
    let lhs ← self_lhs.simplify
    return function1 fn lhs
  | function2 fn self_lhs self_rhs => do
    let lhs ← self_lhs.simplify
    let rhs ← self_rhs.simplify
    simplifyFunction2 fn lhs rhs
  | event name => .ok (event name)
  | constant value => .ok (constant value)
  | literal value => .ok (literal value)

/-! ## What the rules do -/

theorem mkConstant_zero : mkConstant (.ofInt 0) = constant ['0'] :=
  congrArg constant (constantText_zero 0)

/-- What `Operator.Simplify` returns: an operand, zero, or the operator on the
simplified operands. -/
inductive OperatorRule (op : BinOp) (lhs rhs : Expr) : Expr → Prop
  | dropLhs (hop : op = .add ∨ op = .or) (hlhs : lhs = constant ['0']) : OperatorRule op lhs rhs rhs
  | dropRhs (hop : op = .add ∨ op = .or) (hrhs : rhs = constant ['0']) : OperatorRule op lhs rhs lhs
  | zero (hop : op = .mul) (hzero : lhs = constant ['0'] ∨ rhs = constant ['0']) :
      OperatorRule op lhs rhs (constant ['0'])
  | oneLhs (hop : op = .mul) (hlhs : lhs = constant ['1']) : OperatorRule op lhs rhs rhs
  | oneRhs (hop : op = .mul) (hrhs : rhs = constant ['1']) : OperatorRule op lhs rhs lhs
  | keep : OperatorRule op lhs rhs (operator op lhs rhs)

theorem operatorRule_of_lhsRule {op : BinOp} {self_lhs lhs rhs e : Expr}
    (h : lhsRule op self_lhs lhs rhs = some e) : OperatorRule op lhs rhs e := by
  unfold lhsRule at h
  split at h
  · unfold constantLhsRule at h
    split at h
    · rename_i hadd
      obtain ⟨hop, rfl⟩ := hadd
      obtain rfl := Option.some.inj h
      exact .dropLhs hop rfl
    · split at h
      · rename_i hmul
        obtain ⟨hop, rfl, -⟩ := hmul
        obtain rfl := Option.some.inj h
        rw [mkConstant_zero]
        exact .zero hop (.inl rfl)
      · split at h
        · rename_i hone
          obtain ⟨hop, rfl⟩ := hone
          obtain rfl := Option.some.inj h
          exact .oneLhs hop rfl
        · cases h
  · cases h

/-- A child that is a constant or a literal is unchanged by its simplification. -/
theorem simplify_of_valueAttr {e : Expr} {value : Text} (h : e.valueAttr = some value) :
    e.simplify = .ok e := by
  cases e with
  | constant value => rfl
  | literal value => rfl
  | _ => cases h

theorem operatorRule_of_rhsRule {op : BinOp} {lhs self_rhs e : Expr} {value : Text}
    (hself : self_rhs.simplify = .ok (constant value))
    (h : rhsRule op lhs value self_rhs = .ok (some e)) :
    OperatorRule op lhs (constant value) e := by
  unfold rhsRule at h
  split at h
  · rename_i hadd
    obtain ⟨hop, rfl⟩ := hadd
    obtain rfl := Option.some.inj (Except.ok.inj h)
    exact .dropRhs hop rfl
  · split at h
    · rename_i hmul
      obtain ⟨hop, rfl⟩ := hmul
      obtain rfl := Option.some.inj (Except.ok.inj h)
      rw [mkConstant_zero]
      exact .zero hop (.inr rfl)
    · split at h
      · rename_i hop
        split at h
        · cases h
        · rename_i attr hattr
          rw [simplify_of_valueAttr hattr] at hself
          obtain rfl := Except.ok.inj hself
          obtain rfl := Option.some.inj hattr
          split at h
          · rename_i hone
            obtain rfl := Option.some.inj (Except.ok.inj h)
            rw [hone]
            exact .oneRhs hop rfl
          · cases h
      · cases h

/-- The result of `Operator.Simplify` is one of the rules'. -/
theorem operatorRule_of_simplifyOperator {op : BinOp} {self_lhs self_rhs lhs rhs e : Expr}
    (hrhs : self_rhs.simplify = .ok rhs)
    (h : simplifyOperator op self_lhs self_rhs lhs rhs = .ok e) : OperatorRule op lhs rhs e := by
  unfold simplifyOperator at h
  split at h
  · cases h
  · split at h
    · rename_i hfrom
      obtain rfl := Except.ok.inj h
      exact operatorRule_of_lhsRule hfrom
    · split at h
      · split at h
        · cases h
        · rename_i hrule
          obtain rfl := Except.ok.inj h
          exact operatorRule_of_rhsRule hrhs hrule
        · obtain rfl := Except.ok.inj h
          exact .keep
      · obtain rfl := Except.ok.inj h
        exact .keep

/-! ## Which expressions simplify -/

/-- An expression that has no children. -/
def asLeaf : Expr → Option Expr
  | event name => some (event name)
  | constant value => some (constant value)
  | literal value => some (literal value)
  | _ => none

/-- The text of a constant. -/
def asConstant : Expr → Option Text
  | constant value => some value
  | _ => none

/-- The leaf an operator folds to, by the leaves its operands fold to. -/
def foldOperator (op : BinOp) (self_lhs self_rhs : Expr) (lhs rhs : Option Expr) : Option Expr :=
  if (op = .add ∨ op = .or) ∧ self_lhs = constant ['0'] then rhs
  else if op = .mul ∧ self_lhs = constant ['0'] ∧ ¬ rhs.any isSlots then some (constant ['0'])
  else if op = .mul ∧ self_lhs = constant ['1'] then rhs
  else if (op = .add ∨ op = .or) ∧ rhs = some (constant ['0']) then lhs
  else if op = .mul ∧ rhs = some (constant ['0']) then some (constant ['0'])
  else if op = .mul ∧ self_rhs = constant ['1'] then lhs
  else none

/-- What is left of an operator. -/
inductive Remains where
  | lhs | rhs | zero | operator
  deriving DecidableEq, Repr

/-- What is left of an operator, by its operands and the leaf that the right one folds to. -/
def remains (op : BinOp) (self_lhs self_rhs : Expr) (rhs : Option Expr) : Remains :=
  if (op = .add ∨ op = .or) ∧ self_lhs = constant ['0'] then .rhs
  else if op = .mul ∧ self_lhs = constant ['0'] ∧ ¬ rhs.any isSlots then .zero
  else if op = .mul ∧ self_lhs = constant ['1'] then .rhs
  else if (op = .add ∨ op = .or) ∧ rhs = some (constant ['0']) then .lhs
  else if op = .mul ∧ rhs = some (constant ['0']) then .zero
  else if op = .mul ∧ self_rhs = constant ['1'] then .lhs
  else .operator

/-- The part of the operator on the operands `lhs` and `rhs` that is left. -/
def Remains.expr (op : BinOp) (lhs rhs : Expr) : Remains → Expr
  | .lhs => lhs
  | .rhs => rhs
  | .zero => constant ['0']
  | .operator => Expr.operator op lhs rhs

/-- The leaf an expression folds to: a leaf itself, an operand that is left of an
operator, a zero, or the branch a select takes. -/
def folded : Expr → Option Expr
  | operator op lhs rhs => foldOperator op lhs rhs lhs.folded rhs.folded
  | select true_val cond false_val =>
    match cond.folded.bind asConstant with
    | some value => if value = ['0'] then false_val.folded else true_val.folded
    | none => if true_val.folded = false_val.folded then true_val.folded else none
  | function1 _ _ => none
  | function2 fn lhs rhs =>
    if fn = .d_ratio ∧ (lhs.folded.bind asConstant).isSome ∧ rhs.folded = some (constant ['0']) then
      some (constant ['0'])
    else none
  | event name => some (event name)
  | constant value => some (constant value)
  | literal value => some (literal value)

/-- The constant an expression folds to. -/
def foldedConstant (e : Expr) : Option Text := e.folded.bind asConstant

/-- An expression without the operands and branches that the rules drop. -/
def pruned : Expr → Expr
  | operator op lhs rhs => (remains op lhs rhs rhs.folded).expr op lhs.pruned rhs.pruned
  | select true_val cond false_val =>
    match cond.foldedConstant with
    | some value => if value = ['0'] then false_val.pruned else true_val.pruned
    | none =>
      if true_val.pruned = false_val.pruned then true_val.pruned
      else select true_val.pruned cond.pruned false_val.pruned
  | function1 fn lhs => function1 fn lhs.pruned
  | function2 fn lhs rhs =>
    if fn = .d_ratio ∧ lhs.foldedConstant.isSome ∧ rhs.folded = some (constant ['0']) then
      constant ['0']
    else function2 fn lhs.pruned rhs.pruned
  | event name => event name
  | constant value => constant value
  | literal value => literal value

/-- Nowhere do two operands of an operator or two arguments of a call fold to
constants, but for a `d_ratio` by zero; and nowhere does the right factor of a
product fold to a constant other than zero without being one. -/
def NoConstantPair : Expr → Prop
  | operator op lhs rhs =>
    lhs.NoConstantPair ∧ rhs.NoConstantPair ∧
      ¬ (lhs.foldedConstant.isSome ∧ rhs.foldedConstant.isSome) ∧
      ∀ value, op = .mul → rhs.foldedConstant = some value →
        value = ['0'] ∨ rhs = constant value
  | select true_val cond false_val =>
    true_val.NoConstantPair ∧ cond.NoConstantPair ∧ false_val.NoConstantPair
  | function1 _ lhs => lhs.NoConstantPair
  | function2 fn lhs rhs =>
    lhs.NoConstantPair ∧ rhs.NoConstantPair ∧
      (lhs.foldedConstant.isSome → ∀ value, rhs.foldedConstant = some value →
        fn = .d_ratio ∧ value = ['0'])
  | _ => True

theorem asConstant_eq_some_iff {e : Expr} {value : Text} :
    e.asConstant = some value ↔ e = constant value := by
  cases e <;> simp [asConstant]

theorem asLeaf_bind_asConstant (e : Expr) : e.asLeaf.bind asConstant = e.asConstant := by
  cases e <;> rfl

theorem asLeaf_eq_some_constant_iff {e : Expr} {value : Text} :
    e.asLeaf = some (constant value) ↔ e = constant value := by
  cases e <;> simp [asLeaf]

theorem eq_of_asLeaf {e leaf : Expr} (h : e.asLeaf = some leaf) : e = leaf := by
  cases e <;> simp_all [asLeaf]

theorem asLeaf_any_isSlots (e : Expr) : e.asLeaf.any isSlots = e.isSlots := by
  cases e <;> rfl

theorem lhsRule_of_asConstant_none {op : BinOp} {self_lhs lhs rhs : Expr}
    (h : lhs.asConstant = none) : lhsRule op self_lhs lhs rhs = none := by
  cases lhs with
  | constant value => cases h
  | _ => cases self_lhs <;> rfl

/-- With no constant on the right only the rules for the left apply. -/
theorem simplifyOperator_of_rhs {op : BinOp} {self_lhs self_rhs lhs rhs : Expr}
    (h : rhs.asConstant = none) :
    simplifyOperator op self_lhs self_rhs lhs rhs =
      .ok ((lhsRule op self_lhs lhs rhs).getD (operator op lhs rhs)) := by
  unfold simplifyOperator
  split
  · cases h
  · split
    · rename_i hrule
      rw [hrule]
      rfl
    · rename_i hrule
      rw [hrule]
      split
      · cases h
      · rfl

/-- With no constant on the left only the rules for the right apply. -/
theorem simplifyOperator_of_lhs {op : BinOp} {self_lhs self_rhs lhs : Expr} (value : Text)
    (h : lhs.asConstant = none) :
    simplifyOperator op self_lhs self_rhs lhs (constant value) =
      (rhsRule op lhs value self_rhs).map fun e => e.getD (operator op lhs (constant value)) := by
  cases hrule : rhsRule op lhs value self_rhs with
  | error err =>
    unfold simplifyOperator
    split
    · cases h
    · simp only [lhsRule_of_asConstant_none h, hrule]
      rfl
  | ok e =>
    unfold simplifyOperator
    split
    · cases h
    · simp only [lhsRule_of_asConstant_none h, hrule]
      cases e <;> rfl

theorem asLeaf_remains (op : BinOp) (self_lhs self_rhs lhs rhs : Expr) :
    ((remains op self_lhs self_rhs rhs.asLeaf).expr op lhs rhs).asLeaf =
      foldOperator op self_lhs self_rhs lhs.asLeaf rhs.asLeaf := by
  unfold remains foldOperator
  split_ifs <;> rfl

/-- `Operator.Simplify` on operands that are not both constants, where a constant
right factor is zero or was a constant already. -/
theorem simplifyOperator_of_folds {op : BinOp} {self_lhs self_rhs lhs rhs : Expr}
    (hlhs : self_lhs.simplify = .ok lhs) (hrhs : self_rhs.simplify = .ok rhs)
    (hpair : ¬ (lhs.asConstant.isSome ∧ rhs.asConstant.isSome))
    (hfactor : ∀ value, op = .mul → rhs = constant value →
      value = ['0'] ∨ self_rhs = constant value) :
    simplifyOperator op self_lhs self_rhs lhs rhs =
      .ok ((remains op self_lhs self_rhs rhs.asLeaf).expr op lhs rhs) := by
  cases hr : rhs.asConstant with
  | none =>
    have hself : ∀ value, self_rhs ≠ constant value := by
      rintro value rfl
      obtain rfl := Except.ok.inj hrhs
      cases hr
    have hleaf : ∀ value, rhs.asLeaf ≠ some (constant value) := by
      intro value heq
      rw [asLeaf_eq_some_constant_iff.mp heq] at hr
      cases hr
    rw [simplifyOperator_of_rhs hr]
    simp only [remains, hself, hleaf, and_false, if_false, asLeaf_any_isSlots]
    cases self_lhs with
    | constant value =>
      obtain rfl := Except.ok.inj hlhs
      simp only [lhsRule, constantLhsRule, constant.injEq, mkConstant_zero]
      split_ifs <;> rfl
    | _ => cases lhs <;> simp [lhsRule, Remains.expr]
  | some value =>
    obtain rfl := asConstant_eq_some_iff.mp hr
    have hl : lhs.asConstant = none := by
      by_contra hne
      exact hpair ⟨Option.isSome_iff_ne_none.mpr hne, rfl⟩
    have hself : ∀ value, self_lhs ≠ constant value := by
      rintro value rfl
      obtain rfl := Except.ok.inj hlhs
      cases hl
    rw [simplifyOperator_of_lhs value hl]
    simp only [remains, hself, and_false, if_false, asLeaf, Option.some.injEq,
      constant.injEq, false_and]
    unfold rhsRule
    by_cases hadd : (op = .add ∨ op = .or) ∧ value = ['0']
    · rw [if_pos hadd, if_pos hadd]
      rfl
    · rw [if_neg hadd, if_neg hadd]
      by_cases hzero : op = .mul ∧ value = ['0']
      · rw [if_pos hzero, if_pos hzero, mkConstant_zero]
        rfl
      · rw [if_neg hzero, if_neg hzero]
        by_cases hmul : op = .mul
        · have hconst : self_rhs = constant value :=
            (hfactor value hmul rfl).resolve_left fun h => hzero ⟨hmul, h⟩
          rw [if_pos hmul, hconst]
          simp only [valueAttr, constant.injEq, hmul, true_and]
          split <;> rfl
        · rw [if_neg hmul, if_neg (fun h => hmul h.1)]
          rfl

theorem simplifyOperator_of_constants {op : BinOp} {self_lhs self_rhs lhs rhs : Expr}
    (h : lhs.asConstant.isSome ∧ rhs.asConstant.isSome) :
    simplifyOperator op self_lhs self_rhs lhs rhs = .error .valueError := by
  obtain ⟨l, hl⟩ := Option.isSome_iff_exists.mp h.1
  obtain ⟨r, hr⟩ := Option.isSome_iff_exists.mp h.2
  obtain rfl := asConstant_eq_some_iff.mp hl
  obtain rfl := asConstant_eq_some_iff.mp hr
  rfl

/-- A right factor that became a constant other than zero has no attribute to read. -/
theorem simplifyOperator_of_factor {self_lhs self_rhs lhs : Expr} {value : Text}
    (hrhs : self_rhs.simplify = .ok (constant value)) (hl : lhs.asConstant = none)
    (hzero : value ≠ ['0']) (hself : self_rhs ≠ constant value) :
    simplifyOperator .mul self_lhs self_rhs lhs (constant value) = .error .attributeError := by
  have hattr : self_rhs.valueAttr = none := by
    by_contra hne
    obtain ⟨attr, hattr⟩ := Option.ne_none_iff_exists'.mp hne
    rw [simplify_of_valueAttr hattr] at hrhs
    exact hself (Except.ok.inj hrhs)
  rw [simplifyOperator_of_lhs value hl]
  simp [rhsRule, hzero, hattr, Except.map]

/-- What is left of an expression is the leaf it folds to, or an inner node. -/
theorem asLeaf_pruned (e : Expr) : e.pruned.asLeaf = e.folded := by
  induction e with
  | operator op lhs rhs ihl ihr =>
    rw [pruned, folded, ← ihl, ← ihr]
    exact asLeaf_remains op lhs rhs lhs.pruned rhs.pruned
  | select true_val cond false_val iht ihc ihf =>
    simp only [pruned, folded, foldedConstant]
    split
    · split
      · exact ihf
      · exact iht
    · rw [← iht, ← ihf]
      by_cases heq : true_val.pruned = false_val.pruned
      · simp only [heq, if_true]
      · rw [if_neg heq]
        by_cases hleaf : true_val.pruned.asLeaf = false_val.pruned.asLeaf
        · rw [if_pos hleaf]
          cases ht : true_val.pruned.asLeaf with
          | none => rfl
          | some leaf =>
            -- two equal leaves are equal expressions
            rw [ht] at hleaf
            exact absurd ((eq_of_asLeaf ht).trans (eq_of_asLeaf hleaf.symm).symm) heq
        · rw [if_neg hleaf]
          rfl
  | function1 fn lhs ih => rfl
  | function2 fn lhs rhs ihl ihr =>
    have hfolded : (function2 fn lhs rhs).folded =
        if fn = .d_ratio ∧ lhs.foldedConstant.isSome ∧ rhs.folded = some (constant ['0']) then
          some (constant ['0'])
        else none := rfl
    rw [pruned, hfolded]
    split <;> rfl
  | event name => rfl
  | constant value => rfl
  | literal value => rfl

theorem asConstant_pruned (e : Expr) : e.pruned.asConstant = e.foldedConstant := by
  rw [foldedConstant, ← asLeaf_pruned, asLeaf_bind_asConstant]

theorem pruned_eq_constant {e : Expr} {value : Text} :
    e.pruned = constant value ↔ e.foldedConstant = some value := by
  rw [← asConstant_pruned, asConstant_eq_some_iff]

theorem simplifySelect_pruned (true_val cond false_val : Expr) :
    simplifySelect true_val.pruned cond.pruned false_val.pruned =
      (select true_val cond false_val).pruned := by
  rw [pruned, ← asConstant_pruned]
  unfold simplifySelect
  split
  · rename_i value hvalue
    rw [hvalue]
    rfl
  · rename_i hnot
    have hnone : cond.pruned.asConstant = none := by
      by_contra hne
      obtain ⟨value, hvalue⟩ := Option.ne_none_iff_exists'.mp hne
      exact hnot value (asConstant_eq_some_iff.mp hvalue)
    simp only [hnone, equals_iff]

/-- A call of two constants is refused, but for a `d_ratio` by zero. -/
theorem simplifyFunction2_settles (fn : Fn2) (lhs rhs : Expr) :
    Settles (simplifyFunction2 fn lhs.pruned rhs.pruned)
      (lhs.foldedConstant.isSome → ∀ value, rhs.foldedConstant = some value →
        fn = .d_ratio ∧ value = ['0'])
      (function2 fn lhs rhs).pruned := by
  simp only [pruned, ← asLeaf_pruned rhs, asLeaf_eq_some_constant_iff, ← asConstant_pruned]
  unfold simplifyFunction2
  split
  · rename_i left value hleft hvalue
    rw [hleft, hvalue, mkConstant_zero]
    simp only [asConstant, Option.isSome_some, Option.some.injEq, forall_const, forall_eq',
      constant.injEq, true_and]
    by_cases hzero : fn = .d_ratio ∧ value = ['0']
    · rw [if_pos hzero, if_pos hzero]
      exact ⟨fun _ => rfl, fun h => absurd hzero h⟩
    · rw [if_neg hzero]
      exact ⟨fun h => absurd h hzero, fun _ => ⟨.valueError, rfl⟩⟩
  · rename_i hnot
    have hnone : ∀ value, lhs.pruned.asConstant.isSome → rhs.pruned ≠ constant value := by
      intro value hl hr
      obtain ⟨left, hleft⟩ := Option.isSome_iff_exists.mp hl
      exact hnot left value (asConstant_eq_some_iff.mp hleft) hr
    constructor
    · intro _
      rw [if_neg]
      rintro ⟨-, hl, hr⟩
      exact hnone ['0'] hl hr
    · intro hcontra
      exact absurd (fun hl value hr => absurd (asConstant_eq_some_iff.mp hr) (hnone value hl))
        hcontra

/-- `Operator.Simplify` on simplified operands. -/
theorem simplifyOperator_settles (op : BinOp) {lhs rhs : Expr} (hl : lhs.simplify = .ok lhs.pruned)
    (hr : rhs.simplify = .ok rhs.pruned) :
    Settles (simplifyOperator op lhs rhs lhs.pruned rhs.pruned)
      (¬ (lhs.foldedConstant.isSome ∧ rhs.foldedConstant.isSome) ∧
        ∀ value, op = .mul → rhs.foldedConstant = some value → value = ['0'] ∨ rhs = constant value)
      (operator op lhs rhs).pruned := by
  rw [← asConstant_pruned, ← asConstant_pruned]
  constructor
  · rintro ⟨hpair, hfactor⟩
    rw [pruned, ← asLeaf_pruned rhs]
    apply simplifyOperator_of_folds hl hr hpair
    intro value hop hvalue
    exact hfactor value hop (asConstant_eq_some_iff.mpr hvalue)
  · intro hnot
    by_cases hpair : lhs.pruned.asConstant.isSome ∧ rhs.pruned.asConstant.isSome
    · exact ⟨_, simplifyOperator_of_constants hpair⟩
    · simp only [hpair, not_false_eq_true, true_and, not_forall, not_or] at hnot
      obtain ⟨value, rfl, hvalue, hzero, hself⟩ := hnot
      have hlnone : lhs.pruned.asConstant = none := by
        by_contra hne
        exact hpair ⟨Option.isSome_iff_ne_none.mpr hne, Option.isSome_of_eq_some hvalue⟩
      rw [asConstant_eq_some_iff] at hvalue
      rw [hvalue] at hr ⊢
      exact ⟨_, simplifyOperator_of_factor hr hlnone hzero hself⟩

/-- An expression simplifies, to what the rules leave of it, or else one of the
shapes that raise is in it. -/
theorem simplify_spec (e : Expr) : Settles e.simplify e.NoConstantPair e.pruned := by
  induction e with
  | operator op lhs rhs ihl ihr =>
    rw [simplify, NoConstantPair]
    exact ihl.bind fun hl => ihr.bind fun hr =>
      simplifyOperator_settles op (ihl.returns hl) (ihr.returns hr)
  | select true_val cond false_val iht ihc ihf =>
    rw [simplify, ← simplifySelect_pruned]
    -- the condition is simplified first
    exact (ihc.bind fun _ => iht.bind fun _ => ihf.map).congr and_left_comm
  | function1 fn lhs ih =>
    rw [simplify]
    exact ih.map
  | function2 fn lhs rhs ihl ihr =>
    rw [simplify, NoConstantPair]
    exact ihl.bind fun _ => ihr.bind fun _ => simplifyFunction2_settles fn lhs rhs
  | event name => exact Settles.ok _
  | constant value => exact Settles.ok _
  | literal value => exact Settles.ok _

theorem noConstantPair_of_simplify {e e' : Expr} (h : e.simplify = .ok e') :
    e.NoConstantPair := by
  by_contra hpair
  obtain ⟨err, herr⟩ := e.simplify_spec.fails hpair
  rw [h] at herr
  cases herr

/-- What an expression simplifies to is what the rules leave of it. -/
theorem eq_pruned_of_simplify {e e' : Expr} (h : e.simplify = .ok e') : e' = e.pruned := by
  rw [e.simplify_spec.returns (noConstantPair_of_simplify h)] at h
  exact (Except.ok.inj h).symm

/-- `Simplify` returns an expression exactly when no operands, arguments and
factors meet the shapes that raise. -/
theorem simplify_isOk_iff (e : Expr) :
    (∃ e', e.simplify = .ok e') ↔ e.NoConstantPair := by
  constructor
  · rintro ⟨e', hok⟩
    exact noConstantPair_of_simplify hok
  · intro hpair
    exact ⟨e.pruned, e.simplify_spec.returns hpair⟩

/-- A call of two constants. -/
def minOneTwo : Expr := function2 .min (constant ['1']) (constant ['2'])

/-- The call is what the decoder makes of its text, and it raises. -/
theorem simplify_minOneTwo :
    parsePerfJson ⟨.finite, fun _ _ _ => none⟩ "min(1, 2)".toList = some minOneTwo ∧
      minOneTwo.simplify = .error .valueError :=
  ⟨by decide +kernel, rfl⟩

end Expr

end PmuEvents.Metric
