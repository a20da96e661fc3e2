import PmuEvents.Metric.Simplify
import Mathlib.Data.Int.Bitwise
import Mathlib.Data.Rat.Floor
set_option autoImplicit false

/-!
# The value of a metric expression

Expressions over rational numbers, for given values of events and literals and a
given meaning of the functions of one argument.  The main result: an expression
that simplifies keeps its value.
-/

namespace PmuEvents.Metric

open PmuEvents.Foundation

/-- Values for the events and literals, and what the functions of one argument do. -/
structure Interp where
  event : Text → ℚ
  literal : Text → ℚ
  function1 : Fn1 → ℚ → Option ℚ

/-- A bitwise operation, on integers only. -/
def bitwise (f : Int → Int → Int) (x y : ℚ) : Option ℚ :=
  if x.isInt ∧ y.isInt then some (f x.num y.num) else none

/-- The binary operators; division and modulo by zero are undefined. -/
def BinOp.apply : BinOp → ℚ → ℚ → Option ℚ
  | .or, x, y => bitwise Int.lor x y
  | .xor, x, y => bitwise Int.xor x y
  | .and, x, y => bitwise Int.land x y
  | .lt, x, y => some (if x < y then 1 else 0)
  | .gt, x, y => some (if y < x then 1 else 0)
  | .add, x, y => some (x + y)
  | .sub, x, y => some (x - y)
  | .mul, x, y => some (x * y)
  | .div, x, y => if y = 0 then none else some (x / y)
  | .mod, x, y => if y = 0 then none else some (x - y * ⌊x / y⌋)

/-- The functions of two arguments. -/
def Fn2.apply : Fn2 → ℚ → ℚ → ℚ
  | .min, x, y => x ⊓ y
  | .max, x, y => x ⊔ y
  | .d_ratio, x, y => if y = 0 then 0 else x / y

namespace Expr

/-- The value of an expression; a select has the value of the branch it takes. -/
def value (I : Interp) : Expr → Option ℚ
  | operator op lhs rhs => do op.apply (← lhs.value I) (← rhs.value I)
  | select true_val cond false_val => do
    if (← cond.value I) = 0 then false_val.value I else true_val.value I
  | function1 fn lhs => do I.function1 fn (← lhs.value I)
  | function2 fn lhs rhs => do return fn.apply (← lhs.value I) (← rhs.value I)
  | event name => some (I.event name)
  | constant value => constantValue value
  | literal value => some (I.literal value)

/-- The texts of the constants of an expression. -/
def constants : Expr → List Text
  | operator _ lhs rhs => lhs.constants ++ rhs.constants
  | select true_val cond false_val =>
    true_val.constants ++ cond.constants ++ false_val.constants
  | function1 _ lhs => lhs.constants
  | function2 _ lhs rhs => lhs.constants ++ rhs.constants
  | constant value => [value]
  | _ => []

/-- Every constant was made by the constructor, from a number other than -0.0. -/
def ConstantsMade (e : Expr) : Prop :=
  ∀ text ∈ e.constants, ∃ value : PyNumber, text = constantText value ∧ ¬ value.IsNegZero

/-- Every constant that denotes zero is spelled `0`. -/
def ZeroSpelled (e : Expr) : Prop :=
  ∀ text ∈ e.constants, constantValue text = some 0 → text = ['0']

theorem ConstantsMade.zeroSpelled {e : Expr} (h : e.ConstantsMade) : e.ZeroSpelled := by
  intro text hmem hzero
  obtain ⟨value, rfl, hvalue⟩ := h text hmem
  exact constantText_of_value_zero hvalue hzero

theorem zeroSpelled_append {e lhs rhs : Expr} (he : e.constants = lhs.constants ++ rhs.constants) :
    e.ZeroSpelled ↔ lhs.ZeroSpelled ∧ rhs.ZeroSpelled := by
  simp only [ZeroSpelled, he, List.forall_mem_append]

theorem zeroSpelled_zero : (constant ['0']).ZeroSpelled := by
  intro text hmem _
  exact List.mem_singleton.mp hmem

theorem constantValue_zero : constantValue ['0'] = some 0 := by
  have hread : readDecimal ['0'] = some ⟨false, 0, 0⟩ := rfl
  simp [constantValue, hread, Decimal.value]

theorem constantValue_one : constantValue ['1'] = some 1 := by
  have hread : readDecimal ['1'] = some ⟨false, 1, 0⟩ := rfl
  simp [constantValue, hread, Decimal.value]

/-! ## The rules keep values -/

theorem ldiff_zero (n : Nat) : Nat.ldiff n 0 = n := by
  apply Nat.eq_of_testBit_eq
  intro i
  simp [Nat.testBit_ldiff]

theorem lor_zero_left (n : Int) : Int.lor 0 n = n := by
  cases n with
  | ofNat n => exact congrArg Int.ofNat (Nat.zero_or n)
  | negSucc n => exact congrArg Int.negSucc (ldiff_zero n)

theorem lor_zero_right (n : Int) : Int.lor n 0 = n := by
  cases n with
  | ofNat n => exact congrArg Int.ofNat (Nat.or_zero n)
  | negSucc n => exact congrArg Int.negSucc (ldiff_zero n)

/-- Zero is neutral on the left of `+` and `|` where these are defined. -/
theorem apply_zero_left {op : BinOp} (hop : op = .add ∨ op = .or) {y v : ℚ}
    (h : op.apply 0 y = some v) : y = v := by
  rcases hop with rfl | rfl
  · simpa [BinOp.apply] using h
  · rw [BinOp.apply, bitwise] at h
    split at h
    · rename_i hint
      rw [Rat.num_zero, lor_zero_left, Option.some.injEq] at h
      rw [← h]
      exact Rat.eq_num_of_isInt hint.2
    · cases h

/-- Zero is neutral on the right of `+` and `|` where these are defined. -/
theorem apply_zero_right {op : BinOp} (hop : op = .add ∨ op = .or) {x v : ℚ}
    (h : op.apply x 0 = some v) : x = v := by
  rcases hop with rfl | rfl
  · simpa [BinOp.apply] using h
  · rw [BinOp.apply, bitwise] at h
    split at h
    · rename_i hint
      rw [Rat.num_zero, lor_zero_right, Option.some.injEq] at h
      rw [← h]
      exact Rat.eq_num_of_isInt hint.1
    · cases h

/-- The result of a rule has the value of the operator. -/
theorem OperatorRule.value_eq {I : Interp} {op : BinOp} {lhs rhs e : Expr} {x y v : ℚ}
    (h : OperatorRule op lhs rhs e) (hl : lhs.value I = some x) (hr : rhs.value I = some y)
    (hv : op.apply x y = some v) : e.value I = some v := by
  cases h with
  | dropLhs hop hlhs =>
    rw [hlhs, value, constantValue_zero] at hl
    obtain rfl := Option.some.inj hl
    rw [hr, apply_zero_left hop hv]
  | dropRhs hop hrhs =>
    rw [hrhs, value, constantValue_zero] at hr
    obtain rfl := Option.some.inj hr
    rw [hl, apply_zero_right hop hv]
  | zero hop hzero =>
    have hprod : x * y = v := by simpa [hop, BinOp.apply] using hv
    rw [value, constantValue_zero, ← hprod]
    rcases hzero with hlhs | hrhs
    · rw [hlhs, value, constantValue_zero] at hl
      rw [← Option.some.inj hl, zero_mul]
    · rw [hrhs, value, constantValue_zero] at hr
      rw [← Option.some.inj hr, mul_zero]
  | oneLhs hop hlhs =>
    rw [hlhs, value, constantValue_one] at hl
    obtain rfl := Option.some.inj hl
    rw [hr, ← hv, hop, BinOp.apply, one_mul]
  | oneRhs hop hrhs =>
    rw [hrhs, value, constantValue_one] at hr
    obtain rfl := Option.some.inj hr
    rw [hl, ← hv, hop, BinOp.apply, mul_one]
  | keep => simpa [value, hl, hr] using hv

/-- The result of a rule has the constants of the operands, or zero. -/
theorem OperatorRule.zeroSpelled {op : BinOp} {lhs rhs e : Expr} (h : OperatorRule op lhs rhs e)
    (hl : lhs.ZeroSpelled) (hr : rhs.ZeroSpelled) : e.ZeroSpelled := by
  cases h with
  | dropLhs => exact hr
  | dropRhs => exact hl
  | zero => exact zeroSpelled_zero
  | oneLhs => exact hr
  | oneRhs => exact hl
  | keep => exact (zeroSpelled_append rfl).mpr ⟨hl, hr⟩

/-! ## Whole expressions -/

theorem simplify_operator_eq_ok {op : BinOp} {lhs rhs e : Expr} :
    (operator op lhs rhs).simplify = .ok e ↔
      ∃ lhs' rhs', lhs.simplify = .ok lhs' ∧ rhs.simplify = .ok rhs' ∧
        simplifyOperator op lhs rhs lhs' rhs' = .ok e := by
  rw [simplify]
  cases lhs.simplify <;> cases rhs.simplify <;> simp [bind, Except.bind]

theorem simplify_select_eq_ok {true_val cond false_val e : Expr} :
    (select true_val cond false_val).simplify = .ok e ↔
      ∃ cond' true_val' false_val', cond.simplify = .ok cond' ∧
        true_val.simplify = .ok true_val' ∧ false_val.simplify = .ok false_val' ∧
        simplifySelect true_val' cond' false_val' = e := by
  rw [simplify]
  cases cond.simplify <;> cases true_val.simplify <;> cases false_val.simplify <;>
    simp [bind, Except.bind, pure, Except.pure]

theorem simplify_function1_eq_ok {fn : Fn1} {lhs e : Expr} :
    (function1 fn lhs).simplify = .ok e ↔
      ∃ lhs', lhs.simplify = .ok lhs' ∧ function1 fn lhs' = e := by
  rw [simplify]
  cases lhs.simplify <;> simp [bind, Except.bind, pure, Except.pure]

theorem simplify_function2_eq_ok {fn : Fn2} {lhs rhs e : Expr} :
    (function2 fn lhs rhs).simplify = .ok e ↔
      ∃ lhs' rhs', lhs.simplify = .ok lhs' ∧ rhs.simplify = .ok rhs' ∧
        simplifyFunction2 fn lhs' rhs' = .ok e := by
  rw [simplify]
  cases lhs.simplify <;> cases rhs.simplify <;> simp [bind, Except.bind]

/-- A select on simplified children has the value of the branch taken before. -/
theorem value_simplifySelect {I : Interp} {true_val cond false_val : Expr} {b v : ℚ}
    (hspelled : cond.ZeroSpelled) (hcond : cond.value I = some b)
    (hv : (if b = 0 then false_val.value I else true_val.value I) = some v) :
    (simplifySelect true_val cond false_val).value I = some v := by
  unfold simplifySelect
  split
  · rename_i text
    rw [value] at hcond
    by_cases htext : text = ['0']
    · rw [htext, constantValue_zero] at hcond
      rw [if_pos htext, ← hv, if_pos (Option.some.inj hcond).symm]
    · have hb : b ≠ 0 := by
        rintro rfl
        exact htext (hspelled text (List.mem_singleton_self text) hcond)
      rw [if_neg htext, ← hv, if_neg hb]
  · by_cases heq : true_val.equals false_val
    · rw [if_pos heq]
      rw [(equals_iff true_val false_val).mp heq, ite_self] at hv
      rw [(equals_iff true_val false_val).mp heq, hv]
    · rw [if_neg heq, value, hcond]
      exact hv

theorem zeroSpelled_simplifySelect {true_val cond false_val : Expr} (ht : true_val.ZeroSpelled)
    (hc : cond.ZeroSpelled) (hf : false_val.ZeroSpelled) :
    (simplifySelect true_val cond false_val).ZeroSpelled := by
  unfold simplifySelect
  split
  · split
    · exact hf
    · exact ht
  · split
    · exact ht
    · simp only [ZeroSpelled, constants, List.forall_mem_append]
      exact ⟨⟨ht, hc⟩, hf⟩

/-- A call on simplified arguments has the value of the call. -/
theorem simplifyFunction2_keeps {I : Interp} {fn : Fn2} {lhs rhs e : Expr}
    (h : simplifyFunction2 fn lhs rhs = .ok e) (hl : lhs.ZeroSpelled) (hr : rhs.ZeroSpelled) :
    e.ZeroSpelled ∧ ∀ v, (function2 fn lhs rhs).value I = some v → e.value I = some v := by
  unfold simplifyFunction2 at h
  split at h
  · split at h
    · rename_i left right hzero
      obtain ⟨rfl, rfl⟩ := hzero
      obtain rfl := Except.ok.inj h
      rw [mkConstant_zero]
      refine ⟨zeroSpelled_zero, ?_⟩
      intro v hv
      simp only [value, constantValue_zero, Option.bind_eq_bind, Option.bind_some,
        Option.bind_eq_some_iff, Option.pure_def, Option.some.injEq, Fn2.apply, if_pos] at hv
      obtain ⟨x, -, rfl⟩ := hv
      exact constantValue_zero
    · cases h
  · obtain rfl := Except.ok.inj h
    exact ⟨(zeroSpelled_append rfl).mpr ⟨hl, hr⟩, fun v hv => hv⟩

/-- Simplification keeps the spelling of zeros and the value. -/
theorem simplify_keeps (I : Interp) (e : Expr) (hspelled : e.ZeroSpelled) {e' : Expr}
    (h : e.simplify = .ok e') :
    e'.ZeroSpelled ∧ ∀ v, e.value I = some v → e'.value I = some v := by
  induction e generalizing e' with
  | operator op lhs rhs ihl ihr =>
    obtain ⟨hl, hr⟩ := (zeroSpelled_append rfl).mp hspelled
    obtain ⟨lhs', rhs', hlok, hrok, hstep⟩ := simplify_operator_eq_ok.mp h
    obtain ⟨hl', hlv⟩ := ihl hl hlok
    obtain ⟨hr', hrv⟩ := ihr hr hrok
    have hrule := operatorRule_of_simplifyOperator hrok hstep
    refine ⟨hrule.zeroSpelled hl' hr', ?_⟩
    intro v hv
    simp only [value, Option.bind_eq_bind, Option.bind_eq_some_iff] at hv
    obtain ⟨x, hx, y, hy, hv⟩ := hv
    exact hrule.value_eq (hlv x hx) (hrv y hy) hv
  | select true_val cond false_val iht ihc ihf =>
    simp only [ZeroSpelled, constants, List.forall_mem_append] at hspelled
    obtain ⟨⟨ht, hc⟩, hf⟩ := hspelled
    obtain ⟨cond', true_val', false_val', hcok, htok, hfok, rfl⟩ := simplify_select_eq_ok.mp h
    obtain ⟨hc', hcv⟩ := ihc hc hcok
    obtain ⟨ht', htv⟩ := iht ht htok
    obtain ⟨hf', hfv⟩ := ihf hf hfok
    refine ⟨zeroSpelled_simplifySelect ht' hc' hf', ?_⟩
    intro v hv
    simp only [value, Option.bind_eq_bind, Option.bind_eq_some_iff] at hv
    obtain ⟨b, hb, hv⟩ := hv
    apply value_simplifySelect hc' (hcv b hb)
    split
    · rename_i hzero
      rw [if_pos hzero] at hv
      exact hfv v hv
    · rename_i hzero
      rw [if_neg hzero] at hv
      exact htv v hv
  | function1 fn lhs ih =>
    obtain ⟨lhs', hlok, rfl⟩ := simplify_function1_eq_ok.mp h
    obtain ⟨hl', hlv⟩ := ih hspelled hlok
    refine ⟨hl', ?_⟩
    intro v hv
    simp only [value, Option.bind_eq_bind, Option.bind_eq_some_iff] at hv ⊢
    obtain ⟨x, hx, hv⟩ := hv
    exact ⟨x, hlv x hx, hv⟩
  | function2 fn lhs rhs ihl ihr =>
    obtain ⟨hl, hr⟩ := (zeroSpelled_append rfl).mp hspelled
    obtain ⟨lhs', rhs', hlok, hrok, hstep⟩ := simplify_function2_eq_ok.mp h
    obtain ⟨hl', hlv⟩ := ihl hl hlok
    obtain ⟨hr', hrv⟩ := ihr hr hrok
    obtain ⟨he', hev⟩ := simplifyFunction2_keeps (I := I) hstep hl' hr'
    refine ⟨he', ?_⟩
    intro v hv
    apply hev
    simp only [value, Option.bind_eq_bind, Option.bind_eq_some_iff] at hv ⊢
    obtain ⟨x, hx, y, hy, hv⟩ := hv
    exact ⟨x, hlv x hx, y, hrv y hy, hv⟩
  | event name =>
    obtain rfl := Except.ok.inj h
    exact ⟨hspelled, fun v hv => hv⟩
  | constant value =>
    obtain rfl := Except.ok.inj h
    exact ⟨hspelled, fun v hv => hv⟩
  | literal value =>
    obtain rfl := Except.ok.inj h
    exact ⟨hspelled, fun v hv => hv⟩

/-- Simplification preserves values: where the expression has one and its constants
were made from numbers other than -0.0, the simplified expression has the same. -/
theorem simplify_value (I : Interp) {e e' : Expr} (hconst : e.ConstantsMade)
    (h : e.simplify = .ok e') {v : ℚ} (hv : e.value I = some v) : e'.value I = some v :=
  (simplify_keeps I e hconst.zeroSpelled h).2 v hv

/-- All events and literals are 3; the functions of one argument are undefined. -/
def threes : Interp where
  event := fun _ => 3
  literal := fun _ => 3
  function1 := fun _ _ => none

/-- `(a if 0 else b + 0)`. -/
def zeroBranch : Expr :=
  select (event ['a']) (constant ['0']) (operator .add (event ['b']) (constant ['0']))

/-- The branch taken loses its zero and keeps its value. -/
theorem simplify_value_zeroBranch : (event ['b']).value threes = some 3 := by
  have hconst : zeroBranch.ConstantsMade := by
    intro text hmem
    have htext : text = ['0'] := by
      simpa [zeroBranch, constants] using hmem
    refine ⟨.ofInt 0, ?_, fun h => Bool.false_ne_true h.1⟩
    rw [htext]
    exact (constantText_zero 0).symm
  have hok : zeroBranch.simplify = .ok (event ['b']) := by
    simp [zeroBranch, simplify, simplifySelect, simplifyOperator, lhsRule, rhsRule, bind,
      Except.bind, pure, Except.pure]
  have hvalue : zeroBranch.value threes = some 3 := by
    simp [zeroBranch, value, constantValue_zero, BinOp.apply, threes]
  exact simplify_value threes hconst hok hvalue

end Expr

end PmuEvents.Metric
