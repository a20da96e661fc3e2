import PmuEvents.Metric.Value
set_option autoImplicit false

/-!
# Simplifying twice

A simplified expression simplifies to itself where the rules for a constant on the
left found every left operand that folds to zero or one.  They look for it before the
operand is simplified, so one that only becomes a constant is left for a second pass.
The main result: the expressions for which one pass is enough.
-/

namespace PmuEvents.Metric

open PmuEvents.Foundation

namespace Expr

/-- The rules for a constant on the left of an operator fit the leaves that the
operands fold to. -/
def LhsRuleFits (op : BinOp) (lhs rhs : Option Expr) : Prop :=
  ((op = .add ∨ op = .or) ∧ lhs = some (constant ['0'])) ∨
    (op = .mul ∧ lhs = some (constant ['0']) ∧ ¬ rhs.any isSlots) ∨
      (op = .mul ∧ lhs = some (constant ['1']))

/-- At no operator that is left do the rules for a constant on the left fit.  The parts
that the rules drop do not count. -/
def SimplifiesOnce : Expr → Prop
  | operator op lhs rhs =>
    match remains op lhs rhs rhs.folded with
    | .lhs => lhs.SimplifiesOnce
    | .rhs => rhs.SimplifiesOnce
    | .zero => True
    | .operator =>
      lhs.SimplifiesOnce ∧ rhs.SimplifiesOnce ∧ ¬ LhsRuleFits op lhs.folded rhs.folded
  | select true_val cond false_val =>
    match cond.foldedConstant with
    | some value => if value = ['0'] then false_val.SimplifiesOnce else true_val.SimplifiesOnce
    | none =>
      if true_val.pruned = false_val.pruned then true_val.SimplifiesOnce
      else true_val.SimplifiesOnce ∧ cond.SimplifiesOnce ∧ false_val.SimplifiesOnce
  | function1 _ lhs => lhs.SimplifiesOnce
  | function2 _ lhs rhs => lhs.SimplifiesOnce ∧ rhs.SimplifiesOnce
  | _ => True

/-- An expression that simplifies to itself. -/
def Simplified (e : Expr) : Prop := e.simplify = .ok e

/-! ## Expressions that simplify to themselves -/

theorem OperatorRule.nodes_le {op : BinOp} {lhs rhs e : Expr} (h : OperatorRule op lhs rhs e) :
    e = operator op lhs rhs ∨ e.nodes.length ≤ lhs.nodes.length + rhs.nodes.length := by
  cases h with
  | keep => exact .inl rfl
  | zero => exact .inr (Nat.zero_le _)
  | dropLhs => exact .inr (Nat.le_add_left _ _)
  | dropRhs => exact .inr (Nat.le_add_right _ _)
  | oneLhs => exact .inr (Nat.le_add_left _ _)
  | oneRhs => exact .inr (Nat.le_add_right _ _)

theorem nodes_simplifySelect (true_val cond false_val : Expr) :
    simplifySelect true_val cond false_val = select true_val cond false_val ∨
      (simplifySelect true_val cond false_val).nodes.length ≤
        true_val.nodes.length + false_val.nodes.length := by
  unfold simplifySelect
  split
  · split
    · exact .inr (Nat.le_add_left _ _)
    · exact .inr (Nat.le_add_right _ _)
  · split
    · exact .inr (Nat.le_add_right _ _)
    · exact .inl rfl

theorem nodes_simplifyFunction2 {fn : Fn2} {lhs rhs e : Expr}
    (h : simplifyFunction2 fn lhs rhs = .ok e) :
    e = function2 fn lhs rhs ∨ e.nodes.length = 0 := by
  unfold simplifyFunction2 at h
  split at h
  · split at h
    · obtain rfl := Except.ok.inj h
      exact .inr rfl
    · cases h
  · exact .inl (Except.ok.inj h).symm

/-- Simplification adds no nodes. -/
theorem nodes_simplify_le {e e' : Expr} (h : e.simplify = .ok e') :
    e'.nodes.length ≤ e.nodes.length := by
  induction e generalizing e' with
  | operator op lhs rhs ihl ihr =>
    obtain ⟨lhs', rhs', hl, hr, hstep⟩ := simplify_operator_eq_ok.mp h
    have hlen := ihl hl
    have hlen' := ihr hr
    rcases (operatorRule_of_simplifyOperator hr hstep).nodes_le with rfl | hle
    · simp only [nodes, List.length_cons, List.length_append]
      omega
    · simp only [nodes, List.length_cons, List.length_append]
      omega
  | select true_val cond false_val iht ihc ihf =>
    obtain ⟨cond', true_val', false_val', hc, ht, hf, rfl⟩ := simplify_select_eq_ok.mp h
    have hlent := iht ht
    have hlenc := ihc hc
    have hlenf := ihf hf
    rcases nodes_simplifySelect true_val' cond' false_val' with heq | hle
    · simp only [heq, nodes, List.length_cons, List.length_append]
      omega
    · simp only [nodes, List.length_cons, List.length_append]
      omega
  | function1 fn lhs ih =>
    obtain ⟨lhs', hl, rfl⟩ := simplify_function1_eq_ok.mp h
    exact Nat.succ_le_succ (ih hl)
  | function2 fn lhs rhs ihl ihr =>
    obtain ⟨lhs', rhs', hl, hr, hstep⟩ := simplify_function2_eq_ok.mp h
    have hlen := ihl hl
    have hlen' := ihr hr
    rcases nodes_simplifyFunction2 hstep with rfl | hzero
    · simp only [nodes, List.length_cons, List.length_append]
      omega
    · omega
  | event name =>
    obtain rfl := Except.ok.inj h
    exact Nat.le_refl _
  | constant value =>
    obtain rfl := Except.ok.inj h
    exact Nat.le_refl _
  | literal value =>
    obtain rfl := Except.ok.inj h
    exact Nat.le_refl _

/-- An operator simplifies to itself when its operands do and no rule fits. -/
theorem simplified_operator {op : BinOp} {lhs rhs : Expr} :
    (operator op lhs rhs).Simplified ↔ lhs.Simplified ∧ rhs.Simplified ∧
      simplifyOperator op lhs rhs lhs rhs = .ok (operator op lhs rhs) := by
  constructor
  · intro h
    obtain ⟨lhs', rhs', hl, hr, hstep⟩ := simplify_operator_eq_ok.mp h
    have hlen := nodes_simplify_le hl
    have hlen' := nodes_simplify_le hr
    rcases (operatorRule_of_simplifyOperator hr hstep).nodes_le with heq | hle
    · cases heq
      exact ⟨hl, hr, hstep⟩
    · simp only [nodes, List.length_cons, List.length_append] at hle
      omega
  · rintro ⟨hl, hr, hstep⟩
    exact simplify_operator_eq_ok.mpr ⟨lhs, rhs, hl, hr, hstep⟩

theorem simplified_select {true_val cond false_val : Expr} :
    (select true_val cond false_val).Simplified ↔
      true_val.Simplified ∧ cond.Simplified ∧ false_val.Simplified ∧
        simplifySelect true_val cond false_val = select true_val cond false_val := by
  constructor
  · intro h
    obtain ⟨cond', true_val', false_val', hc, ht, hf, hstep⟩ := simplify_select_eq_ok.mp h
    have hlent := nodes_simplify_le ht
    have hlenf := nodes_simplify_le hf
    rcases nodes_simplifySelect true_val' cond' false_val' with heq | hle
    · have hsame := hstep.symm.trans heq
      cases hsame
      exact ⟨ht, hc, hf, hstep⟩
    · rw [hstep] at hle
      simp only [nodes, List.length_cons, List.length_append] at hle
      omega
  · rintro ⟨ht, hc, hf, hstep⟩
    exact simplify_select_eq_ok.mpr ⟨cond, true_val, false_val, hc, ht, hf, hstep⟩

theorem simplified_function1 {fn : Fn1} {lhs : Expr} :
    (function1 fn lhs).Simplified ↔ lhs.Simplified := by
  constructor
  · intro h
    obtain ⟨lhs', hl, heq⟩ := simplify_function1_eq_ok.mp h
    cases heq
    exact hl
  · intro hl
    exact simplify_function1_eq_ok.mpr ⟨lhs, hl, rfl⟩

theorem simplified_function2 {fn : Fn2} {lhs rhs : Expr} :
    (function2 fn lhs rhs).Simplified ↔ lhs.Simplified ∧ rhs.Simplified ∧
      simplifyFunction2 fn lhs rhs = .ok (function2 fn lhs rhs) := by
  constructor
  · intro h
    obtain ⟨lhs', rhs', hl, hr, hstep⟩ := simplify_function2_eq_ok.mp h
    rcases nodes_simplifyFunction2 hstep with heq | hzero
    · cases heq
      exact ⟨hl, hr, hstep⟩
    · cases hzero
  · rintro ⟨hl, hr, hstep⟩
    exact simplify_function2_eq_ok.mpr ⟨lhs, rhs, hl, hr, hstep⟩

/-! ## What one pass leaves -/

theorem remains_eq_operator_iff {op : BinOp} {self_lhs self_rhs : Expr} {rhs : Option Expr} :
    remains op self_lhs self_rhs rhs = .operator ↔
      ¬ LhsRuleFits op (some self_lhs) rhs ∧
        ¬ ((op = .add ∨ op = .or) ∧ rhs = some (constant ['0'])) ∧
          ¬ (op = .mul ∧ (rhs = some (constant ['0']) ∨ self_rhs = constant ['1'])) := by
  unfold remains LhsRuleFits
  split_ifs <;> simp_all

/-- An operator is left as it is when its operands are not the operator itself. -/
theorem expr_eq_operator_iff {op : BinOp} {lhs rhs : Expr} {left : Remains} :
    left.expr op lhs rhs = operator op lhs rhs ↔ left = .operator := by
  cases left with
  | operator => exact iff_of_true rfl rfl
  | zero =>
    constructor
    · intro h
      cases h
    · intro h
      cases h
  | lhs =>
    refine iff_of_false (fun h => ?_) (by intro h; cases h)
    have hlen := congrArg (fun e => e.nodes.length) h
    simp only [Remains.expr, nodes, List.length_cons, List.length_append] at hlen
    omega
  | rhs =>
    refine iff_of_false (fun h => ?_) (by intro h; cases h)
    have hlen := congrArg (fun e => e.nodes.length) h
    simp only [Remains.expr, nodes, List.length_cons, List.length_append] at hlen
    omega

theorem lhsRuleFits_pruned (op : BinOp) (lhs : Expr) (rhs : Option Expr) :
    LhsRuleFits op (some lhs.pruned) rhs ↔ LhsRuleFits op lhs.folded rhs := by
  simp only [LhsRuleFits, Option.some.injEq, ← asLeaf_pruned lhs, asLeaf_eq_some_constant_iff]

/-- Once both operands are simplified, an operator that was left is found to be
simplified exactly when no rule for a constant on the left fits. -/
theorem simplifyOperator_pruned {op : BinOp} {lhs rhs : Expr}
    (h : (operator op lhs rhs).NoConstantPair)
    (hleft : remains op lhs rhs rhs.folded = .operator)
    (hl : lhs.pruned.Simplified) (hr : rhs.pruned.Simplified) :
    simplifyOperator op lhs.pruned rhs.pruned lhs.pruned rhs.pruned =
        .ok (operator op lhs.pruned rhs.pruned) ↔
      ¬ LhsRuleFits op lhs.folded rhs.folded := by
  obtain ⟨-, -, hpair, hfactor⟩ := h
  rw [← asConstant_pruned, ← asConstant_pruned] at hpair
  obtain ⟨-, hadd, hmul⟩ := remains_eq_operator_iff.mp hleft
  have hone : ¬ (op = .mul ∧ (rhs.folded = some (constant ['0']) ∨
      rhs.pruned = constant ['1'])) := by
    rintro ⟨hop, hzero | hone⟩
    · exact hmul ⟨hop, .inl hzero⟩
    · rcases hfactor ['1'] hop (pruned_eq_constant.mp hone) with hnot | hself
      · cases hnot
      · exact hmul ⟨hop, .inr hself⟩
  rw [simplifyOperator_of_folds hl hr hpair (fun _ _ hvalue => .inr hvalue), Except.ok.injEq,
    expr_eq_operator_iff, asLeaf_pruned, remains_eq_operator_iff, lhsRuleFits_pruned]
  exact and_iff_left ⟨hadd, hone⟩

theorem simplifySelect_of_ne {true_val cond false_val : Expr}
    (hcond : cond.pruned.asConstant = none) (hne : true_val.pruned ≠ false_val.pruned) :
    simplifySelect true_val.pruned cond.pruned false_val.pruned =
      select true_val.pruned cond.pruned false_val.pruned := by
  rw [asConstant_pruned] at hcond
  rw [simplifySelect_pruned, pruned, hcond]
  exact if_neg hne

/-- A second pass leaves what the first one did exactly when one pass was enough. -/
theorem simplified_pruned_iff {e : Expr} (h : e.NoConstantPair) :
    e.pruned.Simplified ↔ e.SimplifiesOnce := by
  induction e with
  | operator op lhs rhs ihl ihr =>
    have hl := ihl h.1
    have hr := ihr h.2.1
    rw [pruned, SimplifiesOnce]
    cases hleft : remains op lhs rhs rhs.folded with
    | lhs => exact hl
    | rhs => exact hr
    | zero => exact iff_of_true rfl trivial
    | operator =>
      rw [Remains.expr, simplified_operator, ← hl, ← hr]
      apply and_congr_right
      intro hls
      apply and_congr_right
      intro hrs
      exact simplifyOperator_pruned h hleft hls hrs
  | select true_val cond false_val iht ihc ihf =>
    obtain ⟨ht, hc, hf⟩ := h
    rw [pruned, SimplifiesOnce]
    cases hcond : cond.foldedConstant with
    | some value =>
      simp only
      split
      · exact ihf hf
      · exact iht ht
    | none =>
      simp only
      split
      · exact iht ht
      · rename_i hne
        rw [← asConstant_pruned] at hcond
        rw [simplified_select, iht ht, ihc hc, ihf hf]
        simp only [simplifySelect_of_ne hcond hne, and_true]
  | function1 fn lhs ih =>
    rw [pruned, SimplifiesOnce, simplified_function1]
    exact ih h
  | function2 fn lhs rhs ihl ihr =>
    rw [SimplifiesOnce, ← ihl h.1, ← ihr h.2.1]
    have hcall := (simplifyFunction2_settles fn lhs rhs).returns h.2.2
    rw [pruned] at hcall ⊢
    split
    · rename_i hzero
      obtain ⟨value, hvalue⟩ := Option.isSome_iff_exists.mp hzero.2.1
      rw [pruned_eq_constant.mpr hvalue,
        asLeaf_eq_some_constant_iff.mp ((asLeaf_pruned rhs).trans hzero.2.2)]
      exact iff_of_true rfl ⟨rfl, rfl⟩
    · rename_i hzero
      rw [if_neg hzero] at hcall
      rw [simplified_function2]
      exact and_congr_right fun _ => and_iff_left hcall
  | event name => exact iff_of_true rfl trivial
  | constant value => exact iff_of_true rfl trivial
  | literal value => exact iff_of_true rfl trivial

/-- The simplified expression simplifies, to an expression equal to it, exactly when
no operator that is left has a left operand that folded to zero or one unnoticed. -/
theorem simplify_twice_iff {e e' : Expr} (h : e.simplify = .ok e') :
    (∃ e'', e'.simplify = .ok e'' ∧ e''.equals e' = true) ↔ e.SimplifiesOnce := by
  rw [← simplified_pruned_iff (noConstantPair_of_simplify h), ← eq_pruned_of_simplify h]
  constructor
  · rintro ⟨e'', hok, heq⟩
    obtain rfl := (equals_iff e'' e').mp heq
    exact hok
  · intro hok
    exact ⟨e', hok, (equals_iff e' e').mpr rfl⟩

/-- `A * 1 + B`. -/
def timesOne : Expr :=
  operator .add (operator .mul (event ['A']) (constant ['1'])) (event ['B'])

/-- One pass drops the factor and leaves nothing for a second. -/
theorem simplify_twice_timesOne :
    ∃ e'', (operator .add (event ['A']) (event ['B'])).simplify = .ok e'' ∧
      e''.equals (operator .add (event ['A']) (event ['B'])) = true := by
  have hok : timesOne.simplify = .ok (operator .add (event ['A']) (event ['B'])) := by
    simp [timesOne, simplify, simplifyOperator, lhsRule, rhsRule, valueAttr, bind, Except.bind]
  have honce : timesOne.SimplifiesOnce := by
    simp [timesOne, SimplifiesOnce, remains, folded, foldOperator, LhsRuleFits]
  exact (simplify_twice_iff hok).mpr honce

/-- `A * 0 + B`. -/
def timesZero : Expr :=
  operator .add (operator .mul (event ['A']) (constant ['0'])) (event ['B'])

/-- The first pass leaves `0 + B`, the second one `B`. -/
theorem simplify_twice_timesZero :
    timesZero.simplify = .ok (operator .add (constant ['0']) (event ['B'])) ∧
      (operator .add (constant ['0']) (event ['B'])).simplify = .ok (event ['B']) ∧
        ¬ ∃ e'', (operator .add (constant ['0']) (event ['B'])).simplify = .ok e'' ∧
          e''.equals (operator .add (constant ['0']) (event ['B'])) = true := by
  have hfirst : timesZero.simplify = .ok (operator .add (constant ['0']) (event ['B'])) := by
    simp [timesZero, simplify, simplifyOperator, lhsRule, rhsRule, mkConstant_zero, bind,
      Except.bind]
  have hsecond : (operator .add (constant ['0']) (event ['B'])).simplify = .ok (event ['B']) := by
    simp [simplify, simplifyOperator, lhsRule, constantLhsRule, bind, Except.bind]
  refine ⟨hfirst, hsecond, ?_⟩
  rintro ⟨e'', hok, heq⟩
  rw [hsecond] at hok
  obtain rfl := Except.ok.inj hok
  cases heq

end Expr

end PmuEvents.Metric
