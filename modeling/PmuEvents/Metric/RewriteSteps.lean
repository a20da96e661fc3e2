import PmuEvents.Foundation.Halting
import PmuEvents.Metric.Rewrite
import Mathlib.Computability.StateTransition
set_option autoImplicit false

/-!
# `RewriteMetricsInTermsOfOthers` step by step

The three nested loops as a step function, without fuel: one step takes the next outer
metric, substitutes one inner metric, or ends a pass.  Every step lowers a measure:
a substitution keeps the expression or leaves it with fewer nodes, and a pass that
ends on an expression that is no reference yet makes it one.  The main result: every
run ends, with the updates that the loops on fuel give.
-/

namespace PmuEvents.Metric

open PmuEvents.Foundation StateTransition

/-- A point in the run of `RewriteMetricsInTermsOfOthers`. -/
inductive RewriteState where
  /-- the head of the loop over the outer metrics -/
  | outers (outers : List MetricEntry) (updates : Updates)
  /-- the head of the loop over the inner metrics, for one outer metric -/
  | inners (outer : MetricEntry) (outers inners : List MetricEntry) (updated : Expr)
    (updates : Updates)

namespace RewriteState

/-- The expression is one of the two that end the `while` loop. -/
def isReference (outer : MetricEntry) (updates : Updates) (updated : Expr) : Bool :=
  updated.equals outer.expr || (updates.lookup outer.key).any updated.equals

/-- One step; none once all the outer metrics are done. -/
def step (lower : Text → Text) (metrics : List MetricEntry) :
    RewriteState → Option RewriteState
  | outers [] _ => none
  | outers (outer :: rest) updates => some (inners outer rest metrics outer.expr updates)
  | inners outer rest (inner :: others) updated updates =>
    some (inners outer rest others (substituteOther lower outer updates updated inner) updates)
  | inners outer rest [] updated updates =>
    if updated.equals outer.expr then some (outers rest updates)
    else if (updates.lookup outer.key).any updated.equals then some (outers rest updates)
    else some (inners outer rest metrics updated (updates.insert outer.key updated))

/-- The outer metrics that are not done, twice the nodes of the expression and one
more where it is no reference, and the inner metrics left in the pass. -/
def measure : RewriteState → ℕ × ℕ × ℕ
  | outers rest _ => (2 * rest.length, 0, 0)
  | inners outer rest others updated updates =>
    (2 * rest.length + 1,
      2 * updated.nodes.length + (if isReference outer updates updated then 0 else 1),
      others.length)

section Steps

variable (lower : Text → Text) (metrics : List MetricEntry)

theorem isReference_insert (outer : MetricEntry) (updates : Updates) (updated : Expr) :
    isReference outer (updates.insert outer.key updated) updated = true := by
  rw [isReference, AList.lookup_insert, Option.any_some, (Expr.equals_iff _ _).mpr rfl,
    Bool.or_true]

/-- A substitution leaves what counts for the expression, or lowers it. -/
theorem measure_substituteOther (outer : MetricEntry) (updates : Updates) (updated : Expr)
    (inner : MetricEntry) :
    substituteOther lower outer updates updated inner = updated ∨
      2 * (substituteOther lower outer updates updated inner).nodes.length +
          (if isReference outer updates (substituteOther lower outer updates updated inner) then 0
            else 1) <
        2 * updated.nodes.length + (if isReference outer updates updated then 0 else 1) := by
  apply (substituteOther_eq_or_lt lower outer updates updated inner).imp_right
  intro hless
  split_ifs <;> omega

/-- Every step lowers the measure. -/
theorem measure_step {s next : RewriteState} (h : step lower metrics s = some next) :
    Prod.Lex (· < ·) (Prod.Lex (· < ·) (· < ·)) next.measure s.measure := by
  cases s with
  | outers rest updates =>
    cases rest with
    | nil => cases h
    | cons outer rest =>
      obtain rfl := Option.some.inj h
      apply Prod.Lex.left
      simp only [List.length_cons]
      omega
  | inners outer rest others updated updates =>
    cases others with
    | cons inner others =>
      obtain rfl := Option.some.inj h
      apply Prod.Lex.right
      rcases measure_substituteOther lower outer updates updated inner with hsame | hless
      · rw [hsame]
        exact .right _ (Nat.lt_succ_self _)
      · exact .left _ _ hless
    | nil =>
      rw [step] at h
      split at h
      · obtain rfl := Option.some.inj h
        exact .left _ _ (Nat.lt_succ_self _)
      · rename_i houter
        split at h
        · obtain rfl := Option.some.inj h
          exact .left _ _ (Nat.lt_succ_self _)
        · -- the expression becomes a reference for the next pass
          rename_i hupdate
          obtain rfl := Option.some.inj h
          apply Prod.Lex.right
          apply Prod.Lex.left
          have hnot : isReference outer updates updated = false := by
            rw [isReference, Bool.or_eq_false_iff]
            exact ⟨Bool.eq_false_iff.mpr houter, Bool.eq_false_iff.mpr hupdate⟩
          rw [isReference_insert, hnot]
          exact Nat.lt_succ_self _

/-- No run goes on for ever, whatever state it starts from. -/
theorem terminates_step : Terminates (step lower metrics) :=
  .of_measure (WellFounded.prod_lex Nat.lt_wfRel.wf
    (WellFounded.prod_lex Nat.lt_wfRel.wf Nat.lt_wfRel.wf)) measure
    fun _ _ => measure_step lower metrics

/-! ## The runs and the loops on fuel -/

/-- The steps of one pass over inner metrics. -/
theorem reaches_inners (outer : MetricEntry) (rest others : List MetricEntry) (updated : Expr)
    (updates : Updates) :
    Reaches (step lower metrics) (inners outer rest others updated updates)
      (inners outer rest [] (substituteOthers lower others outer updates updated) updates) := by
  induction others generalizing updated with
  | nil => exact .refl
  | cons inner others ih =>
    exact .head rfl (ih (substituteOther lower outer updates updated inner))

/-- The steps of the `while` loop. -/
theorem reaches_rewriteLoop {outer : MetricEntry} {rest : List MetricEntry} {fuel : ℕ}
    {updated : Expr} {updates result : Updates}
    (h : rewriteLoop lower metrics outer fuel updated updates = some result) :
    Reaches (step lower metrics) (inners outer rest metrics updated updates)
      (outers rest result) := by
  induction fuel generalizing updated updates with
  | zero => cases h
  | succ fuel ih =>
    apply (reaches_inners lower metrics outer rest metrics updated updates).trans
    unfold rewriteLoop at h
    simp only at h
    split at h
    · rename_i houter
      rw [← Option.some.inj h]
      exact .single (if_pos houter)
    · rename_i houter
      split at h
      · rename_i hupdate
        rw [← Option.some.inj h]
        exact .single ((if_neg houter).trans (if_pos hupdate))
      · rename_i hupdate
        exact .head ((if_neg houter).trans (if_neg hupdate)) (ih h)

theorem reaches_rewriteOuters {rest : List MetricEntry} {updates result : Updates}
    (h : rewriteOuters lower metrics rest updates = some result) :
    Reaches (step lower metrics) (outers rest updates) (outers [] result) := by
  induction rest generalizing updates with
  | nil => exact Option.some.inj h ▸ .refl
  | cons outer rest ih =>
    obtain ⟨mid, hmid, hrest⟩ := Option.bind_eq_some_iff.mp h
    have hloop : Reaches (step lower metrics) (outers (outer :: rest) updates)
        (outers rest mid) := .head rfl (reaches_rewriteLoop lower metrics hmid)
    exact hloop.trans (ih hrest)

/-- The rewriting of any list of metrics ends: no run goes on for ever, and the run
from the start reaches the end of the outer loop, with the updates of the loops on fuel. -/
theorem rewriting_ends :
    (∀ run : ℕ → RewriteState, ∃ n, step lower metrics (run n) ≠ some (run (n + 1))) ∧
      ∃ updates, rewriteMetricsInTermsOfOthers lower metrics = some updates ∧
        Reaches (step lower metrics) (outers metrics ∅) (outers [] updates) := by
  obtain ⟨updates, hupdates⟩ :=
    Option.isSome_iff_exists.mp (rewriteMetricsInTermsOfOthers_isSome lower metrics)
  exact ⟨(terminates_step lower metrics).exists_stop, updates, hupdates,
    reaches_rewriteOuters lower metrics hupdates⟩

end Steps

end RewriteState

end PmuEvents.Metric
