import PmuEvents.Metric.Expr
import Mathlib.Data.List.AList
set_option autoImplicit false

/-!
# `RewriteMetricsInTermsOfOthers`

Every metric's expression is rewritten over and over with the current definitions
of the other metrics of its PMU, until a pass changes nothing.  The `while` loop
runs on fuel here; a pass that changes the expression leaves it with fewer nodes,
so one unit more than the nodes of the first expression is enough.
-/

namespace PmuEvents.Metric

open PmuEvents.Foundation

/-- An entry of the list of metrics: PMU, name and expression. -/
structure MetricEntry where
  pmu : Option Text
  name : Text
  expr : Expr
  deriving DecidableEq, Repr

namespace MetricEntry

/-- The PMU of an entry, `cpu` where it names none. -/
def pmuName (m : MetricEntry) : Text := m.pmu.getD "cpu".toList

/-- The key of an entry in the dictionary of updates. -/
def key (m : MetricEntry) : Text × Text := (m.pmuName, m.name)

end MetricEntry

/-- The dictionary from a pmu, metric name pair to a shortened expression. -/
abbrev Updates := AList fun _ : Text × Text => Expr

/-- The expression an entry stands for: its update where it has one. -/
def currentExpr (updates : Updates) (m : MetricEntry) : Expr :=
  (updates.lookup m.key).getD m.expr

section Loops

variable (lower : Text → Text) (metrics : List MetricEntry)

/-- The body of the `for` loop over the inner metrics. -/
def substituteOther (outer : MetricEntry) (updates : Updates) (updated : Expr)
    (inner : MetricEntry) : Expr :=
  if lower inner.pmuName ≠ lower outer.pmuName then updated
  else if lower inner.name = lower outer.name then updated
  else updated.substitute inner.name (currentExpr updates inner)

/-- The `for` loop over the inner metrics. -/
def substituteOthers (outer : MetricEntry) (updates : Updates) (updated : Expr) : Expr :=
  metrics.foldl (substituteOther lower outer updates) updated

/-- The `while` loop for one outer metric; `none` when the fuel runs out. -/
def rewriteLoop (outer : MetricEntry) : Nat → Expr → Updates → Option Updates
  | 0, _, _ => none
  | fuel + 1, updated, updates =>
    let updated' := substituteOthers lower metrics outer updates updated
    if updated'.equals outer.expr then some updates
    else if (updates.lookup outer.key).any updated'.equals then some updates
    else rewriteLoop outer fuel updated' (updates.insert outer.key updated')

/-- The `for` loop over the outer metrics. -/
def rewriteOuters : List MetricEntry → Updates → Option Updates
  | [], updates => some updates
  | outer :: outers, updates =>
    (rewriteLoop lower metrics outer (outer.expr.nodes.length + 1) outer.expr updates).bind
      (rewriteOuters outers)

/-- `RewriteMetricsInTermsOfOthers`. -/
def rewriteMetricsInTermsOfOthers : Option Updates := rewriteOuters lower metrics metrics ∅

end Loops

section Termination

variable (lower : Text → Text) (metrics : List MetricEntry)

theorem substituteOther_eq_or_lt (outer : MetricEntry) (updates : Updates) (e : Expr)
    (inner : MetricEntry) :
    substituteOther lower outer updates e inner = e ∨
      (substituteOther lower outer updates e inner).nodes.length < e.nodes.length := by
  unfold substituteOther
  split
  · exact .inl rfl
  · split
    · exact .inl rfl
    · exact (e.substitute_eq_or_lt inner.name (currentExpr updates inner)).imp
        And.right And.right

/-- A pass over the inner metrics keeps the expression or leaves it with fewer nodes. -/
theorem substituteOthers_eq_or_lt (outer : MetricEntry) (updates : Updates) (e : Expr) :
    substituteOthers lower metrics outer updates e = e ∨
      (substituteOthers lower metrics outer updates e).nodes.length < e.nodes.length := by
  unfold substituteOthers
  induction metrics generalizing e with
  | nil => exact .inl rfl
  | cons inner metrics ih =>
    rw [List.foldl_cons]
    rcases substituteOther_eq_or_lt lower outer updates e inner with hsame | hless
    · rw [hsame]
      exact ih e
    · rcases ih (substituteOther lower outer updates e inner) with hrest | hrest
      · rw [hrest]
        exact .inr hless
      · exact .inr (Nat.lt_trans hrest hless)

/-- The loop ends within its fuel, from the outer expression as from any update of it. -/
theorem rewriteLoop_isSome {outer : MetricEntry} {fuel : Nat} {e : Expr} {updates : Updates}
    (he : e = outer.expr ∨ updates.lookup outer.key = some e)
    (hfuel : e.nodes.length < fuel) :
    (rewriteLoop lower metrics outer fuel e updates).isSome := by
  induction fuel generalizing e updates with
  | zero => exact absurd hfuel (Nat.not_lt_zero _)
  | succ fuel ih =>
    unfold rewriteLoop
    simp only
    split
    · rfl
    · rename_i houter
      split
      · rfl
      · rename_i hupdate
        refine ih (.inr (AList.lookup_insert _)) ?_
        rcases substituteOthers_eq_or_lt lower metrics outer updates e
          with hsame | hless
        · rw [hsame] at houter hupdate
          rcases he with rfl | he
          · exact absurd ((Expr.equals_iff _ _).mpr rfl) houter
          · rw [he] at hupdate
            exact absurd ((Expr.equals_iff _ _).mpr rfl) hupdate
        · omega

theorem rewriteOuters_isSome (outers : List MetricEntry) (updates : Updates) :
    (rewriteOuters lower metrics outers updates).isSome := by
  induction outers generalizing updates with
  | nil => rfl
  | cons outer outers ih =>
    have hloop : (rewriteLoop lower metrics outer (outer.expr.nodes.length + 1) outer.expr
        updates).isSome :=
      rewriteLoop_isSome lower metrics (.inl rfl) (Nat.lt_succ_self _)
    obtain ⟨result, hresult⟩ := Option.isSome_iff_exists.mp hloop
    rw [rewriteOuters, hresult]
    exact ih result

/-- The rewriting ends on every list of metrics. -/
theorem rewriteMetricsInTermsOfOthers_isSome :
    (rewriteMetricsInTermsOfOthers lower metrics).isSome :=
  rewriteOuters_isSome lower metrics metrics ∅

/-! ## Updates and the expressions they replace -/

/-- The loop of a metric leaves the updates as they are, or ends with an update for
that metric that is not its own expression. -/
theorem rewriteLoop_update {outer : MetricEntry} {fuel : Nat} {e : Expr}
    {updates result : Updates} (h : rewriteLoop lower metrics outer fuel e updates = some result) :
    result = updates ∨ ∃ u, result.lookup outer.key = some u ∧ u ≠ outer.expr := by
  induction fuel generalizing e updates with
  | zero => simp [rewriteLoop] at h
  | succ fuel ih =>
    unfold rewriteLoop at h
    simp only at h
    split at h
    · exact .inl (Option.some.inj h).symm
    · rename_i hne
      split at h
      · exact .inl (Option.some.inj h).symm
      · rw [Expr.equals_iff] at hne
        rcases ih h with rfl | hupdate
        · exact .inr ⟨_, AList.lookup_insert _, hne⟩
        · exact .inr hupdate

/-- The loop of a metric writes no update but its own. -/
theorem lookup_rewriteLoop {outer : MetricEntry} {fuel : Nat} {e : Expr}
    {updates result : Updates} (h : rewriteLoop lower metrics outer fuel e updates = some result)
    {key : Text × Text} (hkey : key ≠ outer.key) : result.lookup key = updates.lookup key := by
  induction fuel generalizing e updates with
  | zero => simp [rewriteLoop] at h
  | succ fuel ih =>
    unfold rewriteLoop at h
    simp only at h
    split at h
    · rw [Option.some.inj h]
    · split at h
      · rw [Option.some.inj h]
      · rw [ih h, AList.lookup_insert_ne hkey]

/-- Every update is for a metric of the list whose expression it is not. -/
def Justified (updates : Updates) : Prop :=
  ∀ key u, updates.lookup key = some u → ∃ m ∈ metrics, m.key = key ∧ m.expr ≠ u

theorem justified_rewriteLoop {outer : MetricEntry} (houter : outer ∈ metrics) {fuel : Nat}
    {e : Expr} {updates result : Updates} (hjust : Justified metrics updates)
    (h : rewriteLoop lower metrics outer fuel e updates = some result) :
    Justified metrics result := by
  rcases rewriteLoop_update lower metrics h with rfl | ⟨u, hu, hne⟩
  · exact hjust
  · intro key u' hu'
    by_cases hkey : key = outer.key
    · rw [hkey, hu, Option.some.injEq] at hu'
      exact ⟨outer, houter, hkey.symm, hu' ▸ hne.symm⟩
    · rw [lookup_rewriteLoop lower metrics h hkey] at hu'
      exact hjust key u' hu'

theorem justified_rewriteOuters {outers : List MetricEntry}
    (houters : ∀ m ∈ outers, m ∈ metrics) {updates result : Updates}
    (hjust : Justified metrics updates)
    (h : rewriteOuters lower metrics outers updates = some result) : Justified metrics result := by
  induction outers generalizing updates with
  | nil => exact Option.some.inj h ▸ hjust
  | cons outer outers ih =>
    obtain ⟨mid, hmid, hrest⟩ := Option.bind_eq_some_iff.mp h
    exact ih (fun m hm => houters m (List.mem_cons_of_mem _ hm))
      (justified_rewriteLoop lower metrics (houters outer List.mem_cons_self) hjust hmid) hrest

/-- An update of the dictionary differs from the expression of a metric it is for. -/
theorem rewriteMetricsInTermsOfOthers_justified {updates : Updates}
    (h : rewriteMetricsInTermsOfOthers lower metrics = some updates) :
    Justified metrics updates :=
  justified_rewriteOuters lower metrics (fun _ hm => hm) (fun key u hu => by simp at hu) h

/-! ## When nothing is rewritten -/

/-- No metric has the expression of another metric of its PMU among its nodes. -/
def Independent : Prop :=
  ∀ m ∈ metrics, ∀ m' ∈ metrics, lower m'.pmuName = lower m.pmuName →
    lower m'.name ≠ lower m.name → m'.expr ∉ m.expr.nodes

/-- A pass changes nothing exactly when none of its substitutions does. -/
theorem substituteOthers_eq_iff (outer : MetricEntry) (updates : Updates) (e : Expr) :
    substituteOthers lower metrics outer updates e = e ↔
      ∀ inner ∈ metrics, substituteOther lower outer updates e inner = e := by
  induction metrics generalizing e with
  | nil => simp [substituteOthers]
  | cons inner metrics ih =>
    rw [List.forall_mem_cons, ← ih e]
    have hcons : substituteOthers lower (inner :: metrics) outer updates e =
        substituteOthers lower metrics outer updates
          (substituteOther lower outer updates e inner) := rfl
    rcases substituteOther_eq_or_lt lower outer updates e inner with hsame | hless
    · rw [hcons, hsame]
      simp
    · have hrest := substituteOthers_eq_or_lt lower metrics outer updates
        (substituteOther lower outer updates e inner)
      constructor
      · intro heq
        rw [hcons] at heq
        rcases hrest with hrest | hrest
        · rw [hrest] at heq
          rw [heq] at hless
          exact absurd hless (Nat.lt_irrefl _)
        · rw [heq] at hrest
          exact absurd (Nat.lt_trans hrest hless) (Nat.lt_irrefl _)
      · rintro ⟨heq, -⟩
        rw [heq] at hless
        exact absurd hless (Nat.lt_irrefl _)

/-- The first pass over a metric changes nothing exactly when no other metric's
expression is one of its nodes. -/
theorem substituteOthers_self_iff (outer : MetricEntry) :
    substituteOthers lower metrics outer ∅ outer.expr = outer.expr ↔
      ∀ m' ∈ metrics, lower m'.pmuName = lower outer.pmuName →
        lower m'.name ≠ lower outer.name → m'.expr ∉ outer.expr.nodes := by
  rw [substituteOthers_eq_iff]
  refine forall₂_congr fun inner _ => ?_
  unfold substituteOther
  by_cases hpmu : lower inner.pmuName = lower outer.pmuName
  · by_cases hname : lower inner.name = lower outer.name
    · simp [hpmu, hname]
    · have hcurrent : currentExpr ∅ inner = inner.expr := by
        rw [currentExpr, AList.lookup_empty]
        rfl
      simp only [hpmu, ne_eq, not_true_eq_false, if_false, hname, not_false_eq_true,
        forall_const, hcurrent]
      rcases outer.expr.substitute_eq_or_lt inner.name inner.expr with
        ⟨hnode, hsame⟩ | ⟨hnode, hless⟩
      · simp [hnode, hsame]
      · simp only [hnode, not_true_eq_false, iff_false]
        intro heq
        rw [heq] at hless
        exact absurd hless (Nat.lt_irrefl _)
  · simp [hpmu]

/-- An update once written stays. -/
theorem mem_rewriteLoop {outer : MetricEntry} {fuel : Nat} {e : Expr}
    {updates result : Updates} (h : rewriteLoop lower metrics outer fuel e updates = some result)
    {key : Text × Text} (hkey : key ∈ updates) : key ∈ result := by
  rw [← AList.lookup_isSome] at hkey ⊢
  rcases rewriteLoop_update lower metrics h with rfl | ⟨u, hu, -⟩
  · exact hkey
  · by_cases heq : key = outer.key
    · rw [heq, hu]
      rfl
    · rwa [lookup_rewriteLoop lower metrics h heq]

/-- From no updates, the loop of a metric leaves none exactly when its first pass
changes nothing. -/
theorem rewriteLoop_empty_iff (outer : MetricEntry) (fuel : Nat) :
    rewriteLoop lower metrics outer (fuel + 1) outer.expr ∅ = some ∅ ↔
      substituteOthers lower metrics outer ∅ outer.expr = outer.expr := by
  unfold rewriteLoop
  simp only [Expr.equals_iff, AList.lookup_empty, Option.any_none, Bool.false_eq_true, if_false]
  split
  · rename_i hsame
    simp [hsame]
  · rename_i hchanged
    simp only [hchanged, iff_false]
    intro h
    have hmem : outer.key ∈ (∅ : Updates) :=
      mem_rewriteLoop lower metrics h ((AList.mem_insert _).mpr (.inl rfl))
    simp at hmem

theorem mem_rewriteOuters {outers : List MetricEntry} {updates result : Updates}
    (h : rewriteOuters lower metrics outers updates = some result) {key : Text × Text}
    (hkey : key ∈ updates) : key ∈ result := by
  induction outers generalizing updates with
  | nil => exact Option.some.inj h ▸ hkey
  | cons outer outers ih =>
    obtain ⟨mid, hmid, hrest⟩ := Option.bind_eq_some_iff.mp h
    exact ih hrest (mem_rewriteLoop lower metrics hmid hkey)

theorem rewriteOuters_empty_iff (outers : List MetricEntry) :
    rewriteOuters lower metrics outers ∅ = some ∅ ↔
      ∀ outer ∈ outers, substituteOthers lower metrics outer ∅ outer.expr = outer.expr := by
  induction outers with
  | nil => simp [rewriteOuters]
  | cons outer outers ih =>
    rw [List.forall_mem_cons, ← ih, ← rewriteLoop_empty_iff lower metrics outer
      outer.expr.nodes.length]
    constructor
    · intro h
      obtain ⟨mid, hmid, hrest⟩ := Option.bind_eq_some_iff.mp h
      rcases rewriteLoop_update lower metrics hmid with rfl | ⟨u, hu, -⟩
      · exact ⟨hmid, hrest⟩
      · have hmem : outer.key ∈ mid := by
          rw [← AList.lookup_isSome, hu]
          rfl
        exact absurd (mem_rewriteOuters lower metrics hrest hmem) (by simp)
    · rintro ⟨houter, hrest⟩
      rw [rewriteOuters, houter]
      exact hrest

/-- Nothing is rewritten exactly when the metrics are independent. -/
theorem rewriteMetricsInTermsOfOthers_empty_iff :
    rewriteMetricsInTermsOfOthers lower metrics = some ∅ ↔ Independent lower metrics := by
  rw [rewriteMetricsInTermsOfOthers, rewriteOuters_empty_iff, Independent]
  exact forall₂_congr fun outer _ => substituteOthers_self_iff lower metrics outer

end Termination

end PmuEvents.Metric
