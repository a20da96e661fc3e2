import PmuEvents.Metric.Rewrite
import PmuEvents.Metric.Expand
set_option autoImplicit false

/-!
# The rewritten metrics mean what the original ones mean

Every substitution of `RewriteMetricsInTermsOfOthers` is a rewriting step on the
definitions of one PMU: the updates so far, and for the metric at hand the
expression being rewritten.  So the whole run keeps every full expansion and the
absence of circular definitions.
-/

namespace PmuEvents.Metric

open PmuEvents.Foundation Relation

/-- The definitions of a PMU once the updates replace the expressions they are for. -/
def definitions (metrics : List MetricEntry) (updates : Updates) (pmu : Text) : Definitions :=
  fun name =>
    (metrics.find? fun m => m.pmuName = pmu ∧ m.name = name).map (currentExpr updates)

/-- Within a PMU no two metrics have the same name, ignoring case. -/
def DistinctNames (lower : Text → Text) (metrics : List MetricEntry) : Prop :=
  metrics.Pairwise fun m m' => m.pmuName = m'.pmuName → lower m.name ≠ lower m'.name

/-- PMU names that differ also differ ignoring case. -/
def DistinctPmus (lower : Text → Text) (metrics : List MetricEntry) : Prop :=
  ∀ m ∈ metrics, ∀ m' ∈ metrics, lower m.pmuName = lower m'.pmuName → m.pmuName = m'.pmuName

section Run

variable {lower : Text → Text} {metrics : List MetricEntry}

theorem DistinctNames.eq_of_key (h : DistinctNames lower metrics) {m m' : MetricEntry}
    (hm : m ∈ metrics) (hm' : m' ∈ metrics) (hkey : m.key = m'.key) : m = m' := by
  have hsymm : Std.Symm fun m m' : MetricEntry =>
      m.pmuName = m'.pmuName → lower m.name ≠ lower m'.name :=
    ⟨fun _ _ h hpmu => (h hpmu.symm).symm⟩
  obtain ⟨hpmu, hname⟩ := Prod.mk.inj hkey
  by_contra hne
  exact List.Pairwise.forall h hm hm' hne hpmu (congrArg lower hname)

/-- A metric of the list is defined by its current expression. -/
theorem definitions_of_mem (h : DistinctNames lower metrics) (updates : Updates)
    {m : MetricEntry} (hm : m ∈ metrics) :
    definitions metrics updates m.pmuName m.name = some (currentExpr updates m) := by
  unfold definitions
  cases hfind : metrics.find? fun m' => m'.pmuName = m.pmuName ∧ m'.name = m.name with
  | none => simpa using List.find?_eq_none.mp hfind m hm
  | some m' =>
    have hkey := List.find?_some hfind
    simp only [decide_eq_true_eq] at hkey
    rw [h.eq_of_key (List.mem_of_find?_eq_some hfind) hm (Prod.ext hkey.1 hkey.2)]
    rfl

theorem currentExpr_insert_self (updates : Updates) (m : MetricEntry) (e : Expr) :
    currentExpr (updates.insert m.key e) m = e := by
  rw [currentExpr, AList.lookup_insert]
  rfl

theorem currentExpr_insert_of_ne (updates : Updates) {m : MetricEntry} {key : Text × Text}
    (h : m.key ≠ key) (e : Expr) :
    currentExpr (updates.insert key e) m = currentExpr updates m := by
  rw [currentExpr, AList.lookup_insert_ne h, currentExpr]

/-- A definition depends on the updates for its own key only. -/
theorem definitions_congr {updates updates' : Updates} {pmu name : Text}
    (h : ∀ m : MetricEntry, m.key = (pmu, name) → currentExpr updates m = currentExpr updates' m) :
    definitions metrics updates pmu name = definitions metrics updates' pmu name := by
  apply Option.map_congr
  intro m hm
  have hkey := List.find?_some hm
  simp only [decide_eq_true_eq] at hkey
  exact h m (Prod.ext hkey.1 hkey.2)

/-- A new update changes the definition it is for and no other. -/
theorem definitions_insert (hnames : DistinctNames lower metrics) (updates : Updates)
    {outer : MetricEntry} (houter : outer ∈ metrics) (e : Expr) :
    definitions metrics (updates.insert outer.key e) outer.pmuName =
      Function.update (definitions metrics updates outer.pmuName) outer.name (some e) := by
  funext name
  by_cases hname : name = outer.name
  · rw [hname, Function.update_self, definitions_of_mem hnames _ houter, currentExpr_insert_self]
  · rw [Function.update_of_ne hname]
    apply definitions_congr
    intro m hkey
    refine currentExpr_insert_of_ne updates ?_ e
    rw [hkey]
    exact fun heq => hname (Prod.mk.inj heq).2

/-! ## The run as rewriting steps -/

variable (hnames : DistinctNames lower metrics) (hpmus : DistinctPmus lower metrics)
variable (hplain : ∀ m ∈ metrics, fixEscapes m.name = m.name)

include hnames hpmus hplain

/-- The body of the inner loop is one rewriting step, or none. -/
theorem substituteOther_steps {outer inner : MetricEntry} (houter : outer ∈ metrics)
    (hinner : inner ∈ metrics) (updates : Updates) (e : Expr) :
    ReflTransGen RewriteStep
      (Function.update (definitions metrics updates outer.pmuName) outer.name (some e))
      (Function.update (definitions metrics updates outer.pmuName) outer.name
        (some (substituteOther lower outer updates e inner))) := by
  unfold substituteOther
  split
  · exact .refl
  · rename_i hpmu
    split
    · exact .refl
    · rename_i hname
      have hsame := hpmus inner hinner outer houter (not_not.mp hpmu)
      have hne : outer.name ≠ inner.name := fun h => hname (congrArg lower h.symm)
      have hdef := definitions_of_mem hnames updates hinner
      rw [hsame] at hdef
      have hstep : RewriteStep
          (Function.update (definitions metrics updates outer.pmuName) outer.name (some e)) _ :=
        .substitute hne (hplain inner hinner) (Function.update_self ..)
          ((Function.update_of_ne hne.symm ..).trans hdef)
      rw [Function.update_idem] at hstep
      exact .single hstep

theorem foldl_substituteOther_steps {outer : MetricEntry} (houter : outer ∈ metrics)
    {inners : List MetricEntry} (hinners : ∀ m ∈ inners, m ∈ metrics) (updates : Updates)
    (e : Expr) :
    ReflTransGen RewriteStep
      (Function.update (definitions metrics updates outer.pmuName) outer.name (some e))
      (Function.update (definitions metrics updates outer.pmuName) outer.name
        (some (inners.foldl (substituteOther lower outer updates) e))) := by
  induction inners generalizing e with
  | nil => exact .refl
  | cons inner inners ih =>
    rw [List.foldl_cons]
    exact (substituteOther_steps hnames hpmus hplain houter (hinners inner (by simp)) updates
      e).trans (ih (fun m hm => hinners m (List.mem_cons_of_mem _ hm)) _)

/-- The `while` loop of a metric is a run of rewriting steps on the definitions of its PMU. -/
theorem rewriteLoop_steps {outer : MetricEntry} (houter : outer ∈ metrics) {fuel : Nat}
    {e : Expr} {updates result : Updates} (he : currentExpr updates outer = e)
    (h : rewriteLoop lower metrics outer fuel e updates = some result) :
    ReflTransGen RewriteStep (definitions metrics updates outer.pmuName)
      (definitions metrics result outer.pmuName) := by
  induction fuel generalizing e updates with
  | zero => simp [rewriteLoop] at h
  | succ fuel ih =>
    have hpass := foldl_substituteOther_steps hnames hpmus hplain houter (fun m hm => hm)
      updates e
    have hself : Function.update (definitions metrics updates outer.pmuName) outer.name
        (some e) = definitions metrics updates outer.pmuName := by
      rw [← he, ← definitions_of_mem hnames updates houter, Function.update_eq_self]
    rw [hself, ← definitions_insert hnames updates houter] at hpass
    unfold rewriteLoop at h
    simp only at h
    split at h
    · exact Option.some.inj h ▸ .refl
    · split at h
      · exact Option.some.inj h ▸ .refl
      · exact hpass.trans (ih (currentExpr_insert_self ..) h)

/-- The loop over the outer metrics is a run of rewriting steps on every PMU. -/
theorem rewriteOuters_steps {outers : List MetricEntry}
    (houters : ∀ m ∈ outers, m ∈ metrics)
    (hkeys : outers.Pairwise fun m m' => m.key ≠ m'.key) {updates result : Updates}
    (hfresh : ∀ m ∈ outers, updates.lookup m.key = none)
    (h : rewriteOuters lower metrics outers updates = some result) (pmu : Text) :
    ReflTransGen RewriteStep (definitions metrics updates pmu)
      (definitions metrics result pmu) := by
  induction outers generalizing updates with
  | nil => exact Option.some.inj h ▸ .refl
  | cons outer outers ih =>
    obtain ⟨mid, hmid, hrest⟩ := Option.bind_eq_some_iff.mp h
    have houter := houters outer List.mem_cons_self
    obtain ⟨hne, hkeys⟩ := List.pairwise_cons.mp hkeys
    have hfresh' : ∀ m ∈ outers, mid.lookup m.key = none := by
      intro m hm
      rw [lookup_rewriteLoop lower metrics hmid (hne m hm).symm]
      exact hfresh m (List.mem_cons_of_mem _ hm)
    refine ReflTransGen.trans ?_
      (ih (fun m hm => houters m (List.mem_cons_of_mem _ hm)) hkeys hfresh' hrest)
    by_cases hpmu : pmu = outer.pmuName
    · rw [hpmu]
      refine rewriteLoop_steps hnames hpmus hplain houter ?_ hmid
      rw [currentExpr, hfresh outer List.mem_cons_self]
      rfl
    · have hsame : definitions metrics updates pmu = definitions metrics mid pmu := by
        funext name
        apply definitions_congr
        intro m hm
        have hkey : m.key ≠ outer.key := by
          rw [hm]
          exact fun heq => hpmu (congrArg Prod.fst heq)
        rw [currentExpr, currentExpr, lookup_rewriteLoop lower metrics hmid hkey]
      rw [hsame]

omit hnames hpmus hplain in
/-- Only the names of the list are defined, so without circular definitions the
references can be followed finitely often only. -/
theorem wellFounded_refers {updates : Updates} {pmu : Text}
    (h : Acyclic (Refers (definitions metrics updates pmu))) :
    WellFounded fun other name => Refers (definitions metrics updates pmu) name other := by
  refine h.wellFounded (s := {name | name ∈ metrics.map MetricEntry.name})
    (List.finite_toSet _) ?_
  rintro name other ⟨-, -, -, hsome⟩
  obtain ⟨m, hm⟩ := Option.isSome_iff_exists.mp (Option.isSome_map ▸ hsome)
  have hname := List.find?_some hm
  simp only [decide_eq_true_eq] at hname
  exact List.mem_map.mpr ⟨m, List.mem_of_find?_eq_some hm, hname.2⟩

end Run

/-- The rewriting of metrics in terms of each other ends with definitions that are
not circular, and every metric has one full expansion, the same as before. -/
theorem rewriteMetricsInTermsOfOthers_expands {lower : Text → Text}
    {metrics : List MetricEntry} (hnames : DistinctNames lower metrics)
    (hpmus : DistinctPmus lower metrics) (hplain : ∀ m ∈ metrics, ',' ∉ m.name ∧ '=' ∉ m.name)
    (hacyclic : ∀ pmu, Acyclic (Refers (definitions metrics ∅ pmu))) :
    ∃ updates, rewriteMetricsInTermsOfOthers lower metrics = some updates ∧
      (∀ pmu, Acyclic (Refers (definitions metrics updates pmu))) ∧
      ∀ m ∈ metrics, ∃ t,
        (∀ t', Expands (definitions metrics ∅ m.pmuName) m.expr t' ↔ t' = t) ∧
          ∀ t', Expands (definitions metrics updates m.pmuName) (currentExpr updates m) t' ↔
            t' = t := by
  obtain ⟨updates, hupdates⟩ :=
    Option.isSome_iff_exists.mp (rewriteMetricsInTermsOfOthers_isSome lower metrics)
  have hplain' : ∀ m ∈ metrics, fixEscapes m.name = m.name :=
    fun m hm => fixEscapes_of_not_mem (hplain m hm).1 (hplain m hm).2
  have hkeys : metrics.Pairwise fun m m' => m.key ≠ m'.key :=
    hnames.imp fun h hkey => h (Prod.mk.inj hkey).1 (congrArg lower (Prod.mk.inj hkey).2)
  have hsteps := rewriteOuters_steps hnames hpmus hplain' (fun m hm => hm) hkeys
    (fun m _ => AList.lookup_empty m.key) hupdates
  have hsound : ∀ pmu, ∃ full, Solves (definitions metrics ∅ pmu) full ∧
      Solves (definitions metrics updates pmu) full ∧
      Acyclic (Refers (definitions metrics updates pmu)) := by
    intro pmu
    obtain ⟨full, hfull, -⟩ := exists_solves (wellFounded_refers (hacyclic pmu))
    exact ⟨full, hfull, rewriteSteps_sound (hsteps pmu) hfull (hacyclic pmu)⟩
  refine ⟨updates, hupdates, fun pmu => (hsound pmu).choose_spec.2.2, ?_⟩
  intro m hm
  obtain ⟨full, hbefore, hafter, hacyclic'⟩ := hsound m.pmuName
  have hexpr : m.expr.expandWith full = full m.name :=
    (hbefore.of_some (definitions_of_mem hnames ∅ hm)).symm
  have hcurrent : (currentExpr updates m).expandWith full = full m.name :=
    (hafter.of_some (definitions_of_mem hnames updates hm)).symm
  refine ⟨full m.name, ?_, ?_⟩
  · intro t'
    rw [hbefore.expands_iff (wellFounded_refers (hacyclic _)), hexpr]
  · intro t'
    rw [hafter.expands_iff (wellFounded_refers hacyclic'), hcurrent]

/-- Two metrics of the core PMU; the first is a node of the second. -/
def sumAndScaled : List MetricEntry :=
  [{ pmu := none, name := ['s'], expr := .operator .add (.event ['x']) (.event ['y']) },
    { pmu := some "cpu".toList, name := ['t'],
      expr := .operator .mul (.operator .add (.event ['x']) (.event ['y'])) (.constant ['2']) }]

/-- No metric of `sumAndScaled` refers to another before the rewriting. -/
theorem acyclic_sumAndScaled (pmu : Text) :
    Acyclic (Refers (definitions sumAndScaled ∅ pmu)) := by
  have hnone : ∀ a b, ¬ Refers (definitions sumAndScaled ∅ pmu) a b := by
    rintro a b ⟨e, he, hmem, hsome⟩
    obtain ⟨m, hm, rfl⟩ := Option.map_eq_some_iff.mp he
    obtain ⟨m', hm'⟩ := Option.isSome_iff_exists.mp (Option.isSome_map ▸ hsome)
    have hb := List.find?_some hm'
    simp only [decide_eq_true_eq] at hb
    rw [← hb.2] at hmem
    revert hmem
    have hnodes : ∀ m ∈ sumAndScaled, ∀ m' ∈ sumAndScaled,
        m'.name ∉ (currentExpr ∅ m).events := by decide
    exact hnodes m (List.mem_of_find?_eq_some hm) m' (List.mem_of_find?_eq_some hm')
  intro a hcycle
  obtain ⟨b, hab, -⟩ := TransGen.head'_iff.mp hcycle
  exact hnone a b hab

theorem rewriteMetricsInTermsOfOthers_expands_sumAndScaled :
    ∃ updates, rewriteMetricsInTermsOfOthers (List.map Char.toLower) sumAndScaled =
        some updates ∧
      (∀ pmu, Acyclic (Refers (definitions sumAndScaled updates pmu))) ∧
      ∀ m ∈ sumAndScaled, ∃ t,
        (∀ t', Expands (definitions sumAndScaled ∅ m.pmuName) m.expr t' ↔ t' = t) ∧
          ∀ t', Expands (definitions sumAndScaled updates m.pmuName) (currentExpr updates m) t' ↔
            t' = t :=
  rewriteMetricsInTermsOfOthers_expands (by unfold DistinctNames; decide)
    (by unfold DistinctPmus; decide) (by decide) acyclic_sumAndScaled

end PmuEvents.Metric
