import PmuEvents.Jevents.JsonEvent
import PmuEvents.Metric.Rewrite
import PmuEvents.Foundation.Traverse
set_option autoImplicit false

/-!
# `read_json_events`

The events of a file, their metrics rewritten in terms of each other.  The
dictionary of updates has (pmu, metric name) pairs as keys, but it is looked up
with the metric name alone, so no update is ever taken over.  The main result
says for which files that makes no difference.
-/

namespace PmuEvents.Jevents

open PmuEvents.Foundation PmuEvents.Metric

/-- The values a dictionary of updates is asked for: None, a text, or a pair. -/
inductive PyKey where
  | none
  | str (s : Text)
  | pair (fst snd : Text)
  deriving DecidableEq, Repr

/-- A metric name as a key. -/
def PyKey.ofName : Option Text → PyKey
  | .none => .none
  | .some s => .str s

/-- The update under a key of any kind. -/
def lookupUpdate (updates : Updates) (key : PyKey) : Option Expr :=
  (updates.entries.find? fun entry => PyKey.pair entry.1.1 entry.1.2 = key).map Sigma.snd

/-- The test for the metrics to rewrite: `event.metric_name and '-' not in event.metric_name`. -/
def isRewritable (event : JsonEvent) : Bool :=
  truthy event.metric_name && !(event.metric_name.getD []).contains '-'

/-- The entry of an event; `none` where it has no expression, which the rewriting
cannot do without. -/
def metricEntry (event : JsonEvent) : Option MetricEntry :=
  event.metric_expr.map fun expr =>
    { pmu := some event.pmu, name := event.metric_name.getD [], expr }

/-- The list of metrics of a file. -/
def metricEntries (events : List JsonEvent) : Option (List MetricEntry) :=
  (events.filter isRewritable).mapM metricEntry

/-- The last loop: an event takes over the update under its metric name. -/
def applyUpdate (updates : Updates) (event : JsonEvent) : JsonEvent :=
  match lookupUpdate updates (.ofName event.metric_name) with
  | some expr => { event with metric_expr := some expr }
  | none => event

/-- `read_json_events` on the events loaded from a file; `none` where a metric
without an expression raises an exception. -/
def readJsonEvents (lower : Text → Text) (topic : Text) (events : List JsonEvent) :
    Option (List JsonEvent) := do
  let events := events.map fun event => { event with topic }
  let metrics ← metricEntries events
  let updates ← rewriteMetricsInTermsOfOthers lower metrics
  if updates.entries = [] then return events
  else return events.map (applyUpdate updates)

/-! ## What is taken over -/

/-- A metric name is no pair. -/
theorem lookupUpdate_ofName (updates : Updates) (name : Option Text) :
    lookupUpdate updates (.ofName name) = none := by
  have hnone : updates.entries.find?
      (fun entry => PyKey.pair entry.1.1 entry.1.2 = PyKey.ofName name) = none := by
    rw [List.find?_eq_none]
    intro entry _
    cases name <;> simp [PyKey.ofName]
  rw [lookupUpdate, hnone]
  rfl

/-- The metrics of a file do not depend on the topic. -/
theorem metricEntries_topic (topic : Text) (events : List JsonEvent) :
    metricEntries (events.map fun event => { event with topic }) = metricEntries events := by
  rw [metricEntries, List.filter_map, List.mapM_map]
  rfl

/-- The file's events come back as they were loaded, with the topic. -/
theorem readJsonEvents_eq_some {lower : Text → Text} {topic : Text}
    {events result : List JsonEvent} (h : readJsonEvents lower topic events = some result) :
    (metricEntries events).isSome ∧ result = events.map fun event => { event with topic } := by
  simp only [readJsonEvents, metricEntries_topic, Option.bind_eq_bind,
    Option.bind_eq_some_iff] at h
  obtain ⟨metrics, hmetrics, updates, -, h⟩ := h
  have hsame : (events.map fun event => { event with topic }).map (applyUpdate updates) =
      events.map fun event => { event with topic } := by
    rw [List.map_map]
    refine List.map_congr_left fun event _ => ?_
    simp [applyUpdate, lookupUpdate_ofName]
  rw [hsame, ite_self] at h
  exact ⟨by rw [hmetrics]; rfl, (Option.some.inj h).symm⟩

/-- The expression an event should have: the update under its (pmu, metric name)
pair, else the expression it was parsed with. -/
def updatedExpr (updates : Updates) (event : JsonEvent) : Option Expr :=
  match event.metric_name with
  | none => event.metric_expr
  | some name => (updates.lookup (event.pmu, name)).or event.metric_expr

/-- The returned events have the expressions of the dictionary of updates. -/
def UpdatesTaken (lower : Text → Text) (events result : List JsonEvent) : Prop :=
  ∃ metrics updates, metricEntries events = some metrics ∧
    rewriteMetricsInTermsOfOthers lower metrics = some updates ∧
    List.Forall₂ (fun event event' => event'.metric_expr = updatedExpr updates event)
      events result

/-- Two metrics of a file share an expression: that of the second is an operator,
select or function inside the first, and they have the same PMU but different names. -/
def SharesExpression (lower : Text → Text) (events : List JsonEvent) : Prop :=
  ∃ event ∈ events, ∃ event' ∈ events, isRewritable event ∧ isRewritable event' ∧
    lower event'.pmu = lower event.pmu ∧
    lower (event'.metric_name.getD []) ≠ lower (event.metric_name.getD []) ∧
    ∃ e e', event.metric_expr = some e ∧ event'.metric_expr = some e' ∧ e' ∈ e.nodes

theorem mem_metricEntries_iff {events : List JsonEvent} {metrics : List MetricEntry}
    (h : metricEntries events = some metrics) (m : MetricEntry) :
    m ∈ metrics ↔ ∃ event ∈ events, isRewritable event ∧ metricEntry event = some m := by
  rw [mem_mapM_iff h]
  simp only [List.mem_filter, and_assoc]

/-- The metrics of a file are independent exactly when no two share an expression. -/
theorem independent_iff {lower : Text → Text} {events : List JsonEvent}
    {metrics : List MetricEntry} (h : metricEntries events = some metrics) :
    Independent lower metrics ↔ ¬ SharesExpression lower events := by
  constructor
  · rintro hind ⟨event, hev, event', hev', hrw, hrw', hpmu, hname, e, e', he, he', hnode⟩
    refine hind { pmu := some event.pmu, name := event.metric_name.getD [], expr := e }
      ((mem_metricEntries_iff h _).mpr ⟨event, hev, hrw, by rw [metricEntry, he]; rfl⟩)
      { pmu := some event'.pmu, name := event'.metric_name.getD [], expr := e' }
      ((mem_metricEntries_iff h _).mpr ⟨event', hev', hrw', by rw [metricEntry, he']; rfl⟩)
      hpmu hname hnode
  · intro hshare m hm m' hm' hpmu hname hnode
    obtain ⟨event, hev, hrw, hentry⟩ := (mem_metricEntries_iff h m).mp hm
    obtain ⟨event', hev', hrw', hentry'⟩ := (mem_metricEntries_iff h m').mp hm'
    obtain ⟨e, he, rfl⟩ := Option.map_eq_some_iff.mp hentry
    obtain ⟨e', he', rfl⟩ := Option.map_eq_some_iff.mp hentry'
    exact hshare ⟨event, hev, event', hev', hrw, hrw', hpmu, hname, e, e', he, he', hnode⟩

/-- An update leaves some event with an expression that is not the dictionary's. -/
theorem exists_expr_ne {lower : Text → Text} {events : List JsonEvent}
    {metrics : List MetricEntry} {updates : Updates}
    (hmetrics : metricEntries events = some metrics)
    (hupdates : rewriteMetricsInTermsOfOthers lower metrics = some updates) {key : Text × Text}
    (hkey : key ∈ updates) : ∃ event ∈ events, event.metric_expr ≠ updatedExpr updates event := by
  obtain ⟨u, hu⟩ := Option.isSome_iff_exists.mp (AList.lookup_isSome.mpr hkey)
  obtain ⟨m, hm, rfl, hne⟩ :=
    rewriteMetricsInTermsOfOthers_justified lower metrics hupdates key u hu
  obtain ⟨event, hev, hrw, hentry⟩ := (mem_metricEntries_iff hmetrics m).mp hm
  obtain ⟨e, he, rfl⟩ := Option.map_eq_some_iff.mp hentry
  refine ⟨event, hev, ?_⟩
  cases hname : event.metric_name with
  | none => simp [isRewritable, truthy, hname] at hrw
  | some name =>
    have hentry : MetricEntry.key
        { pmu := some event.pmu, name := event.metric_name.getD [], expr := e } =
          (event.pmu, name) := by
      rw [hname]
      rfl
    rw [hentry] at hu
    rw [updatedExpr, hname, he]
    simp only [hu, Option.some_or, ne_eq, Option.some.injEq]
    exact hne

/-- The updates reach the events exactly when there is nothing to update: no
metric's expression occurs inside another metric of its PMU. -/
theorem updatesTaken_iff {lower : Text → Text} {topic : Text} {events result : List JsonEvent}
    (h : readJsonEvents lower topic events = some result) :
    UpdatesTaken lower events result ↔ ¬ SharesExpression lower events := by
  obtain ⟨hsome, rfl⟩ := readJsonEvents_eq_some h
  obtain ⟨metrics, hmetrics⟩ := Option.isSome_iff_exists.mp hsome
  rw [← independent_iff hmetrics, ← rewriteMetricsInTermsOfOthers_empty_iff]
  constructor
  · rintro ⟨metrics', updates, hmetrics', hupdates, hrel⟩
    obtain rfl : metrics = metrics' := Option.some.inj (hmetrics.symm.trans hmetrics')
    rw [List.forall₂_map_right_iff, List.forall₂_same] at hrel
    have hempty : updates = ∅ := by
      by_contra hne
      obtain ⟨key, hkey⟩ : ∃ key, key ∈ updates := by
        obtain ⟨⟨key, u⟩, hentry⟩ := List.exists_mem_of_ne_nil updates.entries
          fun hnil => hne (AList.ext hnil)
        exact ⟨key, List.mem_keys_of_mem hentry⟩
      obtain ⟨event, hev, hexpr⟩ := exists_expr_ne hmetrics hupdates hkey
      exact hexpr (hrel event hev)
    rw [← hempty, hupdates]
  · intro hempty
    refine ⟨metrics, ∅, hmetrics, hempty, ?_⟩
    rw [List.forall₂_map_right_iff, List.forall₂_same]
    intro event _
    unfold updatedExpr
    cases event.metric_name with
    | none => rfl
    | some name => simp

/-! ## A file with two metrics -/

/-- A metric of the core PMU. -/
def metricEvent (name : Text) (expr : Expr) : JsonEvent where
  name := none
  topic := []
  compat := none
  desc := none
  long_desc := none
  pmu := "default_core".toList
  unit := none
  perpkg := none
  aggr_mode := none
  deprecated := none
  retirement_latency_mean := none
  retirement_latency_min := none
  retirement_latency_max := none
  metric_name := some name
  metric_group := none
  metricgroup_no_group := none
  default_metricgroup_name := none
  event_grouping := none
  metric_expr := some expr
  metric_threshold := none
  event := none

/-- The sum of two events. -/
def sumExpr : Expr := .operator .add (.event ['x']) (.event ['y'])

/-- A sum, and a metric that refers to it by name. -/
def namedSum : List JsonEvent :=
  [metricEvent ['s'] sumExpr,
    metricEvent ['t'] (.operator .mul (.event ['s']) (.constant ['2']))]

/-- A sum, and a metric that spells the sum out. -/
def spelledSum : List JsonEvent :=
  [metricEvent ['s'] sumExpr, metricEvent ['t'] (.operator .mul sumExpr (.constant ['2']))]

theorem updatesTaken_namedSum : UpdatesTaken (List.map Char.toLower) namedSum namedSum := by
  have hread : readJsonEvents (List.map Char.toLower) [] namedSum = some namedSum := by decide
  refine (updatesTaken_iff hread).mpr ?_
  have hnodes : ∀ event ∈ namedSum, ∀ event' ∈ namedSum, event.metric_name ≠ event'.metric_name →
      ∀ e ∈ event.metric_expr, ∀ e' ∈ event'.metric_expr, e' ∉ e.nodes := by decide
  rintro ⟨event, hev, event', hev', -, -, -, hname, e, e', he, he', hnode⟩
  exact hnodes event hev event' hev' (fun h => hname (by rw [h])) e he e' he' hnode

/-- The second metric has an update to `s * 2` but keeps the sum it was parsed with. -/
theorem not_updatesTaken_spelledSum :
    readJsonEvents (List.map Char.toLower) [] spelledSum = some spelledSum ∧
      ¬ UpdatesTaken (List.map Char.toLower) spelledSum spelledSum := by
  refine ⟨by decide, ?_⟩
  rintro ⟨metrics, updates, hmetrics, hupdates, hrel⟩
  have hupdate : (metricEntries spelledSum).bind (fun metrics =>
      (rewriteMetricsInTermsOfOthers (List.map Char.toLower) metrics).bind fun updates =>
        updates.lookup ("default_core".toList, ['t'])) =
      some (.operator .mul (.event ['s']) (.constant ['2'])) := by decide
  rw [hmetrics, Option.bind_some, hupdates, Option.bind_some] at hupdate
  have hexpr := (List.forall₂_cons.mp (List.forall₂_cons.mp hrel).2).1
  rw [updatedExpr] at hexpr
  simp only [metricEvent, hupdate, Option.some_or] at hexpr
  exact absurd hexpr (by decide)

end PmuEvents.Jevents
