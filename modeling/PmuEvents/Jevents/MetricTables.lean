import PmuEvents.Jevents.EventTables
set_option autoImplicit false

/-!
# The tables of metrics

`print_pending_metrics` begins an array on every change of the PMU, but sorts the
metrics without a description before the others.  The main result says for which
metrics every PMU still gets a single array.
-/

namespace PmuEvents.Jevents

open PmuEvents.Foundation PmuEvents.Lib

/-- The arrays that `print_pending_metrics` writes partition the pending metrics by
their PMU. -/
def MetricsPartitioned (offsets : List (Text × Int)) (t : TableState) (tblname : Text) : Prop :=
  ∃ (lines : List Line) (groups : List (Text × List EventObject)) (rows : List TableRow),
    pendingLines true offsets t = .ok lines ∧
    definitions lines =
      some (groups.map (arrayOf true offsets tblname) ++ [.table tblname rows]) ∧
    Partitions tblname t.pending groups

/-- A PMU with a metric that has a description and one that has none is the last PMU
among the metrics without a description and the first one among the others. -/
def OnlyMeetsBetween (pending : List EventObject) : Prop :=
  ∀ e ∈ pending, ∀ e' ∈ pending, pmuOf e = pmuOf e' →
    e.event.desc.isSome = false → e'.event.desc.isSome = true →
    (∀ a ∈ pending, a.event.desc.isSome = false → pmuOf a ≤ pmuOf e) ∧
      ∀ a ∈ pending, a.event.desc.isSome = true → pmuOf e ≤ pmuOf a

instance (pending : List EventObject) : Decidable (OnlyMeetsBetween pending) :=
  inferInstanceAs (Decidable (∀ e ∈ pending, ∀ e' ∈ pending, _ → _ → _ → _ ∧ _))

/-! ## The order of the metrics -/

theorem pairwise_metricCmpKey (pending : List EventObject) :
    (sortedRecords true pending).Pairwise fun a b =>
      metricCmpKey a.event ≤ metricCmpKey b.event :=
  List.pairwise_insertionSort
    (fun a b : EventObject => metricCmpKey a.event ≤ metricCmpKey b.event) _

/-- Metrics without a description come first. -/
theorem metricCmpKey_lt_of_desc {a b : JsonEvent} (ha : a.desc.isSome = false)
    (hb : b.desc.isSome = true) : metricCmpKey a < metricCmpKey b := by
  refine Prod.Lex.toLex_lt_toLex.mpr (.inl ?_)
  rw [ha, hb]
  exact Bool.false_lt_true

/-- Among those with a description, and those without, the PMU decides. -/
theorem metricCmpKey_lt_of_pmu {a b : JsonEvent} (hdesc : a.desc.isSome = b.desc.isSome)
    (hpmu : a.pmu < b.pmu) : metricCmpKey a < metricCmpKey b :=
  Prod.Lex.toLex_lt_toLex.mpr (.inr ⟨hdesc, Prod.Lex.toLex_lt_toLex.mpr (.inl hpmu)⟩)

theorem pmu_le_of_metricCmpKey_le {a b : JsonEvent} (h : metricCmpKey a ≤ metricCmpKey b)
    (hdesc : a.desc.isSome = b.desc.isSome) : a.pmu ≤ b.pmu := by
  by_contra hlt
  exact absurd h (not_le_of_gt (metricCmpKey_lt_of_pmu hdesc.symm (not_le.mp hlt)))

/-- A metric that comes after one with a description has one itself. -/
theorem desc_of_metricCmpKey_le {a b : JsonEvent} (h : metricCmpKey a ≤ metricCmpKey b)
    (ha : a.desc.isSome = true) : b.desc.isSome = true := by
  by_contra hb
  exact absurd h (not_le_of_gt (metricCmpKey_lt_of_desc (Bool.eq_false_of_not_eq_true hb) ha))

/-- Where equal PMUs stand together, nothing comes between two metrics of one PMU. -/
theorem onlyMeetsBetween_of_contiguous {pending : List EventObject}
    (hc : Contiguous pmuOf (sortedRecords true pending)) : OnlyMeetsBetween pending := by
  intro e he e' he' hpmu hdesc hdesc'
  have hee' := metricCmpKey_lt_of_desc hdesc hdesc'
  have hbetween : ∀ a ∈ pending, metricCmpKey e.event < metricCmpKey a.event →
      metricCmpKey a.event < metricCmpKey e'.event → pmuOf a = pmuOf e := by
    intro a ha hea hae'
    refine hc e a e' (triple_sublist (pairwise_metricCmpKey pending) (mem_sortedRecords.mpr he)
      (mem_sortedRecords.mpr ha) (mem_sortedRecords.mpr he') ?_ ?_ ?_) hpmu
    · exact ⟨hea.le, not_le_of_gt hea⟩
    · exact ⟨hae'.le, not_le_of_gt hae'⟩
    · exact ⟨hee'.le, not_le_of_gt hee'⟩
  refine ⟨fun a ha hnone => ?_, fun a ha hsome => ?_⟩
  · by_contra hlt
    have hlt' : pmuOf e < pmuOf a := not_le.mp hlt
    have hsame := hbetween a ha (metricCmpKey_lt_of_pmu (hdesc.trans hnone.symm) hlt')
      (metricCmpKey_lt_of_desc hnone hdesc')
    exact absurd hlt' (by simp [hsame])
  · by_contra hlt
    have hlt' : pmuOf a < pmuOf e' := hpmu ▸ not_le.mp hlt
    have hsame := hbetween a ha (metricCmpKey_lt_of_desc hdesc hsome)
      (metricCmpKey_lt_of_pmu (hsome.trans hdesc'.symm) hlt')
    exact absurd hlt' (by simp [hsame, hpmu])

/-- Between two metrics of one PMU that is on both sides of no other one there are only
metrics of this PMU. -/
theorem contiguous_of_onlyMeetsBetween {pending : List EventObject}
    (hmeet : OnlyMeetsBetween pending) : Contiguous pmuOf (sortedRecords true pending) := by
  intro a b c hsub hpmu
  have hmem : ∀ x ∈ [a, b, c], x ∈ pending := fun x hx => mem_sortedRecords.mp (hsub.subset hx)
  have ha := hmem a (by simp)
  have hb := hmem b (by simp)
  have hc := hmem c (by simp)
  have hle := (pairwise_metricCmpKey pending).sublist hsub
  simp only [List.pairwise_cons, List.mem_cons, List.not_mem_nil, or_false, forall_eq_or_imp,
    forall_eq] at hle
  obtain ⟨⟨hab, -⟩, hbc, -⟩ := hle
  have hbefore : a.event.desc.isSome = b.event.desc.isSome → pmuOf a ≤ pmuOf b :=
    pmu_le_of_metricCmpKey_le hab
  have hafter : b.event.desc.isSome = c.event.desc.isSome → pmuOf b ≤ pmuOf a :=
    fun h => hpmu ▸ pmu_le_of_metricCmpKey_le hbc h
  -- by the side on which the PMU changes from metrics without to metrics with a description
  cases hda : a.event.desc.isSome with
  | true =>
    have hdb := desc_of_metricCmpKey_le hab hda
    have hdc := desc_of_metricCmpKey_le hbc hdb
    exact le_antisymm (hafter (hdb.trans hdc.symm)) (hbefore (hda.trans hdb.symm))
  | false =>
    cases hdb : b.event.desc.isSome with
    | true =>
      have hdc := desc_of_metricCmpKey_le hbc hdb
      exact le_antisymm (hafter (hdb.trans hdc.symm)) ((hmeet a ha c hc hpmu hda hdc).2 b hb hdb)
    | false =>
      cases hdc : c.event.desc.isSome with
      | true =>
        exact le_antisymm ((hmeet a ha c hc hpmu hda hdc).1 b hb hdb)
          (hbefore (hda.trans hdb.symm))
      | false => exact le_antisymm (hafter (hdb.trans hdc.symm)) (hbefore (hda.trans hdb.symm))

/-- The sorted metrics of each PMU stand together exactly when no PMU is on both sides
of another one. -/
theorem contiguous_sortedMetrics_iff (pending : List EventObject) :
    Contiguous pmuOf (sortedRecords true pending) ↔ OnlyMeetsBetween pending :=
  ⟨onlyMeetsBetween_of_contiguous, contiguous_of_onlyMeetsBetween⟩

/-! ## The arrays -/

/-- Arrays with distinct names come from runs with distinct PMUs. -/
theorem nodup_keys_of_arrays {offsets : List (Text × Int)} {tblname : Text}
    {runs groups : List (Text × List EventObject)} {rows rows' : List TableRow}
    (h : runs.map (arrayOf true offsets tblname) ++ [.table tblname rows] =
      groups.map (arrayOf true offsets tblname) ++ [.table tblname rows'])
    (hnames : (groups.map fun group => arrayName tblname (tblPmu group.1)).Nodup) :
    (runs.map Prod.fst).Nodup := by
  have harrays := congrArg (List.map Definition.name) (List.append_inj' h rfl).1
  rw [List.map_map, List.map_map] at harrays
  have hruns : ((runs.map Prod.fst).map fun p => arrayName tblname (tblPmu p)).Nodup := by
    rw [List.map_map]
    exact harrays ▸ hnames
  exact hruns.of_map _

/-- Every PMU gets a single array exactly when no PMU has metrics with and without a
description on both sides of another PMU. -/
theorem metricsPartitioned_iff {offsets : List (Text × Int)} {t : TableState} {tblname : Text}
    (hne : t.pending ≠ []) (htbl : t.tblname = some tblname)
    (hadded : AllAdded true offsets t.pending) (hdistinct : PmusStayDistinct t.pending) :
    MetricsPartitioned offsets t tblname ↔ OnlyMeetsBetween t.pending := by
  have hcheck : (recordWriter true).check (sortedRecords true t.pending) = true := rfl
  obtain ⟨lines, pmus, hlines, hdefs, -, -⟩ := pendingLines_eq_ok hne htbl hadded hcheck
  rw [← contiguous_sortedMetrics_iff]
  constructor
  · rintro ⟨lines', groups, rows, hlines', hdefs', hparts⟩
    obtain rfl : lines = lines' := Except.ok.inj (hlines.symm.trans hlines')
    exact (nodup_keys_keyRuns _).mp
      (nodup_keys_of_arrays (Option.some.inj (hdefs.symm.trans hdefs')) hparts.names)
  · intro hc
    exact ⟨lines, _, _, hlines, hdefs, partitions_keyRuns tblname hdistinct hc⟩

/-- A metric of a file. -/
def boxMetric (name : Char) (pmu : String) (desc : Option Text) : EventObject where
  arch := ['x']
  parents := []
  file := "m.json".toList
  event := { metricEvent [name] sumExpr with topic := ['m'], pmu := pmu.toList, desc }

/-- The table for some metrics, before it is closed. -/
def metricTable (pending : List EventObject) : TableState where
  pending
  tblname := some "pmu_metrics_x".toList
  tables := []
  sysTables := []
  written := []

/-- Offsets of the strings of a table. -/
def metricOffsets (pending : List EventObject) : List (Text × Int) :=
  (pending.map fun e => (e.event.buildCString true, 0)) ++
    pending.map fun e => (e.event.pmu ++ nulText, 20)

/-- Two PMUs, the first one with a description in one of its metrics. -/
def meetingMetrics : List EventObject :=
  [boxMetric 'a' "uncore_cbox" (some ['d']), boxMetric 'b' "default_core" none,
    boxMetric 'c' "default_core" (some ['d'])]

theorem metricsPartitioned_meeting :
    MetricsPartitioned (metricOffsets meetingMetrics) (metricTable meetingMetrics)
      "pmu_metrics_x".toList :=
  (metricsPartitioned_iff (by decide) rfl (by decide +kernel) (by decide +kernel)).mpr
    (by decide +kernel)

/-- The other PMU without a description as well. -/
def mixedMetrics : List EventObject :=
  [boxMetric 'a' "uncore_cbox" none, boxMetric 'b' "default_core" none,
    boxMetric 'c' "default_core" (some ['d'])]

/-- The names that are defined for some metrics, in order. -/
def definedNames (pending : List EventObject) : Option (List Text) :=
  ((pendingLines true (metricOffsets pending) (metricTable pending)).toOption.bind definitions).map
    (List.map Definition.name)

/-- The core PMU gets two arrays of one name. -/
theorem not_metricsPartitioned_mixed :
    AllAdded true (metricOffsets mixedMetrics) mixedMetrics ∧ PmusStayDistinct mixedMetrics ∧
      definedNames mixedMetrics =
        some ["pmu_metrics_x_default_core".toList, "pmu_metrics_x_uncore_cbox".toList,
          "pmu_metrics_x_default_core".toList, "pmu_metrics_x".toList] ∧
      ¬ MetricsPartitioned (metricOffsets mixedMetrics) (metricTable mixedMetrics)
        "pmu_metrics_x".toList := by
  have hdefined : definedNames mixedMetrics =
      some (["pmu_metrics_x_default_core".toList, "pmu_metrics_x_uncore_cbox".toList,
        "pmu_metrics_x_default_core".toList] ++ ["pmu_metrics_x".toList]) := by decide +kernel
  refine ⟨by decide +kernel, by decide +kernel, hdefined, ?_⟩
  rintro ⟨lines, groups, rows, hlines, hdefs, hparts⟩
  have hnames := hparts.names
  rw [definedNames, hlines, Except.toOption, Option.bind_some, hdefs, Option.map_some,
    Option.some.injEq, List.map_append, List.map_map] at hdefined
  have harrays : (groups.map fun group => arrayName "pmu_metrics_x".toList (tblPmu group.1)) = _ :=
    (List.append_inj' hdefined rfl).1
  rw [harrays] at hnames
  exact absurd hnames (by decide)

end PmuEvents.Jevents
