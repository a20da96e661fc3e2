import PmuEvents.Jevents.MappingTable
set_option autoImplicit false

/-!
# The tables of system PMUs

`print_system_mapping_table` writes an element for each table of events of a `sys`
directory, with the table of metrics of the same directory, and an element for each table
of metrics that is left.  It takes a table for one of a `sys` directory by the end of its
name, but finds the table of metrics through the directories that are called `sys`.  The
main results: for which trees this raises, and that each table is written once otherwise.
-/

namespace PmuEvents.Jevents

open PmuEvents.Foundation

/-! ## The function -/

/-- An element of `pmu_sys_event_tables`: its tables, where they are given, and its name. -/
structure SysRow where
  event_table : Option Text
  metric_table : Option Text
  name : Text
  deriving DecidableEq, Repr

/-- `_sys_event_table_to_metric_table_mapping[tblname]`: the value that was set last. -/
def sysMetricTable (mapping : List (Text × Text)) (tblname : Text) : Option Text :=
  mapping.reverse.lookup tblname

/-- The body of the loop over the tables of events; `none` is the KeyError. -/
def sysEventRow (mapping : List (Text × Text)) (sys_metric_tables : List Text) (tblname : Text) :
    Option SysRow := do
  let metric_tblname ← sysMetricTable mapping tblname
  return {
    event_table := some tblname
    metric_table := if metric_tblname ∈ sys_metric_tables then some metric_tblname else none
    name := tblname }

/-- The element for a table of metrics that has none yet. -/
def sysMetricRow (tblname : Text) : SysRow :=
  { event_table := none, metric_table := some tblname, name := tblname }

/-- `print_system_mapping_table`: the elements in front of the one that ends the table. -/
def printSystemMappingTable (s : WalkState) : Option (List SysRow) := do
  let rows ← s.events.sysTables.mapM (sysEventRow s.sysMapping s.metrics.sysTables)
  let printed_metric_tables := rows.filterMap SysRow.metric_table
  let others := s.metrics.sysTables.filter fun tblname => tblname ∉ printed_metric_tables
  return rows ++ others.map sysMetricRow

/-! ## The mapping -/

/-- The parents of a model directory called `sys` that a call enters. -/
def sysDir (v : Visit) : Option (List Text) :=
  (modelDir v).bind fun dir => if dir.2 = "sys".toList then some dir.1 else none

/-- The parents of all model directories called `sys`. -/
def sysDirs (archs : List (Text × List Entry)) : List (List Text) :=
  (allVisits archs).filterMap sysDir

/-- The table of a directory called `sys`. -/
def sysTable (prefixText : Text) (parents : List Text) : Text :=
  fileNameToTableName prefixText parents "sys".toList

/-- The entry of the mapping for a directory. -/
def sysPair (parents : List Text) : Text × Text :=
  (sysTable "pmu_events_".toList parents, sysTable "pmu_metrics_".toList parents)

/-- What a call adds to the mapping. -/
def sysPairs (v : Visit) : List (Text × Text) := (sysDir v).toList.map sysPair

section Mapping

variable {readJsonEvents : List Text → Text → List JsonEvent}

theorem sysMapping_processOneFile {s : WalkState} {v : Visit} {s' : WalkState}
    (h : processOneFile readJsonEvents s v = some s') :
    s'.sysMapping = s.sysMapping ++ sysPairs v := by
  unfold processOneFile at h
  cases hitem : v.item with
  | dir name entries =>
    rw [hitem] at h
    dsimp only at h
    by_cases hleaf : isLeafDirIgnoringSys entries = true
    · rw [if_pos hleaf] at h
      obtain ⟨events, -, h⟩ := Option.bind_eq_some_iff.mp h
      obtain ⟨metrics, -, h⟩ := Option.bind_eq_some_iff.mp h
      obtain rfl := Option.some.inj h
      have hdir : sysDir v = if name = "sys".toList then some v.parents else none := by
        rw [sysDir, modelDir, hitem]
        simp only [hleaf, if_true, Option.bind_some]
      rw [sysPairs, hdir]
      by_cases hsys : name = "sys".toList
      · rw [if_pos hsys, if_pos hsys, hsys]
        rfl
      · rw [if_neg hsys, if_neg hsys]
        exact (List.append_nil _).symm
    · rw [if_neg hleaf] at h
      obtain rfl := Option.some.inj h
      have hdir : sysDir v = none := by
        rw [sysDir, modelDir, hitem]
        simp only [hleaf, Bool.false_eq_true, if_false, Option.bind_none]
      rw [sysPairs, hdir]
      exact (List.append_nil _).symm
  | file name =>
    rw [hitem] at h
    obtain rfl := Option.some.inj h
    have hdir : sysDir v = none := by
      rw [sysDir, modelDir, hitem, Option.bind_none]
    rw [sysPairs, hdir]
    exact (List.append_nil _).symm

theorem sysMapping_processArch {s : WalkState} {arch : Text × List Entry} {s' : WalkState}
    (h : processArch readJsonEvents s arch = some s') :
    s'.sysMapping = s.sysMapping ++ (ftw arch.1 [] arch.2).flatMap sysPairs := by
  obtain ⟨walked, hwalk, h⟩ := Option.bind_eq_some_iff.mp h
  obtain ⟨events, -, h⟩ := Option.bind_eq_some_iff.mp h
  obtain ⟨metrics, -, h⟩ := Option.bind_eq_some_iff.mp h
  obtain rfl := Option.some.inj h
  have hstep : ∀ s v s', processOneFile readJsonEvents s v = some s' →
      s'.sysMapping = s.sysMapping ++ sysPairs v := fun _ _ _ => sysMapping_processOneFile
  have hlog := foldlM_some_appends hstep hwalk
  exact hlog

/-- The mapping has an entry for each model directory called `sys`. -/
theorem sysMapping_secondPass {archs : List (Text × List Entry)} {s : WalkState}
    (h : secondPass readJsonEvents archs = some s) :
    s.sysMapping = (sysDirs archs).map sysPair := by
  have hstep : ∀ s arch s', processArch readJsonEvents s arch = some s' →
      s'.sysMapping = s.sysMapping ++ (ftw arch.1 [] arch.2).flatMap sysPairs :=
    fun _ _ _ => sysMapping_processArch
  rw [foldlM_some_appends hstep h, List.nil_append, sysDirs, allVisits, ← List.flatMap_assoc,
    List.map_filterMap, List.filterMap_eq_flatMap_toList]
  refine List.flatMap_congr fun v _ => ?_
  rw [sysPairs]
  cases sysDir v <;> rfl

/-- Where a key has one value, looking it up finds this. -/
theorem lookup_eq_some_iff_mem {l : List (Text × Text)}
    (hvalue : ∀ x ∈ l, ∀ y ∈ l, x.1 = y.1 → x.2 = y.2) (key value : Text) :
    l.lookup key = some value ↔ (key, value) ∈ l := by
  have hmem : ∀ v, l.lookup key = some v → (key, v) ∈ l := by
    intro v hv
    obtain ⟨before, after, rfl, -⟩ := List.lookup_eq_some_iff.mp hv
    exact List.mem_append_right _ List.mem_cons_self
  refine ⟨hmem value, fun h => ?_⟩
  cases hfound : l.lookup key with
  | none => exact absurd (List.lookup_eq_none_iff.mp hfound _ h) (by simp)
  | some v => exact congrArg some (hvalue _ (hmem v hfound) _ h rfl)

/-- A table of events is mapped to the table of metrics of the same directory. -/
theorem sysMetricTable_eq_some_iff (dirs : List (List Text)) (tblname metric_tblname : Text) :
    sysMetricTable (dirs.map sysPair) tblname = some metric_tblname ↔
      ∃ parents ∈ dirs, sysPair parents = (tblname, metric_tblname) := by
  rw [sysMetricTable, lookup_eq_some_iff_mem, List.mem_reverse, List.mem_map]
  intro x hx y hy hkey
  obtain ⟨p, -, rfl⟩ := List.mem_map.mp (List.mem_reverse.mp hx)
  obtain ⟨p', -, rfl⟩ := List.mem_map.mp (List.mem_reverse.mp hy)
  exact (fileNameToTableName_eq_iff _ _ _ _ _ _).mp hkey

end Mapping

/-! ## The elements -/

section Rows

variable {dirs : List (List Text)} {event_tables metric_tables : List Text}

/-- The element for the table of events of a directory. -/
theorem sysEventRow_eq_some_iff {tblname : Text} {row : SysRow} :
    sysEventRow (dirs.map sysPair) metric_tables tblname = some row ↔
      ∃ parents ∈ dirs, sysTable "pmu_events_".toList parents = tblname ∧
        row =
          { event_table := some tblname
            metric_table := tableIn metric_tables (sysTable "pmu_metrics_".toList parents)
            name := tblname } := by
  rw [sysEventRow, Option.bind_eq_bind, Option.bind_eq_some_iff]
  constructor
  · rintro ⟨metric_tblname, hfound, hrow⟩
    obtain ⟨parents, hparents, hpair⟩ := (sysMetricTable_eq_some_iff _ _ _).mp hfound
    obtain ⟨hevents, rfl⟩ := Prod.mk.inj hpair
    exact ⟨parents, hparents, hevents, (Option.some.inj hrow).symm⟩
  · rintro ⟨parents, hparents, rfl, rfl⟩
    exact ⟨_, (sysMetricTable_eq_some_iff _ _ _).mpr ⟨parents, hparents, rfl⟩, rfl⟩

/-- A table of events has no element exactly if no directory is its own. -/
theorem sysEventRow_eq_none_iff {tblname : Text} :
    sysEventRow (dirs.map sysPair) metric_tables tblname = none ↔
      ∀ parents ∈ dirs, sysTable "pmu_events_".toList parents ≠ tblname := by
  rw [Option.eq_none_iff_forall_ne_some]
  constructor
  · exact fun h parents hparents hname =>
      h _ (sysEventRow_eq_some_iff.mpr ⟨parents, hparents, hname, rfl⟩)
  · intro h row hrow
    obtain ⟨parents, hparents, hname, -⟩ := sysEventRow_eq_some_iff.mp hrow
    exact h parents hparents hname

/-- The elements for the tables of events, in their order. -/
theorem sysEventRows_tables {rows : List SysRow}
    (h : event_tables.mapM (sysEventRow (dirs.map sysPair) metric_tables) = some rows) :
    rows.filterMap SysRow.event_table = event_tables ∧
      ∀ row ∈ rows, ∃ parents ∈ dirs,
        row.event_table = some (sysTable "pmu_events_".toList parents) ∧
        row.metric_table = tableIn metric_tables (sysTable "pmu_metrics_".toList parents) ∧
        row.name = sysTable "pmu_events_".toList parents := by
  have hrel := mapM_eq_some_iff.mp h
  clear h
  induction hrel with
  | nil => simp
  | cons hrow _ ih =>
    obtain ⟨parents, hparents, rfl, rfl⟩ := sysEventRow_eq_some_iff.mp hrow
    refine ⟨?_, List.forall_mem_cons.mpr ⟨⟨parents, hparents, rfl, rfl, rfl⟩, ih.2⟩⟩
    rw [List.filterMap_cons, ih.1]

/-- Where the tables of events are distinct, so are their tables of metrics. -/
theorem sysEventRows_nodup {rows : List SysRow}
    (h : event_tables.mapM (sysEventRow (dirs.map sysPair) metric_tables) = some rows)
    (hnodup : event_tables.Nodup) : (rows.filterMap SysRow.metric_table).Nodup := by
  obtain ⟨htables, hrows⟩ := sysEventRows_tables h
  rw [← htables, List.Nodup, List.pairwise_filterMap] at hnodup
  rw [List.Nodup, List.pairwise_filterMap]
  refine hnodup.imp_of_mem fun {row row'} hrow hrow' hne m hm m' hm' heq => ?_
  obtain ⟨parents, -, hevents, hmetrics, -⟩ := hrows row hrow
  obtain ⟨parents', -, hevents', hmetrics', -⟩ := hrows row' hrow'
  rw [hmetrics] at hm
  rw [hmetrics'] at hm'
  have hsame : sysTable "pmu_metrics_".toList parents = sysTable "pmu_metrics_".toList parents' :=
    (tableIn_eq_some_iff.mp hm).2.trans (heq.trans (tableIn_eq_some_iff.mp hm').2.symm)
  exact hne _ hevents _ hevents' ((fileNameToTableName_eq_iff _ _ _ _ _ _).mp hsame)

/-- With the elements for the tables of metrics that are left, each is printed once. -/
theorem sysRows_metric_perm {rows : List SysRow}
    (h : event_tables.mapM (sysEventRow (dirs.map sysPair) metric_tables) = some rows)
    (hnodup : event_tables.Nodup) (hnodup' : metric_tables.Nodup) :
    ((rows ++ (metric_tables.filter fun tblname =>
        tblname ∉ rows.filterMap SysRow.metric_table).map sysMetricRow).filterMap
      SysRow.metric_table).Perm metric_tables := by
  have hothers (l : List Text) : (l.map sysMetricRow).filterMap SysRow.metric_table = l := by
    rw [List.filterMap_map]
    exact List.filterMap_some
  have hprinted : ∀ m ∈ rows.filterMap SysRow.metric_table, m ∈ metric_tables := by
    intro m hm
    obtain ⟨row, hrow, hrowm⟩ := List.mem_filterMap.mp hm
    obtain ⟨parents, -, -, hmetrics, -⟩ := (sysEventRows_tables h).2 row hrow
    rw [hmetrics] at hrowm
    obtain ⟨hmem, rfl⟩ := tableIn_eq_some_iff.mp hrowm
    exact hmem
  rw [List.filterMap_append, hothers]
  refine (List.perm_ext_iff_of_nodup ?_ hnodup').mpr fun m => ?_
  · refine (sysEventRows_nodup h hnodup).append (hnodup'.filter _) fun m hm hother => ?_
    exact of_decide_eq_true (List.mem_filter.mp hother).2 hm
  · rw [List.mem_append, List.mem_filter, decide_eq_true_eq]
    constructor
    · rintro (hm | ⟨hm, -⟩)
      · exact hprinted m hm
      · exact hm
    · intro hm
      by_cases hprint : m ∈ rows.filterMap SysRow.metric_table
      · exact .inl hprint
      · exact .inr ⟨hm, hprint⟩

end Rows

/-! ## The printed table -/

/-- The elements of the table are those of the system PMUs: every table is printed once, and
the two tables of one directory in one element. -/
structure SysRowsOf (dirs : List (List Text)) (event_tables metric_tables : List Text)
    (rows : List SysRow) : Prop where
  events : rows.filterMap SysRow.event_table = event_tables
  metrics : event_tables.Nodup → metric_tables.Nodup →
    (rows.filterMap SysRow.metric_table).Perm metric_tables
  together : ∀ row ∈ rows, row.event_table.isSome → ∃ parents ∈ dirs,
    row.event_table = some (sysTable "pmu_events_".toList parents) ∧
    row.metric_table = tableIn metric_tables (sysTable "pmu_metrics_".toList parents)
  names : ∀ row ∈ rows, row.event_table.or row.metric_table = some row.name

theorem printSystemMappingTable_eq_none_iff {s : WalkState} :
    printSystemMappingTable s = none ↔
      s.events.sysTables.mapM (sysEventRow s.sysMapping s.metrics.sysTables) = none := by
  rw [printSystemMappingTable]
  cases s.events.sysTables.mapM (sysEventRow s.sysMapping s.metrics.sysTables) with
  | none => exact iff_of_true rfl rfl
  | some rows => exact iff_of_false (by simp) (by simp)

/-- The rows with events first, then those of the other tables of metrics. -/
theorem sysRowsOf_of_printed {s : WalkState} {dirs : List (List Text)} {rows : List SysRow}
    (hmapping : s.sysMapping = dirs.map sysPair) (h : printSystemMappingTable s = some rows) :
    SysRowsOf dirs s.events.sysTables s.metrics.sysTables rows := by
  obtain ⟨eventRows, heventRows, hrows⟩ := Option.bind_eq_some_iff.mp h
  obtain rfl := Option.some.inj hrows
  rw [hmapping] at heventRows
  obtain ⟨htables, hrows⟩ := sysEventRows_tables heventRows
  refine ⟨?_, sysRows_metric_perm heventRows, ?_, ?_⟩
  · rw [List.filterMap_append, htables, List.filterMap_map]
    have hnone : (fun tblname => (sysMetricRow tblname).event_table) = fun _ => none := rfl
    simp [hnone]
  · intro row hrow hsome
    rcases List.mem_append.mp hrow with hrow | hrow
    · obtain ⟨parents, hparents, hevent, hmetric, -⟩ := hrows row hrow
      exact ⟨parents, hparents, hevent, hmetric⟩
    · obtain ⟨tblname, -, rfl⟩ := List.mem_map.mp hrow
      cases hsome
  · intro row hrow
    rcases List.mem_append.mp hrow with hrow | hrow
    · obtain ⟨parents, -, hevent, -, hname⟩ := hrows row hrow
      rw [hevent, hname, Option.some_or]
    · obtain ⟨tblname, -, rfl⟩ := List.mem_map.mp hrow
      rfl

/-- The system tables are those of the files with events. -/
theorem mem_sysTables_iff {t : TableState} (hlists : ListsWritten t) {objects : List EventObject}
    {table : EventObject → Text} (hwritten : t.written.Perm (objects.map fun e => (table e, e)))
    (tblname : Text) :
    tblname ∈ t.sysTables ↔
      "_sys".toList.isSuffixOf tblname ∧ ∃ e ∈ objects, table e = tblname := by
  rw [(hlists tblname).2]
  refine and_congr_right fun _ => ?_
  simp only [hwritten.mem_iff, List.mem_map, Prod.mk.injEq]
  constructor
  · rintro ⟨_, e, he, hname, -⟩
    exact ⟨e, he, hname⟩
  · rintro ⟨e, he, hname⟩
    exact ⟨e, e, he, hname, rfl⟩

/-- Where everything is written to the table of its own directory, the table of the system
PMUs is printed exactly if every file with an event whose table name ends in `_sys` is in a
directory called `sys`, or in one with the table name of such a directory. -/
theorem printSystemMappingTable_sysDirs (readJsonEvents : List Text → Text → List JsonEvent)
    (archs : List (Text × List Entry)) (h : WrittenToOwnTables readJsonEvents archs) :
    ∃ s, secondPass readJsonEvents archs = some s ∧
      (printSystemMappingTable s = none ↔
        ∃ e ∈ readObjects readJsonEvents hasName archs,
          "_sys".toList.isSuffixOf (ownTable "pmu_events_".toList e) ∧
          ∀ parents ∈ sysDirs archs,
            sysTable "pmu_events_".toList parents ≠ ownTable "pmu_events_".toList e) ∧
      ∀ rows, printSystemMappingTable s = some rows →
        SysRowsOf (sysDirs archs) s.events.sysTables s.metrics.sysTables rows := by
  obtain ⟨s, hpass, hevents, -⟩ := h
  obtain ⟨hlists, -⟩ := listsWritten_secondPass hpass
  have hmapping := sysMapping_secondPass hpass
  refine ⟨s, hpass, ?_, fun rows hrows => sysRowsOf_of_printed hmapping hrows⟩
  rw [printSystemMappingTable_eq_none_iff, hmapping, mapM_eq_none_iff]
  simp only [sysEventRow_eq_none_iff, mem_sysTables_iff hlists hevents]
  constructor
  · rintro ⟨_, ⟨hsuffix, e, he, rfl⟩, hnot⟩
    exact ⟨e, he, hsuffix, hnot⟩
  · rintro ⟨e, he, hsuffix, hnot⟩
    exact ⟨_, ⟨hsuffix, e, he, rfl⟩, hnot⟩

theorem printSystemMappingTable_sysDirs_twoModels :
    ∃ s, secondPass oneEvent twoModels = some s ∧
      ∀ rows, printSystemMappingTable s = some rows →
        SysRowsOf [["m-2".toList]] s.events.sysTables s.metrics.sysTables rows := by
  have hdirs : sysDirs twoModels = [["m-2".toList]] := by decide +kernel
  obtain ⟨s, hpass, -, hrows⟩ :=
    printSystemMappingTable_sysDirs oneEvent twoModels writtenToOwnTables_twoModels
  exact ⟨s, hpass, hdirs ▸ hrows⟩

end PmuEvents.Jevents
