import PmuEvents.Foundation.Traverse
import PmuEvents.Jevents.TableRecord
import PmuEvents.Jevents.WalkOrder
set_option autoImplicit false

/-!
# The mapping table

`print_mapping_table` writes a row for each CPU that a mapfile names, with the tables of
events and metrics of the directory in the row, or NULL where the second pass has written
no such table.  What `csv.reader` returns for a mapfile is a parameter.  The main results:
for which mapfiles the table is written, which rows it has, and that the tables of a row
hold exactly the events and metrics of the directory the row names.
-/

namespace PmuEvents.Jevents

open PmuEvents.Foundation

/-- A row that `csv.reader` returns. -/
abbrev CsvRow := List Text

/-- A row of `pmu_events_map`: the text between the quotes of its `.cpuid`, and the names of
its tables; `none` for NULL. -/
structure MapRow where
  arch : Text
  cpuid : Text
  event_table : Option Text
  metric_table : Option Text
  deriving DecidableEq, Repr

/-- The name of the table of the directory that a row of a mapfile names. -/
def rowTable (prefixText : Text) (path : Text) : Text :=
  fileNameToTableName prefixText [] (replaceChar '/' ['_'] path)

/-- The name of a table, if there is such a table. -/
def tableIn (tables : List Text) (tblname : Text) : Option Text :=
  if tblname ∈ tables then some tblname else none

theorem tableIn_eq_some_iff {tables : List Text} {tblname name : Text} :
    tableIn tables tblname = some name ↔ tblname ∈ tables ∧ tblname = name := by
  unfold tableIn
  split
  · rename_i hmem
    simp [hmem]
  · rename_i hmem
    simp [hmem]

section Print

variable (event_tables metric_tables : List Text)

/-- The body of the loop over the rows of a mapfile; the outer `none` is the exception for a
row with too few fields, the inner one a row that is left out. -/
def mapRow (arch : Text) (row : CsvRow) : Option (Option MapRow) :=
  match row[0]?, row[2]? with
  | some cpuid, some path =>
    let event_table := tableIn event_tables (rowTable "pmu_events_".toList path)
    let metric_table := tableIn metric_tables (rowTable "pmu_metrics_".toList path)
    if event_table = none ∧ metric_table = none then some none
    else
      some (some { arch, cpuid := replaceChar '\\' ['\\', '\\'] cpuid, event_table, metric_table })
  | _, _ => none

/-- A row that is neither empty nor a comment. -/
def isData (row : CsvRow) : Bool :=
  match row with
  | [] => false
  | field :: _ => !"#".toList.isPrefixOf field

/-- The loop over the rows of a mapfile. -/
def mapfileRows (arch : Text) : Bool → List CsvRow → Option (List MapRow)
  | _, [] => some []
  | first, row :: table =>
    -- skip the first row or any row beginning with #
    if !first && isData row then do
      let printed ← mapRow event_tables metric_tables arch row
      let rest ← mapfileRows arch false table
      return printed.toList ++ rest
    else mapfileRows arch false table

/-- The row of the architecture `test`. -/
def testRow : MapRow where
  arch := "testarch".toList
  cpuid := "testcpu".toList
  event_table := some "pmu_events__test_soc_cpu".toList
  metric_table := some "pmu_metrics__test_soc_cpu".toList

/-- The row of the architecture `common`. -/
def commonRow : MapRow where
  arch := "common".toList
  cpuid := "common".toList
  event_table := some "pmu_events__common".toList
  metric_table := none

/-- The rows of one architecture; `mapfile` is `none` where the file cannot be opened. -/
def archRows (mapfile : Text → Option (List CsvRow)) (arch : Text) : Option (List MapRow) :=
  if arch = "test".toList then some [testRow]
  else if arch = "common".toList then some [commonRow]
  else (mapfile arch).bind (mapfileRows event_tables metric_tables arch true)

/-- `print_mapping_table`: the rows in front of the one that ends the table. -/
def printMappingTable (mapfile : Text → Option (List CsvRow)) (archs : List Text) :
    Option (List MapRow) :=
  (archs.mapM (archRows event_tables metric_tables mapfile)).map List.flatten

end Print

/-! ## Paths -/

/-- The names of a path, each behind an underscore. -/
theorem replaceChar_intercalate {path : List Text} (hne : path ≠ [])
    (h : ∀ name ∈ path, '/' ∉ name) :
    '_' :: replaceChar '/' ['_'] (['/'].intercalate path) =
      path.flatMap fun name => '_' :: name := by
  induction path with
  | nil => exact absurd rfl hne
  | cons name path ih =>
    rw [List.forall_mem_cons] at h
    cases path with
    | nil =>
      simp [List.intercalate, replaceChar_of_not_mem h.1]
    | cons next path =>
      have hsplit : ['/'].intercalate (name :: next :: path) =
          name ++ '/' :: ['/'].intercalate (next :: path) := by
        simp [List.intercalate, List.intersperse]
      have hslash (t : Text) : replaceChar '/' ['_'] ('/' :: t) =
          '_' :: replaceChar '/' ['_'] t := by
        simp [replaceChar]
      rw [hsplit, replaceChar_append, replaceChar_of_not_mem h.1, hslash,
        ih (List.cons_ne_nil _ _) h.2]
      rfl

/-- A path names the table of its directory. -/
theorem rowTable_intercalate (prefixText : Text) {path : List Text} (hne : path ≠ [])
    (h : ∀ name ∈ path, '/' ∉ name) :
    rowTable prefixText (['/'].intercalate path) =
      fileNameToTableName prefixText path.dropLast (path.getLastD []) := by
  have hlast : path = path.dropLast ++ [path.getLastD []] := by
    rw [List.getLastD_eq_getLast?, List.getLast?_eq_getLast_of_ne_nil hne, Option.getD_some,
      List.dropLast_concat_getLast]
  rw [rowTable, fileNameToTableName, fileNameToTableName, List.flatMap_nil, List.append_nil,
    replaceChar_intercalate hne h, List.append_assoc]
  congr 2
  conv_lhs => rw [hlast]
  rw [List.flatMap_append, List.flatMap_singleton]

/-! ## The tables that are written -/

/-- A table has a name in one of the two lists exactly if something was written to it. -/
def ListsWritten (t : TableState) : Prop :=
  ∀ tblname,
    (tblname ∈ t.tables ↔ ¬ "_sys".toList.isSuffixOf tblname ∧ ∃ e, (tblname, e) ∈ t.written) ∧
    (tblname ∈ t.sysTables ↔ "_sys".toList.isSuffixOf tblname ∧ ∃ e, (tblname, e) ∈ t.written)

theorem listsWritten_init : ListsWritten .init := by
  simp [ListsWritten, TableState.init]

/-- What closing a table does: nothing, or everything pending is written and the name of the
table is added to its list. -/
theorem printPending_cases {writer : Writer EventObject} {t t' : TableState}
    (h : printPending writer t = some t') :
    (t.pending = [] ∧ t' = t) ∨
      ∃ tblname, t.tblname = some tblname ∧ t.pending ≠ [] ∧
        writer.check (writer.sort t.pending) = true ∧
        t' =
          { t with
            pending := []
            tables := if "_sys".toList.isSuffixOf tblname then t.tables else t.tables ++ [tblname]
            sysTables :=
              if "_sys".toList.isSuffixOf tblname then t.sysTables ++ [tblname] else t.sysTables
            written :=
              t.written ++ (writer.sort t.pending).map fun event => (tblname, event) } := by
  unfold printPending at h
  by_cases hempty : t.pending.isEmpty
  · rw [if_pos hempty] at h
    exact .inl ⟨List.isEmpty_iff.mp hempty, (Option.some.inj h).symm⟩
  · rw [if_neg hempty] at h
    cases htblname : t.tblname with
    | none =>
      rw [htblname] at h
      cases h
    | some tblname =>
      rw [htblname] at h
      dsimp only at h
      by_cases hcheck : writer.check (writer.sort t.pending) = true
      · rw [if_pos hcheck] at h
        exact .inr ⟨tblname, rfl, fun hnil => hempty (List.isEmpty_iff.mpr hnil), hcheck,
          (Option.some.inj h).symm⟩
      · rw [if_neg hcheck] at h
        cases h

theorem ListsWritten.printPending {writer : Writer EventObject} {t t' : TableState}
    (h : ListsWritten t) (hprint : printPending writer t = some t') : ListsWritten t' := by
  obtain ⟨-, rfl⟩ | ⟨tblname, -, hne, -, rfl⟩ := printPending_cases hprint
  · exact h
  · obtain ⟨e, he⟩ : ∃ e, e ∈ writer.sort t.pending := by
      obtain ⟨e, he⟩ := List.exists_mem_of_ne_nil _ hne
      exact ⟨e, (writer.perm _).mem_iff.mpr he⟩
    intro name
    have hmem : (∃ e, (name, e) ∈ t.written ++ (writer.sort t.pending).map
        fun event => (tblname, event)) ↔ (∃ e, (name, e) ∈ t.written) ∨ name = tblname := by
      simp only [List.mem_append, List.mem_map, Prod.mk.injEq, exists_or]
      constructor
      · rintro (hold | ⟨_, _, _, hname, _⟩)
        · exact .inl hold
        · exact .inr hname.symm
      · rintro (hold | rfl)
        · exact .inl hold
        · exact .inr ⟨e, e, he, rfl, rfl⟩
    obtain ⟨htables, hsys⟩ := h name
    simp only [hmem]
    by_cases hsuffix : "_sys".toList.isSuffixOf tblname = true
    · simp only [if_pos hsuffix, List.mem_append, List.mem_singleton, htables, hsys]
      grind
    · simp only [if_neg hsuffix, List.mem_append, List.mem_singleton, htables, hsys]
      grind

section Pass

variable {readJsonEvents : List Text → Text → List JsonEvent}

/-- Both kinds of tables are in their lists. -/
def BothListsWritten (s : WalkState) : Prop := ListsWritten s.events ∧ ListsWritten s.metrics

theorem bothListsWritten_processOneFile {s : WalkState} {v : Visit} {s' : WalkState}
    (hstep : processOneFile readJsonEvents s v = some s') (h : BothListsWritten s) :
    BothListsWritten s' := by
  unfold processOneFile at hstep
  cases hitem : v.item with
  | dir name entries =>
    rw [hitem] at hstep
    dsimp only at hstep
    by_cases hleaf : isLeafDirIgnoringSys entries = true
    · rw [if_pos hleaf] at hstep
      obtain ⟨events, hevents, hstep⟩ := Option.bind_eq_some_iff.mp hstep
      obtain ⟨metrics, hmetrics, hstep⟩ := Option.bind_eq_some_iff.mp hstep
      obtain rfl := Option.some.inj hstep
      have hevents : ListsWritten events := h.1.printPending hevents
      have hmetrics : ListsWritten metrics := h.2.printPending hmetrics
      exact ⟨hevents, hmetrics⟩
    · rw [if_neg hleaf] at hstep
      exact Option.some.inj hstep ▸ h
  | file name =>
    rw [hitem] at hstep
    obtain rfl := Option.some.inj hstep
    exact h

theorem bothListsWritten_processArch {s : WalkState} {arch : Text × List Entry} {s' : WalkState}
    (hstep : processArch readJsonEvents s arch = some s') (h : BothListsWritten s) :
    BothListsWritten s' := by
  obtain ⟨walked, hwalk, hstep⟩ := Option.bind_eq_some_iff.mp hstep
  obtain ⟨events, hevents, hstep⟩ := Option.bind_eq_some_iff.mp hstep
  obtain ⟨metrics, hmetrics, hstep⟩ := Option.bind_eq_some_iff.mp hstep
  obtain rfl := Option.some.inj hstep
  have hwalked : BothListsWritten walked :=
    foldlM_some_keeps (fun _ _ _ => bothListsWritten_processOneFile) hwalk h
  exact ⟨hwalked.1.printPending hevents, hwalked.2.printPending hmetrics⟩

/-- After the second pass the lists of table names are those of the tables written. -/
theorem listsWritten_secondPass {archs : List (Text × List Entry)} {s : WalkState}
    (h : secondPass readJsonEvents archs = some s) : BothListsWritten s :=
  foldlM_some_keeps (fun _ _ _ => bothListsWritten_processArch) h
    ⟨listsWritten_init, listsWritten_init⟩

end Pass

/-! ## The rows by directories -/

/-- The rows of a mapfile behind its first one that are neither empty nor comments. -/
def dataRows (table : List CsvRow) : List CsvRow := table.tail.filter isData

/-- A mapfile with which the rows of an architecture are printed. -/
def Printable (mapfile : Text → Option (List CsvRow)) (arch : Text) : Prop :=
  arch = "test".toList ∨ arch = "common".toList ∨
    (mapfile arch).isSome ∧ ∀ row ∈ dataRows ((mapfile arch).getD []), 3 ≤ row.length

instance (mapfile : Text → Option (List CsvRow)) (arch : Text) :
    Decidable (Printable mapfile arch) :=
  inferInstanceAs (Decidable (_ ∨ _ ∨ _))

section Directories

variable (readJsonEvents : List Text → Text → List JsonEvent)
variable (archs : List (Text × List Entry))

/-- What the files of the directories with a table name hold. -/
def tableObjects (prefixText : Text) (holds : JsonEvent → Bool) (tblname : Text) :
    List EventObject :=
  (readObjects readJsonEvents holds archs).filter fun e => ownTable prefixText e = tblname

/-- The table of the directory with a path: none where its files hold nothing, and for the
directories of system PMUs. -/
def directoryTable (prefixText : Text) (holds : JsonEvent → Bool) (path : Text) : Option Text :=
  let tblname := rowTable prefixText path
  if "_sys".toList.isSuffixOf tblname ∨
      tableObjects readJsonEvents archs prefixText holds tblname = [] then none
  else some tblname

/-- The row for a row of a mapfile; none where the directory has neither table. -/
def directoryRow (arch : Text) (row : CsvRow) : Option MapRow :=
  let path := row.getD 2 []
  let event_table := directoryTable readJsonEvents archs "pmu_events_".toList hasName path
  let metric_table := directoryTable readJsonEvents archs "pmu_metrics_".toList hasMetricName path
  if event_table = none ∧ metric_table = none then none
  else
    some
      { arch
        cpuid := replaceChar '\\' ['\\', '\\'] (row.getD 0 [])
        event_table
        metric_table }

/-- The rows of an architecture. -/
def directoryRows (mapfile : Text → Option (List CsvRow)) (arch : Text) : List MapRow :=
  if arch = "test".toList then [testRow]
  else if arch = "common".toList then [commonRow]
  else (dataRows ((mapfile arch).getD [])).filterMap (directoryRow readJsonEvents archs arch)

/-- A list of names is that of the tables of the directories that have one. -/
def ListsTables (prefixText : Text) (holds : JsonEvent → Bool) (tables : List Text) : Prop :=
  ∀ tblname, tblname ∈ tables ↔ ¬ "_sys".toList.isSuffixOf tblname ∧
    tableObjects readJsonEvents archs prefixText holds tblname ≠ []

variable {readJsonEvents archs}

theorem tableIn_eq_directoryTable {tables : List Text} {prefixText : Text}
    {holds : JsonEvent → Bool} (h : ListsTables readJsonEvents archs prefixText holds tables)
    (path : Text) :
    tableIn tables (rowTable prefixText path) =
      directoryTable readJsonEvents archs prefixText holds path := by
  unfold tableIn directoryTable
  by_cases hmem : rowTable prefixText path ∈ tables
  · rw [if_pos hmem, if_neg (not_or.mpr ((h _).mp hmem))]
  · rw [if_neg hmem, if_pos (by_contra fun hnot => hmem ((h _).mpr (not_or.mp hnot)))]

variable {event_tables metric_tables : List Text}
variable (hevents : ListsTables readJsonEvents archs "pmu_events_".toList hasName event_tables)
variable (hmetrics :
  ListsTables readJsonEvents archs "pmu_metrics_".toList hasMetricName metric_tables)
include hevents hmetrics

/-- A row with a third field is printed as its directory says; one without raises. -/
theorem mapRow_eq (arch : Text) (row : CsvRow) :
    mapRow event_tables metric_tables arch row =
      if 3 ≤ row.length then some (directoryRow readJsonEvents archs arch row) else none := by
  unfold mapRow directoryRow
  by_cases hlen : 3 ≤ row.length
  · rw [if_pos hlen, List.getElem?_eq_getElem (show 0 < row.length by omega),
      List.getElem?_eq_getElem (show 2 < row.length by omega)]
    simp only [tableIn_eq_directoryTable hevents, tableIn_eq_directoryTable hmetrics,
      List.getD_eq_getElem?_getD, List.getElem?_eq_getElem (show 0 < row.length by omega),
      List.getElem?_eq_getElem (show 2 < row.length by omega), Option.getD_some]
    split <;> rfl
  · rw [if_neg hlen, List.getElem?_eq_none (show row.length ≤ 2 by omega)]
    cases row[0]? <;> rfl

/-- The loop behind the first row. -/
theorem mapfileRows_false (arch : Text) (table : List CsvRow) :
    mapfileRows event_tables metric_tables arch false table =
      if ∀ row ∈ table.filter isData, 3 ≤ row.length then
        some ((table.filter isData).filterMap (directoryRow readJsonEvents archs arch))
      else none := by
  induction table with
  | nil => rfl
  | cons row table ih =>
    rw [mapfileRows, ih, Bool.not_false, Bool.true_and]
    by_cases hdata : isData row
    · have hcons : (∀ r ∈ row :: table.filter isData, 3 ≤ r.length) ↔
          3 ≤ row.length ∧ ∀ r ∈ table.filter isData, 3 ≤ r.length := List.forall_mem_cons
      rw [if_pos hdata, List.filter_cons_of_pos hdata, mapRow_eq hevents hmetrics]
      simp only [hcons]
      by_cases hlen : 3 ≤ row.length
      · by_cases hrest : ∀ r ∈ table.filter isData, 3 ≤ r.length
        · rw [if_pos hlen, if_pos hrest, if_pos ⟨hlen, hrest⟩, List.filterMap_cons]
          cases directoryRow readJsonEvents archs arch row <;> rfl
        · rw [if_pos hlen, if_neg hrest, if_neg fun h => hrest h.2]
          rfl
      · rw [if_neg hlen]
        exact (if_neg fun h => hlen h.1).symm
    · rw [if_neg hdata, List.filter_cons_of_neg hdata]

/-- The loop over a mapfile uses its data rows. -/
theorem mapfileRows_eq (arch : Text) (table : List CsvRow) :
    mapfileRows event_tables metric_tables arch true table =
      if ∀ row ∈ dataRows table, 3 ≤ row.length then
        some ((dataRows table).filterMap (directoryRow readJsonEvents archs arch))
      else none := by
  cases table with
  | nil => rfl
  | cons row table => exact mapfileRows_false hevents hmetrics arch table

theorem archRows_eq (mapfile : Text → Option (List CsvRow)) (arch : Text) :
    archRows event_tables metric_tables mapfile arch =
      if Printable mapfile arch then some (directoryRows readJsonEvents archs mapfile arch)
      else none := by
  unfold archRows directoryRows
  by_cases htest : arch = "test".toList
  · rw [if_pos htest, if_pos htest, if_pos (.inl htest)]
  · rw [if_neg htest, if_neg htest]
    by_cases hcommon : arch = "common".toList
    · rw [if_pos hcommon, if_pos hcommon, if_pos (.inr (.inl hcommon))]
    · rw [if_neg hcommon, if_neg hcommon]
      have hprintable : Printable mapfile arch ↔
          (mapfile arch).isSome ∧ ∀ row ∈ dataRows ((mapfile arch).getD []), 3 ≤ row.length := by
        unfold Printable
        simp only [htest, hcommon, false_or]
      rw [if_congr hprintable rfl rfl]
      cases hfile : mapfile arch with
      | none => simp
      | some table =>
        rw [Option.bind_some, mapfileRows_eq hevents hmetrics]
        simp

/-- The rows are those of the directories that the mapfiles name. -/
theorem printMappingTable_eq (mapfile : Text → Option (List CsvRow)) (names : List Text) :
    printMappingTable event_tables metric_tables mapfile names =
      if ∀ arch ∈ names, Printable mapfile arch then
        some (names.flatMap (directoryRows readJsonEvents archs mapfile))
      else none := by
  rw [printMappingTable, mapM_eq_ite (archRows_eq hevents hmetrics mapfile), List.flatMap_def]
  split <;> rfl

omit hevents hmetrics

/-- What is written under a name are the objects with that name. -/
theorem written_perm_tableObjects {prefixText : Text} {holds : JsonEvent → Bool}
    {written : List (Text × EventObject)}
    (h : written.Perm ((readObjects readJsonEvents holds archs).map
      fun e => (ownTable prefixText e, e))) (tblname : Text) :
    ((written.filter fun entry => entry.1 = tblname).map Prod.snd).Perm
      (tableObjects readJsonEvents archs prefixText holds tblname) := by
  have hperm := (h.filter fun entry => entry.1 = tblname).map Prod.snd
  rw [List.filter_map, List.map_map] at hperm
  exact hperm.trans (.of_eq (List.map_id _))

theorem listsTables_of_written {prefixText : Text} {holds : JsonEvent → Bool} {t : TableState}
    (hlists : ListsWritten t)
    (h : t.written.Perm ((readObjects readJsonEvents holds archs).map
      fun e => (ownTable prefixText e, e))) :
    ListsTables readJsonEvents archs prefixText holds t.tables := by
  intro tblname
  rw [(hlists tblname).1]
  refine and_congr_right fun _ => ?_
  simp only [h.mem_iff, List.mem_map, Prod.mk.injEq, tableObjects, ne_eq, List.filter_eq_nil_iff,
    decide_eq_true_eq, not_forall, not_not]
  constructor
  · rintro ⟨_, e, he, htable, -⟩
    exact ⟨e, he, htable⟩
  · rintro ⟨e, he, htable⟩
    exact ⟨e, e, he, htable, rfl⟩

/-- An object is one of the directory that its file is in. -/
theorem mem_tableObjects_path {prefixText : Text} {holds : JsonEvent → Bool} {e : EventObject}
    (h : e ∈ readObjects readJsonEvents holds archs) (hnames : ∀ name ∈ e.parents, '/' ∉ name) :
    e ∈ tableObjects readJsonEvents archs prefixText holds
      (rowTable prefixText (['/'].intercalate e.parents)) := by
  have hne : e.parents ≠ [] := by
    obtain ⟨v, -, hv⟩ := List.mem_flatMap.mp h
    obtain ⟨-, hne, hparents⟩ := fileEvents_spec readJsonEvents (List.mem_filter.mp hv).1
    exact hparents ▸ hne
  rw [tableObjects, List.mem_filter, rowTable_intercalate prefixText hne hnames]
  exact ⟨h, decide_eq_true rfl⟩

end Directories

/-! ## The printed table -/

/-- Where everything is written to the table of its own directory, the mapping table is
printed exactly if all mapfiles can be read and their data rows have three fields.  Its
rows are those of the directories that the mapfiles name, in their order, and every table
holds what the files of its directory hold. -/
theorem printMappingTable_directories (readJsonEvents : List Text → Text → List JsonEvent)
    (mapfile : Text → Option (List CsvRow)) (archs : List (Text × List Entry))
    (h : WrittenToOwnTables readJsonEvents archs) :
    ∃ s, secondPass readJsonEvents archs = some s ∧
      printMappingTable s.events.tables s.metrics.tables mapfile (archs.map Prod.fst) =
        (if ∀ arch ∈ archs.map Prod.fst, Printable mapfile arch then
          some ((archs.map Prod.fst).flatMap (directoryRows readJsonEvents archs mapfile))
        else none) ∧
      (∀ tblname,
        ((s.events.written.filter fun entry => entry.1 = tblname).map Prod.snd).Perm
          (tableObjects readJsonEvents archs "pmu_events_".toList hasName tblname) ∧
        ((s.metrics.written.filter fun entry => entry.1 = tblname).map Prod.snd).Perm
          (tableObjects readJsonEvents archs "pmu_metrics_".toList hasMetricName tblname)) ∧
      ∀ prefixText holds, ∀ e ∈ readObjects readJsonEvents holds archs,
        (∀ name ∈ e.parents, '/' ∉ name) →
          e ∈ tableObjects readJsonEvents archs prefixText holds
            (rowTable prefixText (['/'].intercalate e.parents)) := by
  obtain ⟨s, hpass, hevents, hmetrics⟩ := h
  obtain ⟨hlists, hlists'⟩ := listsWritten_secondPass hpass
  refine ⟨s, hpass, ?_, ?_, ?_⟩
  · exact printMappingTable_eq (listsTables_of_written hlists hevents)
      (listsTables_of_written hlists' hmetrics) mapfile _
  · exact fun tblname =>
      ⟨written_perm_tableObjects hevents tblname, written_perm_tableObjects hmetrics tblname⟩
  · exact fun prefixText holds e he hnames => mem_tableObjects_path he hnames

/-- Two model directories, one of them with a `sys` directory. -/
def twoModels : List (Text × List Entry) :=
  [("x86".toList,
    [.dir "m-1".toList [.file "cache.json".toList],
     .dir "m-2".toList [.file "core.json".toList, .dir "sys".toList [.file "t.json".toList]]])]

/-- A mapfile for the second of them and for two directories without tables. -/
def twoModelsMapfile (_arch : Text) : Option (List CsvRow) :=
  some
    [["Family-model".toList, "Version".toList, "Filename".toList],
     ["# none".toList],
     ["GenuineIntel-6-2\\d".toList, "v1".toList, "m-2".toList, "core".toList],
     ["GenuineIntel-6-3A".toList, "v1".toList, "m-2/sys".toList],
     [],
     ["GenuineIntel-6-3B".toList, "v1".toList, "m-3".toList]]

instance (readJsonEvents : List Text → Text → List JsonEvent)
    (archs : List (Text × List Entry)) : Decidable (WrittenToOwnTables readJsonEvents archs) :=
  match h : secondPass readJsonEvents archs with
  | none => .isFalse fun ⟨_, hpass, _⟩ => Option.some_ne_none _ (hpass.symm.trans h)
  | some s =>
    decidable_of_iff
      (s.events.written.Perm ((readObjects readJsonEvents hasName archs).map
          fun e => (ownTable "pmu_events_".toList e, e)) ∧
        s.metrics.written.Perm ((readObjects readJsonEvents hasMetricName archs).map
          fun e => (ownTable "pmu_metrics_".toList e, e)))
      ⟨fun hperm => ⟨s, h, hperm⟩,
        fun ⟨_, hpass, hperm⟩ => Option.some.inj (hpass.symm.trans h) ▸ hperm⟩

theorem writtenToOwnTables_twoModels : WrittenToOwnTables oneEvent twoModels := by
  decide +kernel

theorem printMappingTable_directories_twoModels :
    ∃ s, secondPass oneEvent twoModels = some s ∧
      printMappingTable s.events.tables s.metrics.tables twoModelsMapfile ["x86".toList] =
        some [{ arch := "x86".toList, cpuid := "GenuineIntel-6-2\\\\d".toList
                event_table := some "pmu_events__m_2".toList, metric_table := none }] := by
  obtain ⟨s, hpass, hprint, -⟩ := printMappingTable_directories oneEvent twoModelsMapfile twoModels
    writtenToOwnTables_twoModels
  refine ⟨s, hpass, hprint.trans ?_⟩
  decide +kernel

end PmuEvents.Jevents
