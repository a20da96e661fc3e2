import PmuEvents.Jevents.ArchPass
import PmuEvents.Jevents.Decompress
import PmuEvents.Jevents.SysTables
import PmuEvents.Jevents.TableFile
import PmuEvents.Tables.MapForCpu
import Mathlib.Data.List.TakeWhile
set_option autoImplicit false

/-!
# A run of the generator

`main` from the files of all architectures to the big string and the mapping table of the
compiled file.  The second pass reads its files from the cache that the first one has left.
The main result says what the tables of a row are, in terms of the files: where the run
ends and the file compiles, the row of a directory has the events of this directory.
-/

namespace PmuEvents.Jevents

open PmuEvents.Foundation PmuEvents.Lib PmuEvents.Libc PmuEvents.Metric PmuEvents.Tables

/-! ## The run -/

/-- The architectures of a run, from the entries of the starting directory; `none` where the
architecture is missing. -/
def selectArchs (arch : Text) (starting_dir : List Entry) : Option (List (Text × List Entry)) :=
  let archs := starting_dir.filterMap fun
    | .file _ => none
    | .dir name entries =>
      if name = arch ∨ arch = "all".toList ∨ name = "test".toList ∨ name = "common".toList then
        some (name, entries)
      else none
  if archs.length < 2 ∧ arch ≠ "none".toList then none
  else some (archs.insertionSort fun a b => a.1 ≤ b.1)

/-- What `read_json_events` returns after the first pass. -/
def Generator.cached (g : Generator) (path : List Text) (topic : Text) : List JsonEvent :=
  (g.cache path topic).getD []

/-- The string that a pointer to these bytes points at. -/
def cString (bytes : List UInt8) : CStr := bytes.takeWhile (· ≠ 0)

/-- A row of the mapping table as the compiler fills it in. -/
def MapRow.compile (link : Text → Option (List PmuTableEntry)) (row : MapRow) :
    Option PmuEventsMap := do
  let arch ← cBytes (quoted row.arch)
  let cpuid ← cBytes (quoted row.cpuid)
  let event_table ← row.event_table.elim (some []) link
  let metric_table ← row.metric_table.elim (some []) link
  return { arch := cString arch, cpuid := cString cpuid, event_table, metric_table }

/-- What a run leaves: the architectures, the globals after the first pass, the offsets, and
the big string and the mapping table of the compiled file. -/
structure Generated where
  archs : List (Text × List Entry)
  globals : Generator
  offsets : List (Text × Int)
  big_c_string : List UInt8
  pmu_events_map : List PmuEventsMap

section Generate

variable (lower : Text → Text) (parseMetric : Text → Except PyError Expr) (files : JsonFiles)
variable (setOrder : SetOrder) (mapfile : Text → Option (List CsvRow))

/-- `main` for all models, and the compilation of its file; `none` where one of them fails.
The strings that `print_metricgroups` looks up are all in the big string.  Of the file the parts
that are compiled here are the big string, the arrays and tables and the mapping table: the
comments that `print_metricgroups` writes the group names into are left out. -/
def generate (arch : Text) (starting_dir : List Entry) : Option Generated := do
  let archs ← selectArchs arch starting_dir
  let globals ← (firstPass "all".toList lower parseMetric files archs).toOption
  let (source, offsets) ← globals.bcs.compute setOrder
  let (s, lines) ← secondPassLines offsets globals.cached archs
  let rows ← printMappingTable s.events.tables s.metrics.tables mapfile (archs.map Prod.fst)
  let _ ← printSystemMappingTable s
  -- from here on the compiler
  let big_c_string ← cBytes source
  let defs ← definitions lines
  if (defs.map Definition.name).Nodup then
    let pmu_events_map ← rows.mapM (MapRow.compile (linkTable defs))
    return { archs, globals, offsets, big_c_string, pmu_events_map }
  else none

/-- What the parts of a run that ends are. -/
structure Generates (archs : List (Text × List Entry)) (generated : Generated)
    (defs : List Definition) (rows : List MapRow) : Prop where
  first : firstPass "all".toList lower parseMetric files archs = .ok generated.globals
  compute : ∃ source, generated.globals.bcs.compute setOrder = some (source, generated.offsets) ∧
    cBytes source = some generated.big_c_string
  second : ∃ s lines, secondPassLines generated.offsets generated.globals.cached archs =
      some (s, lines) ∧ definitions lines = some defs ∧
    printMappingTable s.events.tables s.metrics.tables mapfile (archs.map Prod.fst) = some rows
  names : (defs.map Definition.name).Nodup
  compiled : rows.mapM (MapRow.compile (linkTable defs)) = some generated.pmu_events_map

variable {lower parseMetric files setOrder mapfile}

theorem generates_of_generate {arch : Text} {starting_dir : List Entry} {generated : Generated}
    (h : generate lower parseMetric files setOrder mapfile arch starting_dir = some generated) :
    ∃ defs rows, Generates lower parseMetric files setOrder mapfile generated.archs generated
      defs rows := by
  simp only [generate, Option.bind_eq_bind, Option.bind_eq_some_iff] at h
  obtain ⟨archs, -, globals, hfirst, ⟨source, offsets⟩, hcompute, ⟨s, lines⟩, hsecond, rows,
    hrows, _, -, big_c_string, hbytes, defs, hdefs, h⟩ := h
  by_cases hnames : (defs.map Definition.name).Nodup
  · rw [if_pos hnames] at h
    obtain ⟨pmu_events_map, hcompiled, h⟩ := Option.bind_eq_some_iff.mp h
    obtain rfl := Option.some.inj h
    have hok : firstPass "all".toList lower parseMetric files archs = .ok globals := by
      cases hrun : firstPass "all".toList lower parseMetric files archs with
      | error err =>
        rw [hrun] at hfirst
        cases hfirst
      | ok g =>
        rw [hrun] at hfirst
        obtain rfl : g = globals := Option.some.inj hfirst
        rfl
    exact ⟨defs, rows, hok, ⟨source, hcompute, hbytes⟩, ⟨s, lines, hsecond, hdefs, hrows⟩,
      hnames, hcompiled⟩
  · rw [if_neg hnames] at h
    cases h

end Generate

/-! ## The files of the run -/

section Files

variable {lower : Text → Text} {parseMetric : Text → Except PyError Expr} {files : JsonFiles}

/-- What is in the cache was loaded from the files. -/
def CacheLoaded (lower : Text → Text) (parseMetric : Text → Except PyError Expr)
    (files : JsonFiles) (s : Generator) : Prop :=
  ∀ path topic events, s.cache path topic = some events → ∃ archStdEvents,
    loadJsonEvents lower parseMetric files archStdEvents path topic = .ok events

theorem cacheLoaded_of_readCached {s s' : Generator} {path : List Text} {topic : Text}
    {events : List JsonEvent}
    (h : readCached lower parseMetric files s path topic = .ok (events, s'))
    (hs : CacheLoaded lower parseMetric files s) : CacheLoaded lower parseMetric files s' := by
  unfold readCached at h
  split at h
  · obtain ⟨-, rfl⟩ := Prod.mk.inj (Except.ok.inj h)
    exact hs
  · obtain ⟨loaded, hloaded, h⟩ := except_bind_eq_ok.mp h
    obtain ⟨-, rfl⟩ := Prod.mk.inj (Except.ok.inj h)
    intro path' topic' events' hcache
    dsimp only at hcache
    split at hcache
    · rename_i heq
      obtain rfl := Option.some.inj hcache
      rw [heq.1, heq.2]
      exact ⟨s.archStdEvents, hloaded⟩
    · exact hs path' topic' events' hcache

theorem cacheLoaded_of_firstPassArch {model : Text} {s s' : Generator}
    {arch : Text × List Entry}
    (h : firstPassArch model lower parseMetric files s arch = .ok s')
    (hs : CacheLoaded lower parseMetric files s) : CacheLoaded lower parseMetric files s' := by
  obtain ⟨s₁, hstd, hwalk⟩ := except_bind_eq_ok.mp h
  refine foldlM_keeps (P := CacheLoaded lower parseMetric files) ?_ hwalk
    (foldlM_keeps (P := CacheLoaded lower parseMetric files) ?_ hstd hs)
  · intro t v t' _ hstep ht
    unfold preprocessOneFile at hstep
    split at hstep
    · cases hstep
      exact ht
    · split at hstep
      · cases hstep
        exact ht
      · split at hstep
        · cases hstep
          exact ht
        · split at hstep
          · split at hstep
            · cases hstep
            · refine foldlM_keeps (P := CacheLoaded lower parseMetric files) ?_ hstep ht
              intro u group u' _ hgroup hu
              rw [CacheLoaded, (addMetricgroup_cache hgroup).1]
              exact hu
          · obtain ⟨⟨events, u⟩, hread, hstep⟩ := except_bind_eq_ok.mp hstep
            cases hstep
            have hu : CacheLoaded lower parseMetric files u := cacheLoaded_of_readCached hread ht
            exact hu
  · intro t item t' _ hstep ht
    unfold preprocessArchStdFile at hstep
    split at hstep
    · cases hstep
      exact ht
    · split at hstep
      · obtain ⟨⟨events, u⟩, hread, hstep⟩ := except_bind_eq_ok.mp hstep
        cases hstep
        rw [CacheLoaded, (foldl_addArchStd_spec lower events u).1]
        exact cacheLoaded_of_readCached hread ht
      · cases hstep
        exact ht

/-- After the first pass the cache has what the files hold. -/
theorem cacheLoaded_of_firstPass {model : Text} {archs : List (Text × List Entry)}
    {g : Generator} (h : firstPass model lower parseMetric files archs = .ok g) :
    CacheLoaded lower parseMetric files g := by
  refine foldlM_keeps (P := CacheLoaded lower parseMetric files)
    (fun _ _ _ _ => cacheLoaded_of_firstPassArch) h ?_
  intro path topic events hcache
  cases hcache

end Files

/-! ## The strings of the run -/

section Strings

variable {lower : Text → Text} {parseMetric : Text → Except PyError Expr} {files : JsonFiles}

/-- An event comes from the file that its visit reads. -/
theorem fileRead_of_mem_fileEvents {readJsonEvents : List Text → Text → List JsonEvent}
    {v : Visit} {e : EventObject} (h : e ∈ fileEvents readJsonEvents v) :
    ∃ path topic, fileRead v = some (path, topic) ∧ e.event ∈ readJsonEvents path topic := by
  unfold fileEvents at h
  cases hitem : v.item with
  | dir name entries =>
    rw [hitem] at h
    cases h
  | file name =>
    rw [hitem] at h
    dsimp only at h
    by_cases hlevel : v.parents.length = 0 ∨ v.parents.length > 4
    · rw [if_pos hlevel] at h
      cases h
    · rw [if_neg hlevel] at h
      by_cases hskip : ¬ ".json".toList.isSuffixOf name ∨ name = "metricgroups.json".toList
      · rw [if_pos hskip] at h
        cases h
      · rw [if_neg hskip] at h
        obtain ⟨event, hevent, rfl⟩ := List.mem_map.mp h
        rw [not_or, not_not] at hskip
        have hgroups : ¬ isMetricgroups name := fun hname => hskip.2 (of_decide_eq_true hname)
        refine ⟨v.path, getTopic name, ?_, ?_⟩
        · exact fileRead_eq_some_iff.mpr
            ⟨name, hitem, hlevel, hskip.1, hgroups, rfl, rfl⟩
        · rw [Visit.path, hitem]
          exact hevent

/-- The strings of what the second pass reads are in the big string. -/
theorem eventAdded_of_fileEvents {archs : List (Text × List Entry)} {g : Generator}
    (hfirst : firstPass "all".toList lower parseMetric files archs = .ok g) {v : Visit}
    (hv : v ∈ allVisits archs) {e : EventObject} (he : e ∈ fileEvents g.cached v) :
    EventAdded g.bcs e.event := by
  obtain ⟨arch, harch, hwalk⟩ := List.mem_flatMap.mp hv
  rw [← ftwModel_all] at hwalk
  obtain ⟨path, topic, hread, hevent⟩ := fileRead_of_mem_fileEvents he
  obtain ⟨events, hcache, hadded⟩ := (firstPass_spec hfirst).2 arch harch v hwalk path topic hread
  rw [Generator.cached, hcache] at hevent
  exact hadded _ hevent

theorem recordAdded_of_readObjects {archs : List (Text × List Entry)} {g : Generator}
    (hfirst : firstPass "all".toList lower parseMetric files archs = .ok g) {metric : Bool}
    {e : EventObject} (he : e ∈ readObjects g.cached (holdsOf metric) archs) :
    RecordAdded g.bcs metric e.event := by
  obtain ⟨v, hv, hheld⟩ := List.mem_flatMap.mp he
  obtain ⟨he, hholds⟩ := List.mem_filter.mp hheld
  have hadded := eventAdded_of_fileEvents hfirst hv he
  cases metric with
  | false => exact hadded.asEvent hholds
  | true => exact hadded.asMetric hholds

/-- So they all have offsets. -/
theorem allAdded_of_firstPass {archs : List (Text × List Entry)} {g : Generator}
    (hfirst : firstPass "all".toList lower parseMetric files archs = .ok g)
    {setOrder : SetOrder} {source : Text} {offsets : List (Text × Int)}
    (hcompute : g.bcs.compute setOrder = some (source, offsets)) (metric : Bool) :
    AllAdded metric offsets (readObjects g.cached (holdsOf metric) archs) := by
  intro e he
  have hadded := recordAdded_of_readObjects hfirst he
  exact ⟨BigCString.lookup_isSome_of_compute hcompute hadded.record,
    BigCString.lookup_isSome_of_compute hcompute hadded.pmu⟩

end Strings

/-! ## The compiled mapping table -/

/-- The name of a table starts with the prefix of its kind. -/
theorem tablePrefix_prefix_fileName (metric : Bool) (parents : List Text) (dirname : Text) :
    tablePrefix metric <+: fileNameToTableName (tablePrefix metric) parents dirname := by
  have hdash : replaceChar '-' ['_'] (tablePrefix metric) = tablePrefix metric := by
    cases metric <;> decide
  rw [fileNameToTableName, List.append_assoc, replaceChar_append, hdash]
  exact List.prefix_append _ _

theorem tablePrefix_prefix_ownTable (metric : Bool) (e : EventObject) :
    tablePrefix metric <+: ownTable (tablePrefix metric) e :=
  tablePrefix_prefix_fileName _ _ _

theorem metric_eq_of_prefix {metric metric' : Bool} {tblname : Text}
    (h : tablePrefix metric <+: tblname) (h' : tablePrefix metric' <+: tblname) :
    metric = metric' := by
  have hstart := List.prefix_or_prefix_of_prefix h h'
  revert hstart
  cases metric <;> cases metric' <;> decide

/-- The text a CPU's id is compared with. -/
def rowPattern (row : MapRow) : CStr := cString ((cBytes (quoted row.cpuid)).getD [])

section Compiled

variable {lower : Text → Text} {parseMetric : Text → Except PyError Expr} {files : JsonFiles}
variable {setOrder : SetOrder} {mapfile : Text → Option (List CsvRow)}
variable {archs : List (Text × List Entry)} {generated : Generated}
variable {defs : List Definition} {rows : List MapRow}

/-- The run passes through a state in which everything is written to its own table, and the
definitions are those of this state. -/
theorem Generates.exists_wroteOwn
    (h : Generates lower parseMetric files setOrder mapfile archs generated defs rows)
    (hown : WrittenToOwnTables generated.globals.cached archs) :
    ∃ s, WroteOwn generated.globals.cached archs s ∧
      DefinesWritten generated.offsets defs s.written ∧
      printMappingTable s.events.tables s.metrics.tables mapfile (archs.map Prod.fst) =
        some rows := by
  obtain ⟨source, hcompute, -⟩ := h.compute
  obtain ⟨s, hwrote⟩ := Jevents.exists_wroteOwn hown
  obtain ⟨lines, hlines, defs', hdefs', hdefines⟩ :=
    secondPassLines_define (allAdded_of_firstPass h.first hcompute) hwrote.pass
  obtain ⟨s', lines', hlines', hdefs, hprint⟩ := h.second
  obtain ⟨rfl, rfl⟩ := Prod.mk.inj (Option.some.inj (hlines.symm.trans hlines'))
  obtain rfl := Option.some.inj (hdefs'.symm.trans hdefs)
  exact ⟨s, hwrote, hdefines, hprint⟩

/-- The rows of the run are those of the directories that the mapfiles name. -/
theorem Generates.rows_eq
    (h : Generates lower parseMetric files setOrder mapfile archs generated defs rows)
    (hown : WrittenToOwnTables generated.globals.cached archs) :
    rows = (archs.map Prod.fst).flatMap
      (directoryRows generated.globals.cached archs mapfile) := by
  obtain ⟨s, hwrote, -, hprint⟩ := h.exists_wroteOwn hown
  obtain ⟨hlists, hlists'⟩ := listsWritten_secondPass hwrote.pass
  rw [printMappingTable_eq (listsTables_of_written hlists (hwrote.written false))
    (listsTables_of_written hlists' (hwrote.written true))] at hprint
  split at hprint
  · exact (Option.some.inj hprint).symm
  · cases hprint

/-- The table of the run with a name holds the events, or metrics, of the directories with
this name. -/
theorem Generates.linkTable_holds
    (h : Generates lower parseMetric files setOrder mapfile archs generated defs rows)
    (hown : WrittenToOwnTables generated.globals.cached archs) {metric : Bool} {tblname : Text}
    (hstart : tablePrefix metric <+: tblname) {entries : List PmuTableEntry}
    (hlink : linkTable defs tblname = some entries) :
    HoldsRecords generated.offsets metric
      (tableObjects generated.globals.cached archs (tablePrefix metric) (holdsOf metric) tblname)
      entries := by
  obtain ⟨s, hwrote, hdefines, -⟩ := h.exists_wroteOwn hown
  have hholds := hwrote.tablesHold hdefines h.names
  obtain ⟨table, htable, -⟩ := Option.bind_eq_some_iff.mp hlink
  obtain ⟨metric', hne⟩ := hholds.only tblname table ((findTable_eq_some_iff h.names).mp htable)
  obtain ⟨e, he⟩ := List.exists_mem_of_ne_nil _ hne
  have hname : ownTable (tablePrefix metric') e = tblname :=
    of_decide_eq_true (List.mem_filter.mp he).2
  obtain rfl : metric' = metric :=
    metric_eq_of_prefix (hname ▸ tablePrefix_prefix_ownTable metric' e) hstart
  obtain ⟨entries', hlink', hrecords⟩ := hholds.holds metric' tblname hne
  obtain rfl := Option.some.inj (hlink'.symm.trans hlink)
  exact hrecords

/-- The names of the tables of a printed row have the prefixes of their kinds. -/
theorem tablePrefix_of_directoryRows {readJsonEvents : List Text → Text → List JsonEvent}
    {arch : Text} {row : MapRow} (h : row ∈ directoryRows readJsonEvents archs mapfile arch) :
    (∀ tblname, row.event_table = some tblname → tablePrefix false <+: tblname) ∧
      ∀ tblname, row.metric_table = some tblname → tablePrefix true <+: tblname := by
  have htable : ∀ metric holds path tblname,
      directoryTable readJsonEvents archs (tablePrefix metric) holds path = some tblname →
        tablePrefix metric <+: tblname := by
    intro metric holds path tblname hsome
    unfold directoryTable at hsome
    dsimp only at hsome
    split at hsome
    · cases hsome
    · obtain rfl := Option.some.inj hsome
      exact tablePrefix_prefix_fileName metric [] _
  have htest : tablePrefix false <+: "pmu_events__test_soc_cpu".toList ∧
      tablePrefix true <+: "pmu_metrics__test_soc_cpu".toList := by decide
  have hcommon : tablePrefix false <+: "pmu_events__common".toList := by decide
  unfold directoryRows at h
  split at h
  · obtain rfl := List.mem_singleton.mp h
    exact ⟨fun tblname hsome => Option.some.inj hsome ▸ htest.1,
      fun tblname hsome => Option.some.inj hsome ▸ htest.2⟩
  · split at h
    · obtain rfl := List.mem_singleton.mp h
      exact ⟨fun tblname hsome => Option.some.inj hsome ▸ hcommon,
        fun tblname hsome => by cases hsome⟩
    · obtain ⟨data, -, hrow⟩ := List.mem_filterMap.mp h
      unfold directoryRow at hrow
      dsimp only at hrow
      split at hrow
      · cases hrow
      · obtain rfl := Option.some.inj hrow
        exact ⟨fun tblname => htable false hasName _ tblname,
          fun tblname => htable true hasMetricName _ tblname⟩

/-- A row of the compiled table: its pattern, and its tables with the events and metrics of
the directories they are named after. -/
structure CompiledRow (offsets : List (Text × Int))
    (readJsonEvents : List Text → Text → List JsonEvent) (archs : List (Text × List Entry))
    (row : MapRow) (map : PmuEventsMap) : Prop where
  cpuid : map.cpuid = rowPattern row
  events_none : row.event_table = none → map.event_table = []
  events : ∀ tblname, row.event_table = some tblname → HoldsRecords offsets false
    (tableObjects readJsonEvents archs (tablePrefix false) (holdsOf false) tblname)
    map.event_table
  metrics_none : row.metric_table = none → map.metric_table = []
  metrics : ∀ tblname, row.metric_table = some tblname → HoldsRecords offsets true
    (tableObjects readJsonEvents archs (tablePrefix true) (holdsOf true) tblname)
    map.metric_table

theorem cpuid_of_compile {link : Text → Option (List PmuTableEntry)} {row : MapRow}
    {map : PmuEventsMap} (h : row.compile link = some map) :
    map.cpuid = rowPattern row ∧ row.event_table.elim (some []) link = some map.event_table ∧
      row.metric_table.elim (some []) link = some map.metric_table := by
  simp only [MapRow.compile, Option.bind_eq_bind, Option.bind_eq_some_iff] at h
  obtain ⟨arch, -, cpuid, hcpuid, event_table, hevents, metric_table, hmetrics, h⟩ := h
  obtain rfl := Option.some.inj h
  exact ⟨by rw [rowPattern, hcpuid, Option.getD_some], hevents, hmetrics⟩

/-- A row of the run compiles to the tables of its directories. -/
theorem Generates.compiledRow
    (h : Generates lower parseMetric files setOrder mapfile archs generated defs rows)
    (hown : WrittenToOwnTables generated.globals.cached archs) {row : MapRow} (hrow : row ∈ rows)
    {map : PmuEventsMap} (hcompile : row.compile (linkTable defs) = some map) :
    CompiledRow generated.offsets generated.globals.cached archs row map := by
  obtain ⟨arch, -, hdirectory⟩ := List.mem_flatMap.mp (h.rows_eq hown ▸ hrow)
  obtain ⟨hstart, hstart'⟩ := tablePrefix_of_directoryRows hdirectory
  obtain ⟨hcpuid, hevents, hmetrics⟩ := cpuid_of_compile hcompile
  refine ⟨hcpuid, fun hnone => ?_, fun tblname hsome => ?_, fun hnone => ?_,
    fun tblname hsome => ?_⟩
  · rw [hnone] at hevents
    exact (Option.some.inj hevents).symm
  · rw [hsome] at hevents
    exact h.linkTable_holds hown (hstart tblname hsome) hevents
  · rw [hnone] at hmetrics
    exact (Option.some.inj hmetrics).symm
  · rw [hsome] at hmetrics
    exact h.linkTable_holds hown (hstart' tblname hsome) hmetrics

/-- The row for a cpuid: the first one, in the order of the architectures and of their
mapfiles, whose pattern matches. -/
def selectedRow (strcmp_cpuid_str : CStr → CStr → Int)
    (readJsonEvents : List Text → Text → List JsonEvent)
    (mapfile : Text → Option (List CsvRow)) (archs : List (Text × List Entry)) (cpuid : CStr) :
    Option MapRow :=
  ((archs.map Prod.fst).flatMap (directoryRows readJsonEvents archs mapfile)).find? fun row =>
    strcmp_cpuid_str (rowPattern row) cpuid = 0

/-- The search of the compiled table. -/
theorem Generates.searchMap
    (h : Generates lower parseMetric files setOrder mapfile archs generated defs rows)
    (hown : WrittenToOwnTables generated.globals.cached archs)
    (strcmp_cpuid_str : CStr → CStr → Int) (cpuid : CStr) :
    Option.Rel (CompiledRow generated.offsets generated.globals.cached archs)
      (selectedRow strcmp_cpuid_str generated.globals.cached mapfile archs cpuid)
      (searchMap strcmp_cpuid_str generated.pmu_events_map cpuid) := by
  have hfind := find?_of_mapM
    (p := fun map : PmuEventsMap => decide (strcmp_cpuid_str map.cpuid cpuid = 0))
    (q := fun row : MapRow => decide (strcmp_cpuid_str (rowPattern row) cpuid = 0))
    (fun row map hcompile => by rw [(cpuid_of_compile hcompile).1]) h.compiled
  rw [Tables.searchMap, hfind, selectedRow, ← h.rows_eq hown]
  cases hselected : rows.find? fun row =>
      decide (strcmp_cpuid_str (rowPattern row) cpuid = 0) with
  | none => exact .none
  | some row =>
    have hrow : row ∈ rows := List.mem_of_find?_eq_some hselected
    obtain ⟨map, hmap⟩ : ∃ map, row.compile (linkTable defs) = some map := by
      refine Option.ne_none_iff_exists'.mp fun hnone => ?_
      exact absurd ((mapM_eq_none_of_mem hrow hnone).symm.trans h.compiled) (by simp)
    rw [Option.bind_some, hmap]
    exact .some (h.compiledRow hown hrow hmap)

end Compiled

/-! ## Looking up a CPU -/

/-- Where the run ends, its file compiles and everything is written to the table of its own
directory, every call of `map_for_cpu` in a sequence of calls returns the row that the
mapfiles have for the CPU, with the events and metrics of the directory in this row, and NULL
where they have none. -/
theorem mapForCpuCalls_generate (lower : Text → Text)
    (parseMetric : Text → Except PyError Expr) (files : JsonFiles) (setOrder : SetOrder)
    (mapfile : Text → Option (List CsvRow)) (arch : Text) (starting_dir : List Entry)
    (generated : Generated)
    (hgenerate :
      generate lower parseMetric files setOrder mapfile arch starting_dir = some generated)
    (hown : WrittenToOwnTables generated.globals.cached generated.archs)
    (strcmp_cpuid_str : CStr → CStr → Int) (get_cpuid : PerfCpu → Option CStr)
    (calls : List PerfCpu) :
    List.Forall₂
      (fun cpu answer =>
        Option.Rel (CompiledRow generated.offsets generated.globals.cached generated.archs)
          ((get_cpuid cpu).bind
            (selectedRow strcmp_cpuid_str generated.globals.cached mapfile generated.archs))
          answer)
      calls
      (mapForCpuCalls strcmp_cpuid_str generated.pmu_events_map get_cpuid .initial calls) := by
  obtain ⟨defs, rows, h⟩ := generates_of_generate hgenerate
  rw [mapForCpuCalls_of_valid ReachableCache.initial.valid, List.forall₂_map_right_iff,
    List.forall₂_same]
  intro cpu _
  rw [plainSearch]
  cases get_cpuid cpu with
  | none => exact .none
  | some cpuid => exact h.searchMap hown strcmp_cpuid_str cpuid

/-- A starting directory with a model and the directory `common`. -/
def oneModel : List Entry :=
  [.dir "x86".toList [.dir "m".toList [.file "core.json".toList]],
    .dir "common".toList [.dir "common".toList [.file "tool.json".toList]]]

/-- The files below it, each with one event. -/
def oneModelFiles : JsonFiles where
  dicts := fun path =>
    some [JsonDict.ofList [("EventName", path.getLastD []), ("EventCode", "0x3c".toList)]]
  groups := fun _ => none

/-- The mapfile of the model. -/
def oneModelMapfile (_arch : Text) : Option (List CsvRow) :=
  some
    [["Family-model".toList, "Version".toList, "Filename".toList],
     ["GenuineIntel-6-2A".toList, "v1".toList, "m".toList, "core".toList]]

/-- A run for this directory. -/
def generateOneModel : Option Generated :=
  generate (List.map Char.toLower) (fun _ => .error .keyError) oneModelFiles insertionOrder
    oneModelMapfile "x86".toList oneModel

theorem mapForCpuCalls_generate_oneModel :
    ∃ generated, generateOneModel = some generated ∧
      ∀ (strcmp_cpuid_str : CStr → CStr → Int) (get_cpuid : PerfCpu → Option CStr)
        (calls : List PerfCpu),
        List.Forall₂
          (fun cpu answer =>
            Option.Rel (CompiledRow generated.offsets generated.globals.cached generated.archs)
              ((get_cpuid cpu).bind (selectedRow strcmp_cpuid_str generated.globals.cached
                oneModelMapfile generated.archs))
              answer)
          calls
          (mapForCpuCalls strcmp_cpuid_str generated.pmu_events_map get_cpuid .initial calls) := by
  have hown : generateOneModel.any fun generated =>
      decide (WrittenToOwnTables generated.globals.cached generated.archs) := by decide +kernel
  obtain ⟨generated, hgenerate, hown⟩ := (Option.any_eq_true _ _).mp hown
  exact ⟨generated, hgenerate, mapForCpuCalls_generate _ _ _ _ _ _ _ generated hgenerate
    (of_decide_eq_true hown)⟩

end PmuEvents.Jevents
