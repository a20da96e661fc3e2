import PmuEvents.Jevents.Main
import PmuEvents.Lib.GetPmus
set_option autoImplicit false

/-!
# From the JSON files to `get_event_by_name`

The generated file and the library together.  An event of the JSON files of a CPU's directory
is compiled to a record, `get_pmus` attaches the records of a PMU to its instances, and
`get_event_by_name` finds the record by the name.  The main result follows this way for a
whole run of the generator and any device directory.
-/

namespace PmuEvents.System

open PmuEvents.Foundation PmuEvents.Jevents PmuEvents.Lib PmuEvents.Libc PmuEvents.Metric
open PmuEvents.Tables

/-! ## Reading the big string -/

/-- A name that stands in the generated file as it is; that there is no line break in it is
known where the file compiles. -/
structure PlainName (name : Text) : Prop where
  noNul : '\x00' ∉ name
  noBackslash : '\\' ∉ name
  noQuote : '"' ∉ name

instance (name : Text) : Decidable (PlainName name) :=
  decidable_of_iff ('\x00' ∉ name ∧ '\\' ∉ name ∧ '"' ∉ name)
    ⟨fun ⟨h₁, h₂, h₃⟩ => ⟨h₁, h₂, h₃⟩, fun h => ⟨h.1, h.2, h.3⟩⟩

/-- The string at the offset of a plain name is the name. -/
theorem cstrAt_of_readsAt {name : Text} (hname : PlainName name) {big_c_string : List UInt8}
    {offset : Int} (h : BigCString.ReadsAt big_c_string offset (name ++ nulText)) :
    cstrAt big_c_string offset = utf8 name := by
  obtain ⟨-, bytes, hbytes, rest, hrest⟩ := h
  obtain ⟨r, hr⟩ := exists_readLiteral_of_cBytes hbytes
  rw [List.append_assoc] at hr
  obtain ⟨hnewline, hreturn⟩ := noBreak_of_readLiteral hname.noQuote hname.noBackslash hr
  have hspelled : name ++ nulText = unitsText (name.map charUnit ++ [.nul]) := by
    rw [unitsText_append, unitsText_map_charUnit hname.noQuote hnewline hreturn,
      replaceChar_of_not_mem hname.noBackslash]
    rfl
  have hliteral : unitsBytes (name.map charUnit ++ [.nul]) = utf8 name ++ [0] := by
    rw [unitsBytes_append, unitsBytes_map bytes_charUnit]
    rfl
  rw [hspelled, cBytes_quoted_units, hliteral] at hbytes
  obtain rfl := Option.some.inj hbytes
  have hne : ∀ b ∈ utf8 name, decide (b ≠ 0) = true := by
    intro b hb
    exact decide_eq_true fun hzero => zero_not_mem_utf8 hname.noNul (hzero ▸ hb)
  rw [cstrAt, ← hrest, List.append_assoc, List.takeWhile_append_of_pos hne]
  simp

section Generated

variable {lower : Text → Text} {parseMetric : Text → Except PyError Expr} {files : JsonFiles}
variable {setOrder : SetOrder} {mapfile : Text → Option (List CsvRow)}
variable {archs : List (Text × List Entry)} {generated : Generated}
variable {defs : List Definition} {rows : List MapRow}

/-- Where the big string can be read back, so can that of the compiled file. -/
theorem readsAt_of_generates
    (h : Generates lower parseMetric files setOrder mapfile archs generated defs rows)
    (hreads : generated.globals.bcs.ReadsBack setOrder) {s : Text}
    (hs : s ∈ generated.globals.bcs.texts) :
    BigCString.ReadsAt generated.big_c_string (addedOffset generated.offsets s) s := by
  obtain ⟨source, hcompute, hbytes⟩ := h.compute
  obtain ⟨source', offsets', big_c_string', hcompute', hbytes', hall⟩ := hreads
  obtain ⟨rfl, rfl⟩ := Prod.mk.inj (Option.some.inj (hcompute'.symm.trans hcompute))
  obtain rfl := Option.some.inj (hbytes'.symm.trans hbytes)
  obtain ⟨offset, hoffset, hat⟩ := hall s hs
  rw [addedOffset, hoffset, Option.getD_some]
  exact hat

/-- An event that the second pass reads was loaded from the files. -/
theorem pends_of_readObjects
    (h : Generates lower parseMetric files setOrder mapfile archs generated defs rows)
    {e : EventObject} (he : e ∈ readObjects generated.globals.cached (holdsOf false) archs) :
    Pends lower parseMetric files e.event := by
  obtain ⟨v, hv, hheld⟩ := List.mem_flatMap.mp he
  obtain ⟨hfile, hname⟩ := List.mem_filter.mp hheld
  obtain ⟨path, topic, -, hevent⟩ := fileRead_of_mem_fileEvents hfile
  cases hcache : generated.globals.cache path topic with
  | none =>
    rw [Generator.cached, hcache] at hevent
    cases hevent
  | some events =>
    rw [Generator.cached, hcache, Option.getD_some] at hevent
    obtain ⟨archStdEvents, hload⟩ := cacheLoaded_of_firstPass h.first path topic events hcache
    exact ⟨hname, archStdEvents, path, topic, events, hload, hevent⟩

/-- The events of one PMU in a table of the run have distinct names. -/
theorem nodup_eventName_of_generates
    (h : Generates lower parseMetric files setOrder mapfile archs generated defs rows)
    (hown : WrittenToOwnTables generated.globals.cached archs) (tblname p : Text) :
    (((tableObjects generated.globals.cached archs (tablePrefix false) (holdsOf false)
      tblname).filter fun e => pmuOf e = p).map eventName).Nodup := by
  obtain ⟨s, hwrote, hdefines, -⟩ := h.exists_wroteOwn hown
  exact hwrote.nodup_eventName hdefines h.names
    (fun e he => (pends_of_readObjects h (List.mem_of_mem_filter he)).pmu_ne_nil) p

end Generated

/-! ## The tree of PMUs -/

/-- `pmu_ev->name`, as `strcmp` reads it. -/
def nameMember (pmu_ev : Option (List (Attr × Member))) : CStr :=
  match pmu_ev.bind (List.lookup .name) with
  | some (.ptr (some s)) => s
  | _ => []

/-- The members of a decompressed record. -/
def members (r : TableRecord) : List (Attr × Member) :=
  (recordAttributes r.metric).map fun attr => (attr, r.storedMember attr)

theorem nameMember_members {r : TableRecord} (hevent : r.metric = false)
    (hname : r.value .name ≠ []) : nameMember (some (members r)) = utf8 (r.value .name) := by
  have hstored : r.storedMember .name = .ptr (some (utf8 (r.value .name))) := by
    rw [TableRecord.storedMember, TableRecord.attrMember, if_neg (by decide), if_neg hname]
  have hmembers : List.lookup .name (members r) = some (r.storedMember .name) := by
    rw [members, hevent]
    rfl
  rw [nameMember, Option.bind_some, hmembers, hstored]

/-- An event whose strings can be told apart: its members are those of a record, and its PMU
has a plain name. -/
structure Fits (e : EventObject) : Prop where
  record : ∃ r : TableRecord, r.metric = false ∧ r.event = e.event
  pmu : PlainName e.event.pmu

/-- The tree has the events: a class for each of their PMUs that has an instance; and on each
instance the search finds the events of the PMU, with the members of their records, and
nothing else. -/
structure HasEvents (sys : Sysfs) (big_c_string : List UInt8) (events : List EventObject)
    (pmus : Pmus) : Prop where
  names : (pmus.classes.map PmuClass.name).Nodup
  classes : ∀ name, name ∈ pmus.classes.map PmuClass.name ↔
    (∃ e ∈ events, utf8 e.event.pmu = name) ∧ (getAllPmuInstancesFor sys name).2 ≠ []
  instances : ∀ class_ ∈ pmus.classes, class_.instances.map nameAndCpus =
    (getAllPmuInstancesFor sys class_.name).2.map nameAndCpus
  found : ∀ class_ ∈ pmus.classes, ∀ i ∈ class_.instances, ∀ r : TableRecord,
    r.metric = false → (∃ e ∈ events, e.event = r.event ∧ utf8 e.event.pmu = class_.name) →
      ∀ pmu_ev, getEventByName (decompressAt false big_c_string) nameMember
        (utf8 (r.value .name)) i pmu_ev = some (0, some (members r))
  missing : ∀ class_ ∈ pmus.classes, ∀ i ∈ class_.instances, ∀ ev,
    (∀ e ∈ events, utf8 e.event.pmu = class_.name → utf8 (eventName e) ≠ ev) →
      ∀ pmu_ev, ∃ pmu_ev', getEventByName (decompressAt false big_c_string) nameMember ev i
        pmu_ev = some (-1, pmu_ev')

/-- The strings of the events can be read at their offsets. -/
structure EventsReadAt (offsets : List (Text × Int)) (big_c_string : List UInt8)
    (events : List EventObject) : Prop where
  record : ∀ e ∈ events, BigCString.ReadsAt big_c_string (recordOf false offsets e).offset
    (e.event.buildCString false)
  pmu : ∀ e ∈ events, BigCString.ReadsAt big_c_string
    (addedOffset offsets (e.event.pmu ++ nulText)) (e.event.pmu ++ nulText)

section Tree

variable {offsets : List (Text × Int)} {big_c_string : List UInt8} {events : List EventObject}

theorem decompressAt_recordOf (h : EventsReadAt offsets big_c_string events) {e : EventObject}
    (he : e ∈ events) {r : TableRecord} (hmetric : r.metric = false) (hevent : r.event = e.event) :
    decompressAt false big_c_string (recordOf false offsets e).offset = some (members r) := by
  have hat := h.record e he
  rw [← hevent, ← hmetric] at hat
  have hmembers := decompressAt_of_readsAt r hat
  rw [hmetric] at hmembers
  rw [hmembers, members, hmetric]

theorem getPmuName_tableEntry (h : EventsReadAt offsets big_c_string events)
    (hfits : ∀ e ∈ events, Fits e) {group : Text × List EventObject}
    (hgroup : ∃ e ∈ events, pmuOf e = group.1) :
    getPmuName big_c_string (tableEntry false offsets group) = utf8 group.1 := by
  obtain ⟨e, he, hpmu⟩ := hgroup
  rw [← hpmu]
  have hat := h.pmu e he
  rw [getPmuName, tableEntry, ← hpmu]
  exact cstrAt_of_readsAt (hfits e he).pmu hat

/-- The name of an event is the first member of its record. -/
theorem value_name_of_event {r : TableRecord} {e : EventObject} (hevent : r.event = e.event) :
    r.value .name = eventName e := by
  rw [r.value_of_not_description rfl, hevent]
  rfl

theorem eventName_ne_nil {e : EventObject} (h : truthy e.event.name) : eventName e ≠ [] := by
  unfold eventName
  cases hname : e.event.name with
  | none => simp [hname, truthy] at h
  | some name => simpa [hname, truthy] using h

theorem nameMember_recordOf (h : EventsReadAt offsets big_c_string events)
    (hfits : ∀ e ∈ events, Fits e) (hnamed : ∀ e ∈ events, truthy e.event.name)
    {e : EventObject} (he : e ∈ events) :
    nameMember (decompressAt false big_c_string (recordOf false offsets e).offset) =
      utf8 (eventName e) := by
  obtain ⟨r, hmetric, hevent⟩ := (hfits e he).record
  have hname := value_name_of_event hevent
  rw [decompressAt_recordOf h he hmetric hevent, ← hname]
  refine nameMember_members hmetric ?_
  rw [hname]
  exact eventName_ne_nil (hnamed e he)

variable {sys : Sysfs} {entries : List PmuTableEntry}

/-- A class of the tree is that of a PMU of the events. -/
theorem mem_classes_iff {groups : List (Text × List EventObject)} {class_ : PmuClass} :
    class_ ∈ ((groups.map (tableEntry false offsets)).filter fun entry =>
        instancesFound sys big_c_string entry ≠ []).map (classOf sys big_c_string) ↔
      ∃ group ∈ groups, instancesFound sys big_c_string (tableEntry false offsets group) ≠ [] ∧
        class_ = classOf sys big_c_string (tableEntry false offsets group) := by
  simp only [List.mem_map, List.mem_filter, decide_eq_true_eq]
  constructor
  · rintro ⟨_, ⟨⟨group, hgroup, rfl⟩, hne⟩, rfl⟩
    exact ⟨group, hgroup, hne, rfl⟩
  · rintro ⟨group, hgroup, hne, rfl⟩
    exact ⟨_, ⟨⟨group, hgroup, rfl⟩, hne⟩, rfl⟩

/-- On an instance of the class of a PMU the search works for the events of this PMU. -/
theorem searches_of_mem_classOf {group : Text × List EventObject}
    (hread : EventsReadAt offsets big_c_string events) (hfits : ∀ e ∈ events, Fits e)
    (hnamed : ∀ e ∈ events, truthy e.event.name)
    (hnodup : ((events.filter fun e => pmuOf e = group.1).map eventName).Nodup)
    (hgroup : group.2.Perm (events.filter fun e => pmuOf e = group.1)) {i : PmuInstance}
    (hi : i ∈ (classOf sys big_c_string (tableEntry false offsets group)).instances)
    (pmu_ev : Option (List (Attr × Member))) :
    (∀ e ∈ group.2, getEventByName (decompressAt false big_c_string) nameMember
        (utf8 (eventName e)) i pmu_ev =
          some (0, decompressAt false big_c_string (recordOf false offsets e).offset)) ∧
      ∀ ev, (∀ e ∈ group.2, utf8 (eventName e) ≠ ev) →
        ∃ pmu_ev', getEventByName (decompressAt false big_c_string) nameMember ev i pmu_ev =
          some (-1, pmu_ev') := by
  have hfinds : FindsEvents offsets group :=
    findsEvents_of_nodup offsets ((hgroup.map eventName).nodup_iff.mpr hnodup)
  obtain ⟨found, -, rfl⟩ := List.mem_map.mp hi
  refine hfinds _ _ nameMember _ pmu_ev rfl fun e he => ?_
  exact nameMember_recordOf hread hfits hnamed (List.mem_of_mem_filter (hgroup.mem_iff.mp he))

/-- Where a table holds the records of the events, the tree made from it has the events. -/
theorem hasEvents_of_holdsRecords (hread : EventsReadAt offsets big_c_string events)
    (hfits : ∀ e ∈ events, Fits e) (hnamed : ∀ e ∈ events, truthy e.event.name)
    (hnodup : ∀ p, ((events.filter fun e => pmuOf e = p).map eventName).Nodup)
    (hholds : HoldsRecords offsets false events entries) :
    HasEvents sys big_c_string events
      { classes := (entries.filter fun entry => instancesFound sys big_c_string entry ≠ []).map
          (classOf sys big_c_string) } := by
  obtain ⟨groups, hdistinct, hpmus, hrecords, rfl⟩ := hholds
  have hname : ∀ group ∈ groups,
      getPmuName big_c_string (tableEntry false offsets group) = utf8 group.1 := by
    intro group hgroup
    exact getPmuName_tableEntry hread hfits ((hpmus _).mp (List.mem_map_of_mem hgroup))
  have hfound : ∀ group ∈ groups,
      instancesFound sys big_c_string (tableEntry false offsets group) =
        (getAllPmuInstancesFor sys (utf8 group.1)).2 := by
    intro group hgroup
    rw [instancesFound, hname group hgroup]
  have hmem : ∀ group ∈ groups, ∀ e,
      e ∈ group.2 ↔ e ∈ events ∧ utf8 e.event.pmu = utf8 group.1 := by
    intro group hgroup e
    rw [(hrecords group hgroup).mem_iff, List.mem_filter, decide_eq_true_eq, pmuOf,
      utf8_injective.eq_iff]
  constructor
  · have hall : (groups.map fun group => utf8 group.1).Nodup := by
      have hmap := hdistinct.map utf8_injective
      rwa [List.map_map] at hmap
    have hnames : (groups.map (tableEntry false offsets)).map (getPmuName big_c_string) =
        groups.map fun group => utf8 group.1 := by
      rw [List.map_map]
      exact List.map_congr_left hname
    rw [← hnames] at hall
    refine hall.sublist ?_
    rw [List.map_map]
    exact (List.filter_sublist).map _
  · intro name
    constructor
    · intro hclass
      obtain ⟨class_, hmade, rfl⟩ := List.mem_map.mp hclass
      obtain ⟨group, hgroup, hne, rfl⟩ := mem_classes_iff.mp hmade
      obtain ⟨e, he, hpmu⟩ := (hpmus _).mp (List.mem_map_of_mem hgroup)
      rw [hfound group hgroup] at hne
      rw [classOf, hname group hgroup]
      exact ⟨⟨e, he, congrArg utf8 hpmu⟩, hne⟩
    · rintro ⟨⟨e, he, rfl⟩, hne⟩
      obtain ⟨group, hgroup, hpmu⟩ := List.mem_map.mp ((hpmus (pmuOf e)).mpr ⟨e, he, rfl⟩)
      have hpmu' : utf8 group.1 = utf8 e.event.pmu := congrArg utf8 hpmu
      refine List.mem_map.mpr ⟨_, mem_classes_iff.mpr ⟨group, hgroup, ?_, rfl⟩, ?_⟩
      · rwa [hfound group hgroup, hpmu']
      · rw [classOf, hname group hgroup, hpmu']
  · intro class_ hclass
    obtain ⟨group, hgroup, -, rfl⟩ := mem_classes_iff.mp hclass
    rw [classOf, hname group hgroup, ← hfound group hgroup, List.map_map]
    rfl
  · intro class_ hclass i hi r hmetric hr pmu_ev
    obtain ⟨group, hgroup, -, rfl⟩ := mem_classes_iff.mp hclass
    obtain ⟨e, he, hevent, hpmu⟩ := hr
    rw [classOf, hname group hgroup] at hpmu
    have hsearch := searches_of_mem_classOf hread hfits hnamed (hnodup _) (hrecords group hgroup)
      hi pmu_ev
    rw [value_name_of_event hevent.symm, ← decompressAt_recordOf hread he hmetric hevent.symm]
    exact hsearch.1 e ((hmem group hgroup e).mpr ⟨he, hpmu⟩)
  · intro class_ hclass i hi ev hev pmu_ev
    obtain ⟨group, hgroup, -, rfl⟩ := mem_classes_iff.mp hclass
    have hsearch := searches_of_mem_classOf hread hfits hnamed (hnodup _) (hrecords group hgroup)
      hi pmu_ev
    refine hsearch.2 ev fun e he => ?_
    obtain ⟨hevents, hpmu⟩ := (hmem group hgroup e).mp he
    refine hev e hevents ?_
    rw [classOf, hname group hgroup]
    exact hpmu

end Tree

/-! ## A run and a call -/

/-- The events of a row of the mapping table. -/
def rowEvents (readJsonEvents : List Text → Text → List JsonEvent)
    (archs : List (Text × List Entry)) (row : MapRow) : List EventObject :=
  row.event_table.elim []
    (tableObjects readJsonEvents archs (tablePrefix false) (holdsOf false))

theorem holdsRecords_of_compiledRow {offsets : List (Text × Int)}
    {readJsonEvents : List Text → Text → List JsonEvent} {archs : List (Text × List Entry)}
    {row : MapRow} {map : PmuEventsMap} (h : CompiledRow offsets readJsonEvents archs row map) :
    HoldsRecords offsets false (rowEvents readJsonEvents archs row) map.event_table := by
  unfold rowEvents
  cases htable : row.event_table with
  | none =>
    rw [h.events_none htable]
    exact ⟨[], by simp⟩
  | some tblname => exact h.events tblname htable

section Row

variable {lower : Text → Text} {parseMetric : Text → Except PyError Expr} {files : JsonFiles}
variable {setOrder : SetOrder} {mapfile : Text → Option (List CsvRow)}
variable {archs : List (Text × List Entry)} {generated : Generated}
variable {defs : List Definition} {rows : List MapRow} {row : MapRow}

theorem mem_readObjects_of_rowEvents {readJsonEvents : List Text → Text → List JsonEvent}
    {e : EventObject} (he : e ∈ rowEvents readJsonEvents archs row) :
    e ∈ readObjects readJsonEvents (holdsOf false) archs := by
  unfold rowEvents at he
  cases htable : row.event_table with
  | none => simp [htable] at he
  | some tblname =>
    rw [htable] at he
    exact List.mem_of_mem_filter he

theorem eventsReadAt_of_generates
    (h : Generates lower parseMetric files setOrder mapfile archs generated defs rows)
    (hreads : generated.globals.bcs.ReadsBack setOrder) :
    EventsReadAt generated.offsets generated.big_c_string
      (rowEvents generated.globals.cached archs row) := by
  have hadded : ∀ e ∈ rowEvents generated.globals.cached archs row,
      RecordAdded generated.globals.bcs false e.event := fun e he =>
    recordAdded_of_readObjects h.first (mem_readObjects_of_rowEvents he)
  exact ⟨fun e he => readsAt_of_generates h hreads (hadded e he).record,
    fun e he => readsAt_of_generates h hreads (hadded e he).pmu⟩

/-- The tree made from the row of a run has the events of the row. -/
theorem hasEvents_of_compiledRow
    (h : Generates lower parseMetric files setOrder mapfile archs generated defs rows)
    (hown : WrittenToOwnTables generated.globals.cached archs)
    (hreads : generated.globals.bcs.ReadsBack setOrder)
    (hfits : ∀ e ∈ rowEvents generated.globals.cached archs row, Fits e) {map : PmuEventsMap}
    (hrow : CompiledRow generated.offsets generated.globals.cached archs row map) (sys : Sysfs) :
    HasEvents sys generated.big_c_string (rowEvents generated.globals.cached archs row)
      { classes := (map.event_table.filter fun entry =>
          instancesFound sys generated.big_c_string entry ≠ []).map
            (classOf sys generated.big_c_string) } := by
  refine hasEvents_of_holdsRecords (eventsReadAt_of_generates h hreads) hfits ?_ ?_
    (holdsRecords_of_compiledRow hrow)
  · exact fun e he => (pends_of_readObjects h (mem_readObjects_of_rowEvents he)).1
  · intro p
    unfold rowEvents
    cases row.event_table with
    | none => exact List.nodup_nil
    | some tblname => exact nodup_eventName_of_generates h hown tblname p

end Row

/-- With a row and a readable directory `get_pmus` returns the classes of the PMUs that have
an instance. -/
theorem getPmus_eq_returned {strcmp_cpuid_str : CStr → CStr → Int}
    {pmu_events_map : List PmuEventsMap} {get_cpuid : PerfCpu → Option CStr} {cache : MapCache}
    {sys : Sysfs} {map : PmuEventsMap} {listing : List CStr}
    (hmap : (mapForCpu strcmp_cpuid_str pmu_events_map get_cpuid cache 0).1 = some map)
    (hlisting : sys.listing = some listing) (big_c_string : List UInt8) :
    ∃ pmus : Pmus, pmus.classes = (map.event_table.filter fun entry =>
        instancesFound sys big_c_string entry ≠ []).map (classOf sys big_c_string) ∧
      getPmus strcmp_cpuid_str pmu_events_map get_cpuid big_c_string cache sys =
        .returned (if pmus.classes = [] then -1 else 0) pmus := by
  refine ⟨{ classes := _ }, rfl, ?_⟩
  rw [getPmus, hmap]
  simp only [classesLoop_eq hlisting, List.nil_append, List.length_eq_zero_iff]
  split <;> rfl

/-- After a run every call of `get_pmus` on a known CPU returns a tree with the events of its
row. -/
theorem getPmus_of_generates {lower : Text → Text} {parseMetric : Text → Except PyError Expr}
    {files : JsonFiles} {setOrder : SetOrder} {mapfile : Text → Option (List CsvRow)}
    {generated : Generated} {defs : List Definition} {rows : List MapRow}
    (h : Generates lower parseMetric files setOrder mapfile generated.archs generated defs rows)
    (hown : WrittenToOwnTables generated.globals.cached generated.archs)
    (hreads : generated.globals.bcs.ReadsBack setOrder)
    {strcmp_cpuid_str : CStr → CStr → Int} {get_cpuid : PerfCpu → Option CStr}
    {cpuid : CStr} (hcpuid : get_cpuid 0 = some cpuid) {row : MapRow}
    (hrow : selectedRow strcmp_cpuid_str generated.globals.cached mapfile generated.archs cpuid =
      some row)
    (hfits : ∀ e ∈ rowEvents generated.globals.cached generated.archs row, Fits e)
    {cache : MapCache}
    (hcache : ReachableCache strcmp_cpuid_str generated.pmu_events_map get_cpuid cache)
    {sys : Sysfs} (hsys : sys.listing.isSome) :
    ∃ pmus, getPmus strcmp_cpuid_str generated.pmu_events_map get_cpuid generated.big_c_string
        cache sys = .returned (if pmus.classes = [] then -1 else 0) pmus ∧
      HasEvents sys generated.big_c_string
        (rowEvents generated.globals.cached generated.archs row) pmus := by
  obtain ⟨listing, hlisting⟩ := Option.isSome_iff_exists.mp hsys
  have hsearch := h.searchMap hown strcmp_cpuid_str cpuid
  rw [hrow] at hsearch
  obtain ⟨map, hmap, hcompiled⟩ : ∃ map,
      searchMap strcmp_cpuid_str generated.pmu_events_map cpuid = some map ∧
        CompiledRow generated.offsets generated.globals.cached generated.archs row map := by
    generalize searchMap strcmp_cpuid_str generated.pmu_events_map cpuid = found at hsearch
    cases hsearch with
    | some hcompiled => exact ⟨_, rfl, hcompiled⟩
  have hanswer : (mapForCpu strcmp_cpuid_str generated.pmu_events_map get_cpuid cache 0).1 =
      some map := by
    rw [(mapForCpu_valid hcache.valid 0).1, plainSearch, hcpuid, Option.bind_some, hmap]
  obtain ⟨pmus, hclasses, hpmus⟩ :=
    getPmus_eq_returned hanswer hlisting generated.big_c_string
  refine ⟨pmus, hpmus, ?_⟩
  have hhas := hasEvents_of_compiledRow h hown hreads hfits hcompiled sys
  rw [← hclasses] at hhas
  exact hhas

/-- Where a run of the generator ends, its file compiles and its strings can be read back,
every call of `get_pmus` on a CPU that the mapfiles know returns a tree with the events of the
JSON files of this CPU's directory: for each event and each instance of its PMU,
`get_event_by_name` finds the event by its name and `decompress_event` gives its members back,
and no other name is found. -/
theorem getPmus_generate (lower : Text → Text) (parseMetric : Text → Except PyError Expr)
    (files : JsonFiles) (setOrder : SetOrder) (mapfile : Text → Option (List CsvRow))
    (arch : Text) (starting_dir : List Entry) (generated : Generated)
    (hgenerate :
      generate lower parseMetric files setOrder mapfile arch starting_dir = some generated)
    (hown : WrittenToOwnTables generated.globals.cached generated.archs)
    (hreads : generated.globals.bcs.ReadsBack setOrder)
    (strcmp_cpuid_str : CStr → CStr → Int) (get_cpuid : PerfCpu → Option CStr)
    (cpuid : CStr) (hcpuid : get_cpuid 0 = some cpuid) (row : MapRow)
    (hrow : selectedRow strcmp_cpuid_str generated.globals.cached mapfile generated.archs cpuid =
      some row)
    (hfits : ∀ e ∈ rowEvents generated.globals.cached generated.archs row, Fits e)
    (cache : MapCache)
    (hcache : ReachableCache strcmp_cpuid_str generated.pmu_events_map get_cpuid cache)
    (sys : Sysfs) (hsys : sys.listing.isSome) :
    ∃ pmus, getPmus strcmp_cpuid_str generated.pmu_events_map get_cpuid generated.big_c_string
        cache sys = .returned (if pmus.classes = [] then -1 else 0) pmus ∧
      HasEvents sys generated.big_c_string
        (rowEvents generated.globals.cached generated.archs row) pmus := by
  obtain ⟨defs, rows, h⟩ := generates_of_generate hgenerate
  exact getPmus_of_generates h hown hreads hcpuid hrow hfits hcache hsys

/-- The cpuid of the model with one file. -/
def oneModelCpuid (_cpu : PerfCpu) : Option CStr := some (cs "GenuineIntel-6-2A")

/-- The row of the mapping table for this model. -/
def oneModelRow (generated : Generated) : Option MapRow :=
  selectedRow strcmpPlainCpuid generated.globals.cached oneModelMapfile generated.archs
    (cs "GenuineIntel-6-2A")

/-- What the run for the model meets. -/
def oneModelFits (generated : Generated) (row : MapRow) : Prop :=
  WrittenToOwnTables generated.globals.cached generated.archs ∧
    generated.globals.bcs.ReadsBack insertionOrder ∧
    (rowEvents generated.globals.cached generated.archs row).length = 1 ∧
    ∀ e ∈ rowEvents generated.globals.cached generated.archs row,
      e.event.desc = none ∧ e.event.long_desc = none ∧
        (∀ attr ∈ recordAttributes false, FieldFits attr (fieldText e.event none none attr)) ∧
        PlainName e.event.pmu

instance (generated : Generated) (row : MapRow) : Decidable (oneModelFits generated row) :=
  inferInstanceAs (Decidable (_ ∧ _ ∧ _ ∧ ∀ e ∈ _, _ ∧ _ ∧ (∀ attr ∈ _, _) ∧ _))

theorem fits_of_oneModelFits {generated : Generated} {row : MapRow}
    (h : oneModelFits generated row) :
    ∀ e ∈ rowEvents generated.globals.cached generated.archs row, Fits e := by
  intro e he
  obtain ⟨hdesc, hlong, hattrs, hpmu⟩ := h.2.2.2 e he
  exact ⟨⟨{ event := e.event, metric := false, desc := none, long_desc := none
            desc_eq := hdesc, long_desc_eq := hlong, fits := hattrs }, rfl, rfl⟩, hpmu⟩

theorem getPmus_generate_oneModel :
    ∃ generated row, generateOneModel = some generated ∧ oneModelRow generated = some row ∧
      (rowEvents generated.globals.cached generated.archs row).length = 1 ∧
      ∃ pmus, getPmus strcmpPlainCpuid generated.pmu_events_map oneModelCpuid
          generated.big_c_string .initial hybridSysfs =
            .returned (if pmus.classes = [] then -1 else 0) pmus ∧
        HasEvents hybridSysfs generated.big_c_string
          (rowEvents generated.globals.cached generated.archs row) pmus := by
  have hrun : generateOneModel.any fun generated => (oneModelRow generated).any fun row =>
      decide (oneModelFits generated row) := by decide +kernel
  obtain ⟨generated, hgenerate, hrun⟩ := (Option.any_eq_true _ _).mp hrun
  obtain ⟨row, hrow, hrun⟩ := (Option.any_eq_true _ _).mp hrun
  have hmodel : oneModelFits generated row := of_decide_eq_true hrun
  have hfits := fits_of_oneModelFits hmodel
  obtain ⟨hown, hreads, hlength, -⟩ := hmodel
  exact ⟨generated, row, hgenerate, hrow, hlength,
    getPmus_generate _ _ _ _ _ _ _ generated hgenerate hown hreads strcmpPlainCpuid oneModelCpuid
      _ rfl row hrow hfits .initial .initial hybridSysfs rfl⟩

end PmuEvents.System
