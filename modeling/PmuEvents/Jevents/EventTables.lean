import PmuEvents.Jevents.ArchStd
import PmuEvents.Jevents.Decompress
import PmuEvents.Jevents.PmuArrays
import PmuEvents.Lib.EventByName
import PmuEvents.Libc.Strcmp
set_option autoImplicit false

/-!
# The tables of events

The arrays that `print_pending_events` writes partition the pending events by their
PMU, with strictly increasing names, so that `get_event_by_name` finds every event of
an array and nothing else.
-/

namespace PmuEvents.Jevents

open PmuEvents.Foundation PmuEvents.Lib PmuEvents.Libc PmuEvents.Metric

/-! ## A table for the pending records -/

/-- The names of the PMUs stay distinct when their commas are replaced. -/
def PmusStayDistinct (pending : List EventObject) : Prop :=
  ∀ e ∈ pending, ∀ e' ∈ pending, tblPmu (pmuOf e) = tblPmu (pmuOf e') → pmuOf e = pmuOf e'

instance (pending : List EventObject) : Decidable (PmusStayDistinct pending) :=
  inferInstanceAs (Decidable (∀ e ∈ pending, ∀ e' ∈ pending, _ → _))

/-- The records of the arrays, each with its PMU, partition the pending records: every
PMU has one array, under a name of its own, with all records of the PMU. -/
structure Partitions (tblname : Text) (pending : List EventObject)
    (groups : List (Text × List EventObject)) : Prop where
  pmus : ∀ p, p ∈ groups.map Prod.fst ↔ ∃ e ∈ pending, pmuOf e = p
  nodup : (groups.map Prod.fst).Nodup
  names : (groups.map fun group => arrayName tblname (tblPmu group.1)).Nodup
  records : ∀ group ∈ groups, group.2.Perm (pending.filter fun e => pmuOf e = group.1)

/-- The runs of the sorted records partition the pending ones where equal PMUs stand
together. -/
theorem partitions_keyRuns {metric : Bool} (tblname : Text) {pending : List EventObject}
    (hdistinct : PmusStayDistinct pending)
    (h : Contiguous pmuOf (sortedRecords metric pending)) :
    Partitions tblname pending (keyRuns pmuOf (sortedRecords metric pending)) := by
  have hpmus : ∀ p, p ∈ (keyRuns pmuOf (sortedRecords metric pending)).map Prod.fst ↔
      ∃ e ∈ pending, pmuOf e = p := by
    intro p
    simp only [mem_keys_keyRuns, mem_sortedRecords]
  have hnodup := (nodup_keys_keyRuns (sortedRecords metric pending)).mpr h
  refine ⟨hpmus, hnodup, ?_, ?_⟩
  · have hmap : (keyRuns pmuOf (sortedRecords metric pending)).map
          (fun group => arrayName tblname (tblPmu group.1)) =
        ((keyRuns pmuOf (sortedRecords metric pending)).map Prod.fst).map
          fun p => arrayName tblname (tblPmu p) := by
      rw [List.map_map]
      rfl
    rw [hmap]
    refine hnodup.map_on fun p hp p' hp' heq => ?_
    obtain ⟨e, he, rfl⟩ := (hpmus p).mp hp
    obtain ⟨e', he', rfl⟩ := (hpmus p').mp hp'
    exact hdistinct e he e' he' (List.cons_inj_right '_' |>.mp (List.append_cancel_left heq))
  · intro group hgroup
    rw [eq_filter_of_mem_keyRuns h group hgroup]
    exact ((recordWriter metric).perm pending).filter _

/-! ## The order of the events -/

/-- The name of an event. -/
def eventName (e : EventObject) : Text := e.event.name.getD []

theorem pairwise_eventCmpKey (pending : List EventObject) :
    (sortedRecords false pending).Pairwise fun a b =>
      eventCmpKey a.event ≤ eventCmpKey b.event :=
  List.pairwise_insertionSort (fun a b : EventObject => eventCmpKey a.event ≤ eventCmpKey b.event) _

/-- Events in the order of their keys are in the order of their PMUs. -/
theorem tblPmu_le_of_eventCmpKey_le {a b : JsonEvent} (h : eventCmpKey a ≤ eventCmpKey b) :
    tblPmu a.pmu ≤ tblPmu b.pmu := by
  rcases Prod.Lex.toLex_le_toLex.mp h with hlt | ⟨heq, -⟩
  · exact le_of_lt hlt
  · exact le_of_eq heq

/-- Events of one PMU in the order of their keys are in the order of their names. -/
theorem name_le_of_eventCmpKey_le {a b : JsonEvent} (h : eventCmpKey a ≤ eventCmpKey b)
    (hpmu : a.pmu = b.pmu) : a.name.getD [] ≤ b.name.getD [] := by
  rcases Prod.Lex.toLex_le_toLex.mp h with hlt | ⟨-, hrest⟩
  · exact absurd hlt (by simp [hpmu])
  · rcases Prod.Lex.toLex_le_toLex.mp hrest with hlt | ⟨heq, -⟩
    · exact le_of_lt hlt
    · exact le_of_eq heq

/-- The sorted events of one PMU stand together. -/
theorem contiguous_sortedEvents {pending : List EventObject}
    (hdistinct : PmusStayDistinct pending) :
    Contiguous pmuOf (sortedRecords false pending) := by
  refine contiguous_of_pairwise (f := tblPmu) ?_ ?_
  · exact (pairwise_eventCmpKey pending).imp fun h => tblPmu_le_of_eventCmpKey_le h
  · exact fun a ha b hb => hdistinct a (mem_sortedRecords.mp ha) b (mem_sortedRecords.mp hb)

/-- No event is a duplicate of the event before it. -/
theorem isChain_of_noDuplicateEvent {last : Option JsonEvent} {events : List JsonEvent}
    (h : noDuplicateEvent last events = true) :
    events.IsChain fun a b => isDuplicate (some a) b = false := by
  induction events generalizing last with
  | nil => exact .nil
  | cons event events ih =>
    rw [noDuplicateEvent, Bool.and_eq_true] at h
    cases events with
    | nil => exact .singleton _
    | cons next events =>
      refine List.isChain_cons_cons.mpr ⟨?_, ih h.2⟩
      have hnext := h.2
      rw [noDuplicateEvent, Bool.and_eq_true] at hnext
      exact (Bool.not_eq_true' _).mp hnext.1

/-- Names that are texts are equal as texts. -/
theorem getD_inj_of_truthy {x y : Option Text} (hx : truthy x) (hy : truthy y) :
    x.getD [] = y.getD [] ↔ x = y := by
  cases x with
  | none => cases hx
  | some s =>
    cases y with
    | none => cases hy
    | some t => simp

/-- The names of a run are strictly increasing. -/
theorem pairwise_eventName {pending : List EventObject}
    (hnamed : ∀ e ∈ pending, truthy e.event.name ∧ e.event.pmu ≠ [])
    (hcheck : eventWriter.check (sortedRecords false pending) = true) :
    ∀ run ∈ keyRuns pmuOf (sortedRecords false pending),
      (run.2.map eventName).Pairwise (· < ·) := by
  intro run hrun
  have hsegment := infix_of_mem_keyRuns hrun
  have hpmu := key_of_mem_keyRuns run hrun
  have hle := ((pairwise_eventCmpKey pending).sublist hsegment.sublist).isChain
  have hpending : ∀ e ∈ run.2, e ∈ pending := fun e he =>
    mem_sortedRecords.mp (hsegment.subset he)
  have hall : (sortedRecords false pending).IsChain fun a b =>
      isDuplicate (some a.event) b.event = false :=
    (List.isChain_map EventObject.event).mp (isChain_of_noDuplicateEvent hcheck)
  have hne := List.IsChain.infix hall hsegment
  have hlt : run.2.IsChain fun a b => eventName a < eventName b := by
    rw [List.isChain_iff_forall_rel_of_append_cons_cons]
    intro a b l₁ l₂ hcut
    have ha : a ∈ run.2 := by simp [hcut]
    have hb : b ∈ run.2 := by simp [hcut]
    have hsame : a.event.pmu = b.event.pmu := (hpmu a ha).trans (hpmu b hb).symm
    have hab := List.isChain_iff_forall_rel_of_append_cons_cons.mp hle hcut
    have hdup := List.isChain_iff_forall_rel_of_append_cons_cons.mp hne hcut
    refine lt_of_le_of_ne (name_le_of_eventCmpKey_le hab hsame) fun heq => ?_
    obtain ⟨hnamea, hpmua⟩ := hnamed a (hpending a ha)
    obtain ⟨hnameb, -⟩ := hnamed b (hpending b hb)
    rw [eventName, eventName, getD_inj_of_truthy hnamea hnameb] at heq
    simp [isDuplicate, hsame, heq, hsame ▸ hpmua] at hdup
  exact (List.isChain_iff_pairwise.mp ((List.isChain_map eventName).mpr hlt))

/-! ## The table -/

section Link

variable {metric : Bool} {offsets : List (Text × Int)} {tblname : Text}

/-- What the table entry for an array comes to in C. -/
def tableEntry (metric : Bool) (offsets : List (Text × Int)) (group : Text × List EventObject) :
    PmuTableEntry where
  entries := group.2.map (recordOf metric offsets)
  num_entries := group.2.length
  pmu_name := ⟨addedOffset offsets (group.1 ++ nulText)⟩

variable (metric offsets)

/-- Among arrays with distinct names the name of an array stands for its records. -/
theorem findArray_arrays {groups : List (Text × List EventObject)}
    (hnames : (groups.map fun group => arrayName tblname (tblPmu group.1)).Nodup)
    (rest : List Definition) :
    ∀ group ∈ groups, findArray (groups.map (arrayOf metric offsets tblname) ++ rest)
      (arrayName tblname (tblPmu group.1)) = some (group.2.map (recordOf metric offsets)) := by
  induction groups with
  | nil => simp
  | cons first groups ih =>
    rw [List.map_cons, List.nodup_cons] at hnames
    intro group hgroup
    rw [List.map_cons, List.cons_append, findArray, List.findSome?_cons]
    by_cases hname : arrayName tblname (tblPmu first.1) = arrayName tblname (tblPmu group.1)
    · obtain rfl : group = first := (List.mem_cons.mp hgroup).resolve_right fun hmem =>
        hnames.1 (hname ▸ List.mem_map_of_mem hmem)
      simp only [arrayOf, if_true]
    · obtain hmem : group ∈ groups := (List.mem_cons.mp hgroup).resolve_left fun heq =>
        hname (by rw [heq])
      simp only [arrayOf, if_neg hname]
      exact ih hnames.2 group hmem

/-- A row for each PMU of a partition has an entry for each array. -/
theorem mapM_link {pending : List EventObject} {groups : List (Text × List EventObject)}
    (hparts : Partitions tblname pending groups) {pmus : List Text} (hnodup : pmus.Nodup)
    (hpmus : ∀ p, p ∈ pmus ↔ ∃ e ∈ pending, pmuOf e = p) (rest : List Definition) :
    ∃ entries,
      (pmus.map (rowOf offsets tblname)).mapM
          (TableRow.link (groups.map (arrayOf metric offsets tblname) ++ rest)) = some entries ∧
        entries.Perm (groups.map (tableEntry metric offsets)) := by
  have hperm : (groups.map fun group => rowOf offsets tblname group.1).Perm
      (pmus.map (rowOf offsets tblname)) := by
    have hsame : (groups.map Prod.fst).Perm pmus :=
      (List.perm_ext_iff_of_nodup hparts.nodup hnodup).mpr fun p =>
        (hparts.pmus p).trans (hpmus p).symm
    have hmap := hsame.map (rowOf offsets tblname)
    rw [List.map_map] at hmap
    exact hmap
  have hlink : (groups.map fun group => rowOf offsets tblname group.1).mapM
      (TableRow.link (groups.map (arrayOf metric offsets tblname) ++ rest)) =
        some (groups.map (tableEntry metric offsets)) := by
    rw [mapM_eq_some_iff, List.forall₂_map_left_iff, List.forall₂_map_right_iff, List.forall₂_same]
    intro group hgroup
    have hfind := findArray_arrays metric offsets hparts.names rest group hgroup
    simp only [TableRow.link, rowOf, hfind, Option.bind_eq_bind, Option.bind_some, List.length_map]
    rfl
  obtain ⟨entries, hentries, hentriesPerm⟩ := mapM_perm hperm hlink
  exact ⟨entries, hentries, hentriesPerm.symm⟩

end Link

/-! ## The search -/

/-- On an instance with the array of a run, where decompressing a record gives back the
name of its event: the search finds each event of the run, and nothing under another
name. -/
def FindsEvents (offsets : List (Text × Int)) (group : Text × List EventObject) : Prop :=
  ∀ (β : Type) (decompress_event : Int → β) (name : β → CStr) (pmu_instance : PmuInstance)
    (pmu_ev : β),
    pmu_instance.entries = some ((tableEntry false offsets group).entries,
      (tableEntry false offsets group).num_entries) →
    (∀ e ∈ group.2, name (decompress_event (recordOf false offsets e).offset) =
      utf8 (eventName e)) →
    (∀ e ∈ group.2,
      getEventByName decompress_event name (utf8 (eventName e)) pmu_instance pmu_ev =
        some (0, decompress_event (recordOf false offsets e).offset)) ∧
    ∀ ev, (∀ e ∈ group.2, utf8 (eventName e) ≠ ev) →
      ∃ pmu_ev', getEventByName decompress_event name ev pmu_instance pmu_ev = some (-1, pmu_ev')

/-- Distinct names can be searched for. -/
theorem findsEvents_of_nodup (offsets : List (Text × Int)) {group : Text × List EventObject}
    (h : (group.2.map eventName).Nodup) : FindsEvents offsets group := by
  intro β decompress_event name pmu_instance pmu_ev hentries hnames
  have hlength : group.2.length = (group.2.map (recordOf false offsets)).length := by
    rw [List.length_map]
  have hinj : ∀ e ∈ group.2, ∀ e' ∈ group.2, eventName e = eventName e' → e = e' :=
    fun e he e' he' => List.inj_on_of_nodup_map h he he'
  refine ⟨fun e he => ?_, fun ev hev => ?_⟩
  · rw [getEventByName, hentries]
    simp only [tableEntry]
    rw [hlength]
    refine searchEntries_eq_zero (List.mem_map_of_mem he) (hnames e he) ?_ pmu_ev
    intro entry' hentry' hname
    obtain ⟨e', he', rfl⟩ := List.mem_map.mp hentry'
    rw [hnames e' he'] at hname
    rw [hinj e' he' e he (utf8_injective hname)]
  · rw [getEventByName, hentries]
    simp only [tableEntry]
    rw [hlength]
    refine searchEntries_eq_neg ?_ pmu_ev
    intro entry hentry
    obtain ⟨e, he, rfl⟩ := List.mem_map.mp hentry
    rw [hnames e he]
    exact hev e he

/-- Names that are strictly increasing can be searched for. -/
theorem findsEvents_of_pairwise (offsets : List (Text × Int)) {group : Text × List EventObject}
    (h : (group.2.map eventName).Pairwise (· < ·)) : FindsEvents offsets group :=
  findsEvents_of_nodup offsets (h.imp ne_of_lt)

/-! ## Pending events -/

section Pending

variable (lower : Text → Text) (parseMetric : Text → Except PyError Expr) (files : JsonFiles)

/-- The events that `add_events_table_entries` collects: those of a file that have a name. -/
def Pends (event : JsonEvent) : Prop :=
  truthy event.name ∧ ∃ archStdEvents path topic events,
    loadJsonEvents lower parseMetric files archStdEvents path topic = .ok events ∧ event ∈ events

variable {lower parseMetric files}

theorem unitToPmu_ne_nil (lower : Text → Text) (unit : Option Text) :
    JsonEvent.unitToPmu lower unit ≠ [] := by
  have htable : ∀ row ∈ unitTable, row.2 ≠ [] := by decide
  unfold JsonEvent.unitToPmu
  split
  · decide
  · decide
  · split
    · rename_i row hrow
      exact htable row (List.mem_of_find?_eq_some hrow)
    · simp

/-- An architecture standard event leaves the PMU as it is. -/
theorem pmu_of_applyArchStd {archStdEvents : Text → Option JsonEvent} {arch_std : Option Text}
    {self self' : JsonEvent} {event : Text} {event' : Option Text} (hself : self.pmu ≠ [])
    (h : JsonEvent.applyArchStd lower archStdEvents arch_std self event = .ok (self', event')) :
    self'.pmu = self.pmu := by
  unfold JsonEvent.applyArchStd at h
  split at h
  · cases h
    rfl
  · cases h
    rfl
  · split at h
    · cases h
      have hset : self.pmu.isEmpty = false := List.isEmpty_eq_false_iff.mpr hself
      simp [JsonEvent.copyUndefined, hset]
    · cases h

/-- The PMU of an event is that of its unit. -/
theorem pmu_of_init {archStdEvents : Text → Option JsonEvent} {jd : JsonDict} {event : JsonEvent}
    (h : JsonEvent.init lower parseMetric archStdEvents jd = .ok event) :
    event.pmu = JsonEvent.unitToPmu lower (jd "Unit") := by
  simp only [JsonEvent.init, bind_eq_ok, pure_eq_ok] at h
  obtain ⟨_, -, _, -, _, -, _, -, _, -, _, -, ⟨self', event'⟩, happly, rfl⟩ := h
  exact pmu_of_applyArchStd (unitToPmu_ne_nil lower _) happly

theorem Pends.pmu_ne_nil {event : JsonEvent} (h : Pends lower parseMetric files event) :
    event.pmu ≠ [] := by
  obtain ⟨-, archStdEvents, path, topic, events, hload, hmem⟩ := h
  obtain ⟨dicts, loaded, -, hinit, -, rfl⟩ := loadJsonEvents_eq_ok_iff.mp hload
  obtain ⟨event', hevent', rfl⟩ := List.mem_map.mp hmem
  obtain ⟨jd, -, hjd⟩ := exists_of_mem_exceptMapM hinit event' hevent'
  change event'.pmu ≠ []
  rw [pmu_of_init hjd]
  exact unitToPmu_ne_nil lower _

/-- Without a failed assertion `print_pending_events` writes arrays that partition the
pending events by their PMU, each with strictly increasing names, and a table with one
entry for each array; and `get_event_by_name` finds what is in an array. -/
theorem eventTables_partition {offsets : List (Text × Int)} {t : TableState} {tblname : Text}
    (hne : t.pending ≠ []) (htbl : t.tblname = some tblname)
    (hpending : ∀ e ∈ t.pending, Pends lower parseMetric files e.event)
    (hadded : AllAdded false offsets t.pending) (hdistinct : PmusStayDistinct t.pending)
    (hassert : ∀ message, pendingLines false offsets t ≠ .error (.assertion message)) :
    ∃ (lines : List Line) (groups : List (Text × List EventObject)) (rows : List TableRow)
        (entries : List PmuTableEntry),
      pendingLines false offsets t = .ok lines ∧
      definitions lines =
        some (groups.map (arrayOf false offsets tblname) ++ [.table tblname rows]) ∧
      Partitions tblname t.pending groups ∧
      (∀ group ∈ groups, (group.2.map eventName).Pairwise (· < ·)) ∧
      rows.mapM (TableRow.link
        (groups.map (arrayOf false offsets tblname) ++ [.table tblname rows])) = some entries ∧
      entries.Perm (groups.map (tableEntry false offsets)) ∧
      ∀ group ∈ groups, FindsEvents offsets group := by
  have hcheck : (recordWriter false).check (sortedRecords false t.pending) = true := by
    cases hcheck : (recordWriter false).check (sortedRecords false t.pending) with
    | true => rfl
    | false =>
      obtain ⟨message, hmessage⟩ := pendingLines_eq_error htbl hadded hcheck
      exact absurd hmessage (hassert message)
  obtain ⟨lines, pmus, hlines, hdefs, hnodup, hpmus⟩ := pendingLines_eq_ok hne htbl hadded hcheck
  have hparts := partitions_keyRuns tblname hdistinct (contiguous_sortedEvents hdistinct)
  have hnames := pairwise_eventName (fun e he => ⟨(hpending e he).1, (hpending e he).pmu_ne_nil⟩)
    hcheck
  obtain ⟨entries, hentries, hperm⟩ := mapM_link false offsets hparts hnodup hpmus
    [.table tblname (pmus.map (rowOf offsets tblname))]
  exact ⟨lines, _, _, entries, hlines, hdefs, hparts, hnames, hentries, hperm,
    fun group hgroup => findsEvents_of_pairwise offsets (hnames group hgroup)⟩

end Pending

/-- A file with two events of the core and one of an uncore unit. -/
def boxFiles : JsonFiles where
  dicts := fun _ =>
    let event (name : Char) := [("EventName", [name]), ("EventCode", "0x3c".toList)]
    some [JsonDict.ofList (event 'b'), JsonDict.ofList (event 'a'),
      JsonDict.ofList (("Unit", "CBO".toList) :: event 'b')]
  groups := fun _ => none

/-- An event of the file. -/
def boxEvent (name pmu : String) : EventObject where
  arch := ['x']
  parents := []
  file := "other.json".toList
  event := { namedEvent name none none with pmu := pmu.toList }

/-- The events of the file, before their table is closed. -/
def boxTable : TableState where
  pending := [boxEvent "b" "default_core", boxEvent "a" "default_core", boxEvent "b" "uncore_cbox"]
  tblname := some "pmu_events_x".toList
  tables := []
  sysTables := []
  written := []

/-- Offsets of the strings of the table. -/
def boxOffsets : List (Text × Int) :=
  (boxTable.pending.map fun e => (e.event.buildCString false, 0)) ++
    boxTable.pending.map fun e => (e.event.pmu ++ nulText, 20)

theorem eventTables_partition_box :
    ∃ (lines : List Line) (groups : List (Text × List EventObject)) (rows : List TableRow)
        (entries : List PmuTableEntry),
      pendingLines false boxOffsets boxTable = .ok lines ∧
      definitions lines = some (groups.map (arrayOf false boxOffsets "pmu_events_x".toList) ++
        [.table "pmu_events_x".toList rows]) ∧
      Partitions "pmu_events_x".toList boxTable.pending groups ∧
      (∀ group ∈ groups, (group.2.map eventName).Pairwise (· < ·)) ∧
      rows.mapM (TableRow.link (groups.map (arrayOf false boxOffsets "pmu_events_x".toList) ++
        [.table "pmu_events_x".toList rows])) = some entries ∧
      entries.Perm (groups.map (tableEntry false boxOffsets)) ∧
      ∀ group ∈ groups, FindsEvents boxOffsets group := by
  have hload : loadJsonEvents (List.map Char.toLower) (fun _ => .error .keyError) boxFiles
      (fun _ => none) [] "other".toList = .ok (boxTable.pending.map EventObject.event) := rfl
  have hnamed : ∀ e ∈ boxTable.pending, truthy e.event.name := by decide
  have hok : (pendingLines false boxOffsets boxTable).isOk = true := by decide +kernel
  have hpending : ∀ e ∈ boxTable.pending,
      Pends (List.map Char.toLower) (fun _ => .error .keyError) boxFiles e.event :=
    fun e he => ⟨hnamed e he, _, _, _, _, hload, List.mem_map_of_mem he⟩
  refine eventTables_partition (by decide) rfl hpending (by decide +kernel) (by decide +kernel) ?_
  intro message h
  rw [h] at hok
  cases hok

end PmuEvents.Jevents
