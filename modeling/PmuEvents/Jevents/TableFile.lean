import PmuEvents.Foundation.Traverse
import PmuEvents.Jevents.EventTables
import PmuEvents.Jevents.MappingTable
import PmuEvents.Jevents.PassesAgree
import Mathlib.Logic.Function.Basic
set_option autoImplicit false

/-!
# The tables of a whole run

The second pass with the lines it writes for arrays and tables.  Read back by a compiler
these define, for every directory that something was written for, a table with one entry
for each PMU, as long as no name is defined twice.
-/

namespace PmuEvents.Jevents

open PmuEvents.Foundation PmuEvents.Lib

/-! ## The second pass with its lines -/

/-- The globals for the tables of metrics, or of events. -/
def WalkState.table (s : WalkState) (metric : Bool) : TableState :=
  if metric then s.metrics else s.events

section Lines

variable (offsets : List (Text × Int)) (readJsonEvents : List Text → Text → List JsonEvent)

/-- `print_pending_events`, or `print_pending_metrics`: the globals after it and the lines. -/
def printPendingLines (metric : Bool) (t : TableState) : Option (TableState × List Line) := do
  let lines ← (pendingLines metric offsets t).toOption
  let t ← printPending (recordWriter metric) t
  return (t, lines)

/-- Both functions, one after the other. -/
def printTables (s : WalkState) : Option (WalkState × List Line) := do
  let (events, lines) ← printPendingLines offsets false s.events
  let (metrics, lines') ← printPendingLines offsets true s.metrics
  return ({ s with events, metrics }, lines ++ lines')

/-- `process_one_file`, behind the lines written so far. -/
def processOneFileLines (st : WalkState × List Line) (v : Visit) :
    Option (WalkState × List Line) :=
  match v.item with
  | .dir _ entries =>
    if isLeafDirIgnoringSys entries then do
      let (_, lines) ← printTables offsets st.1
      let s ← processOneFile readJsonEvents st.1 v
      return (s, st.2 ++ lines)
    else some st
  | .file _ => do
    let s ← processOneFile readJsonEvents st.1 v
    return (s, st.2)

/-- The walk over an architecture, and its last tables. -/
def processArchLines (st : WalkState × List Line) (arch : Text × List Entry) :
    Option (WalkState × List Line) := do
  let st ← (ftw arch.1 [] arch.2).foldlM (processOneFileLines offsets readJsonEvents) st
  let (s, lines) ← printTables offsets st.1
  return (s, st.2 ++ lines)

/-- The second pass of `main` with the lines it writes. -/
def secondPassLines (archs : List (Text × List Entry)) : Option (WalkState × List Line) :=
  archs.foldlM (processArchLines offsets readJsonEvents)
    ({ events := .init, metrics := .init, sysMapping := [] }, [])

end Lines

/-! ## Tables of a C file -/

/-- The table with a name. -/
def findTable (defs : List Definition) (name : Text) : Option (List TableRow) :=
  defs.findSome? fun
    | .array _ _ => none
    | .table name' rows => if name' = name then some rows else none

/-- The table with a name as the compiler fills it in. -/
def linkTable (defs : List Definition) (tblname : Text) : Option (List PmuTableEntry) :=
  (findTable defs tblname).bind fun rows => rows.mapM (TableRow.link defs)

/-- Where no name is defined twice, a name stands for the array it is defined as. -/
theorem findArray_eq_some_iff {defs : List Definition}
    (hnames : (defs.map Definition.name).Nodup) {name : Text} {records : List CompactPmuEvent} :
    findArray defs name = some records ↔ .array name records ∈ defs := by
  rw [findArray, findSome?_eq_some_iff_of_unique]
  · constructor
    · rintro ⟨definition, hmem, hrecords⟩
      cases definition <;> grind
    · exact fun hmem => ⟨_, hmem, if_pos rfl⟩
  · intro definition hmem definition' hmem' hsome hsome'
    refine List.inj_on_of_nodup_map hnames hmem hmem' ?_
    cases definition <;> cases definition' <;> grind [Definition.name]

/-- And for the table it is defined as. -/
theorem findTable_eq_some_iff {defs : List Definition}
    (hnames : (defs.map Definition.name).Nodup) {name : Text} {rows : List TableRow} :
    findTable defs name = some rows ↔ .table name rows ∈ defs := by
  rw [findTable, findSome?_eq_some_iff_of_unique]
  · constructor
    · rintro ⟨definition, hmem, hrows⟩
      cases definition <;> grind
    · exact fun hmem => ⟨_, hmem, if_pos rfl⟩
  · intro definition hmem definition' hmem' hsome hsome'
    refine List.inj_on_of_nodup_map hnames hmem hmem' ?_
    cases definition <;> cases definition' <;> grind [Definition.name]

/-! ## Definitions of what was written -/

section Written

variable (offsets : List (Text × Int))

/-- The definitions of a table that is closed with pending records: an array for each run
of the sorted records, and the table with a row for each PMU. -/
def DefinesTable (metric : Bool) (tblname : Text) (pending : List EventObject)
    (part : List Definition) : Prop :=
  ∃ pmus : List Text, pmus.Nodup ∧ (∀ p, p ∈ pmus ↔ ∃ e ∈ pending, pmuOf e = p) ∧
    part = (keyRuns pmuOf (sortedRecords metric pending)).map (arrayOf metric offsets tblname) ++
      [.table tblname (pmus.map (rowOf offsets tblname))]

/-- Definitions are those of the events and metrics written so far, each under the name of
its table. -/
inductive DefinesWritten : List Definition → (Bool → List (Text × EventObject)) → Prop
  | nil : DefinesWritten [] fun _ => []
  | table {defs : List Definition} {written : Bool → List (Text × EventObject)} {metric : Bool}
      {tblname : Text} {pending : List EventObject} {part : List Definition}
      (h : DefinesWritten defs written) (hne : pending ≠ [])
      (hcheck : (recordWriter metric).check (sortedRecords metric pending) = true)
      (hpart : DefinesTable offsets metric tblname pending part) :
      DefinesWritten (defs ++ part) (Function.update written metric
        (written metric ++ (sortedRecords metric pending).map fun e => (tblname, e)))

/-- What was written to a table, in its order. -/
def writtenTo (written : List (Text × EventObject)) (tblname : Text) : List EventObject :=
  (written.filter fun entry => entry.1 = tblname).map Prod.snd

theorem writtenTo_append (written written' : List (Text × EventObject)) (tblname : Text) :
    writtenTo (written ++ written') tblname =
      writtenTo written tblname ++ writtenTo written' tblname := by
  rw [writtenTo, List.filter_append, List.map_append]
  rfl

theorem writtenTo_map_self (tblname : Text) (l : List EventObject) :
    writtenTo (l.map fun e => (tblname, e)) tblname = l := by
  rw [writtenTo, List.filter_map, List.map_map]
  simp [Function.comp_def]

theorem writtenTo_map_of_ne {tblname name : Text} (h : tblname ≠ name) (l : List EventObject) :
    writtenTo (l.map fun e => (tblname, e)) name = [] := by
  rw [writtenTo, List.filter_map, List.map_map]
  simp [Function.comp_def, h]

variable {offsets}

/-- A table that something was written to is defined. -/
theorem DefinesWritten.exists_table {defs : List Definition}
    {written : Bool → List (Text × EventObject)} (h : DefinesWritten offsets defs written)
    {metric : Bool} {tblname : Text} (hne : writtenTo (written metric) tblname ≠ []) :
    tblname ∈ defs.map Definition.name := by
  induction h with
  | nil => exact absurd rfl hne
  | @table defs written metric' tblname' pending part _ _ _ hpart ih =>
    obtain ⟨pmus, -, -, rfl⟩ := hpart
    by_cases hold : writtenTo (written metric) tblname = []
    · have hmetric : metric = metric' := by
        by_contra hmetric
        rw [Function.update_of_ne hmetric] at hne
        exact hne hold
      subst hmetric
      have hname : tblname' = tblname := by
        by_contra hname
        rw [Function.update_self, writtenTo_append, hold, writtenTo_map_of_ne hname] at hne
        exact hne rfl
      subst hname
      simp [Definition.name]
    · rw [List.map_append]
      exact List.mem_append_left _ (ih hold)

/-- Only tables that something was written to are defined. -/
theorem DefinesWritten.writtenTo_ne_nil {defs : List Definition}
    {written : Bool → List (Text × EventObject)} (h : DefinesWritten offsets defs written)
    {tblname : Text} {rows : List TableRow} (hmem : Definition.table tblname rows ∈ defs) :
    ∃ metric, writtenTo (written metric) tblname ≠ [] := by
  induction h with
  | nil => cases hmem
  | @table defs written metric' tblname' pending part _ hne _ hpart ih =>
    rcases List.mem_append.mp hmem with hold | hnew
    · obtain ⟨metric, hold⟩ := ih hold
      refine ⟨metric, ?_⟩
      by_cases hmetric : metric = metric'
      · subst hmetric
        rw [Function.update_self, writtenTo_append]
        exact List.append_ne_nil_of_left_ne_nil hold _
      · rwa [Function.update_of_ne hmetric]
    · obtain ⟨pmus, -, -, rfl⟩ := hpart
      obtain rfl : tblname = tblname' := by
        rcases List.mem_append.mp hnew with harray | htable
        · obtain ⟨run, -, hrun⟩ := List.mem_map.mp harray
          cases hrun
        · exact (Definition.table.inj (List.mem_singleton.mp htable)).1
      refine ⟨metric', ?_⟩
      rw [Function.update_self, writtenTo_append, writtenTo_map_self]
      exact List.append_ne_nil_of_right_ne_nil _ (sortedRecords_ne_nil hne)

/-- Where no name is defined twice, the definitions of a table are those of all that was
written to it. -/
theorem DefinesWritten.part {defs : List Definition}
    {written : Bool → List (Text × EventObject)} (h : DefinesWritten offsets defs written)
    (hnames : (defs.map Definition.name).Nodup) {metric : Bool} {tblname : Text}
    (hne : writtenTo (written metric) tblname ≠ []) :
    ∃ pending part, DefinesTable offsets metric tblname pending part ∧
      (recordWriter metric).check (sortedRecords metric pending) = true ∧
      writtenTo (written metric) tblname = sortedRecords metric pending ∧ part.Sublist defs := by
  induction h with
  | nil => exact absurd rfl hne
  | @table defs written metric' tblname' pending part h _ hcheck hpart ih =>
    rw [List.map_append] at hnames
    have hold : ∀ metric, tblname' = tblname → writtenTo (written metric) tblname = [] := by
      rintro metric rfl
      by_contra hsome
      have hdefined : tblname' ∈ part.map Definition.name := by
        obtain ⟨pmus, -, -, rfl⟩ := hpart
        simp [Definition.name]
      exact List.disjoint_of_nodup_append hnames (h.exists_table hsome) hdefined
    by_cases hsame : metric = metric' ∧ tblname' = tblname
    · obtain ⟨rfl, rfl⟩ := hsame
      refine ⟨pending, part, hpart, hcheck, ?_, List.sublist_append_right _ _⟩
      rw [Function.update_self, writtenTo_append, hold metric rfl, writtenTo_map_self,
        List.nil_append]
    · have hkeep : writtenTo (Function.update written metric' (written metric' ++
          (sortedRecords metric' pending).map fun e => (tblname', e)) metric) tblname =
            writtenTo (written metric) tblname := by
        by_cases hmetric : metric = metric'
        · subst hmetric
          rw [Function.update_self, writtenTo_append,
            writtenTo_map_of_ne fun hname => hsame ⟨rfl, hname⟩, List.append_nil]
        · rw [Function.update_of_ne hmetric]
      rw [hkeep] at hne ⊢
      obtain ⟨pending', part', hpart', hcheck', hwritten, hsub⟩ := ih hnames.of_append_left hne
      exact ⟨pending', part', hpart', hcheck', hwritten, hsub.trans (List.sublist_append_left _ _)⟩

/-- The entries of a table that holds given events or metrics: one for each PMU, with a
record for each of its events. -/
def HoldsRecords (offsets : List (Text × Int)) (metric : Bool) (objects : List EventObject)
    (entries : List PmuTableEntry) : Prop :=
  ∃ groups : List (Text × List EventObject), (groups.map Prod.fst).Nodup ∧
    (∀ p, p ∈ groups.map Prod.fst ↔ ∃ e ∈ objects, pmuOf e = p) ∧
    (∀ group ∈ groups, group.2.Perm (objects.filter fun e => pmuOf e = group.1)) ∧
    entries = groups.map (tableEntry metric offsets)

theorem HoldsRecords.perm {metric : Bool} {objects objects' : List EventObject}
    {entries : List PmuTableEntry} (h : HoldsRecords offsets metric objects entries)
    (hperm : objects.Perm objects') : HoldsRecords offsets metric objects' entries := by
  obtain ⟨groups, hnodup, hpmus, hrecords, hentries⟩ := h
  refine ⟨groups, hnodup, fun p => ?_, fun group hgroup => ?_, hentries⟩
  · simp only [hpmus, hperm.mem_iff]
  · exact (hrecords group hgroup).trans (hperm.filter _)

/-- Where no name is defined twice, the records of a PMU stand together. -/
theorem contiguous_of_sublist {defs : List Definition} (hnames : (defs.map Definition.name).Nodup)
    {metric : Bool} {tblname : Text} {l : List EventObject}
    (hsub : ((keyRuns pmuOf l).map (arrayOf metric offsets tblname)).Sublist defs) :
    Contiguous pmuOf l := by
  rw [← nodup_keys_keyRuns]
  refine List.Nodup.of_map (fun p => arrayName tblname (tblPmu p)) ?_
  have hruns := hnames.sublist (hsub.map Definition.name)
  rw [List.map_map] at hruns ⊢
  exact hruns

/-- In a file with the arrays of a table, in which no name is defined twice, the row for a
PMU has all its records. -/
theorem link_rowOf {defs : List Definition} (hnames : (defs.map Definition.name).Nodup)
    {metric : Bool} {tblname : Text} {l : List EventObject}
    (hsub : ((keyRuns pmuOf l).map (arrayOf metric offsets tblname)).Sublist defs) {p : Text}
    (hp : ∃ e ∈ l, pmuOf e = p) :
    TableRow.link defs (rowOf offsets tblname p) =
      some (tableEntry metric offsets (p, l.filter fun e => pmuOf e = p)) := by
  obtain ⟨run, hrun, rfl⟩ := List.mem_map.mp (mem_keys_keyRuns.mpr hp)
  have hfind : findArray defs (arrayName tblname (tblPmu run.1)) =
      some (run.2.map (recordOf metric offsets)) :=
    (findArray_eq_some_iff hnames).mpr (hsub.subset (List.mem_map_of_mem hrun))
  have hrecords : run.2 = l.filter fun e => pmuOf e = run.1 :=
    eq_filter_of_mem_keyRuns (contiguous_of_sublist hnames hsub) run hrun
  rw [TableRow.link, rowOf, hfind, Option.bind_eq_bind, Option.bind_some, Option.bind_some,
    List.length_map, ← hrecords]
  rfl

/-- Where no name is defined twice, a table that something was written to holds just this. -/
theorem DefinesWritten.linkTable {defs : List Definition}
    {written : Bool → List (Text × EventObject)} (h : DefinesWritten offsets defs written)
    (hnames : (defs.map Definition.name).Nodup) {metric : Bool} {tblname : Text}
    (hne : writtenTo (written metric) tblname ≠ []) :
    ∃ entries, linkTable defs tblname = some entries ∧
      HoldsRecords offsets metric (writtenTo (written metric) tblname) entries := by
  obtain ⟨pending, part, ⟨pmus, hnodup, hpmus, rfl⟩, -, hwritten, hsub⟩ := h.part hnames hne
  rw [hwritten]
  let records (p : Text) : List EventObject :=
    (sortedRecords metric pending).filter fun e => pmuOf e = p
  have htable : findTable defs tblname = some (pmus.map (rowOf offsets tblname)) :=
    (findTable_eq_some_iff hnames).mpr (hsub.subset (by simp))
  have hlink : (pmus.map (rowOf offsets tblname)).mapM (TableRow.link defs) =
      some ((pmus.map fun p => (p, records p)).map (tableEntry metric offsets)) := by
    rw [mapM_eq_some_iff, List.map_map, List.forall₂_map_left_iff, List.forall₂_map_right_iff,
      List.forall₂_same]
    intro p hp
    obtain ⟨e, he, hpmu⟩ := (hpmus p).mp hp
    exact link_rowOf hnames ((List.sublist_append_left _ _).trans hsub)
      ⟨e, mem_sortedRecords.mpr he, hpmu⟩
  refine ⟨_, ?_, pmus.map fun p => (p, records p), ?_, fun p => ?_, fun group hgroup => ?_, rfl⟩
  · rw [Jevents.linkTable, htable, Option.bind_some, hlink]
  · rw [List.map_map]
    exact (List.map_id pmus).symm ▸ hnodup
  · rw [List.map_map]
    simp only [Function.comp_def, List.map_id', hpmus, mem_sortedRecords]
  · obtain ⟨p, -, rfl⟩ := List.mem_map.mp hgroup
    exact List.Perm.refl _

/-- The names of the events of one PMU in a table are strictly increasing. -/
theorem DefinesWritten.pairwise_eventName {defs : List Definition}
    {written : Bool → List (Text × EventObject)} (h : DefinesWritten offsets defs written)
    (hnames : (defs.map Definition.name).Nodup) {tblname : Text}
    (hnamed : ∀ e ∈ writtenTo (written false) tblname, truthy e.event.name ∧ e.event.pmu ≠ [])
    (p : Text) :
    (((writtenTo (written false) tblname).filter fun e => pmuOf e = p).map eventName).Pairwise
      (· < ·) := by
  by_cases hp : ∃ e ∈ writtenTo (written false) tblname, pmuOf e = p
  · have hne : writtenTo (written false) tblname ≠ [] := by
      obtain ⟨e, he, -⟩ := hp
      exact List.ne_nil_of_mem he
    obtain ⟨pending, part, ⟨pmus, -, -, rfl⟩, hcheck, hwritten, hsub⟩ := h.part hnames hne
    rw [hwritten] at hp hnamed ⊢
    obtain ⟨run, hrun, rfl⟩ := List.mem_map.mp (mem_keys_keyRuns.mpr hp)
    have hcontiguous : Contiguous pmuOf (sortedRecords false pending) :=
      contiguous_of_sublist hnames ((List.sublist_append_left _ _).trans hsub)
    rw [← eq_filter_of_mem_keyRuns hcontiguous run hrun]
    exact Jevents.pairwise_eventName (fun e he => hnamed e (mem_sortedRecords.mpr he)) hcheck
      run hrun
  · have hnone : ((writtenTo (written false) tblname).filter fun e => pmuOf e = p) = [] := by
      rw [List.filter_eq_nil_iff]
      exact fun e he hpmu => hp ⟨e, he, of_decide_eq_true hpmu⟩
    rw [hnone]
    exact .nil

end Written

/-! ## The run -/

/-- The definitions in the lines are those of what was written. -/
def LinesDefine (offsets : List (Text × Int)) (lines : List Line)
    (written : Bool → List (Text × EventObject)) : Prop :=
  ∃ defs, definitions lines = some defs ∧ DefinesWritten offsets defs written

section Run

variable {offsets : List (Text × Int)}

/-- Lines behind others are read as they are alone. -/
theorem foldlM_step_closed (closed : List Definition) (lines : List Line) (r : Reading) :
    lines.foldlM Reading.step { r with closed := closed ++ r.closed } =
      (lines.foldlM Reading.step r).map fun r => { r with closed := closed ++ r.closed } := by
  induction lines generalizing r with
  | nil => rfl
  | cons line lines ih =>
    have hstep : Reading.step { r with closed := closed ++ r.closed } line =
        (Reading.step r line).map fun r => { r with closed := closed ++ r.closed } := by
      cases line <;> cases hcurrent : r.current <;> simp [Reading.step, hcurrent]
      all_goals cases ‹Definition› <;> rfl
    rw [List.foldlM_cons, List.foldlM_cons, hstep]
    cases Reading.step r line with
    | none => rfl
    | some r' => exact ih r'

theorem definitions_eq_some_iff {lines : List Line} {defs : List Definition} :
    definitions lines = some defs ↔
      lines.foldlM Reading.step { closed := [], current := none } =
        some { closed := defs, current := none } := by
  rw [definitions, Option.bind_eq_some_iff]
  constructor
  · rintro ⟨⟨closed, current⟩, hrun, hclosed⟩
    cases current with
    | none =>
      obtain rfl : closed = defs := Option.some.inj hclosed
      exact hrun
    | some definition => cases hclosed
  · exact fun hrun => ⟨_, hrun, rfl⟩

theorem definitions_append {lines lines' : List Line} {defs defs' : List Definition}
    (h : definitions lines = some defs) (h' : definitions lines' = some defs') :
    definitions (lines ++ lines') = some (defs ++ defs') := by
  rw [definitions_eq_some_iff] at h h' ⊢
  have hrest := foldlM_step_closed defs lines' { closed := [], current := none }
  rw [h', List.append_nil] at hrest
  rw [List.foldlM_append, h]
  exact hrest

/-- What closing a table adds to the lines and to what is written. -/
theorem printPendingLines_spec {metric : Bool} {t t' : TableState}
    (hadded : AllAdded metric offsets t.pending)
    (h : printPending (recordWriter metric) t = some t') :
    ∃ lines, printPendingLines offsets metric t = some (t', lines) ∧
      ∀ (before : List Line) (written : Bool → List (Text × EventObject)),
        written metric = t.written → LinesDefine offsets before written →
          LinesDefine offsets (before ++ lines) (Function.update written metric t'.written) := by
  obtain ⟨hnil, rfl⟩ | ⟨tblname, htblname, hne, hcheck, ht'⟩ := printPending_cases h
  · refine ⟨[], ?_, fun before written hwritten hdefine => ?_⟩
    · have hempty : pendingLines metric offsets t' = .ok [] := by
        rw [pendingLines, hnil]
        rfl
      rw [printPendingLines, hempty, h]
      rfl
    · rw [← hwritten, Function.update_eq_self, List.append_nil]
      exact hdefine
  · obtain ⟨lines, pmus, hlines, hdefs, hnodup, hpmus⟩ :=
      pendingLines_eq_ok hne htblname hadded hcheck
    refine ⟨lines, ?_, fun before written hwritten hdefine => ?_⟩
    · rw [printPendingLines, hlines, h]
      rfl
    · obtain ⟨defs, hbefore, hdefines⟩ := hdefine
      refine ⟨_, definitions_append hbefore hdefs, ?_⟩
      have hpart : DefinesTable offsets metric tblname t.pending _ := ⟨pmus, hnodup, hpmus, rfl⟩
      have htable := hdefines.table hne hcheck hpart
      rw [hwritten] at htable
      rw [ht']
      exact htable

/-- The strings of everything pending have offsets. -/
def PendingHaveOffsets (offsets : List (Text × Int)) (s : WalkState) : Prop :=
  ∀ metric, AllAdded metric offsets (s.table metric).pending

/-- What was written to tables of events, and to tables of metrics. -/
def WalkState.written (s : WalkState) (metric : Bool) : List (Text × EventObject) :=
  if metric then s.metrics.written else s.events.written

/-- The walk with lines is at the state of the walk, with lines for what was written. -/
def WithLines (offsets : List (Text × Int)) (s : WalkState) (st : WalkState × List Line) : Prop :=
  st.1 = s ∧ PendingHaveOffsets offsets s ∧ LinesDefine offsets st.2 s.written

/-- Closing both tables. -/
theorem printTables_spec {s : WalkState} {events metrics : TableState}
    (hadded : PendingHaveOffsets offsets s)
    (hevents : printPending eventWriter s.events = some events)
    (hmetrics : printPending metricWriter s.metrics = some metrics) :
    ∃ lines, printTables offsets s = some ({ s with events, metrics }, lines) ∧
      ∀ before, LinesDefine offsets before s.written →
        LinesDefine offsets (before ++ lines)
          (WalkState.written { s with events, metrics }) := by
  have hevents : printPending (recordWriter false) (s.table false) = some events := hevents
  have hmetrics : printPending (recordWriter true) (s.table true) = some metrics := hmetrics
  obtain ⟨lines, hprint, hdefine⟩ := printPendingLines_spec (hadded false) hevents
  obtain ⟨lines', hprint', hdefine'⟩ := printPendingLines_spec (hadded true) hmetrics
  refine ⟨lines ++ lines', ?_, fun before hbefore => ?_⟩
  · have hprint : printPendingLines offsets false s.events = some (events, lines) := hprint
    have hprint' : printPendingLines offsets true s.metrics = some (metrics, lines') := hprint'
    rw [printTables, hprint]
    simp only [Option.bind_eq_bind, Option.bind_some, hprint']
    rfl
  · have hfirst := hdefine before _ rfl hbefore
    have hboth := hdefine' _ _ rfl hfirst
    rw [← List.append_assoc]
    convert hboth using 1
    funext metric
    cases metric <;> rfl

variable {readJsonEvents : List Text → Text → List JsonEvent}

/-- The events, or metrics, that are in the tables. -/
def holdsOf (metric : Bool) : JsonEvent → Bool := if metric then hasMetricName else hasName

/-- The strings of what a visit reads have offsets. -/
def ReadHaveOffsets (offsets : List (Text × Int))
    (readJsonEvents : List Text → Text → List JsonEvent)
    (v : Visit) : Prop :=
  ∀ metric, AllAdded metric offsets (heldEvents readJsonEvents (holdsOf metric) v)

theorem allAdded_append {metric : Bool} {l l' : List EventObject} (h : AllAdded metric offsets l)
    (h' : AllAdded metric offsets l') : AllAdded metric offsets (l ++ l') :=
  List.forall_mem_append.mpr ⟨h, h'⟩

/-- A call of the action. -/
theorem withLines_processOneFile {s s' : WalkState} {st : WalkState × List Line} {v : Visit}
    (hread : ReadHaveOffsets offsets readJsonEvents v) (h : WithLines offsets s st)
    (hstep : processOneFile readJsonEvents s v = some s') :
    ∃ st', processOneFileLines offsets readJsonEvents st v = some st' ∧
      WithLines offsets s' st' := by
  obtain ⟨rfl, hadded, hlines⟩ := h
  unfold processOneFileLines
  have hstep' := hstep
  unfold processOneFile at hstep'
  cases hitem : v.item with
  | dir name entries =>
    rw [hitem] at hstep'
    dsimp only at hstep' ⊢
    by_cases hleaf : isLeafDirIgnoringSys entries = true
    · rw [if_pos hleaf] at hstep' ⊢
      obtain ⟨events, hevents, hstep'⟩ := Option.bind_eq_some_iff.mp hstep'
      obtain ⟨metrics, hmetrics, hstep'⟩ := Option.bind_eq_some_iff.mp hstep'
      obtain rfl := Option.some.inj hstep'
      obtain ⟨lines, hprint, hdefine⟩ := printTables_spec hadded hevents hmetrics
      refine ⟨(_, st.2 ++ lines), ?_, rfl, ?_, hdefine _ hlines⟩
      · rw [hprint]
        simp only [Option.bind_eq_bind, Option.bind_some, hstep]
        rfl
      · intro metric e he
        cases metric with
        | false => exact absurd he (by simp [WalkState.table, printPending_pending hevents])
        | true => exact absurd he (by simp [WalkState.table, printPending_pending hmetrics])
    · rw [if_neg hleaf] at hstep' ⊢
      obtain rfl := Option.some.inj hstep'
      exact ⟨st, rfl, rfl, hadded, hlines⟩
  | file name =>
    rw [hitem] at hstep'
    obtain rfl := Option.some.inj hstep'
    refine ⟨(_, st.2), ?_, rfl, ?_, hlines⟩
    · dsimp only
      rw [hstep]
      rfl
    intro metric
    cases metric with
    | false => exact allAdded_append (hadded false) (hread false)
    | true => exact allAdded_append (hadded true) (hread true)

/-- The walk over an architecture. -/
theorem withLines_processArch {s s' : WalkState} {st : WalkState × List Line}
    {arch : Text × List Entry}
    (hread : ∀ v ∈ ftw arch.1 [] arch.2, ReadHaveOffsets offsets readJsonEvents v)
    (h : WithLines offsets s st) (hstep : processArch readJsonEvents s arch = some s') :
    ∃ st', processArchLines offsets readJsonEvents st arch = some st' ∧
      WithLines offsets s' st' := by
  obtain ⟨walked, hwalk, hstep⟩ := Option.bind_eq_some_iff.mp hstep
  obtain ⟨events, hevents, hstep⟩ := Option.bind_eq_some_iff.mp hstep
  obtain ⟨metrics, hmetrics, hstep⟩ := Option.bind_eq_some_iff.mp hstep
  obtain rfl := Option.some.inj hstep
  have hsteps : ∀ s st v s', v ∈ ftw arch.1 [] arch.2 → WithLines offsets s st →
      processOneFile readJsonEvents s v = some s' →
        ∃ st', processOneFileLines offsets readJsonEvents st v = some st' ∧
          WithLines offsets s' st' :=
    fun _ _ v _ hv hat => withLines_processOneFile (hread v hv) hat
  obtain ⟨st₁, hwalk', rfl, hadded, hlines⟩ := foldlM_some_simulates hsteps hwalk h
  obtain ⟨lines, hprint, hdefine⟩ := printTables_spec hadded hevents hmetrics
  refine ⟨(_, st₁.2 ++ lines), ?_, rfl, ?_, hdefine _ hlines⟩
  · rw [processArchLines, hwalk']
    simp only [Option.bind_eq_bind, Option.bind_some, hprint]
    rfl
  · intro metric e he
    cases metric with
    | false => exact absurd he (by simp [WalkState.table, printPending_pending hevents])
    | true => exact absurd he (by simp [WalkState.table, printPending_pending hmetrics])

/-- Where all strings have offsets, the second pass writes lines that define what it has
written. -/
theorem secondPassLines_define {archs : List (Text × List Entry)} {s : WalkState}
    (hadded : ∀ metric, AllAdded metric offsets
      (readObjects readJsonEvents (holdsOf metric) archs))
    (hpass : secondPass readJsonEvents archs = some s) :
    ∃ lines, secondPassLines offsets readJsonEvents archs = some (s, lines) ∧
      LinesDefine offsets lines s.written := by
  have hread : ∀ arch ∈ archs, ∀ v ∈ ftw arch.1 [] arch.2,
      ReadHaveOffsets offsets readJsonEvents v := by
    intro arch harch v hv metric e he
    exact hadded metric e (List.mem_flatMap.mpr ⟨v, List.mem_flatMap.mpr ⟨arch, harch, hv⟩, he⟩)
  have hinit : WithLines offsets { events := .init, metrics := .init, sysMapping := [] }
      ({ events := .init, metrics := .init, sysMapping := [] }, []) := by
    refine ⟨rfl, fun metric e he => ?_, [], rfl, ?_⟩
    · cases metric <;> cases he
    · have hnothing : WalkState.written { events := .init, metrics := .init, sysMapping := [] } =
          fun _ => [] := by
        funext metric
        cases metric <;> rfl
      rw [hnothing]
      exact .nil
  have hsteps : ∀ s st arch s', arch ∈ archs → WithLines offsets s st →
      processArch readJsonEvents s arch = some s' →
        ∃ st', processArchLines offsets readJsonEvents st arch = some st' ∧
          WithLines offsets s' st' :=
    fun _ _ arch _ harch hat => withLines_processArch (hread arch harch) hat
  obtain ⟨st, hrun, rfl, -, hlines⟩ := foldlM_some_simulates hsteps hpass hinit
  exact ⟨st.2, hrun, hlines⟩

end Run

/-! ## The tables of the directories -/

/-- The prefix of the names of tables. -/
def tablePrefix (metric : Bool) : Text :=
  if metric then "pmu_metrics_".toList else "pmu_events_".toList

/-- In the generated file the tables are those of the directories. -/
structure TablesHold (offsets : List (Text × Int))
    (readJsonEvents : List Text → Text → List JsonEvent) (archs : List (Text × List Entry))
    (defs : List Definition) : Prop where
  /-- The table of a directory has an entry for each PMU with the records of its files. -/
  holds : ∀ metric tblname,
    tableObjects readJsonEvents archs (tablePrefix metric) (holdsOf metric) tblname ≠ [] →
      ∃ entries, linkTable defs tblname = some entries ∧
        HoldsRecords offsets metric
          (tableObjects readJsonEvents archs (tablePrefix metric) (holdsOf metric) tblname) entries
  /-- There are no other tables. -/
  only : ∀ tblname rows, Definition.table tblname rows ∈ defs →
    ∃ metric,
      tableObjects readJsonEvents archs (tablePrefix metric) (holdsOf metric) tblname ≠ []

/-- A pass has written everything to the tables of its own directories. -/
structure WroteOwn (readJsonEvents : List Text → Text → List JsonEvent)
    (archs : List (Text × List Entry)) (s : WalkState) : Prop where
  pass : secondPass readJsonEvents archs = some s
  written : ∀ metric, (s.written metric).Perm
    ((readObjects readJsonEvents (holdsOf metric) archs).map
      fun e => (ownTable (tablePrefix metric) e, e))

section Directories

variable {offsets : List (Text × Int)} {readJsonEvents : List Text → Text → List JsonEvent}
variable {archs : List (Text × List Entry)} {s : WalkState} {defs : List Definition}

theorem exists_wroteOwn (h : WrittenToOwnTables readJsonEvents archs) :
    ∃ s, WroteOwn readJsonEvents archs s := by
  obtain ⟨s, hpass, hevents, hmetrics⟩ := h
  refine ⟨s, hpass, fun metric => ?_⟩
  cases metric with
  | false => exact hevents
  | true => exact hmetrics

theorem WroteOwn.writtenTo_perm (h : WroteOwn readJsonEvents archs s) (metric : Bool)
    (tblname : Text) :
    (writtenTo (s.written metric) tblname).Perm
      (tableObjects readJsonEvents archs (tablePrefix metric) (holdsOf metric) tblname) :=
  written_perm_tableObjects (h.written metric) tblname

/-- Where no name is defined twice, the tables that are defined are those of the
directories. -/
theorem WroteOwn.tablesHold (h : WroteOwn readJsonEvents archs s)
    (hdefines : DefinesWritten offsets defs s.written)
    (hnames : (defs.map Definition.name).Nodup) :
    TablesHold offsets readJsonEvents archs defs := by
  constructor
  · intro metric tblname hne
    have hne' : writtenTo (s.written metric) tblname ≠ [] := fun hnil =>
      hne ((hnil ▸ h.writtenTo_perm metric tblname).nil_eq).symm
    obtain ⟨entries, hlink, hholds⟩ := hdefines.linkTable hnames hne'
    exact ⟨entries, hlink, hholds.perm (h.writtenTo_perm metric tblname)⟩
  · intro tblname rows hmem
    obtain ⟨metric, hne⟩ := hdefines.writtenTo_ne_nil hmem
    exact ⟨metric, fun hnil => hne (hnil ▸ h.writtenTo_perm metric tblname).eq_nil⟩

/-- The events of one PMU in a table have distinct names. -/
theorem WroteOwn.nodup_eventName (h : WroteOwn readJsonEvents archs s)
    (hdefines : DefinesWritten offsets defs s.written)
    (hnames : (defs.map Definition.name).Nodup) {tblname : Text}
    (hnamed : ∀ e ∈ tableObjects readJsonEvents archs (tablePrefix false) (holdsOf false) tblname,
      e.event.pmu ≠ []) (p : Text) :
    (((tableObjects readJsonEvents archs (tablePrefix false) (holdsOf false) tblname).filter
      fun e => pmuOf e = p).map eventName).Nodup := by
  have hperm := h.writtenTo_perm false tblname
  have hincreasing := hdefines.pairwise_eventName hnames (fun e he => by
    have hmem := hperm.mem_iff.mp he
    obtain ⟨v, -, hheld⟩ := List.mem_flatMap.mp (List.mem_filter.mp hmem).1
    exact ⟨(List.mem_filter.mp hheld).2, hnamed e hmem⟩) p
  exact ((hperm.filter _).map _).nodup_iff.mp (hincreasing.imp ne_of_lt)

end Directories

/-- Where everything is written to the table of its own directory and all strings have
offsets, the lines of the second pass are definitions of arrays and tables; and where these
define no name twice, the tables are those of the directories. -/
theorem secondPassLines_tablesHold (offsets : List (Text × Int))
    (readJsonEvents : List Text → Text → List JsonEvent) (archs : List (Text × List Entry))
    (hown : WrittenToOwnTables readJsonEvents archs)
    (hadded : ∀ metric, AllAdded metric offsets
      (readObjects readJsonEvents (holdsOf metric) archs)) :
    ∃ s lines defs, secondPassLines offsets readJsonEvents archs = some (s, lines) ∧
      definitions lines = some defs ∧
      ((defs.map Definition.name).Nodup → TablesHold offsets readJsonEvents archs defs) := by
  obtain ⟨s, hwrote⟩ := exists_wroteOwn hown
  obtain ⟨lines, hlines, defs, hdefs, hdefines⟩ := secondPassLines_define hadded hwrote.pass
  exact ⟨s, lines, defs, hlines, hdefs, hwrote.tablesHold hdefines⟩

/-- Offsets for the strings of two models. -/
def twoModelsOffsets : List (Text × Int) :=
  (readObjects oneEvent hasName twoModels).map (fun e => (e.event.buildCString false, 20)) ++
    [("default_core".toList ++ nulText, 0)]

theorem secondPassLines_tablesHold_twoModels :
    ∃ s lines defs, secondPassLines twoModelsOffsets oneEvent twoModels = some (s, lines) ∧
      definitions lines = some defs ∧ TablesHold twoModelsOffsets oneEvent twoModels defs := by
  have hadded : ∀ metric, AllAdded metric twoModelsOffsets
      (readObjects oneEvent (holdsOf metric) twoModels) := by decide +kernel
  have hnodup : ((secondPassLines twoModelsOffsets oneEvent twoModels).bind fun st =>
      definitions st.2).all fun defs => decide (defs.map Definition.name).Nodup := by
    decide +kernel
  obtain ⟨s, lines, defs, hlines, hdefs, hholds⟩ :=
    secondPassLines_tablesHold twoModelsOffsets oneEvent twoModels writtenToOwnTables_twoModels
      hadded
  refine ⟨s, lines, defs, hlines, hdefs, hholds ?_⟩
  rw [hlines, Option.bind_some, hdefs] at hnodup
  exact of_decide_eq_true hnodup

end PmuEvents.Jevents
