import PmuEvents.Foundation.Flush
import PmuEvents.Jevents.JsonEvent
import Mathlib.Data.List.Sort
import Mathlib.Data.Prod.Lex
import Mathlib.Data.List.Lex
import Mathlib.Data.Char
import Mathlib.Order.BooleanAlgebra.Defs
set_option autoImplicit false

/-!
# The walk over an architecture directory

The second pass of `main`: the walk collects the events and metrics of the files it
meets, and closes the table it collected them for when it enters the next model
directory.  `none` stands for an exception.  What `read_json_events` returns for a
path and a topic, cached since the first pass, is a parameter.
-/

namespace PmuEvents.Jevents

open PmuEvents.Foundation

/-! ## The directory tree -/

/-- A file or a directory; the entries come in the order of `os.scandir`. -/
inductive Entry where
  | file (name : Text)
  | dir (name : Text) (entries : List Entry)

namespace Entry

/-- `item.name`. -/
def name : Entry → Text
  | file name => name
  | dir name _ => name

/-- `item.is_dir()`. -/
def isDir : Entry → Bool
  | file _ => false
  | dir _ _ => true

end Entry

/-- `is_leaf_dir_ignoring_sys`. -/
def isLeafDirIgnoringSys (entries : List Entry) : Bool :=
  entries.all fun item => !(item.isDir && item.name ≠ "sys".toList)

/-- One call of the action of the walk; the architecture is part of the item's path. -/
structure Visit where
  arch : Text
  parents : List Text
  item : Entry

/-- The calls for a list of items, in the order of their names. -/
def inNameOrder (visits : List (Text × List Visit)) : List Visit :=
  (visits.insertionSort fun a b => a.1 ≤ b.1).flatMap Prod.snd

mutual

/-- The calls for an item and what is below it. -/
def Entry.visits (arch : Text) (parents : List Text) : Entry → List Visit
  | .file name => [⟨arch, parents, .file name⟩]
  | .dir name entries =>
    ⟨arch, parents, .dir name entries⟩ ::
      inNameOrder (visitsOfEntries arch (parents ++ [name]) entries)

/-- The calls for each of the items of a directory. -/
def visitsOfEntries (arch : Text) (parents : List Text) : List Entry → List (Text × List Visit)
  | [] => []
  | item :: items => (item.name, item.visits arch parents) :: visitsOfEntries arch parents items

end

/-- `ftw`: the calls of the action for a directory. -/
def ftw (arch : Text) (parents : List Text) (entries : List Entry) : List Visit :=
  inNameOrder (visitsOfEntries arch parents entries)

/-! ## Tables -/

/-- `file_name_to_table_name`. -/
def fileNameToTableName (prefixText : Text) (parents : List Text) (dirname : Text) : Text :=
  replaceChar '-' ['_']
    (prefixText ++ parents.flatMap (fun p => '_' :: p) ++ '_' :: dirname)

/-- `get_topic`. -/
def getTopic (topic : Text) : Text :=
  if "metrics.json".toList.isSuffixOf topic then "metrics".toList
  else replaceChar '-' [' '] (removesuffix topic ".json".toList)

/-- An event object, told apart from others by the file it was read from. -/
structure EventObject where
  arch : Text
  parents : List Text
  file : Text
  event : JsonEvent
  deriving DecidableEq

/-- The key of a sort: texts with None as the empty text, and whether there is a description. -/
abbrev CmpKey := Text ×ₗ Text ×ₗ Bool ×ₗ Text ×ₗ Text

/-- `event_cmp_key`. -/
def eventCmpKey (j : JsonEvent) : CmpKey :=
  toLex (replaceChar ',' ['_'] j.pmu, toLex (j.name.getD [], toLex (j.desc.isSome,
    toLex (j.topic, j.metric_name.getD []))))

/-- `metric_cmp_key`. -/
def metricCmpKey (j : JsonEvent) : Bool ×ₗ Text ×ₗ Text :=
  toLex (j.desc.isSome, toLex (j.pmu, j.metric_name.getD []))

/-- The assertion of the loop over the sorted events: no event has the PMU and the name
of the last one. -/
def noDuplicateEvent : Option JsonEvent → List JsonEvent → Bool
  | _, [] => true
  | last, event :: events =>
    !(last.any fun l => !l.pmu.isEmpty && l.pmu = event.pmu && l.name = event.name) &&
      noDuplicateEvent (some event) events

/-- How pending events are written. -/
def eventWriter : Writer EventObject where
  sort := fun l => l.insertionSort fun a b => eventCmpKey a.event ≤ eventCmpKey b.event
  perm := fun _ => List.perm_insertionSort _ _
  check := fun l => noDuplicateEvent none (l.map EventObject.event)

/-- How pending metrics are written. -/
def metricWriter : Writer EventObject where
  sort := fun l => l.insertionSort fun a b => metricCmpKey a.event ≤ metricCmpKey b.event
  perm := fun _ => List.perm_insertionSort _ _
  check := fun _ => true

/-- The globals for the tables of events, or of metrics, and what was written to which
table. -/
structure TableState where
  pending : List EventObject
  tblname : Option Text
  tables : List Text
  sysTables : List Text
  written : List (Text × EventObject)

/-- `print_pending_events`, or `print_pending_metrics`: closes the table. -/
def printPending (writer : Writer EventObject) (t : TableState) : Option TableState :=
  if t.pending.isEmpty then some t
  else
    match t.tblname with
    | none => none
    | some tblname =>
      let sys := "_sys".toList.isSuffixOf tblname
      let sorted := writer.sort t.pending
      if writer.check sorted then
        some
          { t with
            pending := []
            tables := if sys then t.tables else t.tables ++ [tblname]
            sysTables := if sys then t.sysTables ++ [tblname] else t.sysTables
            written := t.written ++ sorted.map fun event => (tblname, event) }
      else none

/-! ## The walk -/

/-- All globals of the second pass. -/
structure WalkState where
  events : TableState
  metrics : TableState
  sysMapping : List (Text × Text)

section Process

variable (readJsonEvents : List Text → Text → List JsonEvent)

/-- The events of a file that `process_one_file` reads. -/
def fileEvents (v : Visit) : List EventObject :=
  match v.item with
  | .dir _ _ => []
  | .file name =>
    let level := v.parents.length
    if level = 0 ∨ level > 4 then []
    else if ¬ ".json".toList.isSuffixOf name ∨ name = "metricgroups.json".toList then []
    else
      (readJsonEvents (v.arch :: v.parents ++ [name]) (getTopic name)).map fun event =>
        { arch := v.arch, parents := v.parents, file := name, event }

/-- `process_one_file`. -/
def processOneFile (s : WalkState) (v : Visit) : Option WalkState :=
  match v.item with
  | .dir name entries =>
    if isLeafDirIgnoringSys entries then do
      let events ← printPending eventWriter s.events
      let metrics ← printPending metricWriter s.metrics
      let events_tblname := fileNameToTableName "pmu_events_".toList v.parents name
      let metrics_tblname := fileNameToTableName "pmu_metrics_".toList v.parents name
      return {
        events := { events with tblname := some events_tblname }
        metrics := { metrics with tblname := some metrics_tblname }
        sysMapping :=
          if name = "sys".toList then s.sysMapping ++ [(events_tblname, metrics_tblname)]
          else s.sysMapping }
    else some s
  | .file _ =>
    let read := fileEvents readJsonEvents v
    some { s with
      events := { s.events with
        pending := s.events.pending ++ read.filter fun e => truthy e.event.name }
      metrics := { s.metrics with
        pending := s.metrics.pending ++ read.filter fun e => truthy e.event.metric_name } }

/-- The walk over an architecture, and its last tables. -/
def processArch (s : WalkState) (arch : Text × List Entry) : Option WalkState := do
  let s ← (ftw arch.1 [] arch.2).foldlM (processOneFile readJsonEvents) s
  let events ← printPending eventWriter s.events
  let metrics ← printPending metricWriter s.metrics
  return { s with events, metrics }

/-- No table yet. -/
def TableState.init : TableState :=
  { pending := [], tblname := none, tables := [], sysTables := [], written := [] }

/-- The second pass of `main`. -/
def secondPass (archs : List (Text × List Entry)) : Option WalkState :=
  archs.foldlM (processArch readJsonEvents)
    { events := .init, metrics := .init, sysMapping := [] }

end Process

end PmuEvents.Jevents
