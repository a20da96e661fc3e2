import PmuEvents.Foundation.Runs
import PmuEvents.Jevents.ReadJson
import PmuEvents.Jevents.Record
import PmuEvents.Jevents.Walk
import PmuEvents.Jevents.MetricGroups
set_option autoImplicit false

/-!
# The two passes of the generator

The first pass of `main` reads the architecture standard events and every file of
an architecture, and adds all strings; the second one reads the files again,
through the cache of `read_json_events`, and looks up the offsets of the strings it
writes.  The second pass is the walk with these look-ups in front of the writing.
-/

namespace PmuEvents.Jevents

open PmuEvents.Foundation PmuEvents.Metric

/-! ## The walk of a run for some models -/

section Model

variable (model : Text)

/-- The test of `ftw` for a directory that `_args.model` leaves out. -/
def skipsDir (parents : List Text) (name : Text) : Bool :=
  let item_path := ['/'].intercalate (parents ++ [name])
  model ≠ "all".toList ∧ parents.length = (firstOfList model).count '/' ∧
    ¬ "test".toList <:+: item_path ∧ ¬ "common".toList <:+: item_path ∧
    item_path ∉ model.splitOn ','

mutual

/-- The calls for an item and what is below it. -/
def Entry.visitsModel (arch : Text) (parents : List Text) : Entry → List Visit
  | .file name => [⟨arch, parents, .file name⟩]
  | .dir name entries =>
    if skipsDir model parents name then []
    else
      ⟨arch, parents, .dir name entries⟩ ::
        inNameOrder (visitsOfEntriesModel arch (parents ++ [name]) entries)

/-- The calls for each of the items of a directory. -/
def visitsOfEntriesModel (arch : Text) (parents : List Text) :
    List Entry → List (Text × List Visit)
  | [] => []
  | item :: items =>
    (item.name, item.visitsModel arch parents) :: visitsOfEntriesModel arch parents items

end

/-- `ftw` with the models of `_args.model`. -/
def ftwModel (arch : Text) (parents : List Text) (entries : List Entry) : List Visit :=
  inNameOrder (visitsOfEntriesModel model arch parents entries)

end Model

theorem skipsDir_all (parents : List Text) (name : Text) :
    skipsDir "all".toList parents name = false := by
  simp [skipsDir]

mutual

theorem visitsModel_all (arch : Text) (parents : List Text) (item : Entry) :
    item.visitsModel "all".toList arch parents = item.visits arch parents := by
  cases item with
  | file name => rw [Entry.visitsModel, Entry.visits]
  | dir name entries =>
    rw [Entry.visitsModel, Entry.visits, skipsDir_all, if_neg Bool.false_ne_true,
      visitsOfEntriesModel_all arch (parents ++ [name]) entries]

theorem visitsOfEntriesModel_all (arch : Text) (parents : List Text) (entries : List Entry) :
    visitsOfEntriesModel "all".toList arch parents entries =
      visitsOfEntries arch parents entries := by
  cases entries with
  | nil => rw [visitsOfEntriesModel, visitsOfEntries]
  | cons item items =>
    rw [visitsOfEntriesModel, visitsOfEntries, visitsModel_all arch parents item,
      visitsOfEntriesModel_all arch parents items]

end

/-- A run for all models walks over everything. -/
theorem ftwModel_all (arch : Text) (parents : List Text) (entries : List Entry) :
    ftwModel "all".toList arch parents entries = ftw arch parents entries := by
  rw [ftwModel, ftw, visitsOfEntriesModel_all]

/-! ## The first pass -/

/-- The contents of the JSON files, by path. -/
structure JsonFiles where
  /-- The objects of a file of events; `none` where `json.load` raises. -/
  dicts : List Text → Option (List JsonDict)
  /-- The items of a file of metric groups. -/
  groups : List Text → Option (List (Text × Text))

/-- The globals of the first pass, and the cache of `read_json_events`. -/
structure Generator where
  cache : List Text → Text → Option (List JsonEvent)
  archStdEvents : Text → Option JsonEvent
  bcs : BigCString
  metricgroups : AList fun _ : Text => Text

/-- The globals at the start. -/
def Generator.initial : Generator where
  cache := fun _ _ => none
  archStdEvents := fun _ => none
  bcs := .empty
  metricgroups := ∅

/-- Why a file is not processed. -/
inductive PassError where
  /-- the constructor of `JsonEvent` raised -/
  | load (err : PyError)
  /-- `json.load` raised -/
  | unreadable
  /-- a metric has no expression to rewrite -/
  | noExpression
  /-- the assertion on the name of a metric group -/
  | assertion
  deriving DecidableEq, Repr

section FirstPass

variable (model : Text) (lower : Text → Text) (parseMetric : Text → Except PyError Expr)
variable (files : JsonFiles)

/-- `read_json_events` for a file that is not in the cache. -/
def loadJsonEvents (archStdEvents : Text → Option JsonEvent) (path : List Text) (topic : Text) :
    Except PassError (List JsonEvent) :=
  match files.dicts path with
  | none => .error .unreadable
  | some dicts =>
    match dicts.mapM (JsonEvent.init lower parseMetric archStdEvents) with
    | .error err => .error (.load err)
    | .ok events =>
      match readJsonEvents lower topic events with
      | none => .error .noExpression
      | some events => .ok events

/-- `read_json_events`. -/
def readCached (s : Generator) (path : List Text) (topic : Text) :
    Except PassError (List JsonEvent × Generator) :=
  match s.cache path topic with
  | some events => .ok (events, s)
  | none => do
    let events ← loadJsonEvents lower parseMetric files s.archStdEvents path topic
    let cache := fun path' topic' =>
      if path' = path ∧ topic' = topic then some events else s.cache path' topic'
    return (events, { s with cache })

/-- An entry of `_arch_std_events`. -/
def Generator.setArchStd (s : Generator) (key : Text) (event : JsonEvent) : Generator :=
  { s with archStdEvents := fun key' => if key' = key then some event else s.archStdEvents key' }

/-- The entries for an architecture standard event, under its name and its metric name. -/
def addArchStd (s : Generator) (event : JsonEvent) : Generator :=
  let s := if truthy event.name then s.setArchStd (lower (event.name.getD [])) event else s
  if truthy event.metric_name then s.setArchStd (lower (event.metric_name.getD [])) event else s

/-- `item.name.endswith('.json')`. -/
def isJson (name : Text) : Bool := ".json".toList.isSuffixOf name

/-- `item.name == 'metricgroups.json'`. -/
def isMetricgroups (name : Text) : Bool := name = "metricgroups.json".toList

/-- The loop of `preprocess_arch_std_files` for one entry of the directory. -/
def preprocessArchStdFile (arch : Text) (s : Generator) (item : Entry) :
    Except PassError Generator :=
  match item with
  | .dir _ _ => .ok s
  | .file name =>
    if isJson name then do
      let (events, s) ← readCached lower parseMetric files s [arch, name] []
      return events.foldl (addArchStd lower) s
    else .ok s

/-- A metric group of `metricgroups.json`. -/
def addMetricgroup (s : Generator) (group : Text × Text) : Except PassError Generator :=
  if 1 < group.1.length then
    .ok { s with
      bcs := s.bcs.addAll (metricGroupCalls group.1 group.2)
      metricgroups := s.metricgroups.insert (group.1 ++ nulText) (group.2 ++ nulText) }
  else .error .assertion

/-- The level of a visit is one the walk processes files on. -/
def onLevel (v : Visit) : Prop := ¬ (v.parents.length = 0 ∨ v.parents.length > 4)

instance (v : Visit) : Decidable (onLevel v) := inferInstanceAs (Decidable (¬ _))

/-- The path of an item. -/
def Visit.path (v : Visit) : List Text := v.arch :: v.parents ++ [v.item.name]

/-- `preprocess_one_file`. -/
def preprocessOneFile (s : Generator) (v : Visit) : Except PassError Generator :=
  match v.item with
  | .dir _ _ => .ok s
  | .file name =>
    if ¬ onLevel v then .ok s
    else if ¬ isJson name then .ok s
    else if isMetricgroups name then
      match files.groups v.path with
      | none => .error .unreadable
      | some groups => groups.foldlM addMetricgroup s
    else do
      let (events, s) ← readCached lower parseMetric files s v.path (getTopic name)
      return { s with bcs := s.bcs.addAll (events.flatMap eventCalls) }

/-- The first pass over an architecture. -/
def firstPassArch (s : Generator) (arch : Text × List Entry) : Except PassError Generator := do
  let s ← arch.2.foldlM (preprocessArchStdFile lower parseMetric files arch.1) s
  (ftwModel model arch.1 [] arch.2).foldlM (preprocessOneFile lower parseMetric files) s

/-- The first pass of `main`. -/
def firstPass (archs : List (Text × List Entry)) : Except PassError Generator :=
  archs.foldlM (firstPassArch model lower parseMetric files) .initial

end FirstPass

/-! ## The second pass with its look-ups -/

section SecondPass

/-- `_bcs.offsets[s]`. -/
def lookupOffset (offsets : List (Text × Int)) (s : Text) : Traced Text Int :=
  ⟨[s], offsets.lookup s⟩

variable (offsets : List (Text × Int))

/-- The assertion on the event before: no event with its PMU and its name. -/
def isDuplicate (last : Option JsonEvent) (event : JsonEvent) : Bool :=
  last.any fun l => !l.pmu.isEmpty && l.pmu = event.pmu && l.name = event.name

/-- The loop over the sorted events or metrics: the look-up of each record. -/
def lookupRecords (metric : Bool) : Option JsonEvent → List EventObject → Traced Text Unit
  | _, [] => return ()
  | last, e :: events => do
    if ¬ metric ∧ isDuplicate last e.event then Traced.fail
    let _ ← lookupOffset offsets (e.event.buildCString metric)
    lookupRecords metric (some e.event) events

/-- `sorted(pmus)`. -/
def sortedPmus (events : List EventObject) : List Text :=
  (events.map fun e => e.event.pmu).dedup.insertionSort (· ≤ ·)

/-- The writer of events, or of metrics. -/
def recordWriter (metric : Bool) : Writer EventObject :=
  if metric then metricWriter else eventWriter

/-- `print_pending_events`, or `print_pending_metrics`, with the look-ups. -/
def printPendingLookups (metric : Bool) (t : TableState) : Traced Text TableState :=
  if t.pending.isEmpty then return t
  else if t.tblname.isNone then Traced.fail
  else do
    let sorted := (recordWriter metric).sort t.pending
    lookupRecords offsets metric none sorted
    (sortedPmus sorted).forM fun pmu => do
      let _ ← lookupOffset offsets (pmu ++ nulText)
    Traced.ofOption (printPending (recordWriter metric) t)

/-- The file of events that a visit of the second pass reads, with its topic. -/
def fileRead (v : Visit) : Option (List Text × Text) :=
  match v.item with
  | .dir _ _ => none
  | .file name =>
    if ¬ onLevel v then none
    else if ¬ isJson name ∨ isMetricgroups name then none
    else some (v.path, getTopic name)

variable (model : Text) (lower : Text → Text) (parseMetric : Text → Except PyError Expr)
variable (files : JsonFiles)

/-- `process_one_file`: the step of the walk, after the look-ups of a new model
directory, or with the events read through the cache. -/
def processOneFileLookups (st : Generator × WalkState) (v : Visit) :
    Traced Text (Generator × WalkState) :=
  match v.item with
  | .dir _ entries =>
    if isLeafDirIgnoringSys entries then do
      let _ ← printPendingLookups offsets false st.2.events
      let _ ← printPendingLookups offsets true st.2.metrics
      let s ← Traced.ofOption (processOneFile (fun _ _ => []) st.2 v)
      return (st.1, s)
    else return st
  | .file _ =>
    match fileRead v with
    | none => return st
    | some (path, topic) => do
      let (events, g) ←
        Traced.ofOption (readCached lower parseMetric files st.1 path topic).toOption
      let s ← Traced.ofOption (processOneFile (fun _ _ => events) st.2 v)
      return (g, s)

/-- The second pass over an architecture. -/
def processArchLookups (st : Generator × WalkState) (arch : Text × List Entry) :
    Traced Text (Generator × WalkState) := do
  let st ← (ftwModel model arch.1 [] arch.2).foldlM
    (processOneFileLookups offsets lower parseMetric files) st
  let events ← printPendingLookups offsets false st.2.events
  let metrics ← printPendingLookups offsets true st.2.metrics
  return (st.1, { st.2 with events, metrics })

/-- `print_metricgroups`. -/
def printMetricgroupsLookups (metricgroups : AList fun _ : Text => Text) : Traced Text Unit :=
  (metricgroups.keys.insertionSort (· ≤ ·)).forM fun mgroup => do
    let _ ← lookupOffset offsets mgroup
    let _ ← lookupOffset offsets ((metricgroups.lookup mgroup).getD [])

/-- The rest of `main` after the strings are laid out: the second pass and the
metric groups, on the globals the first pass left. -/
def secondPassLookups (g : Generator) (archs : List (Text × List Entry)) : Traced Text Unit := do
  let st ← archs.foldlM (processArchLookups offsets model lower parseMetric files)
    (g, { events := .init, metrics := .init, sysMapping := [] })
  printMetricgroupsLookups offsets st.1.metricgroups

end SecondPass

end PmuEvents.Jevents
