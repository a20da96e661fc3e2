import PmuEvents.Jevents.Walk
set_option autoImplicit false

/-!
# Which table an event lands in

The walk acts on two buffers, that of the events and that of the metrics.  Every
event and metric is written to the table of the directory its file is in exactly when
this is the model directory that the walk entered last before it came to the file.
-/

namespace PmuEvents.Jevents

open PmuEvents.Foundation

/-! ## The walk as actions on two buffers -/

/-- The current table, what is pending for it, and what was written. -/
def TableState.toBuffer (t : TableState) : Buffer Text EventObject :=
  { name := t.tblname, pending := t.pending, written := t.written }

theorem printPending_toBuffer (writer : Writer EventObject) (t : TableState) :
    (printPending writer t).map TableState.toBuffer = t.toBuffer.flush writer := by
  unfold printPending Buffer.flush
  by_cases hempty : t.pending.isEmpty
  · rw [if_pos hempty, if_pos (show t.toBuffer.pending.isEmpty from hempty), Option.map_some]
  · rw [if_neg hempty, if_neg (show ¬ t.toBuffer.pending.isEmpty from hempty)]
    have hname : t.toBuffer.name = t.tblname := rfl
    rw [hname]
    cases htblname : t.tblname with
    | none => rfl
    | some tblname =>
      have hpending : t.toBuffer.pending = t.pending := rfl
      dsimp only [Option.bind_some]
      rw [hpending]
      by_cases hcheck : writer.check (writer.sort t.pending)
      · rw [if_pos hcheck, if_pos hcheck, Option.map_some]
        rfl
      · rw [if_neg hcheck, if_neg hcheck, Option.map_none]

section Actions

variable (readJsonEvents : List Text → Text → List JsonEvent)
variable (prefixText : Text) (holds : JsonEvent → Bool)

/-- The events of a file that go into the tables with the given prefix. -/
def heldEvents (v : Visit) : List EventObject :=
  (fileEvents readJsonEvents v).filter fun e => holds e.event

/-- What one call of `process_one_file` does to the tables with the given prefix. -/
def visitActions (v : Visit) : List (BufferAction Text EventObject) :=
  match v.item with
  | .dir name entries =>
    if isLeafDirIgnoringSys entries then
      [.enter (fileNameToTableName prefixText v.parents name)]
    else []
  | .file _ => [.add (heldEvents readJsonEvents holds v)]

/-- What the walk over one architecture does. -/
def archActions (arch : Text × List Entry) : List (BufferAction Text EventObject) :=
  (ftw arch.1 [] arch.2).flatMap (visitActions readJsonEvents prefixText holds) ++ [.close]

/-- What the second pass does. -/
def passActions (archs : List (Text × List Entry)) : List (BufferAction Text EventObject) :=
  archs.flatMap (archActions readJsonEvents prefixText holds)

end Actions

/-- The events that have a name. -/
def hasName (event : JsonEvent) : Bool := truthy event.name

/-- The events that have a metric name. -/
def hasMetricName (event : JsonEvent) : Bool := truthy event.metric_name

/-- A step of the walk does what the given actions do to the two buffers. -/
def Follows (step : WalkState → Option WalkState)
    (events metrics : List (BufferAction Text EventObject)) : Prop :=
  ∀ s b b', (∃ s', step s = some s' ∧ s'.events.toBuffer = b ∧ s'.metrics.toBuffer = b') ↔
    s.events.toBuffer.run eventWriter events = some b ∧
      s.metrics.toBuffer.run metricWriter metrics = some b'

theorem Follows.comp {step step' : WalkState → Option WalkState}
    {events metrics events' metrics' : List (BufferAction Text EventObject)}
    (h : Follows step events metrics) (h' : Follows step' events' metrics') :
    Follows (fun s => (step s).bind step') (events ++ events') (metrics ++ metrics') := by
  intro s b b'
  rw [Buffer.run_append, Buffer.run_append]
  simp only [Option.bind_eq_some_iff]
  constructor
  · rintro ⟨s'', ⟨s', hs', hs''⟩, hb, hb'⟩
    obtain ⟨he, hm⟩ := (h s _ _).mp ⟨s', hs', rfl, rfl⟩
    obtain ⟨he', hm'⟩ := (h' s' b b').mp ⟨s'', hs'', hb, hb'⟩
    exact ⟨⟨_, he, he'⟩, _, hm, hm'⟩
  · rintro ⟨⟨b₁, he, he'⟩, b₂, hm, hm'⟩
    obtain ⟨s', hs', rfl, rfl⟩ := (h s b₁ b₂).mpr ⟨he, hm⟩
    obtain ⟨s'', hs'', hb, hb'⟩ := (h' s' b b').mpr ⟨he', hm'⟩
    exact ⟨s'', ⟨s', hs', hs''⟩, hb, hb'⟩

theorem follows_nil : Follows some [] [] := by
  intro s b b'
  simp [Buffer.run]

theorem follows_foldlM {α : Type} {step : WalkState → α → Option WalkState}
    {events metrics : α → List (BufferAction Text EventObject)}
    (h : ∀ a, Follows (fun s => step s a) (events a) (metrics a)) (l : List α) :
    Follows (fun s => l.foldlM step s) (l.flatMap events) (l.flatMap metrics) := by
  induction l with
  | nil => exact follows_nil
  | cons a l ih => exact (h a).comp ih

/-- Closing the two tables and going on with what they have become. -/
theorem follows_print {step : WalkState → TableState → TableState → WalkState}
    {action action' : BufferAction Text EventObject}
    {f g : Buffer Text EventObject → Buffer Text EventObject}
    (haction : ∀ b : Buffer Text EventObject,
      b.step eventWriter action = (b.flush eventWriter).map f)
    (haction' : ∀ b : Buffer Text EventObject,
      b.step metricWriter action' = (b.flush metricWriter).map g)
    (hstep : ∀ s e m, (step s e m).events.toBuffer = f e.toBuffer ∧
      (step s e m).metrics.toBuffer = g m.toBuffer) :
    Follows
      (fun s => do
        let e ← printPending eventWriter s.events
        let m ← printPending metricWriter s.metrics
        return step s e m)
      [action] [action'] := by
  intro s b b'
  simp only [Buffer.run, haction, haction', ← printPending_toBuffer, Option.bind_eq_bind,
    Option.bind_eq_some_iff, Option.map_eq_some_iff, Option.pure_def, Option.some.injEq]
  constructor
  · rintro ⟨s', ⟨e, he, m, hm, rfl⟩, rfl, rfl⟩
    exact ⟨⟨_, ⟨_, ⟨e, he, rfl⟩, rfl⟩, (hstep s e m).1.symm⟩,
      _, ⟨_, ⟨m, hm, rfl⟩, rfl⟩, (hstep s e m).2.symm⟩
  · rintro ⟨⟨_, ⟨_, ⟨e, he, rfl⟩, rfl⟩, rfl⟩, _, ⟨_, ⟨m, hm, rfl⟩, rfl⟩, rfl⟩
    exact ⟨step s e m, ⟨e, he, m, hm, rfl⟩, (hstep s e m).1, (hstep s e m).2⟩

variable (readJsonEvents : List Text → Text → List JsonEvent)

/-- What one call of the action does. -/
theorem follows_processOneFile (v : Visit) :
    Follows (fun s => processOneFile readJsonEvents s v)
      (visitActions readJsonEvents "pmu_events_".toList hasName v)
      (visitActions readJsonEvents "pmu_metrics_".toList hasMetricName v) := by
  unfold processOneFile visitActions
  cases hitem : v.item with
  | dir name entries =>
    dsimp only
    cases isLeafDirIgnoringSys entries with
    | true => exact follows_print (fun _ => rfl) (fun _ => rfl) fun _ _ _ => ⟨rfl, rfl⟩
    | false => exact follows_nil
  | file name =>
    intro s b b'
    simp only [Buffer.run, Buffer.step, Option.bind_some, Option.some.injEq, exists_eq_left']
    rfl

theorem follows_processArch (arch : Text × List Entry) :
    Follows (fun s => processArch readJsonEvents s arch)
      (archActions readJsonEvents "pmu_events_".toList hasName arch)
      (archActions readJsonEvents "pmu_metrics_".toList hasMetricName arch) :=
  (follows_foldlM (follows_processOneFile readJsonEvents) _).comp
    (follows_print (f := id) (g := id) (fun _ => Option.map_id_apply.symm)
      (fun _ => Option.map_id_apply.symm) fun _ _ _ => ⟨rfl, rfl⟩)

/-- The second pass does what its actions do to two empty buffers. -/
theorem follows_secondPass (archs : List (Text × List Entry)) :
    Follows (fun s => archs.foldlM (processArch readJsonEvents) s)
      (passActions readJsonEvents "pmu_events_".toList hasName archs)
      (passActions readJsonEvents "pmu_metrics_".toList hasMetricName archs) :=
  follows_foldlM (follows_processArch readJsonEvents) archs

/-! ## Tables and directories -/

/-- All calls of the action in the second pass. -/
def allVisits (archs : List (Text × List Entry)) : List Visit :=
  archs.flatMap fun arch => ftw arch.1 [] arch.2

/-- The events read from the files of all architectures. -/
def readObjects (holds : JsonEvent → Bool) (archs : List (Text × List Entry)) :
    List EventObject :=
  (allVisits archs).flatMap (heldEvents readJsonEvents holds)

/-- The table that belongs to the directory which contains an event's file. -/
def ownTable (prefixText : Text) (e : EventObject) : Text :=
  fileNameToTableName prefixText e.parents.dropLast (e.parents.getLastD [])

/-- The pass ends, and every event and every metric is written exactly once, to the
table of the directory that contains its file. -/
def WrittenToOwnTables (archs : List (Text × List Entry)) : Prop :=
  ∃ s, secondPass readJsonEvents archs = some s ∧
    s.events.written.Perm ((readObjects readJsonEvents hasName archs).map
      fun e => (ownTable "pmu_events_".toList e, e)) ∧
    s.metrics.written.Perm ((readObjects readJsonEvents hasMetricName archs).map
      fun e => (ownTable "pmu_metrics_".toList e, e))

/-- The model directory that a call enters: its parents and its name. -/
def modelDir (v : Visit) : Option (List Text × Text) :=
  match v.item with
  | .dir name entries => if isLeafDirIgnoringSys entries then some (v.parents, name) else none
  | .file _ => none

/-- The model directory entered last. -/
def lastModelDir (visits : List Visit) : Option (List Text × Text) :=
  (visits.filterMap modelDir).getLast?

/-- For every file with an event or a metric, the model directory entered last before
it has the table of the directory that contains the file. -/
def FilesInModelDirs (archs : List (Text × List Entry)) : Prop :=
  ∀ pre v post, allVisits archs = pre ++ v :: post →
    ∀ e ∈ fileEvents readJsonEvents v, hasName e.event ∨ hasMetricName e.event →
      (lastModelDir pre).map (fun dir => fileNameToTableName "pmu_events_".toList dir.1 dir.2) =
        some (ownTable "pmu_events_".toList e)

/-- The assertion on duplicate events holds whenever a table is closed. -/
def AssertionsHold (archs : List (Text × List Entry)) : Prop :=
  Buffer.ChecksPass eventWriter []
    (passActions readJsonEvents "pmu_events_".toList hasName archs)

section Kind

variable (prefixText : Text) (holds : JsonEvent → Bool)

theorem labels_visitActions (current : Option Text) (v : Visit) :
    Buffer.labels current (visitActions readJsonEvents prefixText holds v) =
      (heldEvents readJsonEvents holds v).map fun e => (current, e) := by
  cases hitem : v.item with
  | dir name entries =>
    have hnone : heldEvents readJsonEvents holds v = [] := by
      unfold heldEvents fileEvents
      rw [hitem]
      rfl
    rw [hnone]
    unfold visitActions
    rw [hitem]
    dsimp only
    split <;> rfl
  | file name =>
    unfold visitActions
    rw [hitem]
    exact List.append_nil _

theorem nameAfter_visitActions (current : Option Text) (v : Visit) :
    (visitActions readJsonEvents prefixText holds v).foldl Buffer.nameAfter current =
      ((modelDir v).map fun dir => fileNameToTableName prefixText dir.1 dir.2).or current := by
  unfold visitActions modelDir
  cases v.item with
  | dir name entries =>
    dsimp only
    split <;> rfl
  | file name => rfl

/-- Closing a table does not change its name. -/
theorem labels_passActions (current : Option Text) (archs : List (Text × List Entry)) :
    Buffer.labels current (passActions readJsonEvents prefixText holds archs) =
      Buffer.labels current
        ((allVisits archs).flatMap (visitActions readJsonEvents prefixText holds)) := by
  induction archs generalizing current with
  | nil => rfl
  | cons arch archs ih =>
    have hname (actions : List (BufferAction Text EventObject)) :
        Buffer.nameAfterAll current (actions ++ [.close]) =
          Buffer.nameAfterAll current actions := by
      rw [Buffer.nameAfterAll, List.foldl_append]
      rfl
    have hvisits : allVisits (arch :: archs) = ftw arch.1 [] arch.2 ++ allVisits archs := rfl
    unfold passActions at ih
    rw [passActions, List.flatMap_cons, Buffer.labels_append, ih, archActions, hname,
      Buffer.labels_append, hvisits, List.flatMap_append, Buffer.labels_append]
    exact congrArg (· ++ _) (List.append_nil _)

/-- The current table name after some calls is that of the model directory entered last. -/
theorem nameAfterAll_visitActions (current : Option Text) (visits : List Visit) :
    Buffer.nameAfterAll current (visits.flatMap (visitActions readJsonEvents prefixText holds)) =
      ((lastModelDir visits).map fun dir => fileNameToTableName prefixText dir.1 dir.2).or
        current := by
  induction visits generalizing current with
  | nil => rfl
  | cons v visits ih =>
    rw [List.flatMap_cons, Buffer.nameAfterAll, List.foldl_append]
    refine (ih _).trans ?_
    cases hdir : modelDir v with
    | none =>
      have hlast : lastModelDir (v :: visits) = lastModelDir visits := by
        rw [lastModelDir, List.filterMap_cons, hdir, lastModelDir]
      rw [hlast, nameAfter_visitActions, hdir, Option.map_none, Option.none_or]
    | some dir =>
      have hlast : lastModelDir (v :: visits) = (lastModelDir visits).or (some dir) := by
        rw [lastModelDir, List.filterMap_cons, hdir, List.getLast?_cons, lastModelDir]
        cases (visits.filterMap modelDir).getLast? <;> rfl
      rw [hlast, nameAfter_visitActions, hdir]
      cases lastModelDir visits <;> rfl

/-- An event is added while the table of the model directory entered last is current. -/
theorem addedUnderOwn_iff (archs : List (Text × List Entry)) :
    Buffer.AddedUnderOwn (ownTable prefixText) none
        (passActions readJsonEvents prefixText holds archs) ↔
      ∀ pre v post, allVisits archs = pre ++ v :: post →
        ∀ e ∈ heldEvents readJsonEvents holds v,
          (lastModelDir pre).map (fun dir => fileNameToTableName prefixText dir.1 dir.2) =
            some (ownTable prefixText e) := by
  have hlabel (label : Option Text × EventObject) :
      label ∈ Buffer.labels none (passActions readJsonEvents prefixText holds archs) ↔
        ∃ pre v post, allVisits archs = pre ++ v :: post ∧
          ∃ e ∈ heldEvents readJsonEvents holds v,
            ((lastModelDir pre).map (fun dir => fileNameToTableName prefixText dir.1 dir.2), e) =
              label := by
    rw [labels_passActions, Buffer.mem_labels_flatMap]
    simp only [labels_visitActions, nameAfterAll_visitActions, Option.or_none, List.mem_map]
  constructor
  · intro h pre v post hsplit e he
    exact h _ ((hlabel _).mpr ⟨pre, v, post, hsplit, e, he, rfl⟩)
  · intro h label hmem
    obtain ⟨pre, v, post, hsplit, e, he, rfl⟩ := (hlabel label).mp hmem
    exact h pre v post hsplit e he

theorem addedItems_passActions (archs : List (Text × List Entry)) :
    Buffer.addedItems (passActions readJsonEvents prefixText holds archs) =
      readObjects readJsonEvents holds archs := by
  rw [← Buffer.labels_map_snd none, labels_passActions, Buffer.labels_map_snd]
  unfold Buffer.addedItems readObjects
  rw [List.flatMap_assoc]
  refine List.flatMap_congr fun v _ => ?_
  have h := congrArg (List.map Prod.snd)
    (labels_visitActions readJsonEvents prefixText holds none v)
  rw [Buffer.labels_map_snd, List.map_map] at h
  exact h.trans (List.map_id _)

theorem pending_passActions {archs : List (Text × List Entry)} {writer : Writer EventObject}
    {b : Buffer Text EventObject}
    (h : (Buffer.mk none [] []).run writer
      (passActions readJsonEvents prefixText holds archs) = some b) : b.pending = [] := by
  rcases List.eq_nil_or_concat archs with rfl | ⟨archs', arch, rfl⟩
  · obtain rfl := Option.some.inj h
    rfl
  · rw [passActions, List.concat_eq_append, List.flatMap_append, List.flatMap_singleton,
      archActions, ← List.append_assoc] at h
    exact Buffer.run_close_pending h

theorem writesOwn_passActions (writer : Writer EventObject) (archs : List (Text × List Entry)) :
    Buffer.WritesOwn writer (ownTable prefixText) none
        (passActions readJsonEvents prefixText holds archs) ↔
      Buffer.ChecksPass writer [] (passActions readJsonEvents prefixText holds archs) ∧
        ∀ pre v post, allVisits archs = pre ++ v :: post →
          ∀ e ∈ heldEvents readJsonEvents holds v,
            (lastModelDir pre).map (fun dir => fileNameToTableName prefixText dir.1 dir.2) =
              some (ownTable prefixText e) := by
  rw [Buffer.writesOwn_iff fun b h => pending_passActions readJsonEvents prefixText holds h,
    addedUnderOwn_iff]

end Kind

theorem writtenToOwnTables_iff_writesOwn (archs : List (Text × List Entry)) :
    WrittenToOwnTables readJsonEvents archs ↔
      Buffer.WritesOwn eventWriter (ownTable "pmu_events_".toList) none
          (passActions readJsonEvents "pmu_events_".toList hasName archs) ∧
        Buffer.WritesOwn metricWriter (ownTable "pmu_metrics_".toList) none
          (passActions readJsonEvents "pmu_metrics_".toList hasMetricName archs) := by
  have hfollows := follows_secondPass readJsonEvents archs
    { events := .init, metrics := .init, sysMapping := [] }
  unfold WrittenToOwnTables Buffer.WritesOwn
  rw [addedItems_passActions, addedItems_passActions]
  constructor
  · rintro ⟨s, hs, hevents, hmetrics⟩
    obtain ⟨hrun, hrun'⟩ := (hfollows _ _).mp ⟨s, hs, rfl, rfl⟩
    exact ⟨⟨_, hrun, hevents⟩, _, hrun', hmetrics⟩
  · rintro ⟨⟨b, hrun, hevents⟩, b', hrun', hmetrics⟩
    obtain ⟨s, hs, rfl, rfl⟩ := (hfollows b b').mpr ⟨hrun, hrun'⟩
    exact ⟨s, hs, hevents, hmetrics⟩

/-- The prefix does not matter to whether two table names agree. -/
theorem fileNameToTableName_eq_iff (p q : Text) (parents parents' : List Text)
    (dirname dirname' : Text) :
    fileNameToTableName p parents dirname = fileNameToTableName p parents' dirname' ↔
      fileNameToTableName q parents dirname = fileNameToTableName q parents' dirname' := by
  have hsplit (r : Text) (ps : List Text) (d : Text) : fileNameToTableName r ps d =
      replaceChar '-' ['_'] r ++
        replaceChar '-' ['_'] (ps.flatMap (fun p => '_' :: p) ++ '_' :: d) := by
    rw [fileNameToTableName, List.append_assoc, replaceChar, List.flatMap_append]
    rfl
  simp only [hsplit, List.append_cancel_left_eq]

/-- Every event and metric is written to the table of its own directory exactly when
no duplicate is met while a table is closed and the model directory entered last before
a file is always the one that contains it, or one with the same table name. -/
theorem writtenToOwnTables_iff_filesInModelDirs (archs : List (Text × List Entry)) :
    WrittenToOwnTables readJsonEvents archs ↔
      AssertionsHold readJsonEvents archs ∧ FilesInModelDirs readJsonEvents archs := by
  rw [writtenToOwnTables_iff_writesOwn, writesOwn_passActions, writesOwn_passActions, and_assoc]
  have hchecks := @Buffer.checksPass_of_check Text _ metricWriter (fun _ => rfl) []
    (passActions readJsonEvents "pmu_metrics_".toList hasMetricName archs)
  have hsame (dir : Option (List Text × Text)) (e : EventObject) :
      dir.map (fun dir => fileNameToTableName "pmu_metrics_".toList dir.1 dir.2) =
          some (ownTable "pmu_metrics_".toList e) ↔
        dir.map (fun dir => fileNameToTableName "pmu_events_".toList dir.1 dir.2) =
          some (ownTable "pmu_events_".toList e) := by
    cases dir with
    | none => simp
    | some dir =>
      simp only [Option.map_some, Option.some.injEq]
      exact fileNameToTableName_eq_iff _ _ _ _ _ _
  simp only [hsame, hchecks, true_and]
  refine and_congr_right fun _ => ?_
  constructor
  · rintro ⟨hevents, hmetrics⟩ pre v post hsplit e he hheld
    rcases hheld with hname | hmetric
    · exact hevents pre v post hsplit e (List.mem_filter.mpr ⟨he, hname⟩)
    · exact hmetrics pre v post hsplit e (List.mem_filter.mpr ⟨he, hmetric⟩)
  · intro h
    refine ⟨fun pre v post hsplit e he => ?_, fun pre v post hsplit e he => ?_⟩
    · obtain ⟨he, hname⟩ := List.mem_filter.mp he
      exact h pre v post hsplit e he (.inl hname)
    · obtain ⟨he, hmetric⟩ := List.mem_filter.mp he
      exact h pre v post hsplit e he (.inr hmetric)

end PmuEvents.Jevents
