import PmuEvents.Jevents.Passes
import PmuEvents.Foundation.Overlay
set_option autoImplicit false

/-!
# Architecture standard events

What an entry of a JSON file takes from `_arch_std_events` is found under the name
it gives in `ArchStdEvent`.  A file is loaded alike with two dictionaries that agree
on the names in it, and with a larger dictionary unless a name was missing.
-/

namespace PmuEvents.Jevents

open PmuEvents.Foundation PmuEvents.Metric

/-- `_arch_std_events`. -/
abbrev ArchStdEvents := Text → Option JsonEvent

/-! ## Errors that are no missing name -/

section Errors

variable {α β : Type}

/-- The result is not the error for a missing architecture standard event. -/
def NamesFound (x : Except PyError α) : Prop := ∀ n, x ≠ .error (.argumentTypeError n)

theorem NamesFound.ok (a : α) : NamesFound (.ok a : Except PyError α) := by
  intro n h
  cases h

theorem NamesFound.bind {x : Except PyError α} {f : α → Except PyError β} (hx : NamesFound x)
    (hf : ∀ a, NamesFound (f a)) : NamesFound (x >>= f) := by
  intro n h
  cases x with
  | error err => exact hx n (congrArg _ (Except.error.inj h))
  | ok a => exact hf a n h

theorem NamesFound.map {x : Except PyError α} {f : α → β} (hx : NamesFound x) :
    NamesFound (x.map f) := by
  intro n h
  cases x with
  | error err => exact hx n (congrArg _ (Except.error.inj h))
  | ok a => cases h

theorem namesFound_pyInt (base : Nat) (s : Text) : NamesFound (pyInt base s) := by
  intro n h
  simp only [pyInt] at h
  split at h <;> simp at h

theorem namesFound_intAt (base : Nat) (text : Option Text) : NamesFound (intAt base text) := by
  cases text with
  | none => exact .ok none
  | some text => exact (namesFound_pyInt base text).map

theorem namesFound_tableLookup {κ : Type} [DecidableEq κ] (table : List (κ × String)) (key : κ) :
    NamesFound (tableLookup table key) := by
  intro n h
  unfold tableLookup at h
  split at h <;> cases h

theorem namesFound_eventCode (jd : JsonDict) : NamesFound (eventCode jd) := by
  unfold eventCode
  refine (namesFound_intAt _ _).bind fun code => (namesFound_intAt _ _).bind fun ext_sel => ?_
  refine (namesFound_intAt _ _).bind fun configcode => (namesFound_intAt _ _).bind ?_
  intro eventidcode
  split <;> exact .ok _

theorem namesFound_lookupMsr (num : Option Text) : NamesFound (lookupMsr num) := by
  unfold lookupMsr
  split
  · exact .ok none
  · exact .ok none
  · exact (namesFound_pyInt _ _).bind fun msr => (namesFound_tableLookup _ _).map

theorem namesFound_convertAggrMode (mode : Option Text) : NamesFound (convertAggrMode mode) := by
  unfold convertAggrMode
  split
  · exact .ok none
  · exact .ok none
  · exact (namesFound_tableLookup _ _).map

theorem namesFound_convertMetricConstraint (constraint : Option Text) :
    NamesFound (convertMetricConstraint constraint) := by
  unfold convertMetricConstraint
  split
  · exact .ok none
  · exact .ok none
  · exact (namesFound_tableLookup _ _).map

theorem namesFound_exceptE (x : Except PyError α) : NamesFound (exceptE x) := by
  intro n h
  cases x <;> cases h

theorem namesFound_addFields (jd : JsonDict) (fields : List (String × String)) (event : Text) :
    NamesFound (addFields jd fields event) := by
  induction fields generalizing event with
  | nil => exact .ok event
  | cons field fields ih =>
    rw [addFields]
    split
    · exact ih event
    · refine (namesFound_exceptE _).bind fun zero => ?_
      split
      · exact ih event
      · exact (namesFound_exceptE _).bind fun canonical => ih _

end Errors

/-! ## An entry -/

/-- The name under `ArchStdEvent`, where there is one. -/
def namedArchStd (jd : JsonDict) : Option Text := (jd "ArchStdEvent").filter fun n => !n.isEmpty

section Init

variable {lower : Text → Text} {parseMetric : Text → Except PyError Expr}

theorem applyArchStd_eq (d : ArchStdEvents) (jd : JsonDict) (self : JsonEvent) (event : Text) :
    JsonEvent.applyArchStd lower d (jd "ArchStdEvent") self event =
      match namedArchStd jd with
      | none => .ok (self, some event)
      | some n =>
        match d (lower n) with
        | some std => .ok (self.copyUndefined std, std.event)
        | none => .error (.argumentTypeError n) := by
  unfold JsonEvent.applyArchStd namedArchStd
  cases jd "ArchStdEvent" with
  | none => rfl
  | some n =>
    cases n with
    | nil => rfl
    | cons c n => rfl

/-- A computation raises an error of its own, or it ends with what the entry takes from
its architecture standard event. -/
def OwnOrStd (lower : Text → Text) (jd : JsonDict)
    (f : ArchStdEvents → Except PyError JsonEvent) : Prop :=
  (∃ err, (∀ n, err ≠ .argumentTypeError n) ∧ ∀ d, f d = .error err) ∨
    ∃ self event, ∀ d, f d =
      (JsonEvent.applyArchStd lower d (jd "ArchStdEvent") self event).map fun r =>
        { r.1 with event := JsonEvent.realEvent lower r.1.name r.2 }

theorem OwnOrStd.bind {α : Type} {jd : JsonDict} {x : Except PyError α}
    {f : ArchStdEvents → α → Except PyError JsonEvent} (hx : NamesFound x)
    (hf : ∀ a, OwnOrStd lower jd fun d => f d a) : OwnOrStd lower jd fun d => x >>= f d := by
  cases x with
  | error err => exact .inl ⟨err, fun n h => hx n (congrArg _ h), fun d => rfl⟩
  | ok a => exact hf a

theorem OwnOrStd.of_applyArchStd (jd : JsonDict) (self : JsonEvent) (event : Text) :
    OwnOrStd lower jd fun d => do
      let (self, event) ← JsonEvent.applyArchStd lower d (jd "ArchStdEvent") self event
      return { self with event := JsonEvent.realEvent lower self.name event } := by
  refine .inr ⟨self, event, fun d => ?_⟩
  beta_reduce
  cases JsonEvent.applyArchStd lower d (jd "ArchStdEvent") self event <;> rfl

/-- The constructor needs the dictionary only at its end. -/
theorem init_cases (hparse : ∀ text, NamesFound (parseMetric text)) (jd : JsonDict) :
    (∃ err, (∀ n, err ≠ .argumentTypeError n) ∧
      ∀ d, JsonEvent.init lower parseMetric d jd = .error err) ∨
    ∃ self event, ∀ d, JsonEvent.init lower parseMetric d jd =
      (JsonEvent.applyArchStd lower d (jd "ArchStdEvent") self event).map fun r =>
        { r.1 with event := JsonEvent.realEvent lower r.1.name r.2 } := by
  change OwnOrStd lower jd fun d => JsonEvent.init lower parseMetric d jd
  have hexpr : NamesFound (JsonEvent.metricExpr parseMetric (jd "MetricExpr")) := by
    cases jd "MetricExpr" with
    | none => exact .ok none
    | some text => exact (hparse text).map
  unfold JsonEvent.init
  refine .bind (namesFound_eventCode jd) fun code => ?_
  refine .bind (namesFound_lookupMsr _) fun msr => ?_
  refine .bind (namesFound_convertAggrMode _) fun aggr_mode => ?_
  refine .bind (namesFound_convertMetricConstraint _) fun event_grouping => ?_
  refine .bind hexpr fun metric_expr => ?_
  refine .bind (namesFound_addFields _ _ _) fun event => ?_
  exact .of_applyArchStd jd _ _

/-- Two dictionaries that agree on the name give the same event. -/
theorem init_congr {d d' : ArchStdEvents} {jd : JsonDict}
    (h : ∀ n, namedArchStd jd = some n → d (lower n) = d' (lower n)) :
    JsonEvent.init lower parseMetric d jd = JsonEvent.init lower parseMetric d' jd := by
  have happly : ∀ self event, JsonEvent.applyArchStd lower d (jd "ArchStdEvent") self event =
      JsonEvent.applyArchStd lower d' (jd "ArchStdEvent") self event := by
    intro self event
    rw [applyArchStd_eq, applyArchStd_eq]
    cases hname : namedArchStd jd with
    | none => rfl
    | some n => simp only [h n hname]
  unfold JsonEvent.init
  simp only [happly]

variable (hparse : ∀ text, NamesFound (parseMetric text))
include hparse

/-- A missing name is the one under `ArchStdEvent`. -/
theorem namedArchStd_of_missing {d : ArchStdEvents} {jd : JsonDict} {n : Text}
    (h : JsonEvent.init lower parseMetric d jd = .error (.argumentTypeError n)) :
    namedArchStd jd = some n ∧ d (lower n) = none := by
  rcases init_cases hparse jd with ⟨err, herr, hinit⟩ | ⟨self, event, hinit⟩
  · rw [hinit] at h
    exact absurd (Except.error.inj h) (herr n)
  · rw [hinit, applyArchStd_eq] at h
    cases hname : namedArchStd jd with
    | none =>
      rw [hname] at h
      cases h
    | some m =>
      rw [hname] at h
      cases hstd : d (lower m) with
      | some std =>
        simp only [hstd] at h
        cases h
      | none =>
        simp only [hstd] at h
        obtain rfl := PyError.argumentTypeError.inj (Except.error.inj h)
        exact ⟨rfl, hstd⟩

/-- A constructor that returns found the name. -/
theorem found_of_init_eq_ok {d : ArchStdEvents} {jd : JsonDict} {event : JsonEvent}
    (h : JsonEvent.init lower parseMetric d jd = .ok event) {n : Text}
    (hname : namedArchStd jd = some n) : (d (lower n)).isSome := by
  rcases init_cases hparse jd with ⟨err, -, hinit⟩ | ⟨self, event', hinit⟩
  · rw [hinit] at h
    cases h
  · rw [hinit, applyArchStd_eq, hname] at h
    cases hstd : d (lower n) with
    | some std => rfl
    | none =>
      simp only [hstd] at h
      cases h

/-- A larger dictionary gives the same event, unless the name was missing. -/
theorem init_mono {d d' : ArchStdEvents} (hbelow : Below d d') (jd : JsonDict) :
    JsonEvent.init lower parseMetric d' jd = JsonEvent.init lower parseMetric d jd ∨
      ∃ n, JsonEvent.init lower parseMetric d jd = .error (.argumentTypeError n) := by
  rcases init_cases hparse jd with ⟨err, -, hinit⟩ | ⟨self, event, hinit⟩
  · exact .inl ((hinit d').trans (hinit d).symm)
  · by_cases hfound : ∀ n, namedArchStd jd = some n → (d (lower n)).isSome
    · refine .inl (init_congr fun n hname => ?_)
      obtain ⟨std, hstd⟩ := Option.isSome_iff_exists.mp (hfound n hname)
      rw [hstd, hbelow (lower n) std hstd]
    · push Not at hfound
      obtain ⟨n, hname, hmissing⟩ := hfound
      refine .inr ⟨n, ?_⟩
      rw [hinit, applyArchStd_eq, hname]
      simp only [Option.not_isSome_iff_eq_none.mp hmissing]
      rfl

end Init

/-! ## A file -/

/-- The failure to resolve an `ArchStdEvent`. -/
def PassError.missing (n : Text) : PassError := .load (.argumentTypeError n)

section File

variable (lower : Text → Text) (parseMetric : Text → Except PyError Expr)

/-- The rewriting of metrics has no expression to work on. -/
def lacksExpr (event : JsonEvent) : Bool := isRewritable event && event.metric_expr.isNone

/-- The strings of an entry, in a file with the given topic; `none` where the file
cannot be loaded because of the entry. -/
def entryRecords (d : ArchStdEvents) (topic : Text) (jd : JsonDict) :
    Option (List (Text × Bool)) :=
  match JsonEvent.init lower parseMetric d jd with
  | .error _ => none
  | .ok event => if lacksExpr event then none else some (eventCalls { event with topic })

variable {lower parseMetric} {files : JsonFiles}

theorem entryRecords_congr {d d' : ArchStdEvents} {jd : JsonDict} (topic : Text)
    (h : ∀ n, namedArchStd jd = some n → d (lower n) = d' (lower n)) :
    entryRecords lower parseMetric d topic jd = entryRecords lower parseMetric d' topic jd := by
  rw [entryRecords, entryRecords, init_congr h]

theorem metricEntries_isSome_iff (events : List JsonEvent) :
    (metricEntries events).isSome ↔ ∀ event ∈ events, ¬ lacksExpr event := by
  unfold metricEntries
  induction events with
  | nil => simp
  | cons event events ih =>
    rw [List.forall_mem_cons, ← ih]
    by_cases hrewritable : isRewritable event
    · rw [List.filter_cons_of_pos hrewritable, List.mapM_cons]
      cases hexpr : event.metric_expr with
      | none => simp [metricEntry, lacksExpr, hrewritable, hexpr]
      | some expr =>
        cases (events.filter isRewritable).mapM metricEntry <;>
          simp [metricEntry, lacksExpr, hexpr]
    · rw [List.filter_cons_of_neg hrewritable]
      simp [lacksExpr, hrewritable]

/-- When the events of a file come back, and as what. -/
theorem readJsonEvents_eq_some_iff {topic : Text} {events result : List JsonEvent} :
    readJsonEvents lower topic events = some result ↔
      (∀ event ∈ events, ¬ lacksExpr event) ∧
        result = events.map fun event => { event with topic } := by
  rw [← metricEntries_isSome_iff]
  constructor
  · exact readJsonEvents_eq_some
  · rintro ⟨hsome, rfl⟩
    obtain ⟨metrics, hmetrics⟩ := Option.isSome_iff_exists.mp hsome
    obtain ⟨updates, hupdates⟩ :=
      Option.isSome_iff_exists.mp (rewriteMetricsInTermsOfOthers_isSome lower metrics)
    have hread : (readJsonEvents lower topic events).isSome := by
      simp only [readJsonEvents, metricEntries_topic, hmetrics, hupdates, Option.bind_eq_bind,
        Option.bind_some]
      split <;> rfl
    obtain ⟨result, hresult⟩ := Option.isSome_iff_exists.mp hread
    rw [hresult, (readJsonEvents_eq_some hresult).2]

/-- When a file is loaded, and with which events. -/
theorem loadJsonEvents_eq_ok_iff {d : ArchStdEvents} {path : List Text} {topic : Text}
    {events : List JsonEvent} :
    loadJsonEvents lower parseMetric files d path topic = .ok events ↔
      ∃ dicts loaded, files.dicts path = some dicts ∧
        dicts.mapM (JsonEvent.init lower parseMetric d) = .ok loaded ∧
        (∀ event ∈ loaded, ¬ lacksExpr event) ∧
        events = loaded.map fun event => { event with topic } := by
  unfold loadJsonEvents
  split
  · rename_i hdicts
    simp [hdicts]
  · rename_i dicts hdicts
    have hsame : ∀ dicts', files.dicts path = some dicts' → dicts' = dicts := fun dicts' h =>
      Option.some.inj (h.symm.trans hdicts)
    split
    · rename_i err hload
      constructor
      · intro h
        cases h
      · rintro ⟨dicts', loaded, hdicts', hloaded, -⟩
        rw [hsame dicts' hdicts', hload] at hloaded
        cases hloaded
    · rename_i loaded hload
      have hread : readJsonEvents lower topic loaded = some events ↔
          ∃ dicts' loaded', files.dicts path = some dicts' ∧
            dicts'.mapM (JsonEvent.init lower parseMetric d) = .ok loaded' ∧
            (∀ event ∈ loaded', ¬ lacksExpr event) ∧
            events = loaded'.map fun event => { event with topic } := by
        rw [readJsonEvents_eq_some_iff]
        constructor
        · rintro ⟨hexpr, hevents⟩
          exact ⟨dicts, loaded, hdicts, hload, hexpr, hevents⟩
        · rintro ⟨dicts', loaded', hdicts', hloaded, hexpr, hevents⟩
          rw [hsame dicts' hdicts', hload] at hloaded
          obtain rfl := Except.ok.inj hloaded
          exact ⟨hexpr, hevents⟩
      rw [← hread]
      cases readJsonEvents lower topic loaded <;> simp

theorem entryRecords_eq_some_iff {d : ArchStdEvents} {topic : Text} {jd : JsonDict}
    {calls : List (Text × Bool)} :
    entryRecords lower parseMetric d topic jd = some calls ↔
      ∃ event, JsonEvent.init lower parseMetric d jd = .ok event ∧ ¬ lacksExpr event ∧
        eventCalls { event with topic } = calls := by
  unfold entryRecords
  split
  · rename_i err hinit
    simp [hinit]
  · rename_i event hinit
    rw [hinit]
    constructor
    · intro h
      split at h
      · cases h
      · rename_i hexpr
        exact ⟨event, rfl, hexpr, Option.some.inj h⟩
    · rintro ⟨event', hevent, hexpr, hcalls⟩
      obtain rfl := Except.ok.inj hevent
      rw [if_neg hexpr, hcalls]

theorem mapM_entryRecords_iff {d : ArchStdEvents} {topic : Text} {dicts : List JsonDict}
    {records : List (List (Text × Bool))} :
    dicts.mapM (entryRecords lower parseMetric d topic) = some records ↔
      ∃ loaded, dicts.mapM (JsonEvent.init lower parseMetric d) = .ok loaded ∧
        (∀ event ∈ loaded, ¬ lacksExpr event) ∧
        (loaded.map fun event => { event with topic }).map eventCalls = records := by
  simp only [mapM_eq_some_iff, exceptMapM_eq_ok_iff]
  induction dicts generalizing records with
  | nil =>
    simp only [List.forall₂_nil_left_iff, exists_eq_left, List.map_nil, List.not_mem_nil,
      false_implies, implies_true, true_and, eq_comm]
  | cons jd dicts ih =>
    simp only [List.forall₂_cons_left_iff, ih]
    constructor
    · rintro ⟨calls, records, hentry, ⟨loaded, hloaded, hall, rfl⟩, rfl⟩
      obtain ⟨event, hinit, hexpr, rfl⟩ := entryRecords_eq_some_iff.mp hentry
      exact ⟨event :: loaded, ⟨event, loaded, hinit, hloaded, rfl⟩,
        List.forall_mem_cons.mpr ⟨hexpr, hall⟩, rfl⟩
    · rintro ⟨_, ⟨event, loaded, hinit, hloaded, rfl⟩, hall, rfl⟩
      obtain ⟨hexpr, hall⟩ := List.forall_mem_cons.mp hall
      exact ⟨_, _, entryRecords_eq_some_iff.mpr ⟨event, hinit, hexpr, rfl⟩,
        ⟨loaded, hloaded, hall, rfl⟩, rfl⟩

/-- The strings of a file are those of its entries. -/
theorem loadJsonEvents_records {d : ArchStdEvents} {path : List Text} {topic : Text}
    {records : List (List (Text × Bool))} :
    (∃ events, loadJsonEvents lower parseMetric files d path topic = .ok events ∧
      events.map eventCalls = records) ↔
    ∃ dicts, files.dicts path = some dicts ∧
      dicts.mapM (entryRecords lower parseMetric d topic) = some records := by
  constructor
  · rintro ⟨events, hload, rfl⟩
    obtain ⟨dicts, loaded, hdicts, hloaded, hexpr, rfl⟩ := loadJsonEvents_eq_ok_iff.mp hload
    exact ⟨dicts, hdicts, mapM_entryRecords_iff.mpr ⟨loaded, hloaded, hexpr, rfl⟩⟩
  · rintro ⟨dicts, hdicts, hrecords⟩
    obtain ⟨loaded, hloaded, hexpr, rfl⟩ := mapM_entryRecords_iff.mp hrecords
    exact ⟨_, loadJsonEvents_eq_ok_iff.mpr ⟨dicts, loaded, hdicts, hloaded, hexpr, rfl⟩, rfl⟩

variable (hparse : ∀ text, NamesFound (parseMetric text))
include hparse

/-- A file that names a missing event names one. -/
theorem missing_of_loadJsonEvents {d : ArchStdEvents} {path : List Text} {topic n : Text}
    (h : loadJsonEvents lower parseMetric files d path topic = .error (.missing n)) :
    n ≠ [] ∧ d (lower n) = none := by
  unfold loadJsonEvents at h
  split at h
  · cases h
  · split at h
    · rename_i err hload
      obtain rfl := PassError.load.inj (Except.error.inj h)
      obtain ⟨jd, -, hinit⟩ := exists_of_exceptMapM_eq_error hload
      obtain ⟨hname, hmissing⟩ := namedArchStd_of_missing hparse hinit
      refine ⟨?_, hmissing⟩
      rintro rfl
      exact absurd (Option.filter_eq_some_iff.mp hname).2 (by simp)
    · split at h <;> cases h

variable (lower files) in
/-- A larger dictionary loads a file alike, unless the file names a missing event. -/
theorem loadJsonEvents_mono {d d' : ArchStdEvents} (hbelow : Below d d') (path : List Text)
    (topic : Text) :
    loadJsonEvents lower parseMetric files d' path topic =
        loadJsonEvents lower parseMetric files d path topic ∨
      ∃ n, loadJsonEvents lower parseMetric files d path topic = .error (.missing n) := by
  unfold loadJsonEvents
  cases files.dicts path with
  | none => exact .inl rfl
  | some dicts =>
    have hload := exceptMapM_eq_or (B := fun err => ∃ n, err = PyError.argumentTypeError n)
      (f := JsonEvent.init lower parseMetric d) (g := JsonEvent.init lower parseMetric d')
      (l := dicts) fun jd _ => by
        rcases init_mono hparse hbelow jd with hsame | ⟨n, hmissing⟩
        · exact .inl hsame
        · exact .inr ⟨_, ⟨n, rfl⟩, hmissing⟩
    rcases hload with hsame | ⟨_, ⟨n, rfl⟩, hmissing⟩
    · exact .inl (by simp only [hsame])
    · exact .inr ⟨n, by simp only [hmissing]; rfl⟩

end File

end PmuEvents.Jevents
