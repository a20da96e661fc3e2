import PmuEvents.System.EventAttr
import PmuEvents.System.EventLookup
set_option autoImplicit false

/-!
# The example program: `read_event`

The program looks an event up on all instances of the tree, generates an attribute for each
instance that has it, and opens a counter for each attribute.  The main result follows an
event from the JSON files to the calls of `perf_event_open`.
-/

namespace PmuEvents.Example

open PmuEvents.Foundation PmuEvents.Jevents PmuEvents.Lib PmuEvents.Libc PmuEvents.Metric
open PmuEvents.System PmuEvents.Tables

variable {β γ : Type}

/-! ## The program -/

/-- `struct whole_ev`, once its attribute is generated. -/
structure WholeEv (γ β : Type) where
  instance_ : PmuInstance
  ev : γ
  attr : PerfEventAttr β

/-- A call of `perf_event_open`, for any process, without a group and flags. -/
structure OpenCall (β : Type) where
  attr : PerfEventAttr β
  cpu : U64

/-- How `read_event` goes on. -/
inductive ReadOutcome (β : Type) where
  /-- "No event matches" -/
  | noMatch
  /-- "Can not generate perf_event_attr for" an event of this name -/
  | noAttr (name : CStr)
  /-- "Could not open event", after these calls -/
  | openFailed (calls : List (OpenCall β))
  /-- the counters of these calls are read every second -/
  | reading (calls : List (OpenCall β))

section Program

variable (decompress_event : Int → γ) (name : γ → CStr) (event : γ → Option CStr)

/-- The loop over the instances of a class; `unread` is what `pmu_ev` holds at first. -/
def searchInstances (ev : CStr) (unread : γ) :
    List PmuInstance → Option (List (PmuInstance × γ))
  | [] => some []
  | cur_instance :: instances => do
    let (code, pmu_ev) ← getEventByName decompress_event name ev cur_instance unread
    let evs ← searchInstances ev unread instances
    return if code = 0 then (cur_instance, pmu_ev) :: evs else evs

/-- The loop over the classes. -/
def searchClasses (ev : CStr) (unread : γ) :
    List PmuClass → Option (List (PmuInstance × γ))
  | [] => some []
  | pmu_class :: classes => do
    let evs ← searchInstances decompress_event name ev unread pmu_class.instances
    let rest ← searchClasses ev unread classes
    return evs ++ rest

/-- An attribute as it is before `gen_attr_for_event`: the `memset` starts at the second
member, so the type is what it was in the allocated memory. -/
def clearedAttr (zero : β) (type : BitVec 32) : PerfEventAttr β :=
  { type, config := 0, config1 := 0, config2 := 0, others := zero }

/-- The loop that generates the attributes, or the name of the event where it stops; the
event string may not be NULL. -/
def genAttrs (sys : Sysfs) (zero : β) (unread : Nat → BitVec 32) :
    Nat → List (PmuInstance × γ) → Option (Except CStr (List (WholeEv γ β)))
  | _, [] => some (.ok [])
  | ev_id, (instance_, ev) :: evs => do
    let str ← event ev
    let (code, attr) ←
      genAttrForEvent sys instance_ str (clearedAttr zero (unread ev_id))
    if code = -1 then return .error (name ev)
    else
      let rest ← genAttrs sys zero unread (ev_id + 1) evs
      return rest.map ({ instance_, ev, attr } :: ·)

/-- The loop that opens the counters, with the descriptors that the system returns: whether
it reaches its end, and the calls it makes. -/
def openEvents (fds : Nat → Int) : Nat → List (WholeEv γ β) → Option (Bool × List (OpenCall β))
  | _, [] => some (true, [])
  | ev_id, e :: evs => do
    let range ← e.instance_.cpus.head?
    let call : OpenCall β := { attr := e.attr, cpu := range.start }
    if fds ev_id = -1 then return (false, [call])
    else
      let rest ← openEvents fds (ev_id + 1) evs
      return (rest.1, call :: rest.2)

/-- `read_event` on a tree, up to the loop that reads the counters; `none` where it reads
outside of an array or through NULL. -/
def readEvent (sys : Sysfs) (pmus : Pmus) (ev : CStr) (unread_ev : γ) (zero : β)
    (unread : Nat → BitVec 32) (fds : Nat → Int) : Option (ReadOutcome β) := do
  let evs ← searchClasses decompress_event name ev unread_ev pmus.classes
  if evs.length = 0 then return .noMatch
  else
    match ← genAttrs name event sys zero unread 0 evs with
    | .error stopped => return .noAttr stopped
    | .ok evs =>
      let (opened, calls) ← openEvents fds 0 evs
      return if opened then .reading calls else .openFailed calls

end Program

/-! ## The search -/

section Search

variable {decompress_event : Int → γ} {name : γ → CStr} {ev : CStr} {unread : γ}

theorem searchInstances_of_found {instances : List PmuInstance} {pmu_ev : γ}
    (h : ∀ i ∈ instances, getEventByName decompress_event name ev i unread = some (0, pmu_ev)) :
    searchInstances decompress_event name ev unread instances =
      some (instances.map fun i => (i, pmu_ev)) := by
  induction instances with
  | nil => rfl
  | cons i instances ih =>
    rw [List.forall_mem_cons] at h
    rw [searchInstances, h.1, ih h.2]
    rfl

theorem searchInstances_of_missing {instances : List PmuInstance}
    (h : ∀ i ∈ instances, ∃ pmu_ev, getEventByName decompress_event name ev i unread =
      some (-1, pmu_ev)) :
    searchInstances decompress_event name ev unread instances = some [] := by
  induction instances with
  | nil => rfl
  | cons i instances ih =>
    rw [List.forall_mem_cons] at h
    obtain ⟨⟨pmu_ev, hcode⟩, hrest⟩ := h
    rw [searchInstances, hcode, ih hrest]
    rfl

end Search

/-! ## The events that match -/

/-- The event with a name among those of a class. -/
def eventOf (events : List EventObject) (ev : CStr) (pmu_class : PmuClass) :
    Option EventObject :=
  events.find? fun e => utf8 e.event.pmu = pmu_class.name ∧ utf8 (eventName e) = ev

/-- The instances of the tree whose class has an event with the name, with this event. -/
def matchingEvents (events : List EventObject) (pmus : Pmus) (ev : CStr) :
    List (PmuInstance × EventObject) :=
  pmus.classes.flatMap fun pmu_class =>
    (eventOf events ev pmu_class).toList.flatMap fun e =>
      pmu_class.instances.map fun i => (i, e)

theorem eventOf_eq_some {events : List EventObject} {ev : CStr} {pmu_class : PmuClass}
    {e : EventObject} (h : eventOf events ev pmu_class = some e) :
    e ∈ events ∧ utf8 e.event.pmu = pmu_class.name ∧ utf8 (eventName e) = ev := by
  unfold eventOf at h
  have hfound := List.find?_some h
  exact ⟨List.mem_of_find?_eq_some h, of_decide_eq_true hfound⟩

theorem eventOf_eq_none_iff {events : List EventObject} {ev : CStr} {pmu_class : PmuClass} :
    eventOf events ev pmu_class = none ↔
      ∀ e ∈ events, utf8 e.event.pmu = pmu_class.name → utf8 (eventName e) ≠ ev := by
  simp only [eventOf, List.find?_eq_none, decide_eq_true_eq, not_and]

theorem mem_matchingEvents {events : List EventObject} {pmus : Pmus} {ev : CStr}
    {i : PmuInstance} {e : EventObject} (h : (i, e) ∈ matchingEvents events pmus ev) :
    e ∈ events ∧ utf8 (eventName e) = ev ∧
      ∃ pmu_class ∈ pmus.classes, utf8 e.event.pmu = pmu_class.name ∧ i ∈ pmu_class.instances := by
  obtain ⟨pmu_class, hclass, h⟩ := List.mem_flatMap.mp h
  obtain ⟨e', he', h⟩ := List.mem_flatMap.mp h
  obtain ⟨i', hi', h⟩ := List.mem_map.mp h
  obtain ⟨rfl, rfl⟩ := Prod.mk.inj h
  obtain ⟨hmem, hpmu, hname⟩ := eventOf_eq_some (Option.mem_toList.mp he')
  exact ⟨hmem, hname, pmu_class, hclass, hpmu, hi'⟩

/-- What the search leaves for an event: its instance and the members of its record. -/
def FoundAs (f : PmuInstance × EventObject)
    (found : PmuInstance × Option (List (Attr × Member))) : Prop :=
  found.1 = f.1 ∧
    ∃ r : TableRecord, r.metric = false ∧ r.event = f.2.event ∧ found.2 = some (members r)

section Tree

variable {sys : Sysfs} {big_c_string : List UInt8} {events : List EventObject} {pmus : Pmus}

/-- On a tree with the events the search finds those that match. -/
theorem searchClasses_of_hasEvents (hhas : HasEvents sys big_c_string events pmus)
    (hfits : ∀ e ∈ events, Fits e) (ev : CStr) (unread : Option (List (Attr × Member)))
    {classes : List PmuClass} (hclasses : ∀ c ∈ classes, c ∈ pmus.classes) :
    ∃ evs, searchClasses (decompressAt false big_c_string) nameMember ev unread classes =
        some evs ∧
      List.Forall₂ FoundAs (matchingEvents events ⟨classes⟩ ev) evs := by
  induction classes with
  | nil => exact ⟨[], rfl, .nil⟩
  | cons pmu_class classes ih =>
    rw [List.forall_mem_cons] at hclasses
    obtain ⟨rest, hrest, hmatches⟩ := ih hclasses.2
    have hfirst : ∃ evs, searchInstances (decompressAt false big_c_string) nameMember ev unread
          pmu_class.instances = some evs ∧
        List.Forall₂ FoundAs ((eventOf events ev pmu_class).toList.flatMap fun e =>
          pmu_class.instances.map fun i => (i, e)) evs := by
      cases hevent : eventOf events ev pmu_class with
      | none =>
        refine ⟨[], searchInstances_of_missing fun i hi => ?_, .nil⟩
        exact hhas.missing _ hclasses.1 i hi ev (eventOf_eq_none_iff.mp hevent) unread
      | some e =>
        obtain ⟨hmem, hpmu, hname⟩ := eventOf_eq_some hevent
        obtain ⟨r, hmetric, hr⟩ := (hfits e hmem).record
        have hall : ∀ i ∈ pmu_class.instances, getEventByName (decompressAt false big_c_string)
            nameMember ev i unread = some (0, some (members r)) := by
          intro i hi
          rw [← hname, ← value_name_of_event hr]
          exact hhas.found _ hclasses.1 i hi r hmetric ⟨e, hmem, hr.symm, hpmu⟩ unread
        refine ⟨_, searchInstances_of_found hall, ?_⟩
        rw [Option.toList_some, List.flatMap_cons, List.flatMap_nil, List.append_nil,
          List.forall₂_map_left_iff, List.forall₂_map_right_iff, List.forall₂_same]
        exact fun i _ => ⟨rfl, r, hmetric, hr, rfl⟩
    obtain ⟨evs, hevs, hfound⟩ := hfirst
    refine ⟨evs ++ rest, ?_, ?_⟩
    · rw [searchClasses, hevs, hrest]
      rfl
    · rw [matchingEvents, List.flatMap_cons]
      exact List.rel_append hfound hmatches

end Tree

/-! ## The JSON objects of the matches -/

/-- `pmu_ev->event`, or `none` for NULL. -/
def eventMember (pmu_ev : Option (List (Attr × Member))) : Option CStr :=
  match pmu_ev.bind (List.lookup .event) with
  | some (.ptr s) => s
  | _ => none

/-- The settings of the event string that is made from a JSON object. -/
def jsonSettings (jd : JsonDict) : List FieldItem :=
  match eventCode jd with
  | .ok code => settings jd code
  | .error _ => []

section Made

variable (lower : Text → Text) (parseMetric : Text → Except PyError Expr) (files : JsonFiles)

/-- An event is made from an object of the JSON files. -/
def MadeFrom (e : EventObject) (jd : JsonDict) : Prop :=
  ∃ path topic dicts archStdEvents ev, files.dicts path = some dicts ∧ jd ∈ dicts ∧
    JsonEvent.init lower parseMetric archStdEvents jd = .ok ev ∧ e.event = { ev with topic }

/-- A match whose event is made from a plain JSON object, on an instance whose formats share
no bit. -/
structure PlainMatch (sys : Sysfs) (f : PmuInstance × EventObject) (jd : JsonDict) : Prop where
  made : MadeFrom lower parseMetric files f.2 jd
  named : truthy f.2.event.name
  plain : PlainEvent lower jd
  small : DecimalFieldsSmall jd
  apart : FormatsApart sys f.1 formatKeys

variable {lower parseMetric files}

theorem exists_madeFrom {e : EventObject} (h : Pends lower parseMetric files e.event) :
    ∃ jd, MadeFrom lower parseMetric files e jd := by
  obtain ⟨-, archStdEvents, path, topic, events, hload, hmem⟩ := h
  obtain ⟨dicts, loaded, hdicts, hinit, -, rfl⟩ := loadJsonEvents_eq_ok_iff.mp hload
  obtain ⟨ev, hev, heq⟩ := List.mem_map.mp hmem
  obtain ⟨jd, hjd, hok⟩ := exists_of_mem_exceptMapM hinit ev hev
  exact ⟨jd, path, topic, dicts, archStdEvents, ev, hdicts, hjd, hok, heq.symm⟩

/-- Without an architecture standard event the name is that of the object. -/
theorem name_of_init {archStdEvents : Text → Option JsonEvent} {jd : JsonDict} {ev : JsonEvent}
    (hstd : jd "ArchStdEvent" = none)
    (h : JsonEvent.init lower parseMetric archStdEvents jd = .ok ev) :
    ev.name = (jd "EventName").map lower := by
  simp only [JsonEvent.init, hstd, JsonEvent.applyArchStd, bind_eq_ok, pure_eq_ok,
    Except.ok.injEq] at h
  obtain ⟨_, -, _, -, _, -, _, -, _, -, _, -, _, rfl, rfl⟩ := h
  rfl

theorem realEvent_isSome {name : Option Text} (hname : truthy name) (event : Text) :
    (JsonEvent.realEvent lower name (some event)).isSome := by
  unfold JsonEvent.realEvent
  split
  · simp [truthy] at hname
  · simp [truthy] at hname
  · split <;> rfl

/-- The event string of a match is read as the items of the JSON object. -/
theorem PlainMatch.event {sys : Sysfs} {f : PmuInstance × EventObject} {jd : JsonDict}
    (h : PlainMatch lower parseMetric files sys f jd) :
    ∃ code event, eventCode jd = .ok code ∧ f.2.event.event = some event ∧ event ≠ [] ∧
      parseAssignmentList (utf8 event) = (0, (eventItems jd code).map FieldItem.assignment) := by
  obtain ⟨path, topic, dicts, archStdEvents, ev, -, -, hinit, hmade⟩ := h.made
  -- the name is needed: an event without one has no event string
  have hname : truthy ((jd "EventName").map lower) := by
    rw [← name_of_init h.plain.no_arch_std_event hinit]
    have hnamed := h.named
    rwa [hmade] at hnamed
  obtain ⟨_, -, hstring⟩ :=
    init_event h.plain.no_msr_index h.plain.no_filter h.plain.no_arch_std_event hinit
  obtain ⟨event, hevent⟩ := Option.isSome_iff_exists.mp (realEvent_isSome hname _)
  rw [← hstring] at hevent
  obtain ⟨code, hcode, hparse⟩ := parseAssignmentList_plainEvent h.plain hinit hevent
  refine ⟨code, event, hcode, ?_, ?_, hparse⟩
  · rw [hmade]
    exact hevent
  · rintro rfl
    have hempty : (parseAssignmentList (utf8 [])).1 = -1 := by decide
    rw [hparse] at hempty
    exact absurd hempty (by decide : (0 : Int) ≠ -1)

end Made

theorem eventMember_of_foundAs {f : PmuInstance × EventObject}
    {found : PmuInstance × Option (List (Attr × Member))} (hfound : FoundAs f found) {event : Text}
    (hevent : f.2.event.event = some event) (hne : event ≠ []) :
    eventMember found.2 = some (utf8 event) := by
  obtain ⟨-, r, hmetric, hr, hmembers⟩ := hfound
  have hvalue : r.value .event = event := by
    rw [r.value_of_not_description rfl, hr]
    exact congrArg (Option.getD · []) hevent
  have hlookup : List.lookup .event (members r) = some (r.storedMember .event) := by
    rw [members, hmetric]
    rfl
  rw [hmembers, eventMember, Option.bind_some, hlookup, TableRecord.storedMember,
    TableRecord.attrMember, if_neg (by decide), hvalue, if_neg hne]

theorem nameMember_of_foundAs {f : PmuInstance × EventObject}
    {found : PmuInstance × Option (List (Attr × Member))} (hfound : FoundAs f found)
    (hnamed : truthy f.2.event.name) : nameMember found.2 = utf8 (eventName f.2) := by
  obtain ⟨-, r, hmetric, hr, hmembers⟩ := hfound
  have hname := value_name_of_event hr
  rw [hmembers, ← hname]
  refine nameMember_members hmetric ?_
  rw [hname]
  exact eventName_ne_nil hnamed

/-! ## The attributes -/

section Attributes

variable {lower : Text → Text} {parseMetric : Text → Except PyError Expr} {files : JsonFiles}
variable {sys : Sysfs} {zero : β}

/-- The type that an attribute had before is overwritten. -/
theorem holdsSettings_cleared {pmu : PmuInstance} {items : List FieldItem} {type : BitVec 32}
    {attr' : PerfEventAttr β} (h : HoldsSettings sys pmu items (clearedAttr zero type) attr') :
    HoldsSettings sys pmu items (clearedAttr zero 0) attr' := by
  refine ⟨h.type, h.others, h.bits, fun var p hp hfree => ?_⟩
  rw [h.frame var p hp hfree]
  cases var <;> rfl

/-- For a match the call succeeds exactly when its settings can be made. -/
theorem PlainMatch.genAttr {f : PmuInstance × EventObject} {jd : JsonDict}
    (h : PlainMatch lower parseMetric files sys f jd)
    {found : PmuInstance × Option (List (Attr × Member))} (hfound : FoundAs f found) (zero : β)
    (type : BitVec 32) :
    ∃ str attr' result, eventMember found.2 = some str ∧
      genAttrForEvent sys found.1 str (clearedAttr zero type) = some (result, attr') ∧
      result = (if Settable sys f.1 (jsonSettings jd) then 0 else -1) ∧
      (result = 0 → HoldsSettings sys f.1 (jsonSettings jd) (clearedAttr zero 0) attr') := by
  obtain ⟨code, event, hcode, hevent, hne, hparse⟩ := h.event
  have hsettings : jsonSettings jd = settings jd code := by rw [jsonSettings, hcode]
  obtain ⟨attr', result, hrun, hresult, hholds⟩ := genAttrForEvent_items hcode h.plain.numbers
    h.small hparse h.apart (clearedAttr zero type)
  rw [hfound.1, hsettings]
  exact ⟨_, attr', result, eventMember_of_foundAs hfound hevent hne, hrun, hresult,
    fun hzero => holdsSettings_cleared (hholds hzero)⟩

variable {source : EventObject → JsonDict}

/-- The attribute of a match: the settings of the JSON object, and nothing else. -/
def HasAttr (sys : Sysfs) (source : EventObject → JsonDict) (zero : β)
    (f : PmuInstance × EventObject) (attr : PerfEventAttr β) : Prop :=
  HoldsSettings sys f.1 (jsonSettings (source f.2)) (clearedAttr zero 0) attr

/-- A match once its attribute is generated. -/
def Attributed (sys : Sysfs) (source : EventObject → JsonDict) (zero : β)
    (f : PmuInstance × EventObject) (e : WholeEv γ β) : Prop :=
  e.instance_ = f.1 ∧ HasAttr sys source zero f e.attr

variable {fs : List (PmuInstance × EventObject)}
variable {evs : List (PmuInstance × Option (List (Attr × Member)))}

theorem genAttrs_of_settable (hfound : List.Forall₂ FoundAs fs evs)
    (hplain : ∀ f ∈ fs, PlainMatch lower parseMetric files sys f (source f.2))
    (hset : ∀ f ∈ fs, Settable sys f.1 (jsonSettings (source f.2)))
    (zero : β) (unread : Nat → BitVec 32) (ev_id : Nat) :
    ∃ evs', genAttrs nameMember eventMember sys zero unread ev_id evs = some (.ok evs') ∧
      List.Forall₂ (Attributed sys source zero) fs evs' := by
  induction hfound generalizing ev_id with
  | nil => exact ⟨[], rfl, .nil⟩
  | @cons f found fs evs hfirst hrest ih =>
    rw [List.forall_mem_cons] at hplain hset
    obtain ⟨str, attr', result, hstr, hrun, hresult, hholds⟩ :=
      hplain.1.genAttr hfirst zero (unread ev_id)
    rw [if_pos hset.1] at hresult
    subst hresult
    obtain ⟨evs', hevs, hall⟩ := ih hplain.2 hset.2 (ev_id + 1)
    refine ⟨{ instance_ := found.1, ev := found.2, attr := attr' } :: evs', ?_,
      .cons ⟨hfirst.1, hholds rfl⟩ hall⟩
    rw [genAttrs, hstr]
    simp only [Option.bind_eq_bind, Option.bind_some, hrun, hevs]
    rfl

/-- The program stops at the first match whose settings can not be made. -/
theorem genAttrs_of_not_settable (hfound : List.Forall₂ FoundAs fs evs)
    (hplain : ∀ f ∈ fs, PlainMatch lower parseMetric files sys f (source f.2)) {ev : CStr}
    (hname : ∀ f ∈ fs, utf8 (eventName f.2) = ev)
    (hset : ∃ f ∈ fs, ¬ Settable sys f.1 (jsonSettings (source f.2)))
    (unread : Nat → BitVec 32) (ev_id : Nat) :
    genAttrs nameMember eventMember sys zero unread ev_id evs = some (.error ev) := by
  induction hfound generalizing ev_id with
  | nil => simp at hset
  | @cons f found fs evs hfirst hrest ih =>
    rw [List.forall_mem_cons] at hplain hname
    simp only [List.mem_cons, exists_eq_or_imp] at hset
    obtain ⟨str, attr', result, hstr, hrun, hresult, -⟩ :=
      hplain.1.genAttr hfirst zero (unread ev_id)
    rw [genAttrs, hstr]
    simp only [Option.bind_eq_bind, Option.bind_some, hrun]
    by_cases hfit : Settable sys f.1 (jsonSettings (source f.2))
    · rw [if_pos hfit] at hresult
      subst hresult
      rw [ih hplain.2 hname.2 (hset.resolve_left fun hnot => hnot hfit) (ev_id + 1)]
      rfl
    · rw [if_neg hfit] at hresult
      rw [if_pos hresult, nameMember_of_foundAs hfirst hplain.1.named, hname.1]
      rfl

end Attributes

/-! ## The counters -/

/-- The call for a match: its attribute, on the first CPU of its instance. -/
def CallFor (sys : Sysfs) (source : EventObject → JsonDict) (zero : β)
    (f : PmuInstance × EventObject) (call : OpenCall β) : Prop :=
  HasAttr sys source zero f call.attr ∧
    ∃ range, f.1.cpus.head? = some range ∧ call.cpu = range.start

theorem openEvents_cons {e : WholeEv γ β} {range : Range}
    (hhead : e.instance_.cpus.head? = some range) (evs : List (WholeEv γ β)) (fds : Nat → Int)
    (ev_id : Nat) :
    openEvents fds ev_id (e :: evs) =
      if fds ev_id = -1 then some (false, [{ attr := e.attr, cpu := range.start }])
      else (openEvents fds (ev_id + 1) evs).map fun rest =>
        (rest.1, { attr := e.attr, cpu := range.start } :: rest.2) := by
  rw [openEvents, hhead]
  cases openEvents fds (ev_id + 1) evs <;> rfl

/-- The counters are opened one after another, up to the first call that fails. -/
theorem openEvents_spec {sys : Sysfs} {source : EventObject → JsonDict} {zero : β}
    {fs : List (PmuInstance × EventObject)} {evs : List (WholeEv γ β)}
    (h : List.Forall₂ (Attributed sys source zero) fs evs) (hcpus : ∀ f ∈ fs, f.1.cpus ≠ [])
    (fds : Nat → Int) (ev_id : Nat) :
    ∃ calls, List.Forall₂ (CallFor sys source zero) fs calls ∧
      ((∀ n < fs.length, fds (ev_id + n) ≠ -1) →
        openEvents fds ev_id evs = some (true, calls)) ∧
      ∀ n < fs.length, fds (ev_id + n) = -1 → (∀ k < n, fds (ev_id + k) ≠ -1) →
        openEvents fds ev_id evs = some (false, calls.take (n + 1)) := by
  induction h generalizing ev_id with
  | nil => exact ⟨[], .nil, fun _ => rfl, fun n hn => absurd hn (Nat.not_lt_zero n)⟩
  | @cons f e fs evs hattr _ ih =>
    rw [List.forall_mem_cons] at hcpus
    obtain ⟨calls, hcalls, hall, hfailed⟩ := ih hcpus.2 (ev_id + 1)
    obtain ⟨range, ranges, hrange⟩ := List.exists_cons_of_ne_nil hcpus.1
    have hhead : f.1.cpus.head? = some range := by rw [hrange, List.head?_cons]
    have hopen : e.instance_.cpus.head? = some range := by rw [hattr.1, hhead]
    -- the descriptors of the rest are counted from the next event
    have hnext : ∀ n, fds (ev_id + 1 + n) = fds (ev_id + (n + 1)) := fun n => by
      rw [Nat.add_assoc, Nat.add_comm 1 n]
    refine ⟨{ attr := e.attr, cpu := range.start } :: calls,
      .cons ⟨hattr.2, range, hhead, rfl⟩ hcalls, fun hok => ?_, fun n hn hfail hopened => ?_⟩
    · have hfirst : fds ev_id ≠ -1 := hok 0 (Nat.succ_pos _)
      rw [openEvents_cons hopen, if_neg hfirst, hall]
      · rfl
      · intro n hn
        rw [hnext]
        exact hok (n + 1) (Nat.succ_lt_succ hn)
    · cases n with
      | zero =>
        have hfirst : fds ev_id = -1 := hfail
        rw [openEvents_cons hopen, if_pos hfirst]
        rfl
      | succ n =>
        have hlt : n < fs.length := Nat.lt_of_succ_lt_succ hn
        have hfirst : fds ev_id ≠ -1 := hopened 0 (Nat.succ_pos n)
        rw [openEvents_cons hopen, if_neg hfirst, hfailed n hlt ((hnext n).trans hfail)]
        · rfl
        · intro k hk
          rw [hnext]
          exact hopened (k + 1) (Nat.succ_lt_succ hk)

/-! ## The program on a tree -/

section Outcome

variable (sys : Sysfs) (source : EventObject → JsonDict) (zero : β) (ev : CStr)
variable (fds : Nat → Int) (fs : List (PmuInstance × EventObject))

/-- The settings of every match can be made. -/
def AllSettable : Prop := ∀ f ∈ fs, Settable sys f.1 (jsonSettings (source f.2))

/-- What the program does with the matches. -/
inductive ReadsMatches : ReadOutcome β → Prop
  | noMatch (h : fs = []) : ReadsMatches .noMatch
  | noAttr (h : ¬ AllSettable sys source fs) : ReadsMatches (.noAttr ev)
  | openFailed {calls : List (OpenCall β)} {n : Nat} (hset : AllSettable sys source fs)
      (hcalls : List.Forall₂ (CallFor sys source zero) fs calls) (hn : n < fs.length)
      (hfailed : fds n = -1) (hopened : ∀ k < n, fds k ≠ -1) :
      ReadsMatches (.openFailed (calls.take (n + 1)))
  | reading {calls : List (OpenCall β)} (hne : fs ≠ []) (hset : AllSettable sys source fs)
      (hcalls : List.Forall₂ (CallFor sys source zero) fs calls)
      (hopened : ∀ n < fs.length, fds n ≠ -1) : ReadsMatches (.reading calls)

end Outcome

section Run

variable {lower : Text → Text} {parseMetric : Text → Except PyError Expr} {files : JsonFiles}
variable {sys : Sysfs} {big_c_string : List UInt8} {events : List EventObject} {pmus : Pmus}
variable {source : EventObject → JsonDict} {ev : CStr}

/-- The instances of a tree with the events have CPUs. -/
theorem cpus_ne_nil_of_hasEvents (hhas : HasEvents sys big_c_string events pmus)
    {class_ : PmuClass} (hclass : class_ ∈ pmus.classes) {i : PmuInstance}
    (hi : i ∈ class_.instances) : i.cpus ≠ [] := by
  have hmem : nameAndCpus i ∈ class_.instances.map nameAndCpus := List.mem_map_of_mem hi
  rw [hhas.instances class_ hclass] at hmem
  obtain ⟨j, hj, heq⟩ := List.mem_map.mp hmem
  have hcpus : j.cpus = i.cpus := congrArg Prod.snd heq
  rw [← hcpus]
  exact cpus_ne_nil_of_mem hj

/-- With an attribute for every match the program opens the counters. -/
theorem openEvents_matches {fs : List (PmuInstance × EventObject)} {evs : List (WholeEv γ β)}
    {zero : β} (hne : fs ≠ []) (hset : AllSettable sys source fs)
    (hattrs : List.Forall₂ (Attributed sys source zero) fs evs)
    (hcpus : ∀ f ∈ fs, f.1.cpus ≠ []) (fds : Nat → Int) :
    ∃ opened calls, openEvents fds 0 evs = some (opened, calls) ∧
      ReadsMatches sys source zero ev fds fs
        (if opened then .reading calls else .openFailed calls) := by
  obtain ⟨calls, hcalls, hall, hfailed⟩ := openEvents_spec hattrs hcpus fds 0
  simp only [Nat.zero_add] at hall hfailed
  by_cases hopened : ∀ n < fs.length, fds n ≠ -1
  · exact ⟨true, calls, hall hopened, .reading hne hset hcalls hopened⟩
  · -- the calls stop at the first descriptor that is -1
    push Not at hopened
    classical
    obtain ⟨hn, hfail⟩ := Nat.find_spec hopened
    have hbefore : ∀ k < Nat.find hopened, fds k ≠ -1 := fun k hk heq =>
      Nat.find_min hopened hk ⟨hk.trans hn, heq⟩
    exact ⟨false, _, hfailed _ hn hfail hbefore, .openFailed hset hcalls hn hfail hbefore⟩

/-- On a tree with the events the program reads those that match. -/
theorem readEvent_of_hasEvents (hhas : HasEvents sys big_c_string events pmus)
    (hfits : ∀ e ∈ events, Fits e)
    (hplain : ∀ f ∈ matchingEvents events pmus ev,
      PlainMatch lower parseMetric files sys f (source f.2))
    (unread_ev : Option (List (Attr × Member))) (zero : β) (unread : Nat → BitVec 32)
    (fds : Nat → Int) :
    ∃ outcome, readEvent (decompressAt false big_c_string) nameMember eventMember sys pmus ev
        unread_ev zero unread fds = some outcome ∧
      ReadsMatches sys source zero ev fds (matchingEvents events pmus ev) outcome := by
  obtain ⟨evs, hevs, hfound⟩ :=
    searchClasses_of_hasEvents hhas hfits ev unread_ev fun c (hc : c ∈ pmus.classes) => hc
  have hlength : (matchingEvents events pmus ev).length = evs.length := hfound.length_eq
  rw [readEvent, hevs, Option.bind_eq_bind, Option.bind_some]
  -- all attributes are generated before the first counter is opened
  by_cases hnone : matchingEvents events pmus ev = []
  · rw [hnone, List.length_nil] at hlength
    rw [if_pos hlength.symm]
    exact ⟨.noMatch, rfl, .noMatch hnone⟩
  · rw [← hlength, if_neg fun hzero => hnone (List.eq_nil_of_length_eq_zero hzero)]
    by_cases hset : AllSettable sys source (matchingEvents events pmus ev)
    · obtain ⟨evs', hgen, hattrs⟩ :=
        genAttrs_of_settable hfound hplain hset zero unread 0
      have hcpus : ∀ f ∈ matchingEvents events pmus ev, f.1.cpus ≠ [] := by
        intro f hf
        obtain ⟨-, -, class_, hclass, -, hi⟩ := mem_matchingEvents hf
        exact cpus_ne_nil_of_hasEvents hhas hclass hi
      obtain ⟨opened, calls, hopen, hreads⟩ := openEvents_matches hnone hset hattrs hcpus fds
      refine ⟨_, ?_, hreads⟩
      rw [hgen]
      simp only [Option.bind_eq_bind, Option.bind_some, hopen]
      rfl
    · have hname : ∀ f ∈ matchingEvents events pmus ev, utf8 (eventName f.2) = ev := by
        intro f hf
        exact (mem_matchingEvents hf).2.1
      have hstops : ∃ f ∈ matchingEvents events pmus ev,
          ¬ Settable sys f.1 (jsonSettings (source f.2)) := by
        simpa only [AllSettable, not_forall, exists_prop] using hset
      rw [genAttrs_of_not_settable hfound hplain hname hstops unread 0]
      exact ⟨.noAttr ev, rfl, .noAttr hset⟩

end Run

/-- Where a run of the generator ends, its file compiles and its strings can be read back, the
example program on a CPU that the mapfiles know reads exactly the events of this name in the
JSON files of the CPU's directory: with one counter for each instance of the PMU of such an
event, on the first CPU of the instance, and with the numbers of the JSON object at the bits
that the formats of the instance name and all other bits zero. -/
theorem readEvent_generate (lower : Text → Text) (parseMetric : Text → Except PyError Expr)
    (files : JsonFiles) (setOrder : SetOrder) (mapfile : Text → Option (List CsvRow))
    (arch : Text) (starting_dir : List Entry) (generated : Generated)
    (hgenerate :
      generate lower parseMetric files setOrder mapfile arch starting_dir = some generated)
    (hown : WrittenToOwnTables generated.globals.cached generated.archs)
    (hreads : generated.globals.bcs.ReadsBack setOrder)
    (strcmp_cpuid_str : CStr → CStr → Int) (get_cpuid : PerfCpu → Option CStr)
    (cpuid : CStr) (hcpuid : get_cpuid 0 = some cpuid) (row : MapRow)
    (hrow : selectedRow strcmp_cpuid_str generated.globals.cached mapfile generated.archs cpuid =
      some row)
    (hfits : ∀ e ∈ rowEvents generated.globals.cached generated.archs row, Fits e)
    (cache : MapCache)
    (hcache : ReachableCache strcmp_cpuid_str generated.pmu_events_map get_cpuid cache)
    (sys : Sysfs) (hsys : sys.listing.isSome) (ev : CStr)
    (hplain : ∀ e ∈ rowEvents generated.globals.cached generated.archs row,
      utf8 (eventName e) = ev → ∀ jd, MadeFrom lower parseMetric files e jd →
        PlainEvent lower jd ∧ DecimalFieldsSmall jd)
    (hapart : ∀ e ∈ rowEvents generated.globals.cached generated.archs row,
      utf8 (eventName e) = ev → ∀ i : PmuInstance,
        nameAndCpus i ∈ (getAllPmuInstancesFor sys (utf8 e.event.pmu)).2.map nameAndCpus →
          FormatsApart sys i formatKeys)
    (unread_ev : Option (List (Attr × Member))) (zero : β) (unread : Nat → BitVec 32)
    (fds : Nat → Int) :
    ∃ pmus source outcome,
      getPmus strcmp_cpuid_str generated.pmu_events_map get_cpuid generated.big_c_string
          cache sys = .returned (if pmus.classes = [] then -1 else 0) pmus ∧
        HasEvents sys generated.big_c_string
          (rowEvents generated.globals.cached generated.archs row) pmus ∧
        (∀ e ∈ rowEvents generated.globals.cached generated.archs row,
          MadeFrom lower parseMetric files e (source e)) ∧
        readEvent (decompressAt false generated.big_c_string) nameMember eventMember sys pmus ev
          unread_ev zero unread fds = some outcome ∧
        ReadsMatches sys source zero ev fds
          (matchingEvents (rowEvents generated.globals.cached generated.archs row) pmus ev)
          outcome := by
  obtain ⟨defs, rows, h⟩ := generates_of_generate hgenerate
  obtain ⟨pmus, hpmus, hhas⟩ :=
    getPmus_of_generates h hown hreads hcpuid hrow hfits hcache hsys
  have hpends : ∀ e ∈ rowEvents generated.globals.cached generated.archs row,
      Pends lower parseMetric files e.event := fun e he =>
    pends_of_readObjects h (mem_readObjects_of_rowEvents he)
  have hmade : ∀ e ∈ rowEvents generated.globals.cached generated.archs row,
      ∃ jd, MadeFrom lower parseMetric files e jd := fun e he => exists_madeFrom (hpends e he)
  choose! source hsource using hmade
  have hmatches : ∀ f ∈ matchingEvents (rowEvents generated.globals.cached generated.archs row)
      pmus ev, PlainMatch lower parseMetric files sys f (source f.2) := by
    intro f hf
    obtain ⟨he, hname, class_, hclass, hpmu, hi⟩ := mem_matchingEvents hf
    obtain ⟨hplainEvent, hsmall⟩ := hplain f.2 he hname _ (hsource f.2 he)
    refine ⟨hsource f.2 he, (hpends f.2 he).1, hplainEvent, hsmall, hapart f.2 he hname f.1 ?_⟩
    rw [hpmu, ← hhas.instances class_ hclass]
    exact List.mem_map_of_mem hi
  obtain ⟨outcome, hrun, houtcome⟩ :=
    readEvent_of_hasEvents hhas hfits hmatches unread_ev zero unread fds
  exact ⟨pmus, source, outcome, hpmus, hhas, hsource, hrun, houtcome⟩

/-! ## A run with one model -/

/-- A JSON object with a name and an event code. -/
def codeEvent (name : Text) : JsonDict :=
  JsonDict.ofList [("EventName", name), ("EventCode", "0x3c".toList)]

theorem codeEvent_field {name : Text} {field : String × String} (h : field ∈ eventFields) :
    codeEvent name field.1 = none := by
  have habsent : ∀ field ∈ eventFields, codeEvent name field.1 = none := by
    simp [eventFields, codeEvent, JsonDict.ofList]
  exact habsent field h

theorem plainEvent_codeEvent {name : Text}
    (h : ∀ row ∈ fixedEvents, row.1 ≠ (name.map Char.toLower).map Char.toLower) :
    PlainEvent (List.map Char.toLower) (codeEvent name) where
  no_arch_std_event := rfl
  no_filter := rfl
  no_msr_index := rfl
  name_not_fixed := by
    intro name' hname
    obtain rfl : name = name' := Option.some.inj hname
    exact h
  numbers := by
    constructor
    · intro key n hcode
      have hevent : eventCode (codeEvent name) = .ok ("event", 0x3c) := rfl
      obtain ⟨-, rfl⟩ := Prod.mk.inj (Except.ok.inj (hevent.symm.trans hcode))
      decide
    · intro field hfield val n hval hn
      rw [codeEvent_field hfield] at hval
      cases hval

/-- The objects of the model's files are plain, where the name is not a fixed one. -/
theorem plainEvent_of_madeFrom_oneModel {parseMetric : Text → Except PyError Expr}
    {e : EventObject} {jd : JsonDict}
    (hmade : MadeFrom (List.map Char.toLower) parseMetric oneModelFiles e jd)
    (hfixed : ∀ row ∈ fixedEvents, some row.1 ≠ e.event.name.map (List.map Char.toLower)) :
    PlainEvent (List.map Char.toLower) jd ∧ DecimalFieldsSmall jd := by
  obtain ⟨path, topic, dicts, archStdEvents, ev, hdicts, hjd, hinit, hevent⟩ := hmade
  obtain rfl := Option.some.inj hdicts
  obtain rfl : jd = codeEvent (path.getLastD []) := List.mem_singleton.mp hjd
  have hname : e.event.name = some ((path.getLastD []).map Char.toLower) := by
    rw [hevent]
    exact name_of_init rfl hinit
  refine ⟨plainEvent_codeEvent fun row hrow heq => hfixed row hrow ?_, ?_⟩
  · rw [hname, heq, Option.map_some]
  · intro field hfield _ val n hval
    rw [codeEvent_field hfield] at hval
    cases hval

/-- What the run for the model meets beside `oneModelFits`. -/
def oneModelReads (generated : Generated) (row : MapRow) : Prop :=
  ∀ e ∈ rowEvents generated.globals.cached generated.archs row,
    utf8 e.event.pmu = cs "default_core" ∧
      ∀ fixed ∈ fixedEvents, some fixed.1 ≠ e.event.name.map (List.map Char.toLower)

instance (generated : Generated) (row : MapRow) : Decidable (oneModelReads generated row) :=
  inferInstanceAs (Decidable (∀ e ∈ _, _ ∧ ∀ fixed ∈ _, _))

theorem readEvent_generate_oneModel :
    ∃ generated row, generateOneModel = some generated ∧ oneModelRow generated = some row ∧
      (rowEvents generated.globals.cached generated.archs row).length = 1 ∧
      ∃ pmus source outcome,
        getPmus strcmpPlainCpuid generated.pmu_events_map oneModelCpuid generated.big_c_string
            .initial maskSysfs = .returned (if pmus.classes = [] then -1 else 0) pmus ∧
          HasEvents maskSysfs generated.big_c_string
            (rowEvents generated.globals.cached generated.archs row) pmus ∧
          (∀ e ∈ rowEvents generated.globals.cached generated.archs row,
            MadeFrom (List.map Char.toLower) (fun _ => .error .keyError) oneModelFiles e
              (source e)) ∧
          readEvent (decompressAt false generated.big_c_string) nameMember eventMember maskSysfs
            pmus (cs "core.json") none () (fun _ => 0) (fun n => (n : Int) + 3) = some outcome ∧
          ReadsMatches maskSysfs source () (cs "core.json") (fun n => (n : Int) + 3)
            (matchingEvents (rowEvents generated.globals.cached generated.archs row) pmus
              (cs "core.json")) outcome := by
  have hrun : generateOneModel.any fun generated => (oneModelRow generated).any fun row =>
      decide (oneModelFits generated row ∧ oneModelReads generated row) := by decide +kernel
  obtain ⟨generated, hgenerate, hrun⟩ := (Option.any_eq_true _ _).mp hrun
  obtain ⟨row, hrow, hrun⟩ := (Option.any_eq_true _ _).mp hrun
  obtain ⟨hmodel, hnames⟩ := of_decide_eq_true hrun
  have hfits := fits_of_oneModelFits hmodel
  obtain ⟨hown, hreads, hlength, -⟩ := hmodel
  have hinstances : (getAllPmuInstancesFor maskSysfs (cs "default_core")).2.map nameAndCpus =
      [(cs "cpu", [⟨0, 7⟩])] := by decide +kernel
  refine ⟨generated, row, hgenerate, hrow, hlength,
    readEvent_generate _ _ _ _ _ _ _ generated hgenerate hown hreads strcmpPlainCpuid
      oneModelCpuid _ rfl row hrow hfits .initial .initial maskSysfs rfl (cs "core.json")
      (fun e he _ jd hmade => plainEvent_of_madeFrom_oneModel hmade (hnames e he).2) ?_
      none () (fun _ => 0) (fun n => (n : Int) + 3)⟩
  intro e he _ i hi
  rw [(hnames e he).1, hinstances, List.mem_singleton] at hi
  have hname : i.name = maskInstance.name := congrArg Prod.fst hi
  exact formatsApart_mask.of_name hname

end PmuEvents.Example
