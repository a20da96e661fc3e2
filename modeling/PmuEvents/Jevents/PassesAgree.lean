import PmuEvents.Jevents.Passes
import PmuEvents.Jevents.Fold
import Mathlib.Data.List.Dedup
set_option autoImplicit false

/-!
# The two passes agree

What a file was read as in the first pass is in the cache of `read_json_events`, and
the strings of its events are in the big string.  Both stay so until the second pass
reads the file again, whatever the architecture standard events have become, so
every string looked up was added.
-/

namespace PmuEvents.Jevents

open PmuEvents.Foundation PmuEvents.Metric

/-- An added string has an offset. -/
theorem BigCString.lookup_isSome_of_compute {self : BigCString} {setOrder : SetOrder}
    {text : Text} {offsets : List (Text × Int)}
    (h : self.compute setOrder = some (text, offsets)) {s : Text} (hs : s ∈ self.texts) :
    (offsets.lookup s).isSome := by
  obtain ⟨offsets', hcompute, hwritten, hfolded⟩ := self.compute_spec setOrder
  obtain ⟨-, rfl⟩ := Prod.mk.inj (Option.some.inj (h.symm.trans hcompute))
  by_cases hfold : ∃ t, FoldsInto self.texts s t
  · obtain ⟨t, ht⟩ := hfold
    obtain ⟨pre, post, hsplit⟩ := List.append_of_mem (self.mem_emitted_of_foldsInto ht)
    rw [hfolded pre s t post ht hsplit]
    rfl
  · obtain ⟨pre, post, hsplit⟩ := List.append_of_mem ((self.mem_emitted_iff s).mpr ⟨hs, hfold⟩)
    rw [hwritten pre s post hsplit]
    rfl

/-! ## What the first pass leaves -/

/-- The name of the PMU and the record were added. -/
structure RecordAdded (bcs : BigCString) (metric : Bool) (event : JsonEvent) : Prop where
  pmu : event.pmu ++ nulText ∈ bcs.texts
  record : event.buildCString metric ∈ bcs.texts

/-- The strings of an event, and of the metric in it, were added. -/
structure EventAdded (bcs : BigCString) (event : JsonEvent) : Prop where
  asEvent : truthy event.name → RecordAdded bcs false event
  asMetric : truthy event.metric_name → RecordAdded bcs true event

/-- The cache keeps its entries and the big string its texts. -/
structure Extends (s s' : Generator) : Prop where
  cache : ∀ path topic events, s.cache path topic = some events →
    s'.cache path topic = some events
  texts : ∀ t ∈ s.bcs.texts, t ∈ s'.bcs.texts

/-- The file a visit reads is in the cache with events whose strings were added. -/
def FileAdded (v : Visit) (s : Generator) : Prop :=
  ∀ path topic, fileRead v = some (path, topic) →
    ∃ events, s.cache path topic = some events ∧ ∀ e ∈ events, EventAdded s.bcs e

/-- The metric groups and their descriptions were added. -/
def GroupsAdded (s : Generator) : Prop :=
  ∀ group description, s.metricgroups.lookup group = some description →
    group ∈ s.bcs.texts ∧ description ∈ s.bcs.texts

theorem Extends.refl (s : Generator) : Extends s s := ⟨fun _ _ _ h => h, fun _ h => h⟩

theorem Extends.trans {s s' s'' : Generator} (h : Extends s s') (h' : Extends s' s'') :
    Extends s s'' :=
  ⟨fun path topic events hc => h'.cache path topic events (h.cache path topic events hc),
    fun t ht => h'.texts t (h.texts t ht)⟩

theorem EventAdded.mono {s s' : Generator} (hext : Extends s s') {event : JsonEvent}
    (h : EventAdded s.bcs event) : EventAdded s'.bcs event :=
  ⟨fun hname => ⟨hext.texts _ (h.asEvent hname).pmu, hext.texts _ (h.asEvent hname).record⟩,
    fun hname => ⟨hext.texts _ (h.asMetric hname).pmu, hext.texts _ (h.asMetric hname).record⟩⟩

theorem FileAdded.mono {s s' : Generator} (hext : Extends s s') {v : Visit}
    (h : FileAdded v s) : FileAdded v s' := by
  intro path topic hread
  obtain ⟨events, hcache, hadded⟩ := h path topic hread
  exact ⟨events, hext.cache path topic events hcache, fun e he => (hadded e he).mono hext⟩

/-- A visit that reads no file of events asks for nothing. -/
theorem fileAdded_of_fileRead_eq_none {v : Visit} (h : fileRead v = none) (s : Generator) :
    FileAdded v s := by
  intro path topic hread
  rw [h] at hread
  cases hread

/-- What every step keeps, a run keeps. -/
theorem foldlM_extends {α : Type} {step : Generator → α → Except PassError Generator}
    (hstep : ∀ s a s', step s a = .ok s' → Extends s s' ∧ (GroupsAdded s → GroupsAdded s'))
    {l : List α} {s s' : Generator} (h : l.foldlM step s = .ok s') :
    Extends s s' ∧ (GroupsAdded s → GroupsAdded s') := by
  refine foldlM_keeps (P := fun t => Extends s t ∧ (GroupsAdded s → GroupsAdded t)) ?_ h
    ⟨Extends.refl s, id⟩
  intro t a t' _ hrun hkept
  obtain ⟨hext, hadded⟩ := hstep t a t' hrun
  exact ⟨hkept.1.trans hext, fun hs => hadded (hkept.2 hs)⟩

section FirstPass

variable {model : Text} {lower : Text → Text} {parseMetric : Text → Except PyError Expr}
variable {files : JsonFiles}

/-- A read leaves the file in the cache and all other globals alone. -/
theorem readCached_spec {s s' : Generator} {path : List Text} {topic : Text}
    {events : List JsonEvent}
    (h : readCached lower parseMetric files s path topic = .ok (events, s')) :
    s'.cache path topic = some events ∧ Extends s s' ∧ s'.bcs = s.bcs ∧
      s'.metricgroups = s.metricgroups ∧ s'.archStdEvents = s.archStdEvents := by
  unfold readCached at h
  split at h
  · rename_i hcache
    obtain ⟨rfl, rfl⟩ := Prod.mk.inj (Except.ok.inj h)
    exact ⟨hcache, Extends.refl s, rfl, rfl, rfl⟩
  · rename_i hcache
    obtain ⟨loaded, -, h⟩ := except_bind_eq_ok.mp h
    obtain ⟨rfl, rfl⟩ := Prod.mk.inj (Except.ok.inj h)
    refine ⟨by simp, ⟨?_, fun t ht => ht⟩, rfl, rfl, rfl⟩
    intro path' topic' events' hcache'
    simp only
    split
    · rename_i heq
      rw [heq.1, heq.2, hcache] at hcache'
      cases hcache'
    · exact hcache'

theorem addArchStd_spec (lower : Text → Text) (s : Generator) (event : JsonEvent) :
    (addArchStd lower s event).cache = s.cache ∧ (addArchStd lower s event).bcs = s.bcs ∧
      (addArchStd lower s event).metricgroups = s.metricgroups := by
  unfold addArchStd
  extract_lets s'
  have hs' : s'.cache = s.cache ∧ s'.bcs = s.bcs ∧ s'.metricgroups = s.metricgroups := by
    simp only [s']
    split <;> exact ⟨rfl, rfl, rfl⟩
  split <;> exact hs'

theorem foldl_addArchStd_spec (lower : Text → Text) (events : List JsonEvent) (s : Generator) :
    (events.foldl (addArchStd lower) s).cache = s.cache ∧
      (events.foldl (addArchStd lower) s).bcs = s.bcs ∧
      (events.foldl (addArchStd lower) s).metricgroups = s.metricgroups := by
  induction events generalizing s with
  | nil => exact ⟨rfl, rfl, rfl⟩
  | cons event events ih =>
    obtain ⟨hcache, hbcs, hgroups⟩ := addArchStd_spec lower s event
    obtain ⟨hcache', hbcs', hgroups'⟩ := ih (addArchStd lower s event)
    exact ⟨hcache'.trans hcache, hbcs'.trans hbcs, hgroups'.trans hgroups⟩

/-- An architecture standard file leaves the strings and the metric groups alone. -/
theorem preprocessArchStdFile_spec {s s' : Generator} {arch : Text} {item : Entry}
    (h : preprocessArchStdFile lower parseMetric files arch s item = .ok s') :
    Extends s s' ∧ (GroupsAdded s → GroupsAdded s') := by
  unfold preprocessArchStdFile at h
  split at h
  · obtain rfl := Except.ok.inj h
    exact ⟨Extends.refl _, id⟩
  · split at h
    · obtain ⟨⟨events, s₁⟩, hread, h⟩ := except_bind_eq_ok.mp h
      obtain rfl := Except.ok.inj h
      obtain ⟨-, hext, hbcs, hgroups, -⟩ := readCached_spec hread
      obtain ⟨hcache', hbcs', hgroups'⟩ := foldl_addArchStd_spec lower events s₁
      refine ⟨⟨?_, ?_⟩, ?_⟩
      · intro path topic events' hcache
        rw [hcache']
        exact hext.cache path topic events' hcache
      · intro t ht
        rw [hbcs', hbcs]
        exact ht
      · intro hadded group description hlookup
        rw [hgroups', hgroups] at hlookup
        rw [hbcs', hbcs]
        exact hadded group description hlookup
    · obtain rfl := Except.ok.inj h
      exact ⟨Extends.refl _, id⟩

/-- A metric group is added with its description. -/
theorem addMetricgroup_spec {s s' : Generator} {group : Text × Text}
    (h : addMetricgroup s group = .ok s') : Extends s s' ∧ (GroupsAdded s → GroupsAdded s') := by
  unfold addMetricgroup at h
  split at h
  · obtain rfl := Except.ok.inj h
    have htexts : ∀ t ∈ s.bcs.texts, t ∈ (s.bcs.addAll (metricGroupCalls group.1 group.2)).texts :=
      fun t ht => (BigCString.mem_texts_addAll _ _ t).mpr (.inl ht)
    refine ⟨⟨fun _ _ _ hc => hc, htexts⟩, ?_⟩
    intro hadded name description hlookup
    by_cases hname : name = group.1 ++ nulText
    · subst hname
      rw [AList.lookup_insert] at hlookup
      obtain rfl := Option.some.inj hlookup
      constructor
      · exact (BigCString.mem_texts_addAll _ _ _).mpr (.inr (by simp [metricGroupCalls, nulText]))
      · exact (BigCString.mem_texts_addAll _ _ _).mpr (.inr (by simp [metricGroupCalls, nulText]))
    · rw [AList.lookup_insert_ne hname] at hlookup
      obtain ⟨hgroup, hdescription⟩ := hadded name description hlookup
      exact ⟨htexts _ hgroup, htexts _ hdescription⟩
  · cases h

/-- The strings of the events of a file are added. -/
theorem eventAdded_addAll (bcs : BigCString) (events : List JsonEvent) :
    ∀ e ∈ events, EventAdded (bcs.addAll (events.flatMap eventCalls)) e := by
  intro e he
  have hcall : ∀ call ∈ eventCalls e,
      call.1 ∈ (bcs.addAll (events.flatMap eventCalls)).texts := by
    intro call hcall
    apply (BigCString.mem_texts_addAll _ _ _).mpr
    exact .inr (List.mem_map_of_mem (List.mem_flatMap.mpr ⟨e, he, hcall⟩))
  constructor
  · intro hname
    exact ⟨hcall (e.pmu ++ nulText, false) (by simp [eventCalls, hname, nulText]),
      hcall (e.buildCString false, false) (by simp [eventCalls, hname])⟩
  · intro hname
    exact ⟨hcall (e.pmu ++ nulText, true) (by simp [eventCalls, hname, nulText]),
      hcall (e.buildCString true, true) (by simp [eventCalls, hname])⟩

/-- The files of events that a visit of the second pass reads. -/
theorem fileRead_eq_some_iff {v : Visit} {path : List Text} {topic : Text} :
    fileRead v = some (path, topic) ↔
      ∃ name, v.item = .file name ∧ onLevel v ∧ isJson name ∧ ¬ isMetricgroups name ∧
        path = v.path ∧ topic = getTopic name := by
  unfold fileRead
  split
  · rename_i hitem
    simp [hitem]
  · rename_i name hitem
    rw [hitem]
    split
    · rename_i hlevel
      simp [hlevel]
    · rename_i hlevel
      split
      · rename_i hskip
        simp only [reduceCtorEq, Entry.file.injEq, exists_eq_left', false_iff]
        rintro ⟨-, hjson, hgroups, -⟩
        exact hskip.elim (fun h => h hjson) hgroups
      · rename_i hread
        simp only [not_or, not_not] at hread hlevel
        constructor
        · intro heq
          obtain ⟨rfl, rfl⟩ := Prod.mk.inj (Option.some.inj heq)
          exact ⟨name, rfl, hlevel, hread.1, hread.2, rfl, rfl⟩
        · rintro ⟨name', hname, -, -, -, rfl, rfl⟩
          cases hname
          rfl

/-- A call of the action leaves its file in the cache with all its strings added. -/
theorem preprocessOneFile_spec {s s' : Generator} {v : Visit}
    (h : preprocessOneFile lower parseMetric files s v = .ok s') :
    Extends s s' ∧ (GroupsAdded s → GroupsAdded s') ∧ FileAdded v s' := by
  unfold preprocessOneFile at h
  split at h
  · rename_i hitem
    obtain rfl := Except.ok.inj h
    exact ⟨Extends.refl _, id, fileAdded_of_fileRead_eq_none (by simp [fileRead, hitem]) _⟩
  · rename_i name hitem
    split at h
    · rename_i hlevel
      obtain rfl := Except.ok.inj h
      exact ⟨Extends.refl _, id,
        fileAdded_of_fileRead_eq_none (by simp [fileRead, hitem, hlevel]) _⟩
    · split at h
      · rename_i hjson
        obtain rfl := Except.ok.inj h
        exact ⟨Extends.refl _, id,
          fileAdded_of_fileRead_eq_none (by simp [fileRead, hitem, hjson]) _⟩
      · split at h
        · rename_i hgroups
          split at h
          · cases h
          · obtain ⟨hext, hadded⟩ := foldlM_extends (fun _ _ _ => addMetricgroup_spec) h
            exact ⟨hext, hadded,
              fileAdded_of_fileRead_eq_none (by simp [fileRead, hitem, hgroups]) _⟩
        · obtain ⟨⟨events, s₁⟩, hread, h⟩ := except_bind_eq_ok.mp h
          obtain rfl := Except.ok.inj h
          obtain ⟨hcache, hext, hbcs, hgroups, -⟩ := readCached_spec hread
          have hadd : Extends s₁ { s₁ with bcs := s₁.bcs.addAll (events.flatMap eventCalls) } :=
            ⟨fun _ _ _ hc => hc, fun t ht => (BigCString.mem_texts_addAll _ _ t).mpr (.inl ht)⟩
          refine ⟨hext.trans hadd, ?_, ?_⟩
          · intro hadded group description hlookup
            rw [hgroups] at hlookup
            obtain ⟨hgroup, hdescription⟩ := hadded group description hlookup
            exact ⟨hadd.texts _ (hext.texts _ hgroup), hadd.texts _ (hext.texts _ hdescription)⟩
          · intro path topic hfile
            obtain ⟨name', hitem', -, -, -, rfl, rfl⟩ := fileRead_eq_some_iff.mp hfile
            rw [hitem] at hitem'
            cases hitem'
            exact ⟨events, hcache, eventAdded_addAll _ events⟩

/-- The first pass over an architecture leaves each of its files in the cache, with
all strings added. -/
theorem firstPassArch_spec {s s' : Generator} {arch : Text × List Entry}
    (h : firstPassArch model lower parseMetric files s arch = .ok s') :
    Extends s s' ∧ (GroupsAdded s → GroupsAdded s') ∧
      ∀ v ∈ ftwModel model arch.1 [] arch.2, FileAdded v s' := by
  obtain ⟨s₁, hstd, hwalk⟩ := except_bind_eq_ok.mp h
  have hstdKept := foldlM_extends (fun _ _ _ => preprocessArchStdFile_spec) hstd
  have hwalkKept := foldlM_extends (fun _ _ _ hstep => by
    obtain ⟨hext, hadded, -⟩ := preprocessOneFile_spec hstep
    exact ⟨hext, hadded⟩) hwalk
  have hfiles : ∀ v ∈ ftwModel model arch.1 [] arch.2, FileAdded v s' := by
    refine foldlM_establishes ?_ ?_ hwalk
    · intro t v t' _ hstep
      exact (preprocessOneFile_spec hstep).2.2
    · intro t v t' v' _ hstep hfile
      exact hfile.mono (preprocessOneFile_spec hstep).1
  exact ⟨hstdKept.1.trans hwalkKept.1, fun hs => hwalkKept.2 (hstdKept.2 hs), hfiles⟩

/-- After the first pass every file is in the cache, with all strings added, and so
are the metric groups. -/
theorem firstPass_spec {g : Generator} {archs : List (Text × List Entry)}
    (h : firstPass model lower parseMetric files archs = .ok g) :
    GroupsAdded g ∧ ∀ arch ∈ archs, ∀ v ∈ ftwModel model arch.1 [] arch.2, FileAdded v g := by
  constructor
  · refine foldlM_keeps (P := GroupsAdded) ?_ h (by simp [GroupsAdded, Generator.initial])
    intro s arch s' _ hstep
    exact (firstPassArch_spec hstep).2.1
  · refine foldlM_establishes
      (Q := fun arch s => ∀ v ∈ ftwModel model arch.1 [] arch.2, FileAdded v s) ?_ ?_ h
    · intro s arch s' _ hstep
      exact (firstPassArch_spec hstep).2.2
    · intro s arch s' arch' _ hstep hfiles v hv
      exact (hfiles v hv).mono (firstPassArch_spec hstep).1

end FirstPass

/-! ## What the second pass looks up -/

/-- The strings of the pending events and metrics were added. -/
structure PendingAdded (bcs : BigCString) (s : WalkState) : Prop where
  events : ∀ e ∈ s.events.pending, RecordAdded bcs false e.event
  metrics : ∀ e ∈ s.metrics.pending, RecordAdded bcs true e.event

theorem printPending_pending {writer : Writer EventObject} {t t' : TableState}
    (h : printPending writer t = some t') : t'.pending = [] := by
  unfold printPending at h
  split at h
  · rename_i hempty
    obtain rfl := Option.some.inj h
    exact List.isEmpty_iff.mp hempty
  · split at h
    · cases h
    · extract_lets at h
      split at h
      · obtain rfl := Option.some.inj h
        rfl
      · cases h

theorem fileEvents_event_mem {events : List JsonEvent} {v : Visit} {e : EventObject}
    (h : e ∈ fileEvents (fun _ _ => events) v) : e.event ∈ events := by
  unfold fileEvents at h
  split at h
  · cases h
  · extract_lets at h
    split at h
    · cases h
    · split at h
      · cases h
      · obtain ⟨event, hevent, rfl⟩ := List.mem_map.mp h
        exact hevent

/-- A step of the walk keeps this, where the strings of the events it reads were added. -/
theorem processOneFile_pendingAdded {bcs : BigCString} {events : List JsonEvent}
    {s s' : WalkState} {v : Visit} (hevents : ∀ e ∈ events, EventAdded bcs e)
    (h : processOneFile (fun _ _ => events) s v = some s') (hs : PendingAdded bcs s) :
    PendingAdded bcs s' := by
  unfold processOneFile at h
  split at h
  · split at h
    · simp only [Option.bind_eq_bind, Option.bind_eq_some_iff, Option.pure_def,
        Option.some.injEq] at h
      obtain ⟨t, ht, t', ht', rfl⟩ := h
      constructor
      · simp [printPending_pending ht]
      · simp [printPending_pending ht']
    · obtain rfl := Option.some.inj h
      exact hs
  · obtain rfl := Option.some.inj h
    constructor
    · intro e he
      rcases List.mem_append.mp he with he | he
      · exact hs.events e he
      · obtain ⟨hread, hname⟩ := List.mem_filter.mp he
        exact (hevents _ (fileEvents_event_mem hread)).asEvent hname
    · intro e he
      rcases List.mem_append.mp he with he | he
      · exact hs.metrics e he
      · obtain ⟨hread, hname⟩ := List.mem_filter.mp he
        exact (hevents _ (fileEvents_event_mem hread)).asMetric hname

section SecondPass

open Traced

variable (offsets : List (Text × Int)) {bcs : BigCString}

theorem lookupOffset_sat {s : Text} (hs : s ∈ bcs.texts) :
    Sat (· ∈ bcs.texts) (fun _ => True) (lookupOffset offsets s) :=
  ⟨by simpa [lookupOffset] using hs, fun _ _ => trivial⟩

/-- The records of the sorted events or metrics are strings that were added. -/
theorem lookupRecords_sat {metric : Bool} {events : List EventObject}
    (h : ∀ e ∈ events, RecordAdded bcs metric e.event) (last : Option JsonEvent) :
    Sat (· ∈ bcs.texts) (fun _ => True) (lookupRecords offsets metric last events) := by
  induction events generalizing last with
  | nil => exact Sat.pure trivial
  | cons e events ih =>
    have hrest := ih (fun e' he' => h e' (List.mem_cons_of_mem _ he')) (some e.event)
    have hrecord := lookupOffset_sat offsets (h e List.mem_cons_self).record
    rw [lookupRecords]
    split
    · exact (Sat.fail (Q := fun _ => True)).bind fun _ _ => hrecord.bind fun _ _ => hrest
    · exact hrecord.bind fun _ _ => hrest

theorem mem_sortedPmus {events : List EventObject} {pmu : Text} (h : pmu ∈ sortedPmus events) :
    ∃ e ∈ events, e.event.pmu = pmu := by
  unfold sortedPmus at h
  rw [List.mem_insertionSort] at h
  exact List.mem_map.mp (List.mem_dedup.mp h)

/-- Closing a table looks up strings that were added. -/
theorem printPendingLookups_sat {metric : Bool} {t : TableState}
    (h : ∀ e ∈ t.pending, RecordAdded bcs metric e.event) :
    Sat (· ∈ bcs.texts) (fun t' => t'.pending = []) (printPendingLookups offsets metric t) := by
  unfold printPendingLookups
  split
  · rename_i hempty
    exact Sat.pure (List.isEmpty_iff.mp hempty)
  · split
    · exact Sat.fail
    · extract_lets sorted
      have hsorted : ∀ e ∈ sorted, RecordAdded bcs metric e.event := by
        intro e he
        exact h e (((recordWriter metric).perm t.pending).mem_iff.mp he)
      refine (lookupRecords_sat offsets hsorted none).bind fun _ _ => ?_
      have hpmus : Sat (· ∈ bcs.texts) (fun _ => True)
          ((sortedPmus sorted).forM fun pmu => do
            let _ ← lookupOffset offsets (pmu ++ nulText)) := by
        refine Sat.forM ?_
        intro pmu hpmu
        obtain ⟨e, he, rfl⟩ := mem_sortedPmus hpmu
        exact (lookupOffset_sat offsets (hsorted e he).pmu).bind fun _ _ => Sat.pure trivial
      exact hpmus.bind fun _ _ => Sat.ofOption fun t' ht' => printPending_pending ht'

variable {model : Text} {lower : Text → Text} {parseMetric : Text → Except PyError Expr}
variable {files : JsonFiles}
variable {g : Generator}

/-- What the second pass keeps: the globals the first pass left, and pending events
whose strings were added. -/
def PassInv (g : Generator) (st : Generator × WalkState) : Prop :=
  st.1 = g ∧ PendingAdded g.bcs st.2

/-- A call of the action reads its file from the cache. -/
theorem processOneFileLookups_sat {v : Visit} {st : Generator × WalkState} (hv : FileAdded v g)
    (hst : PassInv g st) :
    Sat (· ∈ g.bcs.texts) (PassInv g)
      (processOneFileLookups offsets lower parseMetric files st v) := by
  obtain ⟨hg, hpending⟩ := hst
  unfold processOneFileLookups
  split
  · split
    · refine (printPendingLookups_sat offsets hpending.events).bind fun _ _ => ?_
      refine (printPendingLookups_sat offsets hpending.metrics).bind fun _ _ => ?_
      refine (Sat.ofOption (Q := PendingAdded g.bcs) ?_).bind fun s hs => Sat.pure ⟨hg, hs⟩
      intro s hs
      exact processOneFile_pendingAdded (by simp) hs hpending
    · exact Sat.pure ⟨hg, hpending⟩
  · split
    · exact Sat.pure ⟨hg, hpending⟩
    · rename_i path topic hread
      obtain ⟨events, hcache, hadded⟩ := hv path topic hread
      have hcached : readCached lower parseMetric files st.1 path topic = .ok (events, g) := by
        unfold readCached
        rw [hg, hcache]
      rw [hcached]
      refine (Sat.ofOption (Q := fun r => r = (events, g)) ?_).bind ?_
      · intro r hr
        exact (Option.some.inj hr).symm
      · rintro _ rfl
        refine (Sat.ofOption (Q := PendingAdded g.bcs) ?_).bind fun s hs => Sat.pure ⟨rfl, hs⟩
        intro s hs
        exact processOneFile_pendingAdded hadded hs hpending

/-- The walk over an architecture, with its last tables. -/
theorem processArchLookups_sat {arch : Text × List Entry} {st : Generator × WalkState}
    (harch : ∀ v ∈ ftwModel model arch.1 [] arch.2, FileAdded v g) (hst : PassInv g st) :
    Sat (· ∈ g.bcs.texts) (PassInv g)
      (processArchLookups offsets model lower parseMetric files st arch) := by
  unfold processArchLookups
  refine Sat.bind (Sat.foldlM ?_ hst) ?_
  · intro st v hv hst
    exact processOneFileLookups_sat offsets (harch v hv) hst
  · rintro st ⟨hg, hpending⟩
    refine (printPendingLookups_sat offsets hpending.events).bind fun events hevents => ?_
    refine (printPendingLookups_sat offsets hpending.metrics).bind fun metrics hmetrics => ?_
    exact Sat.pure ⟨hg, ⟨by simp [hevents], by simp [hmetrics]⟩⟩

/-- The groups and their descriptions were added. -/
theorem printMetricgroupsLookups_sat (h : GroupsAdded g) :
    Sat (· ∈ g.bcs.texts) (fun _ => True)
      (printMetricgroupsLookups offsets g.metricgroups) := by
  refine Sat.forM ?_
  intro mgroup hmgroup
  rw [List.mem_insertionSort] at hmgroup
  have hsome := AList.lookup_isSome.mpr (AList.mem_keys.mpr hmgroup)
  obtain ⟨description, hlookup⟩ := Option.isSome_iff_exists.mp hsome
  obtain ⟨hgroup, hdescription⟩ := h mgroup description hlookup
  refine (lookupOffset_sat offsets hgroup).bind fun _ _ => ?_
  rw [hlookup]
  exact (lookupOffset_sat offsets hdescription).bind fun _ _ => Sat.pure trivial

/-- Every string the second pass looks up was added by the first one. -/
theorem secondPassLookups_sat {archs : List (Text × List Entry)} (hgroups : GroupsAdded g)
    (hfiles : ∀ arch ∈ archs, ∀ v ∈ ftwModel model arch.1 [] arch.2, FileAdded v g) :
    Sat (· ∈ g.bcs.texts) (fun _ => True)
      (secondPassLookups offsets model lower parseMetric files g archs) := by
  unfold secondPassLookups
  have hinit : PassInv g (g, { events := .init, metrics := .init, sysMapping := [] }) :=
    ⟨rfl, ⟨by simp [TableState.init], by simp [TableState.init]⟩⟩
  refine Sat.bind (Sat.foldlM ?_ hinit) ?_
  · intro st arch harch hst
    exact processArchLookups_sat offsets (hfiles arch harch) hst
  · rintro st ⟨rfl, -⟩
    exact printMetricgroupsLookups_sat offsets hgroups

end SecondPass

/-! ## The passes agree -/

/-- When the first pass finishes, the second one looks up only strings that were
added, in whatever order the big string is laid out, and finds all of them. -/
theorem secondPass_lookups_added {model : Text} {lower : Text → Text}
    {parseMetric : Text → Except PyError Expr} {files : JsonFiles} {g : Generator}
    {archs : List (Text × List Entry)}
    (hfirst : firstPass model lower parseMetric files archs = .ok g) (setOrder : SetOrder) :
    ∃ text offsets, g.bcs.compute setOrder = some (text, offsets) ∧
      ∀ s ∈ (secondPassLookups offsets model lower parseMetric files g archs).trace,
        s ∈ g.bcs.texts ∧ (offsets.lookup s).isSome := by
  obtain ⟨hgroups, hfiles⟩ := firstPass_spec hfirst
  obtain ⟨offsets, hcompute, -⟩ := g.bcs.compute_spec setOrder
  refine ⟨_, offsets, hcompute, ?_⟩
  intro s hs
  have hadded : s ∈ g.bcs.texts := (secondPassLookups_sat offsets hgroups hfiles).trace s hs
  exact ⟨hadded, BigCString.lookup_isSome_of_compute hcompute hadded⟩

/-- Two architectures, each with a model that uses the standard event `n`. -/
def twoArchs : List (Text × List Entry) :=
  [(['a'], [.file "s.json".toList, .dir ['m'] [.file "e.json".toList]]),
    (['b'], [.file "s.json".toList, .dir ['m'] [.file "e.json".toList]])]

/-- The files of the two architectures, which define the standard event differently. -/
def twoArchsFiles : JsonFiles where
  dicts := fun path =>
    if path = [['a'], "s.json".toList] then
      some [JsonDict.ofList [("EventName", ['n']), ("EventCode", ['1'])]]
    else if path = [['b'], "s.json".toList] then
      some [JsonDict.ofList [("EventName", ['n']), ("EventCode", ['2'])]]
    else some [JsonDict.ofList [("ArchStdEvent", ['n'])]]
  groups := fun _ => none

/-- The second architecture replaces the standard event of the first one. -/
theorem secondPass_lookups_added_twoArchs :
    ∃ g, firstPass "all".toList (List.map Char.toLower) (fun _ => .error .keyError) twoArchsFiles
        twoArchs = .ok g ∧
      ∀ setOrder, ∃ text offsets, g.bcs.compute setOrder = some (text, offsets) ∧
        ∀ s ∈ (secondPassLookups offsets "all".toList (List.map Char.toLower)
            (fun _ => .error .keyError) twoArchsFiles g twoArchs).trace,
          s ∈ g.bcs.texts ∧ (offsets.lookup s).isSome :=
  ⟨_, rfl, fun setOrder => secondPass_lookups_added rfl setOrder⟩

end PmuEvents.Jevents
