import PmuEvents.Jevents.ArchRecords
set_option autoImplicit false

/-!
# Architectures processed together and alone

The dictionary of architecture standard events is shared by all architectures of a
run, and the files of one architecture fill it in the order of `os.scandir`.  The main
result says for which architectures neither can be seen in what they come to.
-/

namespace PmuEvents.Jevents

open PmuEvents.Foundation PmuEvents.Metric

section Alone

variable (model : Text) (lower : Text → Text) (parseMetric : Text → Except PyError Expr)
variable (files : JsonFiles) (arch : Text × List Entry)

/-- Whatever architectures a run processes before this one, and in whatever order the
directory entries are listed, what comes of it is the same as in a run on it alone. -/
def ArchIndependent : Prop :=
  ∀ (files' : JsonFiles) (before : List (Text × List Entry)) (s : Generator)
    (entries : List Entry), SameFiles files arch files' → (∀ other ∈ before, other.1 ≠ []) →
    (before.map Prod.fst ++ [arch.1]).Pairwise (· < ·) →
    firstPass model lower parseMetric files' before = .ok s → Relisted arch.2 entries →
      archOutcome model lower parseMetric files' s (arch.1, entries) =
        archOutcome model lower parseMetric files .initial arch

/-! ## When this is so -/

/-- However it is listed, the architecture on its own fails, for want of something else
than an architecture standard event. -/
def Unprocessable : Prop :=
  ∀ entries, Relisted arch.2 entries →
    archOutcome model lower parseMetric files .initial (arch.1, entries) = .failure

/-- An entry names no architecture standard event, or one that the architecture itself
defines, and it comes to the same with each of the files that define it. -/
def Resolved (topic : Text) (jd : JsonDict) : Prop :=
  ∃ records,
    match namedArchStd jd with
    | none => entryRecords lower parseMetric (fun _ => none) topic jd = some records
    | some n =>
      (∃ name ∈ jsonNames arch.2, (ownEntries lower parseMetric files arch name (lower n)).isSome) ∧
        ∀ name ∈ jsonNames arch.2, (ownEntries lower parseMetric files arch name (lower n)).isSome →
          entryRecords lower parseMetric (ownEntries lower parseMetric files arch name) topic jd =
            some records

/-- The architecture standard files can be read without others, the metric groups are
well formed, and all entries of the other files are resolved. -/
structure SelfContained : Prop where
  standard : ∀ name ∈ jsonNames arch.2, ∃ events,
    loadJsonEvents lower parseMetric files (fun _ => none) [arch.1, name] [] = .ok events
  groups : ∀ v ∈ ftwModel model arch.1 [] arch.2, ∀ name, v.item = .file name → onLevel v →
    isMetricgroups name →
      ∃ groups, files.groups v.path = some groups ∧ ∀ group ∈ groups, 1 < group.1.length
  entries : ∀ v ∈ ftwModel model arch.1 [] arch.2, ∀ path topic,
    fileRead v = some (path, topic) →
      ∃ dicts, files.dicts path = some dicts ∧
        ∀ jd ∈ dicts, Resolved lower parseMetric files arch topic jd

end Alone

/-! ## Self-contained architectures -/

section Sufficient

variable {model : Text} {lower : Text → Text} {parseMetric : Text → Except PyError Expr}
variable {files : JsonFiles} {arch : Text × List Entry}

variable (lower parseMetric files arch) in
/-- A dictionary with the names an architecture defines as one of its files does. -/
def DefinedByOwn (d : ArchStdEvents) : Prop :=
  ∀ key, (∃ name ∈ jsonNames arch.2, (ownEntries lower parseMetric files arch name key).isSome) →
    ∃ name ∈ jsonNames arch.2, (ownEntries lower parseMetric files arch name key).isSome ∧
      d key = ownEntries lower parseMetric files arch name key

theorem definedByOwn_overlayAll {names : List Text} (hnames : (jsonNames arch.2).Perm names)
    (d : ArchStdEvents) :
    DefinedByOwn lower parseMetric files arch
      (overlayAll d (names.map (ownEntries lower parseMetric files arch))) := by
  rintro key ⟨name, hname, hsome⟩
  have hdefined : (overlayAll (fun _ => none)
      (names.map (ownEntries lower parseMetric files arch)) key).isSome :=
    (overlayAll_isSome_iff _ _).mpr ⟨_, List.mem_map_of_mem (hnames.mem_iff.mp hname), hsome⟩
  obtain ⟨event, hevent⟩ := Option.isSome_iff_exists.mp hdefined
  obtain ⟨e, he, hek⟩ := exists_of_overlayAll hevent
  obtain ⟨name', hname', rfl⟩ := List.mem_map.mp he
  refine ⟨name', hnames.mem_iff.mpr hname', by rw [hek]; rfl, ?_⟩
  rw [overlayAll_eq_of_isSome hdefined, hevent, hek]

/-- An entry that is resolved comes to the same with all such dictionaries. -/
theorem Resolved.entryRecords_eq {topic : Text} {jd : JsonDict}
    (h : Resolved lower parseMetric files arch topic jd) :
    ∃ records, ∀ d, DefinedByOwn lower parseMetric files arch d →
      entryRecords lower parseMetric d topic jd = some records := by
  obtain ⟨records, hrecords⟩ := h
  refine ⟨records, fun d hd => ?_⟩
  cases hnamed : namedArchStd jd with
  | none =>
    rw [hnamed] at hrecords
    rw [← hrecords]
    refine entryRecords_congr topic fun n hn => ?_
    rw [hnamed] at hn
    cases hn
  | some n =>
    rw [hnamed] at hrecords
    obtain ⟨hdefined, hsame⟩ := hrecords
    obtain ⟨name, hname, hsome, hkey⟩ := hd (lower n) hdefined
    rw [← hsame name hname hsome]
    refine entryRecords_congr topic fun n' hn' => ?_
    obtain rfl := Option.some.inj (hnamed.symm.trans hn')
    exact hkey

/-- So does a visit. -/
theorem SelfContained.visitRecords_eq (h : SelfContained model lower parseMetric files arch)
    {v : Visit} (hv : v ∈ ftwModel model arch.1 [] arch.2) :
    ∃ records, ∀ d, DefinedByOwn lower parseMetric files arch d →
      visitRecords lower parseMetric files d v = .ok records := by
  cases hitem : v.item with
  | dir name entries => exact ⟨[], fun d _ => by rw [visitRecords, hitem]⟩
  | file name =>
    by_cases hlevel : onLevel v
    · by_cases hjson : isJson name
      · by_cases hgroups : isMetricgroups name
        · obtain ⟨groups, hread, hlength⟩ := h.groups v hv name hitem hlevel hgroups
          refine ⟨[], fun d _ => ?_⟩
          simp only [visitRecords, hitem, hlevel, hjson, hgroups, hread, not_true_eq_false,
            or_self, if_false, if_true]
          rw [if_pos hlength]
        · have hfile : fileRead v = some (v.path, getTopic name) :=
            fileRead_eq_some_iff.mpr ⟨name, hitem, hlevel, hjson, hgroups, rfl, rfl⟩
          obtain ⟨dicts, hdicts, hresolved⟩ := h.entries v hv v.path (getTopic name) hfile
          obtain ⟨records, hrecords⟩ := exists_mapM_eq_pure
            (K := DefinedByOwn lower parseMetric files arch)
            (f := fun d => entryRecords lower parseMetric d (getTopic name))
            fun jd hjd => (hresolved jd hjd).entryRecords_eq
          refine ⟨[(v.path, records)], fun d hd => ?_⟩
          obtain ⟨events, hload, rfl⟩ :=
            loadJsonEvents_records.mpr ⟨dicts, hdicts, hrecords d hd⟩
          simp only [visitRecords, hitem, hlevel, hjson, hgroups, hload, not_true_eq_false,
            or_self, if_false, Bool.false_eq_true, Except.map]
      · exact ⟨[], fun d _ => by simp [visitRecords, hitem, hjson]⟩
    · exact ⟨[], fun d _ => by simp [visitRecords, hitem, hlevel]⟩

/-- A self-contained architecture comes to the same over every dictionary. -/
theorem SelfContained.recordsWith_eq (h : SelfContained model lower parseMetric files arch)
    (hparse : ∀ text, NamesFound (parseMetric text)) :
    ∃ records, ∀ names, (jsonNames arch.2).Perm names → ∀ d,
      recordsWith lower parseMetric files arch.1 names
        ((ftwModel model arch.1 [] arch.2).filter Visit.isFile) d = .ok records := by
  obtain ⟨records, hrecords⟩ := exists_mapM_eq_pure
    (K := DefinedByOwn lower parseMetric files arch)
    (f := visitRecords lower parseMetric files)
    (l := (ftwModel model arch.1 [] arch.2).filter Visit.isFile)
    fun v hv => h.visitRecords_eq (List.mem_filter.mp hv).1
  refine ⟨records.flatten, fun names hnames d => ?_⟩
  have hstd := foldlM_addArchStdFile hparse
    (fun name (hname : name ∈ names) => h.standard name (hnames.mem_iff.mpr hname)) d
  unfold recordsWith
  rw [hstd]
  simp only [bind, Except.bind]
  rw [hrecords _ (definedByOwn_overlayAll hnames d)]
  rfl

end Sufficient

/-! ## Architectures that are not -/

section Necessary

variable {model : Text} {lower : Text → Text} {parseMetric : Text → Except PyError Expr}
variable {files : JsonFiles}

variable (model) in
/-- A run on one architecture standard file. -/
theorem firstPass_standardFile {b name : Text} {events : List JsonEvent} (hjson : isJson name)
    (hload : loadJsonEvents lower parseMetric files (fun _ => none) [b, name] [] = .ok events) :
    ∃ s, firstPass model lower parseMetric files [(b, [.file name])] = .ok s ∧
      s.archStdEvents = overlay (fun _ => none) (archStdEntries lower events) := by
  obtain ⟨s, hread, hdict⟩ : ∃ s, readCached lower parseMetric files .initial [b, name] [] =
      .ok (events, s) ∧ s.archStdEvents = fun _ => none := by
    simp only [readCached, Generator.initial, hload]
    exact ⟨_, rfl, rfl⟩
  have hwalk : ftwModel model b [] [.file name] = [⟨b, [], .file name⟩] := rfl
  refine ⟨events.foldl (addArchStd lower) s, ?_, ?_⟩
  · simp only [firstPass, firstPassArch, preprocessArchStdFile, List.foldlM_cons,
      List.foldlM_nil, if_pos hjson, hread, hwalk]
    rfl
  · rw [foldl_addArchStd_archStdEvents, hdict]

/-- The files of an architecture, and elsewhere one event that has nothing but a name. -/
def definerFiles (files : JsonFiles) (arch : Text × List Entry) (n : Text) : JsonFiles where
  dicts := fun path =>
    if path.head? = some arch.1 then files.dicts path
    else some [JsonDict.ofList [("EventName", n)]]
  groups := files.groups

variable (model lower parseMetric files) in
/-- Some other architecture defines a given name. -/
theorem exists_definer {arch : Text × List Entry} {b n : Text} (hempty : b ≠ [])
    (hb : b < arch.1) (hname : lower n ≠ []) (hlower : ∀ s, lower (lower s) = lower s) :
    ∃ files' before s, SameFiles files arch files' ∧ (∀ other ∈ before, other.1 ≠ []) ∧
      (before.map Prod.fst ++ [arch.1]).Pairwise (· < ·) ∧
      firstPass model lower parseMetric files' before = .ok s ∧
      (s.archStdEvents (lower n)).isSome := by
  have hinit : ∃ event, JsonEvent.init lower parseMetric (fun _ => none)
      (JsonDict.ofList [("EventName", n)]) = .ok event ∧ event.name = some (lower n) ∧
        event.metric_name = none := ⟨_, rfl, rfl, rfl⟩
  obtain ⟨event, hevent, hevent_name, hmetric⟩ := hinit
  have hne : ¬ b = arch.1 := ne_of_lt hb
  have hload : loadJsonEvents lower parseMetric (definerFiles files arch n) (fun _ => none)
      [b, "n.json".toList] [] = .ok [{ event with topic := [] }] := by
    refine loadJsonEvents_eq_ok_iff.mpr ⟨[JsonDict.ofList [("EventName", n)]], [event], ?_, ?_, ?_,
      rfl⟩
    · simp [definerFiles, hne]
    · exact exceptMapM_eq_ok_iff.mpr (.cons hevent .nil)
    · simp [lacksExpr, isRewritable, truthy, hmetric]
  have hjson : isJson "n.json".toList = true := by decide
  obtain ⟨s, hfirst, hstd⟩ := firstPass_standardFile model hjson hload
  refine ⟨definerFiles files arch n, [(b, [.file "n.json".toList])], s, ?_, ?_, ?_, hfirst, ?_⟩
  · intro path
    simp [definerFiles]
  · simpa using hempty
  · simpa using hb
  · rw [hstd]
    simp [overlay, archStdEntries, overlayAll, archStdEntry, truthy, hmetric, hevent_name, hname,
      hlower]

theorem isJson_of_isMetricgroups {name : Text} (h : isMetricgroups name) : isJson name := by
  unfold isMetricgroups at h
  rw [of_decide_eq_true h]
  decide

/-- What a visit comes to. -/
theorem visitRecords_eq_ok {d : ArchStdEvents} {v : Visit} {records : FileRecords}
    (h : visitRecords lower parseMetric files d v = .ok records) :
    fileRead v = none ∧ records = [] ∨
      ∃ path topic events, fileRead v = some (path, topic) ∧
        loadJsonEvents lower parseMetric files d path topic = .ok events ∧
        records = [(path, events.map eventCalls)] := by
  cases hread : fileRead v with
  | none =>
    refine .inl ⟨rfl, ?_⟩
    unfold visitRecords at h
    split at h
    · exact (Except.ok.inj h).symm
    · rename_i name hitem
      split at h
      · exact (Except.ok.inj h).symm
      · rename_i hskip
        split at h
        · split at h
          · cases h
          · split at h
            · exact (Except.ok.inj h).symm
            · cases h
        · rename_i hgroups
          rw [not_or, not_not, not_not] at hskip
          have hsome := fileRead_eq_some_iff.mpr
            ⟨name, hitem, hskip.1, hskip.2, hgroups, rfl, rfl⟩
          rw [hread] at hsome
          cases hsome
  | some file =>
    obtain ⟨path, topic⟩ := file
    obtain ⟨name, hitem, hlevel, hjson, hgroups, rfl, rfl⟩ := fileRead_eq_some_iff.mp hread
    simp only [visitRecords, hitem, hlevel, hjson, hgroups, not_true_eq_false, or_self, if_false,
      Bool.false_eq_true] at h
    cases hload : loadJsonEvents lower parseMetric files d v.path (getTopic name) with
    | error err =>
      rw [hload] at h
      cases h
    | ok events =>
      rw [hload] at h
      exact .inr ⟨_, _, events, rfl, hload, (Except.ok.inj h).symm⟩

/-- How many files a visit comes to does not depend on the dictionary. -/
theorem length_of_visitRecords {d : ArchStdEvents} {visits : List Visit}
    {records : List FileRecords}
    (h : visits.mapM (visitRecords lower parseMetric files d) = .ok records) :
    records.map List.length = visits.map fun v => if (fileRead v).isSome then 1 else 0 := by
  have hrel := exceptMapM_eq_ok_iff.mp h
  clear h
  induction hrel with
  | nil => rfl
  | cons hv _ ih =>
    rw [List.map_cons, List.map_cons, ih]
    rcases visitRecords_eq_ok hv with ⟨hread, rfl⟩ | ⟨path, topic, events, hread, -, rfl⟩ <;>
      simp [hread]

/-- An entry that comes to the same with the dictionary of each listing is resolved. -/
theorem resolved_of_entryRecords {arch : Text × List Entry} {topic : Text} {jd : JsonDict}
    {calls : List (Text × Bool)} (hparse : ∀ text, NamesFound (parseMetric text))
    (h : ∀ entries, Relisted arch.2 entries →
      entryRecords lower parseMetric (overlayAll (fun _ => none)
        ((jsonNames entries).map (ownEntries lower parseMetric files arch))) topic jd =
          some calls) : Resolved lower parseMetric files arch topic jd := by
  refine ⟨calls, ?_⟩
  cases hnamed : namedArchStd jd with
  | none =>
    rw [← h arch.2 (.refl _)]
    refine entryRecords_congr topic fun n hn => ?_
    rw [hnamed] at hn
    cases hn
  | some n =>
    refine ⟨?_, ?_⟩
    · obtain ⟨event, hinit, -⟩ := entryRecords_eq_some_iff.mp (h arch.2 (.refl _))
      obtain ⟨e, he, hsome⟩ :=
        (overlayAll_isSome_iff _ _).mp (found_of_init_eq_ok hparse hinit hnamed)
      obtain ⟨name, hname, rfl⟩ := List.mem_map.mp he
      exact ⟨name, hname, hsome⟩
    · intro name hname hsome
      obtain ⟨entries, names, hlisted, hnames⟩ := exists_listed_last hname
      rw [← h entries hlisted, hnames, List.map_append, List.map_singleton]
      refine entryRecords_congr topic fun n' hn' => ?_
      obtain rfl := Option.some.inj (hnamed.symm.trans hn')
      exact (overlayAll_concat _ hsome).symm

section SameRecords

variable {arch : Text × List Entry} {records : FileRecords}
variable (hparse : ∀ text, NamesFound (parseMetric text))
variable (hrecords : ∀ entries, Relisted arch.2 entries →
  recordsWith lower parseMetric files arch.1 (jsonNames entries)
    ((ftwModel model arch.1 [] arch.2).filter Visit.isFile) (fun _ => none) = .ok records)
include hrecords

/-- An architecture that never misses a name has architecture standard files that need no
others: any of them may be the first one. -/
theorem standard_of_records : ∀ name ∈ jsonNames arch.2, ∃ events,
    loadJsonEvents lower parseMetric files (fun _ => none) [arch.1, name] [] = .ok events := by
  intro name hname
  obtain ⟨entries, names, hlisted, hnames⟩ := exists_listed_first hname
  have hrun := hrecords entries hlisted
  rw [hnames, recordsWith] at hrun
  obtain ⟨d, hstd, -⟩ := except_bind_eq_ok.mp hrun
  rw [List.foldlM_cons] at hstd
  obtain ⟨d₁, hfirst, -⟩ := except_bind_eq_ok.mp hstd
  rw [addArchStdFile] at hfirst
  cases hload : loadJsonEvents lower parseMetric files (fun _ => none) [arch.1, name] [] with
  | error err =>
    rw [hload] at hfirst
    cases hfirst
  | ok events => exact ⟨events, rfl⟩

include hparse

/-- With the dictionary of each listing, the visits come to the same. -/
theorem visits_of_records : ∃ parts, ∀ entries, Relisted arch.2 entries →
    ((ftwModel model arch.1 [] arch.2).filter Visit.isFile).mapM
      (visitRecords lower parseMetric files (overlayAll (fun _ => none)
        ((jsonNames entries).map (ownEntries lower parseMetric files arch)))) = .ok parts := by
  have hparts : ∀ entries, Relisted arch.2 entries → ∃ parts,
      ((ftwModel model arch.1 [] arch.2).filter Visit.isFile).mapM
        (visitRecords lower parseMetric files (overlayAll (fun _ => none)
          ((jsonNames entries).map (ownEntries lower parseMetric files arch)))) = .ok parts ∧
      parts.flatten = records := by
    intro entries hlisted
    have hload := standard_of_records hrecords
    have hstd := foldlM_addArchStdFile hparse
      (fun name (hname : name ∈ jsonNames entries) =>
        hload name (hlisted.perm_jsonNames.mem_iff.mpr hname)) fun _ => none
    have hrun := hrecords entries hlisted
    rw [recordsWith, hstd] at hrun
    obtain ⟨d, hd, hrun⟩ := except_bind_eq_ok.mp hrun
    obtain rfl := Except.ok.inj hd
    obtain ⟨parts, hparts, hflatten⟩ := except_bind_eq_ok.mp hrun
    exact ⟨parts, hparts, Except.ok.inj hflatten⟩
  obtain ⟨parts, hfirst, hflatten⟩ := hparts arch.2 (.refl _)
  refine ⟨parts, fun entries hlisted => ?_⟩
  obtain ⟨parts', hparts', hflatten'⟩ := hparts entries hlisted
  have hlength : parts'.map List.length = parts.map List.length := by
    rw [length_of_visitRecords hparts', length_of_visitRecords hfirst]
  have hsame : parts' = parts :=
    List.eq_iff_flatten_eq.mpr ⟨hflatten'.trans hflatten.symm, hlength⟩
  rw [hparts', hsame]

/-- An architecture that comes to the same strings in each listing is self-contained. -/
theorem selfContained_of_records : SelfContained model lower parseMetric files arch := by
  obtain ⟨parts, hparts⟩ := visits_of_records hparse hrecords
  have hvisits := exists_forall_of_forall₂ (K := Relisted arch.2)
    (R := fun entries v r => visitRecords lower parseMetric files (overlayAll (fun _ => none)
      ((jsonNames entries).map (ownEntries lower parseMetric files arch))) v = .ok r)
    (.refl arch.2) fun entries hlisted => exceptMapM_eq_ok_iff.mp (hparts entries hlisted)
  have hfile : ∀ v ∈ ftwModel model arch.1 [] arch.2, ∀ name, v.item = .file name →
      v ∈ (ftwModel model arch.1 [] arch.2).filter Visit.isFile := by
    intro v hv name hitem
    exact List.mem_filter.mpr ⟨hv, by simp [Visit.isFile, hitem, Entry.isDir]⟩
  refine ⟨standard_of_records hrecords, ?_, ?_⟩
  · intro v hv name hitem hlevel hgroups
    obtain ⟨r, hr⟩ := hvisits v (hfile v hv name hitem)
    have hjson := isJson_of_isMetricgroups hgroups
    have hvisit := hr arch.2 (.refl _)
    simp only [visitRecords, hitem, hlevel, hjson, hgroups, not_true_eq_false, or_self, if_false,
      if_true] at hvisit
    cases hread : files.groups v.path with
    | none =>
      rw [hread] at hvisit
      cases hvisit
    | some groups =>
      rw [hread] at hvisit
      refine ⟨groups, rfl, ?_⟩
      by_contra hlength
      simp only [hlength, if_false] at hvisit
      cases hvisit
  · intro v hv path topic hread
    obtain ⟨name, hitem, -⟩ := fileRead_eq_some_iff.mp hread
    obtain ⟨r, hr⟩ := hvisits v (hfile v hv name hitem)
    have hcalls : ∀ entries, Relisted arch.2 entries → ∃ dicts calls, r = [(path, calls)] ∧
        files.dicts path = some dicts ∧ dicts.mapM (entryRecords lower parseMetric
          (overlayAll (fun _ => none) ((jsonNames entries).map
            (ownEntries lower parseMetric files arch))) topic) = some calls := by
      intro entries hlisted
      rcases visitRecords_eq_ok (hr entries hlisted) with
        ⟨hnone, -⟩ | ⟨path', topic', events, hread', hload, hrecs⟩
      · rw [hread] at hnone
        cases hnone
      · obtain ⟨rfl, rfl⟩ := Prod.mk.inj (Option.some.inj (hread.symm.trans hread'))
        obtain ⟨dicts, hdicts, hentries⟩ := loadJsonEvents_records.mp ⟨events, hload, rfl⟩
        exact ⟨dicts, _, hrecs, hdicts, hentries⟩
    obtain ⟨dicts, calls, rfl, hdicts, -⟩ := hcalls arch.2 (.refl _)
    refine ⟨dicts, hdicts, ?_⟩
    have hentries := exists_forall_of_forall₂ (K := Relisted arch.2)
      (R := fun entries jd y => entryRecords lower parseMetric (overlayAll (fun _ => none)
        ((jsonNames entries).map (ownEntries lower parseMetric files arch))) topic jd = some y)
      (l := dicts) (.refl arch.2) fun entries hlisted => by
        obtain ⟨dicts', calls', hcalls', hdicts', hmapM⟩ := hcalls entries hlisted
        obtain rfl := Option.some.inj (hdicts.symm.trans hdicts')
        obtain rfl := (Prod.mk.inj (List.cons.inj hcalls').1).2
        exact mapM_eq_some_iff.mp hmapM
    intro jd hjd
    obtain ⟨y, hy⟩ := hentries jd hjd
    exact resolved_of_entryRecords hparse hy

end SameRecords

end Necessary

/-! ## The condition -/

section Condition

variable {model : Text} {lower : Text → Text} {parseMetric : Text → Except PyError Expr}
variable {files : JsonFiles} {arch : Text × List Entry}

theorem Unprocessable.archIndependent (h : Unprocessable model lower parseMetric files arch)
    (hdistinct : DistinctNames arch.2) (hparse : ∀ text, NamesFound (parseMetric text)) :
    ArchIndependent model lower parseMetric files arch := by
  intro files' before s entries hfiles _ hsorted hbefore hlisted
  have hentries := h entries hlisted
  rw [archOutcome_initial hdistinct hlisted] at hentries
  have harch : archOutcome model lower parseMetric files .initial arch = .failure :=
    h arch.2 (.refl _)
  rw [harch, archOutcome_eq_recordsWith hdistinct hfiles hsorted hbefore hlisted]
  rcases recordsWith_mono hparse (jsonNames entries)
    ((ftwModel model arch.1 [] arch.2).filter Visit.isFile) (Below.of_none s.archStdEvents) with
    hsame | ⟨n, hmissing⟩
  · rw [hsame, hentries]
  · rw [Outcome.of_eq_missing_iff.mpr hmissing] at hentries
    cases hentries

theorem SelfContained.archIndependent (h : SelfContained model lower parseMetric files arch)
    (hdistinct : DistinctNames arch.2) (hparse : ∀ text, NamesFound (parseMetric text)) :
    ArchIndependent model lower parseMetric files arch := by
  intro files' before s entries hfiles _ hsorted hbefore hlisted
  obtain ⟨records, hrecords⟩ := h.recordsWith_eq hparse
  have harch : archOutcome model lower parseMetric files .initial arch = .of _ :=
    archOutcome_initial hdistinct (.refl arch.2)
  rw [harch, archOutcome_eq_recordsWith hdistinct hfiles hsorted hbefore hlisted,
    hrecords _ hlisted.perm_jsonNames, hrecords _ (.refl _)]

/-- What comes of an architecture is independent of the others of the run and of the
order of its directory entries exactly when it fails by itself or is self-contained.
`lower` stands for `str.lower` and `parseMetric` for the parser of metrics, which raises
no error about architecture standard events. -/
theorem archIndependent_iff (hdistinct : DistinctNames arch.2)
    (hparse : ∀ text, NamesFound (parseMetric text)) (hlower : ∀ s, lower (lower s) = lower s)
    (hempty : ∀ s, s ≠ [] → lower s ≠ []) (hfirst : ∃ b, b ≠ [] ∧ b < arch.1) :
    ArchIndependent model lower parseMetric files arch ↔
      Unprocessable model lower parseMetric files arch ∨
        SelfContained model lower parseMetric files arch := by
  constructor
  · intro hind
    by_cases hun : Unprocessable model lower parseMetric files arch
    · exact .inl hun
    · right
      have hsame : ∀ entries, Relisted arch.2 entries →
          archOutcome model lower parseMetric files .initial (arch.1, entries) =
            archOutcome model lower parseMetric files .initial arch :=
        fun entries hlisted => hind files [] .initial entries (fun _ => ⟨rfl, rfl⟩) (by simp)
          (List.pairwise_singleton _ _) rfl hlisted
      have harch : archOutcome model lower parseMetric files .initial arch = _ :=
        archOutcome_initial hdistinct (.refl arch.2)
      cases hout : archOutcome model lower parseMetric files .initial arch with
      | failure => exact absurd (fun entries hlisted => (hsame entries hlisted).trans hout) hun
      | missing n =>
        exfalso
        rw [harch] at hout
        obtain ⟨hn, -⟩ := missing_of_recordsWith hparse (Outcome.of_eq_missing_iff.mp hout)
        obtain ⟨b, hb, hlt⟩ := hfirst
        obtain ⟨files', before, s, hfiles, hnames, hsorted, hbefore, hdefined⟩ :=
          exists_definer model lower parseMetric files hb hlt (hempty n hn) hlower
        have hrun := hind files' before s arch.2 hfiles hnames hsorted hbefore (.refl _)
        rw [harch, hout, archOutcome_eq_recordsWith hdistinct hfiles hsorted hbefore (.refl _)]
          at hrun
        obtain ⟨-, hmissing⟩ := missing_of_recordsWith hparse (Outcome.of_eq_missing_iff.mp hrun)
        rw [hmissing] at hdefined
        cases hdefined
      | records records =>
        have hrecords : ∀ entries, Relisted arch.2 entries →
            recordsWith lower parseMetric files arch.1 (jsonNames entries)
              ((ftwModel model arch.1 [] arch.2).filter Visit.isFile) (fun _ => none) =
                .ok records := by
          intro entries hlisted
          have hentries := (hsame entries hlisted).trans hout
          rw [archOutcome_initial hdistinct hlisted] at hentries
          exact Outcome.of_eq_records_iff.mp hentries
        exact selfContained_of_records hparse hrecords
  · rintro (hun | hself)
    · exact hun.archIndependent hdistinct hparse
    · exact hself.archIndependent hdistinct hparse

/-- An architecture with a model that uses a standard event `n` it does not define. -/
def usesOthersEvent : Text × List Entry := (['b'], [.dir ['m'] [.file "e.json".toList]])

/-- Alone it fails, and after an architecture that defines `n` it does not. -/
theorem not_archIndependent_usesOthersEvent :
    ¬ ArchIndependent "all".toList (List.map Char.toLower) (fun _ => .error .keyError)
      twoArchsFiles usesOthersEvent := by
  intro hind
  have hrun := hind twoArchsFiles [(['a'], [.file "s.json".toList])] _ usesOthersEvent.2
    (fun _ => ⟨rfl, rfl⟩) (by decide) (by decide) rfl (.refl _)
  exact absurd hrun (by decide)

theorem toLower_toLower (c : Char) : c.toLower.toLower = c.toLower := by
  by_cases hupper : c.val ≥ 'A'.val ∧ c.val ≤ 'Z'.val
  · have hval : c.toLower.val = c.val + ('a'.val - 'A'.val) := by
      unfold Char.toLower
      rw [dif_pos hupper]
    have hnot : ¬ (c.toLower.val ≥ 'A'.val ∧ c.toLower.val ≤ 'Z'.val) := by
      rw [hval]
      rintro ⟨-, hle⟩
      obtain ⟨hge, hle'⟩ := hupper
      rw [UInt32.le_iff_toNat_le] at hle hle'
      rw [ge_iff_le, UInt32.le_iff_toNat_le] at hge
      rw [UInt32.toNat_add] at hle
      simp at hle hle' hge
      omega
    generalize c.toLower = d at hnot ⊢
    unfold Char.toLower
    rw [dif_neg hnot]
  · have hsame : c.toLower = c := by
      unfold Char.toLower
      rw [dif_neg hupper]
    rw [hsame, hsame]

/-- The second of the two architectures, which defines the standard event itself. -/
def definesOwnEvent : Text × List Entry :=
  (['b'], [.file "s.json".toList, .dir ['m'] [.file "e.json".toList]])

theorem ftwModel_definesOwnEvent : ftwModel "all".toList definesOwnEvent.1 [] definesOwnEvent.2 =
    [⟨['b'], [], .dir ['m'] [.file "e.json".toList]⟩, ⟨['b'], [['m']], .file "e.json".toList⟩,
      ⟨['b'], [], .file "s.json".toList⟩] :=
  rfl

theorem selfContained_definesOwnEvent : SelfContained "all".toList (List.map Char.toLower)
    (fun _ => .error .keyError) twoArchsFiles definesOwnEvent := by
  refine ⟨?_, ?_, ?_⟩
  · intro name hname
    rw [List.mem_singleton.mp hname]
    exact ⟨_, rfl⟩
  · rw [ftwModel_definesOwnEvent]
    intro v hv name hitem _ hgroups
    simp only [List.mem_cons, List.not_mem_nil, or_false] at hv
    rcases hv with rfl | rfl | rfl
    · cases hitem
    · cases hitem
      exact absurd hgroups (by decide)
    · cases hitem
      exact absurd hgroups (by decide)
  · rw [ftwModel_definesOwnEvent]
    intro v hv path topic hread
    obtain ⟨name, hitem, hlevel, -, -, rfl, rfl⟩ := fileRead_eq_some_iff.mp hread
    simp only [List.mem_cons, List.not_mem_nil, or_false] at hv
    rcases hv with rfl | rfl | rfl
    · cases hitem
    · cases hitem
      refine ⟨[JsonDict.ofList [("ArchStdEvent", ['n'])]], rfl, ?_⟩
      intro jd hjd
      obtain rfl := List.mem_singleton.mp hjd
      have hsome : (entryRecords (List.map Char.toLower) (fun _ => .error .keyError)
          (ownEntries (List.map Char.toLower) (fun _ => .error .keyError) twoArchsFiles
            definesOwnEvent "s.json".toList) (getTopic "e.json".toList)
          (JsonDict.ofList [("ArchStdEvent", ['n'])])).isSome := by decide
      obtain ⟨records, hrecords⟩ := Option.isSome_iff_exists.mp hsome
      refine ⟨records, ⟨"s.json".toList, by decide, by decide⟩, ?_⟩
      intro name hname _
      obtain rfl := List.mem_singleton.mp hname
      exact hrecords
    · exact absurd (.inl rfl) hlevel

/-- It comes to the same whatever is processed before it. -/
theorem archIndependent_definesOwnEvent : ArchIndependent "all".toList (List.map Char.toLower)
    (fun _ => .error .keyError) twoArchsFiles definesOwnEvent := by
  refine (archIndependent_iff ?_ ?_ ?_ ?_ ?_).mpr (.inr selfContained_definesOwnEvent)
  · exact .cons (by decide) .nil (.cons (by decide) (.cons (by decide) .nil .nil) .nil)
  · intro text n h
    cases h
  · intro s
    rw [List.map_map]
    exact List.map_congr_left fun c _ => toLower_toLower c
  · intro s hs
    simpa using hs
  · exact ⟨['a'], by decide, by decide⟩

end Condition

end PmuEvents.Jevents
