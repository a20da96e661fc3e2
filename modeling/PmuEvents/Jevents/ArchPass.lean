import PmuEvents.Jevents.ArchStd
import PmuEvents.Jevents.PassesAgree
import PmuEvents.Jevents.Relisted
import PmuEvents.Jevents.WalkOrder
set_option autoImplicit false

/-!
# What the first pass makes of an architecture

The strings of an architecture's files, as the first pass reads them, depend on what
came before only through the dictionary of architecture standard events: its own
files are not in the cache yet.
-/

namespace PmuEvents.Jevents

open PmuEvents.Foundation PmuEvents.Metric

/-- The strings of the entries of the files of events, by path. -/
abbrev FileRecords := List (List Text × List (List (Text × Bool)))

/-- What comes of an architecture: its strings, a missing architecture standard event,
or another failure. -/
inductive Outcome where
  | records (files : FileRecords)
  | missing (n : Text)
  | failure
  deriving DecidableEq

/-- The outcome of a computation of strings. -/
def Outcome.of : Except PassError FileRecords → Outcome
  | .ok files => .records files
  | .error (.load (.argumentTypeError n)) => .missing n
  | .error _ => .failure

/-- The strings of the file of a visit, as the cache has its events. -/
def cachedRecords (s : Generator) (v : Visit) : FileRecords :=
  match fileRead v with
  | none => []
  | some (path, topic) => [(path, ((s.cache path topic).getD []).map eventCalls)]

section Pass

variable (model : Text) (lower : Text → Text) (parseMetric : Text → Except PyError Expr)
variable (files : JsonFiles)

/-- What comes of an architecture that is processed after the globals have become `s`. -/
def archOutcome (s : Generator) (arch : Text × List Entry) : Outcome :=
  .of ((firstPassArch model lower parseMetric files s arch).map fun s' =>
    (ftwModel model arch.1 [] arch.2).flatMap (cachedRecords s'))

/-! ## In terms of the dictionary -/

/-- The JSON files among the entries of a directory. -/
def jsonNames (entries : List Entry) : List Text :=
  entries.filterMap fun item =>
    match item with
    | .file name => if isJson name then some name else none
    | .dir _ _ => none

/-- The entries an event makes in the dictionary. -/
def archStdEntry (event : JsonEvent) : ArchStdEvents := fun key =>
  if truthy event.metric_name ∧ key = lower (event.metric_name.getD []) then some event
  else if truthy event.name ∧ key = lower (event.name.getD []) then some event
  else none

/-- The entries the events of a file make. -/
def archStdEntries (events : List JsonEvent) : ArchStdEvents :=
  overlayAll (fun _ => none) (events.map (archStdEntry lower))

/-- An architecture standard file in terms of the dictionary. -/
def addArchStdFile (arch : Text) (d : ArchStdEvents) (name : Text) :
    Except PassError ArchStdEvents :=
  (loadJsonEvents lower parseMetric files d [arch, name] []).map fun events =>
    overlay d (archStdEntries lower events)

/-- A visit in terms of the dictionary. -/
def visitRecords (d : ArchStdEvents) (v : Visit) : Except PassError FileRecords :=
  match v.item with
  | .dir _ _ => .ok []
  | .file name =>
    if ¬ onLevel v ∨ ¬ isJson name then .ok []
    else if isMetricgroups name then
      match files.groups v.path with
      | none => .error .unreadable
      | some groups => if ∀ group ∈ groups, 1 < group.1.length then .ok [] else .error .assertion
    else
      (loadJsonEvents lower parseMetric files d v.path (getTopic name)).map fun events =>
        [(v.path, events.map eventCalls)]

/-- The first pass over an architecture in terms of the dictionary. -/
def archRecords (d : ArchStdEvents) (arch : Text × List Entry) : Except PassError FileRecords := do
  let d ← (jsonNames arch.2).foldlM (addArchStdFile lower parseMetric files arch.1) d
  let records ← (ftwModel model arch.1 [] arch.2).mapM (visitRecords lower parseMetric files d)
  return records.flatten

variable {model lower parseMetric files}

/-! ## The architecture standard files -/

theorem setArchStd_archStdEvents (s : Generator) (key : Text) (event : JsonEvent) :
    (s.setArchStd key event).archStdEvents =
      overlay s.archStdEvents fun key' => if key' = key then some event else none := by
  funext key'
  unfold Generator.setArchStd overlay
  by_cases hkey : key' = key
  · simp only [hkey, if_true, Option.some_or]
  · simp only [hkey, if_false, Option.none_or]

theorem addArchStd_archStdEvents (s : Generator) (event : JsonEvent) :
    (addArchStd lower s event).archStdEvents =
      overlay s.archStdEvents (archStdEntry lower event) := by
  funext key
  by_cases hname : truthy event.name
  · by_cases hmetric : truthy event.metric_name
    · simp only [addArchStd, hname, hmetric, if_true, setArchStd_archStdEvents, overlay,
        archStdEntry, true_and]
      split <;> rfl
    · simp [addArchStd, hname, hmetric, setArchStd_archStdEvents, overlay, archStdEntry]
  · by_cases hmetric : truthy event.metric_name
    · simp [addArchStd, hname, hmetric, setArchStd_archStdEvents, overlay, archStdEntry]
    · simp [addArchStd, hname, hmetric, overlay, archStdEntry]

theorem foldl_addArchStd_archStdEvents (events : List JsonEvent) (s : Generator) :
    (events.foldl (addArchStd lower) s).archStdEvents =
      overlay s.archStdEvents (archStdEntries lower events) := by
  have hfold : (events.foldl (addArchStd lower) s).archStdEvents =
      overlayAll s.archStdEvents (events.map (archStdEntry lower)) := by
    induction events generalizing s with
    | nil => rfl
    | cons event events ih =>
      rw [List.foldl_cons, ih, addArchStd_archStdEvents, List.map_cons]
      rfl
  rw [hfold]
  funext key
  exact overlayAll_eq _ _ key

/-- The architecture standard files do to the dictionary what their names say, if none
of them was read before. -/
theorem preprocessArchStd_archStdEvents {arch : Text} {entries : List Entry} {s : Generator}
    (hnodup : (jsonNames entries).Nodup)
    (hfresh : ∀ name ∈ jsonNames entries, s.cache [arch, name] [] = none) :
    (entries.foldlM (preprocessArchStdFile lower parseMetric files arch) s).map
        Generator.archStdEvents =
      (jsonNames entries).foldlM (addArchStdFile lower parseMetric files arch)
        s.archStdEvents := by
  induction entries generalizing s with
  | nil => rfl
  | cons item entries ih =>
    rw [List.foldlM_cons]
    cases item with
    | dir name below => exact ih hnodup hfresh
    | file name =>
      by_cases hjson : isJson name
      · have hnames : jsonNames (.file name :: entries) = name :: jsonNames entries := by
          simp [jsonNames, hjson]
        rw [hnames] at hnodup hfresh ⊢
        obtain ⟨hname, hnodup⟩ := List.nodup_cons.mp hnodup
        obtain ⟨hread, hfresh⟩ := List.forall_mem_cons.mp hfresh
        simp only [List.foldlM_cons, preprocessArchStdFile, hjson, if_true, readCached, hread,
          addArchStdFile]
        cases hload : loadJsonEvents lower parseMetric files s.archStdEvents [arch, name] [] with
        | error err => rfl
        | ok events =>
          have hstate : ∀ s' : Generator, s'.archStdEvents =
              overlay s.archStdEvents (archStdEntries lower events) →
              (∀ path topic, path ≠ [arch, name] → s'.cache path topic = s.cache path topic) →
              (entries.foldlM (preprocessArchStdFile lower parseMetric files arch) s').map
                  Generator.archStdEvents =
                (jsonNames entries).foldlM (addArchStdFile lower parseMetric files arch)
                  (overlay s.archStdEvents (archStdEntries lower events)) := by
            intro s' hstd hcache
            rw [← hstd]
            refine ih hnodup fun name' hmem => ?_
            rw [hcache]
            · exact hfresh name' hmem
            · rintro h
              obtain ⟨rfl, -⟩ := List.cons.inj (List.cons.inj h).2
              exact hname hmem
          refine hstate _ (foldl_addArchStd_archStdEvents events _) ?_
          intro path topic hpath
          rw [(foldl_addArchStd_spec lower events _).1]
          simp [hpath]
      · have hnames : jsonNames (.file name :: entries) = jsonNames entries := by
          simp [jsonNames, hjson]
        rw [hnames] at hnodup hfresh ⊢
        simp only [preprocessArchStdFile, hjson]
        exact ih hnodup hfresh

/-! ## The cache -/

/-- A read leaves the rest of the cache alone. -/
theorem readCached_cache {s s' : Generator} {path : List Text} {topic : Text}
    {events : List JsonEvent}
    (h : readCached lower parseMetric files s path topic = .ok (events, s'))
    {path' : List Text} (hpath : path' ≠ path) (topic' : Text) :
    s'.cache path' topic' = s.cache path' topic' := by
  unfold readCached at h
  split at h
  · obtain ⟨-, rfl⟩ := Prod.mk.inj (Except.ok.inj h)
    rfl
  · obtain ⟨loaded, -, h⟩ := except_bind_eq_ok.mp h
    obtain ⟨-, rfl⟩ := Prod.mk.inj (Except.ok.inj h)
    simp [hpath]

theorem preprocessArchStdFile_cache {s s' : Generator} {arch : Text} {item : Entry}
    (h : preprocessArchStdFile lower parseMetric files arch s item = .ok s')
    {path : List Text} (hpath : ∀ name, path ≠ [arch, name]) (topic : Text) :
    s'.cache path topic = s.cache path topic := by
  unfold preprocessArchStdFile at h
  split at h
  · obtain rfl := Except.ok.inj h
    rfl
  · split at h
    · obtain ⟨⟨events, s₁⟩, hread, h⟩ := except_bind_eq_ok.mp h
      obtain rfl := Except.ok.inj h
      rw [(foldl_addArchStd_spec lower events s₁).1, readCached_cache hread (hpath _) topic]
    · obtain rfl := Except.ok.inj h
      rfl

theorem addMetricgroup_cache {s s' : Generator} {group : Text × Text}
    (h : addMetricgroup s group = .ok s') :
    s'.cache = s.cache ∧ s'.archStdEvents = s.archStdEvents := by
  unfold addMetricgroup at h
  split at h
  · obtain rfl := Except.ok.inj h
    exact ⟨rfl, rfl⟩
  · cases h

/-- The metric groups of a file are added if all their names are long enough. -/
theorem foldlM_addMetricgroup (groups : List (Text × Text)) (s : Generator) :
    (∃ s', groups.foldlM addMetricgroup s = .ok s') ∧ (∀ group ∈ groups, 1 < group.1.length) ∨
      groups.foldlM addMetricgroup s = .error .assertion ∧
        ¬ ∀ group ∈ groups, 1 < group.1.length := by
  induction groups generalizing s with
  | nil => exact .inl ⟨⟨s, rfl⟩, by simp⟩
  | cons group groups ih =>
    rw [List.foldlM_cons, List.forall_mem_cons]
    by_cases hlength : 1 < group.1.length
    · simp only [addMetricgroup, hlength, if_true, true_and]
      exact ih _
    · simp only [addMetricgroup, hlength, if_false, false_and, not_false_eq_true, and_true]
      exact .inr rfl

/-- The files of an architecture that are in the cache were loaded with the dictionary,
but for the architecture standard files. -/
structure LoadedWith (lower : Text → Text) (parseMetric : Text → Except PyError Expr)
    (files : JsonFiles) (arch : Text) (d : ArchStdEvents) (s : Generator) : Prop where
  dict : s.archStdEvents = d
  cache : ∀ v : Visit, v.arch = arch → onLevel v → ∀ topic events,
    s.cache v.path topic = some events →
      loadJsonEvents lower parseMetric files d v.path topic = .ok events

section Visits

variable {arch : Text} {d : ArchStdEvents} {s s' : Generator} {v : Visit}

theorem readCached_loadedWith (h : LoadedWith lower parseMetric files arch d s)
    (harch : v.arch = arch) (hlevel : onLevel v) (topic : Text) :
    (readCached lower parseMetric files s v.path topic).map Prod.fst =
      loadJsonEvents lower parseMetric files d v.path topic := by
  unfold readCached
  split
  · rename_i events hcache
    exact (h.cache v harch hlevel topic events hcache).symm
  · rw [h.dict]
    cases loadJsonEvents lower parseMetric files d v.path topic <;> rfl

theorem LoadedWith.read (h : LoadedWith lower parseMetric files arch d s) {topic : Text}
    {events : List JsonEvent}
    (hread : readCached lower parseMetric files s v.path topic = .ok (events, s')) :
    LoadedWith lower parseMetric files arch d s' := by
  unfold readCached at hread
  split at hread
  · obtain ⟨-, rfl⟩ := Prod.mk.inj (Except.ok.inj hread)
    exact h
  · obtain ⟨loaded, hload, hread⟩ := except_bind_eq_ok.mp hread
    obtain ⟨-, rfl⟩ := Prod.mk.inj (Except.ok.inj hread)
    refine ⟨h.dict, ?_⟩
    intro v' harch' hlevel' topic' events' hcache
    simp only at hcache
    split at hcache
    · rename_i heq
      obtain rfl := Option.some.inj hcache
      rw [heq.1, heq.2, ← h.dict]
      exact hload
    · exact h.cache v' harch' hlevel' topic' events' hcache

/-- A call of the action keeps what is loaded with the dictionary. -/
theorem LoadedWith.step (h : LoadedWith lower parseMetric files arch d s)
    (hstep : preprocessOneFile lower parseMetric files s v = .ok s') :
    LoadedWith lower parseMetric files arch d s' := by
  unfold preprocessOneFile at hstep
  split at hstep
  · obtain rfl := Except.ok.inj hstep
    exact h
  · split at hstep
    · obtain rfl := Except.ok.inj hstep
      exact h
    · split at hstep
      · obtain rfl := Except.ok.inj hstep
        exact h
      · split at hstep
        · split at hstep
          · cases hstep
          · refine foldlM_keeps (P := LoadedWith lower parseMetric files arch d) ?_ hstep h
            intro t group t' _ hgroup ht
            obtain ⟨hcache, hdict⟩ := addMetricgroup_cache hgroup
            exact ⟨hdict.trans ht.dict, by rw [hcache]; exact ht.cache⟩
        · obtain ⟨⟨events, s₁⟩, hread, hstep⟩ := except_bind_eq_ok.mp hstep
          obtain rfl := Except.ok.inj hstep
          exact ⟨(h.read hread).dict, (h.read hread).cache⟩

/-- What a call of the action makes of its visit. -/
theorem preprocessOneFile_records (h : LoadedWith lower parseMetric files arch d s)
    (harch : v.arch = arch) :
    (preprocessOneFile lower parseMetric files s v).map (fun s' => cachedRecords s' v) =
      visitRecords lower parseMetric files d v := by
  cases hitem : v.item with
  | dir name entries =>
    simp [preprocessOneFile, visitRecords, Except.map, cachedRecords, fileRead, hitem]
  | file name =>
    by_cases hlevel : onLevel v
    · by_cases hjson : isJson name
      · by_cases hgroups : isMetricgroups name
        · have hnone : ∀ t, cachedRecords t v = [] := fun t => by
            simp [cachedRecords, fileRead, hitem, hgroups]
          simp only [preprocessOneFile, visitRecords, hitem, hlevel, hjson, hgroups, if_true,
            not_true_eq_false, or_self, if_false]
          cases files.groups v.path with
          | none => rfl
          | some groups =>
            rcases foldlM_addMetricgroup groups s with ⟨⟨t, ht⟩, hall⟩ | ⟨herr, hall⟩
            · simp only [ht, Except.map, hnone]
              rw [if_pos hall]
            · simp only [herr, Except.map]
              rw [if_neg hall]
        · have hread : ∀ t, cachedRecords t v =
              [(v.path, ((t.cache v.path (getTopic name)).getD []).map eventCalls)] := fun t => by
            simp [cachedRecords, fileRead, hitem, hlevel, hjson, hgroups]
          simp only [preprocessOneFile, visitRecords, hitem, hlevel, hjson, hgroups,
            not_true_eq_false, or_self, if_false, Bool.false_eq_true,
            ← readCached_loadedWith h harch hlevel (getTopic name)]
          cases hcached : readCached lower parseMetric files s v.path (getTopic name) with
          | error err => rfl
          | ok r =>
            simp only [bind, Except.bind, Except.map, pure, Except.pure, hread,
              (readCached_spec hcached).1, Option.getD_some]
      · simp [preprocessOneFile, visitRecords, hlevel, hjson, Except.map, cachedRecords, fileRead,
          hitem]
    · simp [preprocessOneFile, visitRecords, hlevel, Except.map, cachedRecords, fileRead, hitem]

end Visits

/-! ## The walk -/

/-- What was read stays what it is. -/
theorem cachedRecords_of_extends {s s' : Generator} {v : Visit} (hext : Extends s s')
    (hadded : FileAdded v s) : cachedRecords s' v = cachedRecords s v := by
  unfold cachedRecords
  split
  · rfl
  · rename_i path topic hread
    obtain ⟨events, hcache, -⟩ := hadded path topic hread
    rw [hcache, hext.cache path topic events hcache]

/-- The walk over an architecture computes what its visits say. -/
theorem foldlM_preprocessOneFile_records {arch : Text} {d : ArchStdEvents} {visits : List Visit}
    {s : Generator} (h : LoadedWith lower parseMetric files arch d s)
    (harch : ∀ v ∈ visits, v.arch = arch) :
    (visits.foldlM (preprocessOneFile lower parseMetric files) s).map
        (fun s' => visits.map (cachedRecords s')) =
      visits.mapM (visitRecords lower parseMetric files d) := by
  induction visits generalizing s with
  | nil => rfl
  | cons v visits ih =>
    obtain ⟨hv, hvisits⟩ := List.forall_mem_cons.mp harch
    rw [List.foldlM_cons, List.mapM_cons, ← preprocessOneFile_records h hv]
    cases hstep : preprocessOneFile lower parseMetric files s v with
    | error err => rfl
    | ok s₁ =>
      have hrest := ih (h.step hstep) hvisits
      have hadded : FileAdded v s₁ := (preprocessOneFile_spec hstep).2.2
      simp only [bind, Except.bind, Except.map] at hrest ⊢
      rw [← hrest]
      cases hrun : visits.foldlM (preprocessOneFile lower parseMetric files) s₁ with
      | error err => rfl
      | ok s' =>
        have hext : Extends s₁ s' := by
          refine foldlM_keeps (P := Extends s₁) ?_ hrun (Extends.refl s₁)
          intro t v' t' _ hstep' ht
          exact ht.trans (preprocessOneFile_spec hstep').1
        simp only [List.map_cons, cachedRecords_of_extends hext hadded]
        rfl

theorem mem_ftwModel {arch : Text} {parents : List Text} {entries : List Entry} {v : Visit} :
    v ∈ ftwModel model arch parents entries ↔
      ∃ item ∈ entries, v ∈ item.visitsModel model arch parents := by
  have hmap : visitsOfEntriesModel model arch parents entries =
      entries.map fun item => (item.name, item.visitsModel model arch parents) := by
    induction entries with
    | nil => rfl
    | cons item entries ih => rw [visitsOfEntriesModel, ih, List.map_cons]
  simp [ftwModel, inNameOrder, hmap, List.mem_flatMap, List.mem_insertionSort]

theorem arch_of_mem_visitsModel {arch : Text} {parents : List Text} {item : Entry} {v : Visit}
    (h : v ∈ item.visitsModel model arch parents) : v.arch = arch := by
  induction item using Entry.treeInduction generalizing parents with
  | file name =>
    rw [Entry.visitsModel, List.mem_singleton] at h
    rw [h]
  | dir name entries ih =>
    rw [Entry.visitsModel] at h
    split at h
    · cases h
    · rcases List.mem_cons.mp h with rfl | hbelow
      · rfl
      · obtain ⟨item, hitem, hv⟩ := mem_ftwModel.mp hbelow
        exact ih item hitem hv

theorem arch_of_mem_ftwModel {arch : Text} {parents : List Text} {entries : List Entry}
    {v : Visit} (h : v ∈ ftwModel model arch parents entries) : v.arch = arch := by
  obtain ⟨item, -, hv⟩ := mem_ftwModel.mp h
  exact arch_of_mem_visitsModel hv

/-! ## The whole first pass -/

/-- Only files of the given architectures are in the cache. -/
def CachedFrom (archs : List Text) (s : Generator) : Prop :=
  ∀ arch path topic, arch ∉ archs → s.cache (arch :: path) topic = none

theorem preprocessOneFile_cache {s s' : Generator} {v : Visit}
    (h : preprocessOneFile lower parseMetric files s v = .ok s') {path : List Text}
    (hpath : path ≠ v.path) (topic : Text) : s'.cache path topic = s.cache path topic := by
  unfold preprocessOneFile at h
  split at h
  · obtain rfl := Except.ok.inj h
    rfl
  · split at h
    · obtain rfl := Except.ok.inj h
      rfl
    · split at h
      · obtain rfl := Except.ok.inj h
        rfl
      · split at h
        · split at h
          · cases h
          · refine foldlM_keeps (P := fun t => t.cache path topic = s.cache path topic) ?_ h rfl
            intro t group t' _ hgroup ht
            rw [(addMetricgroup_cache hgroup).1, ht]
        · obtain ⟨⟨events, s₁⟩, hread, h⟩ := except_bind_eq_ok.mp h
          obtain rfl := Except.ok.inj h
          exact readCached_cache hread hpath topic

/-- The first pass over an architecture reads only its own files. -/
theorem firstPassArch_cache {s s' : Generator} {arch : Text × List Entry}
    (h : firstPassArch model lower parseMetric files s arch = .ok s') {other : Text}
    (hother : other ≠ arch.1) (path : List Text) (topic : Text) :
    s'.cache (other :: path) topic = s.cache (other :: path) topic := by
  obtain ⟨s₁, hstd, hwalk⟩ := except_bind_eq_ok.mp h
  have hstdKept : s₁.cache (other :: path) topic = s.cache (other :: path) topic := by
    refine foldlM_keeps
      (P := fun t => t.cache (other :: path) topic = s.cache (other :: path) topic) ?_ hstd rfl
    intro t item t' _ hstep ht
    rw [preprocessArchStdFile_cache hstep (fun name heq => hother (List.cons.inj heq).1), ht]
  refine foldlM_keeps
    (P := fun t => t.cache (other :: path) topic = s.cache (other :: path) topic) ?_ hwalk hstdKept
  intro t v t' hv hstep ht
  have hpath : other :: path ≠ v.path := by
    intro heq
    exact hother ((List.cons.inj heq).1.trans (arch_of_mem_ftwModel hv))
  rw [preprocessOneFile_cache hstep hpath, ht]

theorem cachedFrom_firstPass {archs : List (Text × List Entry)} {s : Generator}
    (h : firstPass model lower parseMetric files archs = .ok s) :
    CachedFrom (archs.map Prod.fst) s := by
  refine foldlM_keeps (P := CachedFrom (archs.map Prod.fst)) ?_ h (fun _ _ _ _ => rfl)
  intro t arch t' hmem hstep ht other path topic hother
  have hne : other ≠ arch.1 := by
    rintro rfl
    exact hother (List.mem_map_of_mem hmem)
  rw [firstPassArch_cache hstep hne, ht other path topic hother]

/-- What comes of an architecture none of whose files was read before. -/
theorem archOutcome_eq {s : Generator} {arch : Text × List Entry}
    (hfresh : ∀ path topic, s.cache (arch.1 :: path) topic = none)
    (hnodup : (jsonNames arch.2).Nodup) :
    archOutcome model lower parseMetric files s arch =
      .of (archRecords model lower parseMetric files s.archStdEvents arch) := by
  have hstd : (arch.2.foldlM (preprocessArchStdFile lower parseMetric files arch.1) s).map
        Generator.archStdEvents =
      (jsonNames arch.2).foldlM (addArchStdFile lower parseMetric files arch.1) s.archStdEvents :=
    preprocessArchStd_archStdEvents hnodup fun name _ => hfresh [name] []
  unfold archOutcome archRecords firstPassArch
  rw [← hstd]
  cases hrun : arch.2.foldlM (preprocessArchStdFile lower parseMetric files arch.1) s with
  | error err => rfl
  | ok s₁ =>
    have hloaded : LoadedWith lower parseMetric files arch.1 s₁.archStdEvents s₁ := by
      refine ⟨rfl, ?_⟩
      intro v harch hlevel topic events hcache
      have hpath : ∀ name, v.path ≠ [arch.1, name] := by
        intro name heq
        rw [Visit.path, List.cons_append] at heq
        have hlength := congrArg List.length (List.cons.inj heq).2
        rw [List.length_append, List.length_singleton, List.length_singleton] at hlength
        exact hlevel (.inl (by omega))
      have hsame : s₁.cache v.path topic = s.cache v.path topic := by
        refine foldlM_keeps (P := fun t => t.cache v.path topic = s.cache v.path topic) ?_ hrun rfl
        intro t item t' _ hstep ht
        rw [preprocessArchStdFile_cache hstep hpath, ht]
      rw [hsame, Visit.path, harch, List.cons_append, hfresh] at hcache
      cases hcache
    have hwalk := foldlM_preprocessOneFile_records hloaded
      fun v (hv : v ∈ ftwModel model arch.1 [] arch.2) => arch_of_mem_ftwModel hv
    simp only [bind, Except.bind, Except.map] at hwalk ⊢
    rw [← hwalk]
    cases (ftwModel model arch.1 [] arch.2).foldlM
      (preprocessOneFile lower parseMetric files) s₁ <;> rfl

end Pass

end PmuEvents.Jevents
