import PmuEvents.Jevents.ArchPass
set_option autoImplicit false

/-!
# The strings of an architecture over a dictionary

The architecture standard files and the walk as functions of the dictionary that the
architectures before leave: what a missing name means for it, what a larger dictionary
changes, and what becomes of it in a run.
-/

namespace PmuEvents.Jevents

open PmuEvents.Foundation PmuEvents.Metric

section Own

variable (lower : Text → Text) (parseMetric : Text → Except PyError Expr)
variable (files : JsonFiles) (arch : Text × List Entry)

/-- The files of an architecture are the same. -/
def SameFiles (files' : JsonFiles) : Prop :=
  ∀ path, files'.dicts (arch.1 :: path) = files.dicts (arch.1 :: path) ∧
    files'.groups (arch.1 :: path) = files.groups (arch.1 :: path)

/-- The entries that one architecture standard file makes in the dictionary. -/
def ownEntries (name : Text) : ArchStdEvents :=
  match loadJsonEvents lower parseMetric files (fun _ => none) [arch.1, name] [] with
  | .ok events => archStdEntries lower events
  | .error _ => fun _ => none

end Own

/-! ## Other listings -/

section Listings

variable {model : Text} {lower : Text → Text} {parseMetric : Text → Except PyError Expr}
variable {files : JsonFiles}

theorem mem_jsonNames {entries : List Entry} {name : Text} :
    name ∈ jsonNames entries ↔ .file name ∈ entries ∧ isJson name := by
  unfold jsonNames
  rw [List.mem_filterMap]
  constructor
  · rintro ⟨item, hitem, heq⟩
    cases item with
    | dir _ _ => cases heq
    | file name' =>
      simp only [Option.ite_none_right_eq_some, Option.some.injEq] at heq
      obtain ⟨hjson, rfl⟩ := heq
      exact ⟨hitem, hjson⟩
  · rintro ⟨hitem, hjson⟩
    exact ⟨_, hitem, by simp [hjson]⟩

theorem Relisted.perm_jsonNames {entries entries' : List Entry} (h : Relisted entries entries') :
    (jsonNames entries).Perm (jsonNames entries') := by
  induction h with
  | nil => exact .nil
  | file name _ ih =>
    by_cases hjson : isJson name
    · simpa [jsonNames, hjson] using ih
    · simpa [jsonNames, hjson] using ih
  | dir name _ _ _ ih => exact ih
  | swap item item' items => exact List.Perm.filterMap _ (.swap item' item items)
  | trans _ _ ih ih' => exact ih.trans ih'

/-- Any of the architecture standard files may be listed first. -/
theorem exists_listed_first {entries : List Entry} {name : Text} (h : name ∈ jsonNames entries) :
    ∃ entries' names, Relisted entries entries' ∧ jsonNames entries' = name :: names := by
  obtain ⟨hitem, hjson⟩ := mem_jsonNames.mp h
  obtain ⟨pre, post, rfl⟩ := List.append_of_mem hitem
  refine ⟨.file name :: (pre ++ post), jsonNames (pre ++ post),
    .of_perm List.perm_middle, ?_⟩
  simp [jsonNames, hjson]

/-- Any of the architecture standard files may be listed last. -/
theorem exists_listed_last {entries : List Entry} {name : Text} (h : name ∈ jsonNames entries) :
    ∃ entries' names, Relisted entries entries' ∧ jsonNames entries' = names ++ [name] := by
  obtain ⟨hitem, hjson⟩ := mem_jsonNames.mp h
  obtain ⟨pre, post, rfl⟩ := List.append_of_mem hitem
  have hperm : (pre ++ .file name :: post).Perm (pre ++ post ++ [.file name]) :=
    List.perm_middle.trans (List.perm_append_singleton _ _).symm
  refine ⟨pre ++ post ++ [.file name], jsonNames (pre ++ post), .of_perm hperm, ?_⟩
  simp [jsonNames, hjson]

/-! ## The pass in terms of names and files -/

variable (lower parseMetric files) in
/-- What the given architecture standard files and the given visits come to. -/
def recordsWith (arch : Text) (names : List Text) (visits : List Visit) (d : ArchStdEvents) :
    Except PassError FileRecords := do
  let d ← names.foldlM (addArchStdFile lower parseMetric files arch) d
  let records ← visits.mapM (visitRecords lower parseMetric files d)
  return records.flatten

/-- The visits of directories come to nothing. -/
theorem mapM_visitRecords_filter (d : ArchStdEvents) (visits : List Visit) :
    (visits.mapM (visitRecords lower parseMetric files d)).map List.flatten =
      ((visits.filter Visit.isFile).mapM (visitRecords lower parseMetric files d)).map
        List.flatten := by
  induction visits with
  | nil => rfl
  | cons v visits ih =>
    cases hitem : v.item with
    | dir name entries =>
      have hfile : ¬ v.isFile := by simp [Visit.isFile, hitem, Entry.isDir]
      rw [List.filter_cons_of_neg hfile, ← ih, List.mapM_cons, visitRecords, hitem]
      cases visits.mapM (visitRecords lower parseMetric files d) <;> rfl
    | file name =>
      have hfile : v.isFile := by simp [Visit.isFile, hitem, Entry.isDir]
      rw [List.filter_cons_of_pos hfile, List.mapM_cons, List.mapM_cons]
      cases visitRecords lower parseMetric files d v with
      | error err => rfl
      | ok records =>
        cases hvisits : visits.mapM (visitRecords lower parseMetric files d) <;>
          cases hfiles : (visits.filter Visit.isFile).mapM
            (visitRecords lower parseMetric files d) <;>
          rw [hvisits, hfiles] at ih <;>
          simp_all [Except.map, bind, Except.bind, pure, Except.pure]

/-- The pass over an architecture, however it is listed. -/
theorem archRecords_eq {arch : Text × List Entry} {entries : List Entry}
    (hlisted : Relisted arch.2 entries) (hdistinct : DistinctNames arch.2) (d : ArchStdEvents) :
    archRecords model lower parseMetric files d (arch.1, entries) =
      recordsWith lower parseMetric files arch.1 (jsonNames entries)
        ((ftwModel model arch.1 [] arch.2).filter Visit.isFile) d := by
  unfold archRecords recordsWith
  refine congrArg _ (funext fun d' => ?_)
  rw [hlisted.filter_ftwModel model arch.1 hdistinct []]
  exact mapM_visitRecords_filter d' _

/-! ## Files of one architecture -/

theorem loadJsonEvents_sameFiles {arch : Text × List Entry} {files' : JsonFiles}
    (h : SameFiles files arch files') (d : ArchStdEvents) (path : List Text) (topic : Text) :
    loadJsonEvents lower parseMetric files' d (arch.1 :: path) topic =
      loadJsonEvents lower parseMetric files d (arch.1 :: path) topic := by
  unfold loadJsonEvents
  rw [(h path).1]

theorem recordsWith_sameFiles {arch : Text × List Entry} {files' : JsonFiles}
    (h : SameFiles files arch files') (names : List Text) {visits : List Visit}
    (harch : ∀ v ∈ visits, v.arch = arch.1) (d : ArchStdEvents) :
    recordsWith lower parseMetric files' arch.1 names visits d =
      recordsWith lower parseMetric files arch.1 names visits d := by
  have hstd : addArchStdFile lower parseMetric files' arch.1 =
      addArchStdFile lower parseMetric files arch.1 := by
    funext d name
    rw [addArchStdFile, addArchStdFile, loadJsonEvents_sameFiles h]
  have hvisit : ∀ d, ∀ v ∈ visits, visitRecords lower parseMetric files' d v =
      visitRecords lower parseMetric files d v := by
    intro d v hv
    have hpath : v.path = arch.1 :: (v.parents ++ [v.item.name]) := by
      rw [Visit.path, harch v hv, List.cons_append]
    simp only [visitRecords, hpath, loadJsonEvents_sameFiles h, (h _).2]
  have hvisits : ∀ d, visits.mapM (visitRecords lower parseMetric files' d) =
      visits.mapM (visitRecords lower parseMetric files d) := by
    intro d
    rcases exceptMapM_eq_or (B := fun _ => False) (l := visits) fun v hv =>
      Or.inl (hvisit d v hv) with hsame | ⟨_, hfalse, -⟩
    · exact hsame
    · exact hfalse.elim
  simp only [recordsWith, hstd, hvisits]

/-! ## Missing names -/

theorem Outcome.of_eq_missing_iff {x : Except PassError FileRecords} {n : Text} :
    Outcome.of x = .missing n ↔ x = .error (.missing n) := by
  unfold Outcome.of PassError.missing
  split <;> simp_all

theorem Outcome.of_eq_records_iff {x : Except PassError FileRecords} {records : FileRecords} :
    Outcome.of x = .records records ↔ x = .ok records := by
  unfold Outcome.of
  split <;> simp_all

section Parse

variable (hparse : ∀ text, NamesFound (parseMetric text))
include hparse

/-- A visit that names a missing event names one. -/
theorem missing_of_visitRecords {d : ArchStdEvents} {v : Visit} {n : Text}
    (h : visitRecords lower parseMetric files d v = .error (.missing n)) :
    n ≠ [] ∧ d (lower n) = none := by
  unfold visitRecords at h
  split at h
  · cases h
  · split at h
    · cases h
    · split at h
      · split at h
        · cases h
        · split at h <;> cases h
      · cases hload : loadJsonEvents lower parseMetric files d v.path (getTopic _) with
        | ok events =>
          rw [hload] at h
          cases h
        | error err =>
          rw [hload] at h
          obtain rfl := Except.error.inj h
          exact missing_of_loadJsonEvents hparse hload

/-- A missing name was missing from the start. -/
theorem missing_of_addArchStdFiles {arch : Text} {names : List Text} {d : ArchStdEvents} {n : Text}
    (h : names.foldlM (addArchStdFile lower parseMetric files arch) d = .error (.missing n)) :
    n ≠ [] ∧ d (lower n) = none := by
  induction names generalizing d with
  | nil => cases h
  | cons name names ih =>
    rw [List.foldlM_cons, addArchStdFile] at h
    cases hload : loadJsonEvents lower parseMetric files d [arch, name] [] with
    | error err =>
      rw [hload] at h
      obtain rfl := Except.error.inj h
      exact missing_of_loadJsonEvents hparse hload
    | ok events =>
      rw [hload] at h
      obtain ⟨hn, hmissing⟩ := ih h
      exact ⟨hn, (Option.or_eq_none_iff.mp hmissing).2⟩

theorem missing_of_recordsWith {arch : Text} {names : List Text} {visits : List Visit}
    {d : ArchStdEvents} {n : Text}
    (h : recordsWith lower parseMetric files arch names visits d = .error (.missing n)) :
    n ≠ [] ∧ d (lower n) = none := by
  unfold recordsWith at h
  cases hstd : names.foldlM (addArchStdFile lower parseMetric files arch) d with
  | error err =>
    rw [hstd] at h
    obtain rfl := Except.error.inj h
    exact missing_of_addArchStdFiles hparse hstd
  | ok d' =>
    rw [hstd] at h
    have hkept : (d (lower n)).isSome → (d' (lower n)).isSome := by
      refine foldlM_keeps (P := fun e => (d (lower n)).isSome → (e (lower n)).isSome) ?_ hstd id
      intro e name e' _ hstep he hd
      rw [addArchStdFile] at hstep
      cases hload : loadJsonEvents lower parseMetric files e [arch, name] [] with
      | error err =>
        rw [hload] at hstep
        cases hstep
      | ok events =>
        rw [hload] at hstep
        obtain rfl := Except.ok.inj hstep
        change ((archStdEntries lower events (lower n)).or (e (lower n))).isSome
        rw [Option.isSome_or, he hd, Bool.or_true]
    cases hvisits : visits.mapM (visitRecords lower parseMetric files d') with
    | ok records =>
      simp only [bind, Except.bind, hvisits] at h
      cases h
    | error err =>
      simp only [bind, Except.bind, hvisits] at h
      obtain rfl := Except.error.inj h
      obtain ⟨v, -, hv⟩ := exists_of_exceptMapM_eq_error hvisits
      obtain ⟨hn, hmissing⟩ := missing_of_visitRecords hparse hv
      refine ⟨hn, ?_⟩
      by_contra hd
      have hsome := hkept (Option.isSome_iff_ne_none.mpr hd)
      rw [hmissing] at hsome
      cases hsome

variable (lower files) in
/-- Over a larger dictionary the files come to a larger one, unless a name was missing. -/
theorem foldlM_addArchStdFile_mono (arch : Text) (names : List Text) {d e : ArchStdEvents}
    (hbelow : Below d e) :
    (∃ n, names.foldlM (addArchStdFile lower parseMetric files arch) d = .error (.missing n)) ∨
    (∃ err, names.foldlM (addArchStdFile lower parseMetric files arch) d = .error err ∧
      names.foldlM (addArchStdFile lower parseMetric files arch) e = .error err) ∨
    ∃ d' e', names.foldlM (addArchStdFile lower parseMetric files arch) d = .ok d' ∧
      names.foldlM (addArchStdFile lower parseMetric files arch) e = .ok e' ∧ Below d' e' := by
  induction names generalizing d e with
  | nil => exact .inr (.inr ⟨d, e, rfl, rfl, hbelow⟩)
  | cons name names ih =>
    simp only [List.foldlM_cons, addArchStdFile]
    rcases loadJsonEvents_mono lower files hparse hbelow [arch, name] [] with hsame | ⟨n, hmissing⟩
    · rw [hsame]
      cases loadJsonEvents lower parseMetric files d [arch, name] [] with
      | error err => exact .inr (.inl ⟨err, rfl, rfl⟩)
      | ok events => exact ih (hbelow.overlay _)
    · rw [hmissing]
      exact .inl ⟨n, rfl⟩

theorem visitRecords_mono {d e : ArchStdEvents} (hbelow : Below d e) (v : Visit) :
    visitRecords lower parseMetric files e v = visitRecords lower parseMetric files d v ∨
      ∃ n, visitRecords lower parseMetric files d v = .error (.missing n) := by
  unfold visitRecords
  split
  · exact .inl rfl
  · rename_i name hitem
    rcases loadJsonEvents_mono lower files hparse hbelow v.path (getTopic name) with
      hsame | ⟨n, hmissing⟩
    · exact .inl (by rw [hsame])
    · split
      · exact .inl rfl
      · split
        · exact .inl rfl
        · exact .inr ⟨n, by rw [hmissing]; rfl⟩

/-- What an architecture comes to is the same over a larger dictionary, unless a name was
missing. -/
theorem recordsWith_mono {arch : Text} (names : List Text) (visits : List Visit)
    {d e : ArchStdEvents} (hbelow : Below d e) :
    recordsWith lower parseMetric files arch names visits e =
        recordsWith lower parseMetric files arch names visits d ∨
      ∃ n, recordsWith lower parseMetric files arch names visits d = .error (.missing n) := by
  unfold recordsWith
  rcases foldlM_addArchStdFile_mono lower files hparse arch names hbelow with
    ⟨n, hn⟩ | ⟨err, hd, he⟩ | ⟨d', e', hd, he, hbelow'⟩
  · exact .inr ⟨n, by rw [hn]; rfl⟩
  · exact .inl (by rw [hd, he])
  · rw [hd, he]
    rcases exceptMapM_eq_or (B := fun err => ∃ n, err = PassError.missing n) (l := visits)
      (f := visitRecords lower parseMetric files d') (g := visitRecords lower parseMetric files e')
      fun v _ => (visitRecords_mono hparse hbelow' v).imp id
        fun ⟨n, hn⟩ => ⟨_, ⟨n, rfl⟩, hn⟩ with hsame | ⟨_, ⟨n, rfl⟩, hmissing⟩
    · left
      simp only [bind, Except.bind, hsame]
    · right
      refine ⟨n, ?_⟩
      simp only [bind, Except.bind, hmissing]

/-- Files that need no others come to the same dictionary over any other. -/
theorem foldlM_addArchStdFile {arch : Text × List Entry} {names : List Text}
    (hload : ∀ name ∈ names, ∃ events,
      loadJsonEvents lower parseMetric files (fun _ => none) [arch.1, name] [] = .ok events)
    (d : ArchStdEvents) :
    names.foldlM (addArchStdFile lower parseMetric files arch.1) d =
      .ok (overlayAll d (names.map (ownEntries lower parseMetric files arch))) := by
  induction names generalizing d with
  | nil => rfl
  | cons name names ih =>
    obtain ⟨⟨events, hevents⟩, hrest⟩ := List.forall_mem_cons.mp hload
    have hstep : addArchStdFile lower parseMetric files arch.1 d name =
        .ok (overlay d (ownEntries lower parseMetric files arch name)) := by
      rcases loadJsonEvents_mono lower files hparse (Below.of_none d) [arch.1, name] [] with
        hsame | ⟨n, hmissing⟩
      · rw [addArchStdFile, ownEntries, hsame, hevents]
        rfl
      · rw [hevents] at hmissing
        cases hmissing
    rw [List.foldlM_cons, hstep]
    exact ih hrest _

end Parse

/-! ## Runs -/

section Runs

variable {arch : Text × List Entry} (hdistinct : DistinctNames arch.2)
include hdistinct

theorem nodup_jsonNames : (jsonNames arch.2).Nodup := by
  have hsub : ∀ entries : List Entry, (jsonNames entries).Sublist (entries.map Entry.name) := by
    intro entries
    induction entries with
    | nil => exact .slnil
    | cons item entries ih =>
      cases item with
      | dir name below => exact .cons _ ih
      | file name =>
        by_cases hjson : isJson name
        · have hnames : jsonNames (.file name :: entries) = name :: jsonNames entries := by
            simp [jsonNames, hjson]
          rw [hnames]
          exact .cons_cons _ ih
        · have hnames : jsonNames (.file name :: entries) = jsonNames entries := by
            simp [jsonNames, hjson]
          rw [hnames]
          exact .cons _ ih
  exact (hsub arch.2).nodup (nodup_names hdistinct)

/-- What comes of an architecture, in terms of the dictionary the others leave. -/
theorem archOutcome_eq_recordsWith {files' : JsonFiles} (hfiles : SameFiles files arch files')
    {before : List (Text × List Entry)} {s : Generator} {entries : List Entry}
    (hsorted : (before.map Prod.fst ++ [arch.1]).Pairwise (· < ·))
    (hbefore : firstPass model lower parseMetric files' before = .ok s)
    (hlisted : Relisted arch.2 entries) :
    archOutcome model lower parseMetric files' s (arch.1, entries) =
      .of (recordsWith lower parseMetric files arch.1 (jsonNames entries)
        ((ftwModel model arch.1 [] arch.2).filter Visit.isFile) s.archStdEvents) := by
  have hnew : arch.1 ∉ before.map Prod.fst := by
    intro hmem
    obtain ⟨-, -, hlt⟩ := List.pairwise_append.mp hsorted
    exact lt_irrefl _ (hlt arch.1 hmem arch.1 (List.mem_singleton_self _))
  have hnodup : (jsonNames entries).Nodup :=
    hlisted.perm_jsonNames.nodup_iff.mp (nodup_jsonNames hdistinct)
  have hfresh : ∀ path topic, s.cache ((arch.1, entries).1 :: path) topic = none :=
    fun path topic => cachedFrom_firstPass hbefore arch.1 path topic hnew
  rw [archOutcome_eq hfresh hnodup, archRecords_eq hlisted hdistinct]
  have harch : ∀ v ∈ (ftwModel model arch.1 [] arch.2).filter Visit.isFile, v.arch = arch.1 :=
    fun v hv => arch_of_mem_ftwModel (List.mem_filter.mp hv).1
  rw [recordsWith_sameFiles hfiles _ harch]

/-- What comes of an architecture on its own. -/
theorem archOutcome_initial {entries : List Entry} (hlisted : Relisted arch.2 entries) :
    archOutcome model lower parseMetric files .initial (arch.1, entries) =
      .of (recordsWith lower parseMetric files arch.1 (jsonNames entries)
        ((ftwModel model arch.1 [] arch.2).filter Visit.isFile) fun _ => none) :=
  archOutcome_eq_recordsWith hdistinct (fun _ => ⟨rfl, rfl⟩)
    (List.pairwise_singleton _ arch.1) (rfl : firstPass _ _ _ _ [] = .ok _) hlisted

end Runs

end Listings

end PmuEvents.Jevents
