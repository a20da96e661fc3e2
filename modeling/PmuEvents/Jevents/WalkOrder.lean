import PmuEvents.Jevents.WalkTables
set_option autoImplicit false

/-!
# Which files land in their own tables

The walk in terms of the directory tree: after the call for a directory come the
calls for its entries in the order of their names, and every directory has a model
directory in it.  So a file lands in the table of its directory exactly when no
subdirectory comes before it and the directory is a model directory.
-/

namespace PmuEvents.Jevents

open PmuEvents.Foundation

/-! ## The order of the calls -/

/-- The entries of a directory, sorted by name. -/
def sortedEntries (entries : List Entry) : List Entry :=
  entries.insertionSort fun a b => a.name ≤ b.name

theorem mem_sortedEntries {entries : List Entry} {item : Entry} :
    item ∈ sortedEntries entries ↔ item ∈ entries := by
  rw [sortedEntries, List.mem_insertionSort]

/-- Induction over a directory tree. -/
@[elab_as_elim]
theorem Entry.treeInduction {motive : Entry → Prop} (file : ∀ name, motive (.file name))
    (dir : ∀ name entries, (∀ item ∈ entries, motive item) → motive (.dir name entries)) :
    ∀ item, motive item
  | .file name => file name
  | .dir name entries => dir name entries fun item _ => Entry.treeInduction file dir item

theorem visitsOfEntries_eq_map (arch : Text) (parents : List Text) (entries : List Entry) :
    visitsOfEntries arch parents entries =
      entries.map fun item => (item.name, item.visits arch parents) := by
  induction entries with
  | nil => rfl
  | cons item items ih => rw [visitsOfEntries, ih, List.map_cons]

theorem ftw_eq_flatMap (arch : Text) (parents : List Text) (entries : List Entry) :
    ftw arch parents entries = (sortedEntries entries).flatMap (Entry.visits arch parents) := by
  have hsort : (sortedEntries entries).map (fun item => (item.name, item.visits arch parents)) =
      (entries.map fun item => (item.name, item.visits arch parents)).insertionSort
        fun a b => a.1 ≤ b.1 :=
    List.map_insertionSort _ _ _ _ fun _ _ _ _ => Iff.rfl
  rw [ftw, inNameOrder, visitsOfEntries_eq_map, ← hsort, List.flatMap_map]

theorem visits_dir (arch : Text) (parents : List Text) (name : Text) (entries : List Entry) :
    (Entry.dir name entries).visits arch parents =
      ⟨arch, parents, .dir name entries⟩ :: ftw arch (parents ++ [name]) entries := by
  rw [Entry.visits, ftw]

theorem visits_file (arch : Text) (parents : List Text) (name : Text) :
    (Entry.file name).visits arch parents = [⟨arch, parents, .file name⟩] := by
  rw [Entry.visits]

/-- Where a list made of parts is cut at an element. -/
theorem flatMap_eq_append_cons {α β : Type} {f : α → List β} {l : List α} {pre post : List β}
    {b : β} (h : l.flatMap f = pre ++ b :: post) :
    ∃ before a after p q, l = before ++ a :: after ∧ f a = p ++ b :: q ∧
      pre = before.flatMap f ++ p ∧ post = q ++ after.flatMap f := by
  induction l generalizing pre with
  | nil => simp at h
  | cons a l ih =>
    rw [List.flatMap_cons, List.append_eq_append_iff] at h
    rcases h with ⟨pre', rfl, hrest⟩ | ⟨q, ha, hpost⟩
    · obtain ⟨before, a', after, p, q, rfl, ha', rfl, rfl⟩ := ih hrest
      exact ⟨a :: before, a', after, p, q, rfl, ha', by simp, rfl⟩
    · cases q with
      | nil =>
        obtain ⟨before, a', after, p, q, rfl, ha', hpre, rfl⟩ := @ih [] hpost.symm
        refine ⟨a :: before, a', after, p, q, rfl, ha', ?_, rfl⟩
        rw [List.flatMap_cons, List.append_assoc, ← hpre, ha, List.append_nil, List.append_nil]
      | cons b' q =>
        obtain ⟨rfl, rfl⟩ := List.cons.inj hpost
        exact ⟨[], a, l, pre, q, rfl, ha, rfl, rfl⟩

/-- After the call for a directory comes the walk over the directory. -/
def DirsWalked (visits : List Visit) : Prop :=
  ∀ pre v post name entries, visits = pre ++ v :: post → v.item = .dir name entries →
    ∃ rest, post = ftw v.arch (v.parents ++ [name]) entries ++ rest

theorem DirsWalked.flatMap {α : Type} {f : α → List Visit} {l : List α}
    (h : ∀ a ∈ l, DirsWalked (f a)) : DirsWalked (l.flatMap f) := by
  intro pre v post name entries hsplit hitem
  obtain ⟨before, a, after, p, q, rfl, ha, -, rfl⟩ := flatMap_eq_append_cons hsplit
  obtain ⟨rest, rfl⟩ := h a (by simp) p v q name entries ha hitem
  exact ⟨rest ++ after.flatMap f, List.append_assoc _ _ _⟩

theorem dirsWalked_visits (arch : Text) (parents : List Text) (item : Entry) :
    DirsWalked (item.visits arch parents) := by
  induction item using Entry.treeInduction generalizing parents with
  | file name =>
    intro pre v post name' entries hsplit hitem
    rw [visits_file, eq_comm, List.append_eq_singleton_iff] at hsplit
    rcases hsplit with ⟨-, hv⟩ | ⟨-, hv⟩
    · obtain ⟨rfl, -⟩ := List.cons.inj hv
      cases hitem
    · cases hv
  | dir name entries ih =>
    intro pre v post name' entries' hsplit hitem
    rw [visits_dir] at hsplit
    cases pre with
    | nil =>
      obtain ⟨rfl, rfl⟩ := List.cons.inj hsplit
      obtain ⟨rfl, rfl⟩ := Entry.dir.inj hitem
      exact ⟨[], (List.append_nil _).symm⟩
    | cons d pre =>
      have hbelow : DirsWalked (ftw arch (parents ++ [name]) entries) := by
        rw [ftw_eq_flatMap]
        exact .flatMap fun item hmem => ih item (mem_sortedEntries.mp hmem) _
      exact hbelow pre v post name' entries' (List.cons.inj hsplit).2 hitem

theorem dirsWalked_allVisits (archs : List (Text × List Entry)) : DirsWalked (allVisits archs) :=
  .flatMap fun arch _ => by
    rw [ftw_eq_flatMap]
    exact .flatMap fun item _ => dirsWalked_visits arch.1 [] item

/-- The call for a file comes after those for its directory and for the entries of the
directory that are sorted before the file. -/
def FileInDir (visits pre : List Visit) (v : Visit) (file : Text) : Prop :=
  ∃ pre' d post name entries before after, visits = pre' ++ d :: post ∧
    d.item = .dir name entries ∧ sortedEntries entries = before ++ .file file :: after ∧
    v = ⟨d.arch, d.parents ++ [name], .file file⟩ ∧
    pre = pre' ++ d :: before.flatMap (Entry.visits d.arch (d.parents ++ [name]))

theorem FileInDir.append {visits pre : List Visit} {v : Visit} {file : Text}
    (h : FileInDir visits pre v file) (s t : List Visit) :
    FileInDir (s ++ visits ++ t) (s ++ pre) v file := by
  obtain ⟨pre', d, post, name, entries, before, after, rfl, hd, hsorted, hv, rfl⟩ := h
  exact ⟨s ++ pre', d, post ++ t, name, entries, before, after, by simp, hd, hsorted, hv, by simp⟩

/-- A file that is met at or below an item is the item or is in a directory. -/
theorem fileInDir_visits {arch : Text} {parents : List Text} {item : Entry} {pre post : List Visit}
    {v : Visit} {file : Text} (hsplit : item.visits arch parents = pre ++ v :: post)
    (hfile : v.item = .file file) :
    (item = .file file ∧ v = ⟨arch, parents, .file file⟩ ∧ pre = []) ∨
      FileInDir (item.visits arch parents) pre v file := by
  induction item using Entry.treeInduction generalizing parents pre post with
  | file name =>
    rw [visits_file, eq_comm, List.append_eq_singleton_iff] at hsplit
    rcases hsplit with ⟨rfl, hv⟩ | ⟨-, hv⟩
    · obtain ⟨rfl, -⟩ := List.cons.inj hv
      obtain rfl := Entry.file.inj hfile
      exact .inl ⟨rfl, rfl, rfl⟩
    · cases hv
  | dir name entries ih =>
    rw [visits_dir] at hsplit ⊢
    cases pre with
    | nil =>
      obtain ⟨rfl, -⟩ := List.cons.inj hsplit
      cases hfile
    | cons d pre =>
      obtain ⟨rfl, hbelow⟩ := List.cons.inj hsplit
      rw [ftw_eq_flatMap] at hbelow ⊢
      obtain ⟨before, item, after, p, q, hsorted, hitem, rfl, -⟩ := flatMap_eq_append_cons hbelow
      have hmem : item ∈ entries := mem_sortedEntries.mp (by rw [hsorted]; simp)
      refine .inr ?_
      rcases ih item hmem hitem with ⟨rfl, rfl, rfl⟩ | hin
      · exact ⟨[], _, _, name, entries, before, after, rfl, rfl, hsorted, rfl, by simp⟩
      · have happend := hin.append (⟨arch, parents, .dir name entries⟩ ::
          before.flatMap (Entry.visits arch (parents ++ [name])))
          (after.flatMap (Entry.visits arch (parents ++ [name])))
        rw [hsorted, List.flatMap_append, List.flatMap_cons]
        simpa using happend

/-- Below the top level of the architectures every file is in a directory. -/
theorem fileInDir_allVisits {archs : List (Text × List Entry)} {pre post : List Visit} {v : Visit}
    {file : Text} (hsplit : allVisits archs = pre ++ v :: post) (hfile : v.item = .file file)
    (hparents : v.parents ≠ []) : FileInDir (allVisits archs) pre v file := by
  obtain ⟨before, arch, after, p, q, rfl, harch, rfl, -⟩ := flatMap_eq_append_cons hsplit
  rw [ftw_eq_flatMap] at harch
  obtain ⟨before', item, after', p', q', hsorted, hitem, rfl, -⟩ := flatMap_eq_append_cons harch
  rcases fileInDir_visits hitem hfile with ⟨-, rfl, -⟩ | hin
  · exact absurd rfl hparents
  · have happend := (hin.append (before'.flatMap (Entry.visits arch.1 []))
      (after'.flatMap (Entry.visits arch.1 []))).append (allVisits before) (allVisits after)
    have hvisits : allVisits (before ++ arch :: after) =
        allVisits before ++ (before'.flatMap (Entry.visits arch.1 []) ++ item.visits arch.1 [] ++
          after'.flatMap (Entry.visits arch.1 [])) ++ allVisits after := by
      rw [allVisits, List.flatMap_append, List.flatMap_cons, ftw_eq_flatMap, hsorted,
        List.flatMap_append, List.flatMap_cons, allVisits, allVisits]
      simp
    rw [hvisits]
    exact happend

/-! ## The model directory entered last -/

theorem lastModelDir_append (visits visits' : List Visit) :
    lastModelDir (visits ++ visits') = (lastModelDir visits').or (lastModelDir visits) := by
  rw [lastModelDir, List.filterMap_append, List.getLast?_append, lastModelDir, lastModelDir]

theorem lastModelDir_singleton (v : Visit) : lastModelDir [v] = modelDir v := by
  rw [lastModelDir]
  cases h : modelDir v <;> simp [h]

theorem lastModelDir_eq_none_iff {visits : List Visit} :
    lastModelDir visits = none ↔ ∀ v ∈ visits, modelDir v = none := by
  rw [lastModelDir, List.getLast?_eq_none_iff, List.filterMap_eq_nil_iff]

theorem mem_of_lastModelDir {visits : List Visit} {dir : List Text × Text}
    (h : lastModelDir visits = some dir) : ∃ v ∈ visits, modelDir v = some dir :=
  List.mem_filterMap.mp (List.mem_of_getLast? h)

theorem mem_ftw {arch : Text} {parents : List Text} {entries : List Entry} {v : Visit} :
    v ∈ ftw arch parents entries ↔ ∃ item ∈ entries, v ∈ item.visits arch parents := by
  simp only [ftw_eq_flatMap, List.mem_flatMap, mem_sortedEntries]

/-- Every directory has a model directory in it. -/
theorem exists_modelDir {item : Entry} (h : item.isDir = true) (arch : Text)
    (parents : List Text) : ∃ v ∈ item.visits arch parents, modelDir v ≠ none := by
  induction item using Entry.treeInduction generalizing parents with
  | file name => cases h
  | dir name entries ih =>
    rw [visits_dir]
    cases hleaf : isLeafDirIgnoringSys entries with
    | true =>
      refine ⟨_, List.mem_cons_self, ?_⟩
      simp [modelDir, hleaf]
    | false =>
      obtain ⟨item, hitem, hdir⟩ : ∃ item ∈ entries, item.isDir = true := by
        rw [isLeafDirIgnoringSys, List.all_eq_false] at hleaf
        obtain ⟨item, hitem, hsub⟩ := hleaf
        exact ⟨item, hitem, (Bool.and_eq_true_iff.mp (Bool.not_not_eq.mp hsub)).1⟩
      obtain ⟨v, hv, hmodel⟩ := ih item hitem hdir (parents ++ [name])
      exact ⟨v, List.mem_cons_of_mem _ (mem_ftw.mpr ⟨item, hitem, hv⟩), hmodel⟩

/-- What is met at or below an item is below the item's parents. -/
theorem parents_of_mem_visits {arch : Text} {parents : List Text} {item : Entry} {v : Visit}
    (h : v ∈ item.visits arch parents) : parents <+: v.parents := by
  induction item using Entry.treeInduction generalizing parents with
  | file name =>
    rw [visits_file] at h
    obtain rfl := List.mem_singleton.mp h
    exact List.prefix_refl _
  | dir name entries ih =>
    rw [visits_dir] at h
    rcases List.mem_cons.mp h with rfl | h
    · exact List.prefix_refl _
    · obtain ⟨item, hitem, hv⟩ := mem_ftw.mp h
      exact (List.prefix_append parents [name]).trans (ih item hitem hv)

theorem modelDir_eq_some {v : Visit} {dir : List Text × Text} (h : modelDir v = some dir) :
    dir.1 = v.parents := by
  unfold modelDir at h
  split at h
  · split at h
    · rw [← Option.some.inj h]
    · cases h
  · cases h

theorem length_fileNameToTableName (prefixText : Text) (parents : List Text) (dirname : Text) :
    (fileNameToTableName prefixText parents dirname).length =
      prefixText.length + ((parents ++ [dirname]).flatMap fun p => '_' :: p).length := by
  have hlength (s : Text) : (replaceChar '-' ['_'] s).length = s.length := by
    induction s with
    | nil => rfl
    | cons c s ih =>
      rw [replaceChar, List.flatMap_cons, List.length_append, List.length_cons, Nat.add_comm]
      refine congrArg₂ _ ih ?_
      split <;> rfl
  rw [fileNameToTableName, hlength, List.flatMap_append, List.append_assoc, List.length_append,
    List.flatMap_singleton]

/-- What is below a directory has longer table names. -/
theorem fileNameToTableName_ne_of_below (prefixText : Text) {parents : List Text} {name : Text}
    {dir : List Text × Text} (h : parents ++ [name] <+: dir.1) :
    fileNameToTableName prefixText dir.1 dir.2 ≠ fileNameToTableName prefixText parents name := by
  intro heq
  obtain ⟨below, hbelow⟩ := h
  have hlength := congrArg List.length heq
  rw [length_fileNameToTableName, length_fileNameToTableName, ← hbelow] at hlength
  simp only [List.flatMap_append, List.flatMap_singleton, List.length_append,
    List.length_cons] at hlength
  omega

/-- Which model directory the walk entered last before a file: one in the directories
that are sorted before the file, else the directory of the file, else one before it. -/
theorem lastModelDir_before_file (prefixText : Text) {pre : List Visit} {d : Visit} {name : Text}
    {entries before : List Entry} (hd : d.item = .dir name entries) :
    (lastModelDir (pre ++ d :: before.flatMap (Entry.visits d.arch (d.parents ++ [name])))).map
        (fun dir => fileNameToTableName prefixText dir.1 dir.2) =
          some (fileNameToTableName prefixText d.parents name) ↔
      (∀ item ∈ before, item.isDir = false) ∧
        (isLeafDirIgnoringSys entries = true ∨
          (lastModelDir pre).map (fun dir => fileNameToTableName prefixText dir.1 dir.2) =
            some (fileNameToTableName prefixText d.parents name)) := by
  rw [← List.singleton_append, ← List.append_assoc, lastModelDir_append]
  cases hlast : lastModelDir (before.flatMap (Entry.visits d.arch (d.parents ++ [name]))) with
  | some dir =>
    obtain ⟨v, hv, hmodel⟩ := mem_of_lastModelDir hlast
    obtain ⟨item, hitem, hv⟩ := List.mem_flatMap.mp hv
    have hne := fileNameToTableName_ne_of_below prefixText
      (modelDir_eq_some hmodel ▸ parents_of_mem_visits hv)
    constructor
    · intro heq
      exact absurd (Option.some.inj heq) hne
    · rintro ⟨hfiles, -⟩
      cases item with
      | dir name' entries' => cases hfiles _ hitem
      | file name' =>
        rw [visits_file, List.mem_singleton] at hv
        rw [hv] at hmodel
        cases hmodel
  | none =>
    rw [lastModelDir_eq_none_iff] at hlast
    have hfiles : ∀ item ∈ before, item.isDir = false := by
      intro item hitem
      by_contra hdir
      obtain ⟨v, hv, hmodel⟩ := exists_modelDir (Bool.eq_true_of_not_eq_false hdir) d.arch
        (d.parents ++ [name])
      exact hmodel (hlast v (List.mem_flatMap.mpr ⟨item, hitem, hv⟩))
    rw [Option.none_or, lastModelDir_append, iff_true_intro hfiles, true_and]
    have hself : modelDir d =
        if isLeafDirIgnoringSys entries then some (d.parents, name) else none := by
      rw [modelDir, hd]
    rw [lastModelDir_singleton, hself]
    cases isLeafDirIgnoringSys entries with
    | true => simp
    | false => simp

/-! ## Files in their own tables -/

variable (readJsonEvents : List Text → Text → List JsonEvent)

/-- A file with an event or a metric is read at a call of the walk. -/
def ReadsEvent (v : Visit) : Prop :=
  ∃ e ∈ fileEvents readJsonEvents v, hasName e.event ∨ hasMetricName e.event

/-- For every directory and every file in it with an event or a metric: the file is
sorted before all subdirectories, and the directory is a model directory, or else has
the table of the model directory entered last before it. -/
def FilesBeforeSubdirs (archs : List (Text × List Entry)) : Prop :=
  ∀ pre d post name entries, allVisits archs = pre ++ d :: post → d.item = .dir name entries →
    ∀ before file after, sortedEntries entries = before ++ .file file :: after →
      ReadsEvent readJsonEvents ⟨d.arch, d.parents ++ [name], .file file⟩ →
        (∀ item ∈ before, item.isDir = false) ∧
          (isLeafDirIgnoringSys entries = true ∨
            (lastModelDir pre).map
                (fun dir => fileNameToTableName "pmu_events_".toList dir.1 dir.2) =
              some (fileNameToTableName "pmu_events_".toList d.parents name))

theorem fileEvents_spec {v : Visit} {e : EventObject} (h : e ∈ fileEvents readJsonEvents v) :
    (∃ file, v.item = .file file) ∧ v.parents ≠ [] ∧ e.parents = v.parents := by
  unfold fileEvents at h
  cases hitem : v.item with
  | dir name entries =>
    rw [hitem] at h
    cases h
  | file file =>
    rw [hitem] at h
    dsimp only at h
    split at h
    · exact absurd h List.not_mem_nil
    · rename_i hlevel
      split at h
      · exact absurd h List.not_mem_nil
      · obtain ⟨event, -, rfl⟩ := List.mem_map.mp h
        refine ⟨⟨file, rfl⟩, fun hnil => hlevel (.inl ?_), rfl⟩
        rw [hnil, List.length_nil]

theorem ownTable_of_parents (prefixText : Text) {e : EventObject} {parents : List Text}
    {name : Text} (h : e.parents = parents ++ [name]) :
    ownTable prefixText e = fileNameToTableName prefixText parents name := by
  rw [ownTable, h, List.dropLast_concat, List.getLastD_concat]

theorem filesInModelDirs_iff (archs : List (Text × List Entry)) :
    FilesInModelDirs readJsonEvents archs ↔ FilesBeforeSubdirs readJsonEvents archs := by
  constructor
  · intro h pre d post name entries hsplit hd before file after hsorted hreads
    obtain ⟨e, he, hheld⟩ := hreads
    obtain ⟨rest, hrest⟩ := dirsWalked_allVisits archs pre d post name entries hsplit hd
    have hfile : allVisits archs =
        (pre ++ d :: before.flatMap (Entry.visits d.arch (d.parents ++ [name]))) ++
          ⟨d.arch, d.parents ++ [name], .file file⟩ ::
            (after.flatMap (Entry.visits d.arch (d.parents ++ [name])) ++ rest) := by
      rw [hsplit, hrest, ftw_eq_flatMap, hsorted, List.flatMap_append, List.flatMap_cons,
        visits_file]
      simp
    have hown := h _ _ _ hfile e he hheld
    obtain ⟨-, -, hparents⟩ := fileEvents_spec readJsonEvents he
    rw [ownTable_of_parents _ hparents] at hown
    exact (lastModelDir_before_file _ hd).mp hown
  · intro h pre v post hsplit e he hheld
    obtain ⟨⟨file, hfile⟩, hne, hparents⟩ := fileEvents_spec readJsonEvents he
    obtain ⟨pre', d, post', name, entries, before, after, hdir, hd, hsorted, rfl, rfl⟩ :=
      fileInDir_allVisits hsplit hfile hne
    rw [ownTable_of_parents _ hparents]
    exact (lastModelDir_before_file _ hd).mpr
      (h pre' d post' name entries hdir hd before file after hsorted ⟨e, he, hheld⟩)

/-- Every event and metric is written to the table of its own directory exactly when no
duplicate is met while a table is closed and every file with an event or a metric is
sorted before all subdirectories of a model directory (names apart: another directory
may have the same table name). -/
theorem writtenToOwnTables_iff (archs : List (Text × List Entry)) :
    WrittenToOwnTables readJsonEvents archs ↔
      AssertionsHold readJsonEvents archs ∧ FilesBeforeSubdirs readJsonEvents archs := by
  rw [writtenToOwnTables_iff_filesInModelDirs, filesInModelDirs_iff]

/-- A model directory with a `sys` directory and a file that comes after it. -/
def sysBeforeUncore : List Entry :=
  [.file "uncore.json".toList, .dir "sys".toList [.file "s.json".toList]]

/-- One event in every file, named after the topic. -/
def oneEvent (_path : List Text) (topic : Text) : List JsonEvent :=
  [{ name := some topic, topic, compat := none, desc := none, long_desc := none
     pmu := "default_core".toList, unit := none, perpkg := none, aggr_mode := none
     deprecated := none, retirement_latency_mean := none, retirement_latency_min := none
     retirement_latency_max := none, metric_name := none, metric_group := none
     metricgroup_no_group := none, default_metricgroup_name := none, event_grouping := none
     metric_expr := none, metric_threshold := none, event := some "event=0x3c".toList }]

/-- The event of `uncore.json` is written to the table of the `sys` directory. -/
theorem not_writtenToOwnTables_sysBeforeUncore :
    ¬ WrittenToOwnTables oneEvent [("x86".toList, [.dir "m".toList sysBeforeUncore])] := by
  rw [writtenToOwnTables_iff_filesInModelDirs, filesInModelDirs_iff]
  rintro ⟨-, hfiles⟩
  have hwalk : allVisits [("x86".toList, [.dir "m".toList sysBeforeUncore])] =
      [] ++ ⟨"x86".toList, [], .dir "m".toList sysBeforeUncore⟩ ::
        ftw "x86".toList ["m".toList] sysBeforeUncore := by
    simp [allVisits, ftw_eq_flatMap, sortedEntries, visits_dir]
  have hsorted : sortedEntries sysBeforeUncore =
      [.dir "sys".toList [.file "s.json".toList]] ++ .file "uncore.json".toList :: [] := rfl
  have hreads : ReadsEvent oneEvent ⟨"x86".toList, ["m".toList], .file "uncore.json".toList⟩ := by
    unfold ReadsEvent
    decide +kernel
  have hbefore := (hfiles _ _ _ _ _ hwalk rfl _ _ _ hsorted hreads).1
  exact absurd (hbefore _ List.mem_cons_self) (by decide)

end PmuEvents.Jevents
