import PmuEvents.Foundation.KeyRuns
import PmuEvents.Jevents.Passes
import PmuEvents.Lib.Types
set_option autoImplicit false

/-!
# The arrays of a table

`print_pending_events` and `print_pending_metrics` write an array for every run of
records with one PMU, and then the table with an entry for every PMU.  The lines they
write are read back as definitions, whatever their names.  The main result says that these
are the runs of the sorted records.
-/

namespace PmuEvents.Jevents

open PmuEvents.Foundation PmuEvents.Lib

/-! ## The lines of a table -/

/-- An element of the table: the array it names, the array whose size it gives, and the
offset of the PMU's name. -/
structure TableRow where
  entries : Text
  num_entries : Text
  pmu_name : Int
  deriving DecidableEq, Repr

/-- The lines of the generated file, without their comments. -/
inductive Line where
  /-- `static const struct compact_pmu_event name[] = {` -/
  | beginArray (name : Text)
  /-- `{ offset },` -/
  | record (offset : Int)
  /-- `const struct pmu_table_entry name[] = {` -/
  | beginTable (name : Text)
  | row (row : TableRow)
  /-- `};` -/
  | close
  deriving DecidableEq, Repr

/-- The exceptions of the two functions. -/
inductive PrintError where
  /-- an assertion, with its message -/
  | assertion (message : Text)
  /-- a string that is no key of the offsets -/
  | keyError (s : Text)
  /-- the name of the table is None -/
  | noTableName
  deriving DecidableEq, Repr

/-- `_bcs.offsets[s]`. -/
def offsetAt (offsets : List (Text × Int)) (s : Text) : Except PrintError Int :=
  match offsets.lookup s with
  | some offset => .ok offset
  | none => .error (.keyError s)

/-- `pmu.replace(',', '_')`. -/
def tblPmu (pmu : Text) : Text := replaceChar ',' ['_'] pmu

/-- `{tblname}_{pmu_name}`. -/
def arrayName (tblname pmu_name : Text) : Text := tblname ++ '_' :: pmu_name

/-- The variables of the loop over the sorted records; the set of PMUs is a list
without repetitions. -/
structure PrintState where
  first : Bool
  last_pmu : Option Text
  last_name : Option Text
  pmus : List (Text × Text)
  lines : List Line

/-- The variables before the loop. -/
def PrintState.start : PrintState :=
  { first := true, last_pmu := none, last_name := none, pmus := [], lines := [] }

section Print

variable (metric : Bool) (offsets : List (Text × Int)) (tblname : Text)

/-- `assert event.name != last_name`, with its message. -/
def assertNoDuplicate (s : PrintState) (event : JsonEvent) : Except PrintError Unit :=
  if truthy s.last_pmu ∧ s.last_pmu = some event.pmu ∧ event.name = s.last_name then
    .error (.assertion ("Duplicate event: ".toList ++ s.last_pmu.getD "None".toList ++
      '/' :: s.last_name.getD "None".toList ++ "/ in ".toList ++ tblname))
  else .ok ()

/-- The lines where the PMU changes. -/
def changePmu (s : PrintState) (event : JsonEvent) : PrintState :=
  if s.last_pmu ≠ some event.pmu then
    let pmu_name := tblPmu event.pmu
    { s with
      first := false
      last_pmu := some event.pmu
      pmus := s.pmus.insert (event.pmu, pmu_name)
      lines := s.lines ++ (if s.first then [] else [.close]) ++
        [.beginArray (arrayName tblname pmu_name)] }
  else s

/-- The body of the loop; only the loop over events has the assertion and the last name. -/
def printRecord (s : PrintState) (e : EventObject) : Except PrintError PrintState := do
  if ¬ metric then assertNoDuplicate tblname s e.event
  let s := changePmu tblname s e.event
  let offset ← offsetAt offsets (e.event.buildCString metric)
  return { s with
    lines := s.lines ++ [.record offset]
    last_name := if metric then s.last_name else e.event.name }

/-- The body of the loop over the PMUs. -/
def printRow (pmu : Text × Text) : Except PrintError Line := do
  let offset ← offsetAt offsets (pmu.1 ++ nulText)
  return .row
    { entries := arrayName tblname pmu.2
      num_entries := arrayName tblname pmu.2
      pmu_name := offset }

/-- The lines for a table that is not empty. -/
def printTable (pending : List EventObject) : Except PrintError (List Line) := do
  let s ← ((recordWriter metric).sort pending).foldlM (printRecord metric offsets tblname)
    PrintState.start
  let rows ← (s.pmus.insertionSort fun a b => toLex a ≤ toLex b).mapM (printRow offsets tblname)
  return s.lines ++ [.close, .beginTable tblname] ++ rows ++ [.close]

end Print

/-- The lines that `print_pending_events`, or `print_pending_metrics`, writes. -/
def pendingLines (metric : Bool) (offsets : List (Text × Int)) (t : TableState) :
    Except PrintError (List Line) :=
  if t.pending.isEmpty then .ok []
  else
    match t.tblname with
    | none => .error .noTableName
    | some tblname => printTable metric offsets tblname t.pending

/-! ## The definitions in the lines -/

/-- A definition in the C file. -/
inductive Definition where
  | array (name : Text) (records : List CompactPmuEvent)
  | table (name : Text) (rows : List TableRow)
  deriving DecidableEq, Repr

/-- The name a definition defines. -/
def Definition.name : Definition → Text
  | .array name _ => name
  | .table name _ => name

/-- The definitions read so far, and the one that is open. -/
structure Reading where
  closed : List Definition
  current : Option Definition

/-- The reading of a line; `none` where it is out of place. -/
def Reading.step (r : Reading) : Line → Option Reading
  | .beginArray name =>
    match r.current with
    | none => some { r with current := some (.array name []) }
    | some _ => none
  | .record offset =>
    match r.current with
    | some (.array name records) =>
      some { r with current := some (.array name (records ++ [⟨offset⟩])) }
    | _ => none
  | .beginTable name =>
    match r.current with
    | none => some { r with current := some (.table name []) }
    | some _ => none
  | .row row =>
    match r.current with
    | some (.table name rows) => some { r with current := some (.table name (rows ++ [row])) }
    | _ => none
  | .close =>
    match r.current with
    | some definition => some { closed := r.closed ++ [definition], current := none }
    | none => none

/-- The definitions that lines make up.  Whether their names are C identifiers is not asked:
a directory `v1.0` or a unit `foo-bar` makes names that are none. -/
def definitions (lines : List Line) : Option (List Definition) :=
  (lines.foldlM Reading.step { closed := [], current := none }).bind fun r =>
    if r.current.isNone then some r.closed else none

/-- The array with a name. -/
def findArray (defs : List Definition) (name : Text) : Option (List CompactPmuEvent) :=
  defs.findSome? fun
    | .array name' records => if name' = name then some records else none
    | .table _ _ => none

/-- A table entry as the compiler fills it in. -/
def TableRow.link (defs : List Definition) (row : TableRow) : Option PmuTableEntry := do
  let entries ← findArray defs row.entries
  let counted ← findArray defs row.num_entries
  return { entries, num_entries := counted.length, pmu_name := ⟨row.pmu_name⟩ }

/-! ## The loop over the records -/

section Loop

variable (metric : Bool) (offsets : List (Text × Int)) (tblname : Text)

/-- All strings that are looked up for these records have an offset. -/
def AllAdded (pending : List EventObject) : Prop :=
  ∀ e ∈ pending, (offsets.lookup (e.event.buildCString metric)).isSome ∧
    (offsets.lookup (e.event.pmu ++ nulText)).isSome

instance (pending : List EventObject) : Decidable (AllAdded metric offsets pending) :=
  inferInstanceAs (Decidable (∀ e ∈ pending, _ ∧ _))

/-- The offset of a string that has one. -/
def addedOffset (s : Text) : Int := (offsets.lookup s).getD 0

/-- The record of an event, or of its metric. -/
def recordOf (e : EventObject) : CompactPmuEvent :=
  ⟨addedOffset offsets (e.event.buildCString metric)⟩

/-- The PMU of a record. -/
def pmuOf (e : EventObject) : Text := e.event.pmu

/-- The lines of a run of records with one PMU, before the array is closed. -/
def openLines (pmu : Text) (run : List EventObject) : List Line :=
  .beginArray (arrayName tblname (tblPmu pmu)) ::
    run.map fun e => .record (recordOf metric offsets e).offset

/-- The lines of the array for a run. -/
def arrayLines (run : Text × List EventObject) : List Line :=
  openLines metric offsets tblname run.1 run.2 ++ [.close]

/-- The state of the loop within a run, after a record of it. -/
structure InRun (s : PrintState) (written : List Line) (last : JsonEvent)
    (run : List EventObject) : Prop where
  first : s.first = false
  last_pmu : s.last_pmu = some last.pmu
  last_name : metric = false → s.last_name = last.name
  lines : s.lines = written ++ openLines metric offsets tblname last.pmu run
  mem : (last.pmu, tblPmu last.pmu) ∈ s.pmus
  nodup : s.pmus.Nodup

variable {metric offsets tblname}

theorem offsetAt_eq_ok {s : Text} (h : (offsets.lookup s).isSome) :
    offsetAt offsets s = .ok (addedOffset offsets s) := by
  obtain ⟨n, hn⟩ := Option.isSome_iff_exists.mp h
  rw [offsetAt, addedOffset, hn]
  rfl

/-- The record is written unless the assertion fails. -/
theorem printRecord_eq_ok {s : PrintState} {e : EventObject}
    (hadded : (offsets.lookup (e.event.buildCString metric)).isSome)
    (hassert : metric = false → assertNoDuplicate tblname s e.event = .ok ()) :
    printRecord metric offsets tblname s e =
      .ok { changePmu tblname s e.event with
        lines :=
          (changePmu tblname s e.event).lines ++ [.record (recordOf metric offsets e).offset]
        last_name :=
          if metric then (changePmu tblname s e.event).last_name else e.event.name } := by
  cases metric with
  | true =>
    simp only [printRecord, offsetAt_eq_ok hadded]
    rfl
  | false =>
    simp only [printRecord, offsetAt_eq_ok hadded, hassert rfl]
    rfl

/-- Within a run the assertion looks for the PMU and the name of the last event. -/
theorem assertNoDuplicate_of_inRun {s : PrintState} {written : List Line} {last : JsonEvent}
    {run : List EventObject} (h : InRun false offsets tblname s written last run)
    (event : JsonEvent) :
    (isDuplicate (some last) event = false ∧ assertNoDuplicate tblname s event = .ok ()) ∨
      (isDuplicate (some last) event = true ∧
        ∃ message, assertNoDuplicate tblname s event = .error (.assertion message)) := by
  have hdup : (truthy s.last_pmu ∧ s.last_pmu = some event.pmu ∧ event.name = s.last_name) ↔
      isDuplicate (some last) event = true := by
    rw [h.last_pmu, h.last_name rfl]
    simp only [truthy, isDuplicate, Option.any_some, Option.some.injEq, Bool.and_eq_true,
      decide_eq_true_eq, and_assoc, eq_comm (a := event.name)]
  rw [assertNoDuplicate]
  split
  · rename_i hcond
    exact .inr ⟨hdup.mp hcond, _, rfl⟩
  · rename_i hcond
    exact .inl ⟨Bool.eq_false_iff.mpr fun h' => hcond (hdup.mpr h'), rfl⟩

variable (tblname) in
/-- The first record begins the first array. -/
theorem inRun_first {e : EventObject}
    (hadded : (offsets.lookup (e.event.buildCString metric)).isSome) :
    ∃ s, printRecord metric offsets tblname .start e = .ok s ∧
      InRun metric offsets tblname s [] e.event [e] ∧
      ∀ p, p ∈ s.pmus ↔ p = (e.event.pmu, tblPmu e.event.pmu) := by
  refine ⟨_, printRecord_eq_ok hadded fun _ => rfl, ⟨rfl, rfl, ?_, rfl, ?_, ?_⟩, ?_⟩
  · intro hmetric
    rw [hmetric]
    rfl
  · simp [changePmu, PrintState.start]
  · simp [changePmu, PrintState.start]
  · simp [changePmu, PrintState.start]

/-- The next record: it goes on with the run, or it closes the array and begins another. -/
theorem inRun_next {s : PrintState} {written : List Line} {last : JsonEvent}
    {run : List EventObject} (h : InRun metric offsets tblname s written last run) {e : EventObject}
    (hadded : (offsets.lookup (e.event.buildCString metric)).isSome)
    (hassert : metric = false → isDuplicate (some last) e.event = false) :
    ∃ s' written' run', printRecord metric offsets tblname s e = .ok s' ∧
      InRun metric offsets tblname s' written' e.event run' ∧
      (∀ p, p ∈ s'.pmus ↔ p ∈ s.pmus ∨ p = (e.event.pmu, tblPmu e.event.pmu)) ∧
      ∀ l, written' ++
          (runsFrom pmuOf e.event.pmu run' l).flatMap (arrayLines metric offsets tblname) =
        written ++
          (runsFrom pmuOf last.pmu run (e :: l)).flatMap (arrayLines metric offsets tblname) := by
  have hok : metric = false → assertNoDuplicate tblname s e.event = .ok () := by
    rintro rfl
    rcases assertNoDuplicate_of_inRun h e.event with ⟨-, hok⟩ | ⟨hdup, -⟩
    · exact hok
    · rw [hassert rfl] at hdup
      exact absurd hdup Bool.false_ne_true
  have hname : ∀ name, metric = false → (if metric then name else e.event.name) = e.event.name := by
    rintro name rfl
    rfl
  by_cases hpmu : e.event.pmu = last.pmu
  · have hsame : changePmu tblname s e.event = s := by
      rw [changePmu, if_neg (by rw [h.last_pmu, hpmu]; simp)]
    refine ⟨_, written, run ++ [e], printRecord_eq_ok hadded hok, ?_, ?_, fun l => ?_⟩
    · simp only [hsame]
      refine ⟨h.first, by rw [h.last_pmu, hpmu], hname _, ?_, hpmu ▸ h.mem, h.nodup⟩
      simp only [h.lines, openLines, hpmu, List.map_append, List.append_assoc, List.cons_append,
        List.map_cons, List.map_nil]
    · intro p
      simp only [hsame]
      rw [hpmu, or_iff_left_of_imp]
      rintro rfl
      exact h.mem
    · rw [runsFrom, if_pos (show pmuOf e = last.pmu from hpmu), hpmu]
  · have hchange : changePmu tblname s e.event =
        { s with
          first := false
          last_pmu := some e.event.pmu
          pmus := s.pmus.insert (e.event.pmu, tblPmu e.event.pmu)
          lines :=
            s.lines ++ [.close] ++ [.beginArray (arrayName tblname (tblPmu e.event.pmu))] } := by
      have hne : some last.pmu ≠ some e.event.pmu := fun heq => hpmu (Option.some.inj heq).symm
      rw [changePmu, h.last_pmu, if_pos hne, h.first]
      rfl
    refine ⟨_, written ++ arrayLines metric offsets tblname (last.pmu, run), [e],
      printRecord_eq_ok hadded hok, ?_, ?_, fun l => ?_⟩
    · simp only [hchange]
      refine ⟨rfl, rfl, hname _, ?_, List.mem_insert_self .., h.nodup.insert⟩
      simp only [h.lines, arrayLines, openLines, List.append_assoc, List.cons_append,
        List.nil_append, List.map_cons, List.map_nil]
    · intro p
      simp only [hchange]
      rw [List.mem_insert_iff, or_comm]
    · rw [runsFrom, if_neg (show ¬ pmuOf e = last.pmu from hpmu), List.flatMap_cons,
        List.append_assoc]
      rfl

/-- The loop from within a run, where no assertion fails: it writes the runs of the
rest of the records and collects their PMUs. -/
theorem foldlM_printRecord {l : List EventObject}
    (hadded : ∀ e ∈ l, (offsets.lookup (e.event.buildCString metric)).isSome)
    {s : PrintState} {written : List Line} {last : JsonEvent} {run : List EventObject}
    (h : InRun metric offsets tblname s written last run)
    (hcheck : metric = false → noDuplicateEvent (some last) (l.map EventObject.event) = true) :
    ∃ s', l.foldlM (printRecord metric offsets tblname) s = .ok s' ∧
      s'.lines ++ [.close] = written ++
        (runsFrom pmuOf last.pmu run l).flatMap (arrayLines metric offsets tblname) ∧
      (∀ p, p ∈ s'.pmus ↔ p ∈ s.pmus ∨ ∃ e ∈ l, p = (e.event.pmu, tblPmu e.event.pmu)) ∧
      s'.pmus.Nodup := by
  induction l generalizing s written last run with
  | nil =>
    refine ⟨s, rfl, ?_, by simp, h.nodup⟩
    simp [runsFrom, arrayLines, h.lines]
  | cons e l ih =>
    obtain ⟨hadde, haddl⟩ := List.forall_mem_cons.mp hadded
    have hsplit : metric = false → isDuplicate (some last) e.event = false ∧
        noDuplicateEvent (some e.event) (l.map EventObject.event) = true := by
      intro hmetric
      have hboth := hcheck hmetric
      rw [List.map_cons, noDuplicateEvent, Bool.and_eq_true] at hboth
      exact ⟨(Bool.not_eq_true' _).mp hboth.1, hboth.2⟩
    obtain ⟨s₁, written₁, run₁, hstep, hrun₁, hpmus₁, hlines₁⟩ :=
      inRun_next h hadde fun hmetric => (hsplit hmetric).1
    obtain ⟨s', hfold, hlines, hpmus, hnodup⟩ :=
      ih haddl hrun₁ fun hmetric => (hsplit hmetric).2
    refine ⟨s', ?_, hlines.trans (hlines₁ l), fun p => ?_, hnodup⟩
    · rw [List.foldlM_cons, hstep]
      exact hfold
    · rw [hpmus, hpmus₁, List.exists_mem_cons_iff, or_assoc]

/-- The loop from within a run ends with a failed assertion where the check of the
records fails. -/
theorem foldlM_printRecord_error {l : List EventObject}
    (hadded : ∀ e ∈ l, (offsets.lookup (e.event.buildCString false)).isSome)
    {s : PrintState} {written : List Line} {last : JsonEvent} {run : List EventObject}
    (h : InRun false offsets tblname s written last run)
    (hcheck : noDuplicateEvent (some last) (l.map EventObject.event) = false) :
    ∃ message, l.foldlM (printRecord false offsets tblname) s = .error (.assertion message) := by
  induction l generalizing s written last run with
  | nil => exact absurd hcheck (by simp [noDuplicateEvent])
  | cons e l ih =>
    obtain ⟨hadde, haddl⟩ := List.forall_mem_cons.mp hadded
    rw [List.foldlM_cons]
    rcases assertNoDuplicate_of_inRun h e.event with ⟨hdup, -⟩ | ⟨-, message, hmessage⟩
    · have hrest : noDuplicateEvent (some e.event) (l.map EventObject.event) = false := by
        have hfirst : (!(isDuplicate (some last) e.event)) = true := by rw [hdup]; rfl
        rw [List.map_cons, noDuplicateEvent] at hcheck
        exact (Bool.and_eq_false_iff.mp hcheck).resolve_left
          fun hno => absurd (hno.symm.trans hfirst) Bool.false_ne_true
      obtain ⟨s₁, written₁, run₁, hstep, hrun₁, -, -⟩ := inRun_next h hadde fun _ => hdup
      rw [hstep]
      exact ih haddl hrun₁ hrest
    · refine ⟨message, ?_⟩
      simp only [printRecord, hmessage]
      rfl

variable (tblname) in
/-- The whole loop, where no assertion fails. -/
theorem foldlM_printRecord_start {l : List EventObject} (hne : l ≠ [])
    (hadded : ∀ e ∈ l, (offsets.lookup (e.event.buildCString metric)).isSome)
    (hcheck : metric = false → noDuplicateEvent none (l.map EventObject.event) = true) :
    ∃ s, l.foldlM (printRecord metric offsets tblname) .start = .ok s ∧
      s.lines ++ [.close] = (keyRuns pmuOf l).flatMap (arrayLines metric offsets tblname) ∧
      (∀ p, p ∈ s.pmus ↔ ∃ e ∈ l, p = (e.event.pmu, tblPmu e.event.pmu)) ∧ s.pmus.Nodup := by
  cases l with
  | nil => exact absurd rfl hne
  | cons e l =>
    obtain ⟨hadde, haddl⟩ := List.forall_mem_cons.mp hadded
    obtain ⟨s, hfirst, hrun, hpmus⟩ := inRun_first tblname hadde
    have hrest : metric = false →
        noDuplicateEvent (some e.event) (l.map EventObject.event) = true := by
      intro hmetric
      have hboth := hcheck hmetric
      rw [List.map_cons, noDuplicateEvent, Bool.and_eq_true] at hboth
      exact hboth.2
    obtain ⟨s', hfold, hlines, hpmus', hnodup⟩ := foldlM_printRecord haddl hrun hrest
    refine ⟨s', ?_, hlines, fun p => ?_, hnodup⟩
    · rw [List.foldlM_cons, hfirst]
      exact hfold
    · rw [hpmus', hpmus, List.exists_mem_cons_iff]

variable (tblname) in
/-- The whole loop, where the check of the records fails. -/
theorem foldlM_printRecord_start_error {l : List EventObject}
    (hadded : ∀ e ∈ l, (offsets.lookup (e.event.buildCString false)).isSome)
    (hcheck : noDuplicateEvent none (l.map EventObject.event) = false) :
    ∃ message, l.foldlM (printRecord false offsets tblname) .start =
      .error (.assertion message) := by
  cases l with
  | nil => exact absurd hcheck (by decide)
  | cons e l =>
    obtain ⟨hadde, haddl⟩ := List.forall_mem_cons.mp hadded
    obtain ⟨s, hfirst, hrun, -⟩ := inRun_first tblname hadde
    have hrest : noDuplicateEvent (some e.event) (l.map EventObject.event) = false := hcheck
    obtain ⟨message, hmessage⟩ := foldlM_printRecord_error haddl hrun hrest
    refine ⟨message, ?_⟩
    rw [List.foldlM_cons, hfirst]
    exact hmessage

end Loop

/-! ## The table -/

section Table

variable (metric : Bool) (offsets : List (Text × Int)) (tblname : Text)

/-- The pending records in the order of their keys. -/
def sortedRecords (pending : List EventObject) : List EventObject :=
  (recordWriter metric).sort pending

/-- The definition of the array for a run. -/
def arrayOf (run : Text × List EventObject) : Definition :=
  .array (arrayName tblname (tblPmu run.1)) (run.2.map (recordOf metric offsets))

/-- The element of the table for a PMU. -/
def rowOf (pmu : Text) : TableRow where
  entries := arrayName tblname (tblPmu pmu)
  num_entries := arrayName tblname (tblPmu pmu)
  pmu_name := addedOffset offsets (pmu ++ nulText)

variable {metric offsets tblname}

theorem mem_sortedRecords {pending : List EventObject} {e : EventObject} :
    e ∈ sortedRecords metric pending ↔ e ∈ pending :=
  ((recordWriter metric).perm pending).mem_iff

theorem sortedRecords_ne_nil {pending : List EventObject} (hne : pending ≠ []) :
    sortedRecords metric pending ≠ [] := by
  intro hnil
  have hperm := (recordWriter metric).perm pending
  rw [show (recordWriter metric).sort pending = [] from hnil] at hperm
  exact hne hperm.nil_eq.symm

/-- The rows for PMUs with their array names. -/
theorem mapM_printRow {pairs : List (Text × Text)} (htbl : ∀ p ∈ pairs, p.2 = tblPmu p.1)
    (hadded : ∀ p ∈ pairs, (offsets.lookup (p.1 ++ nulText)).isSome) :
    pairs.mapM (printRow offsets tblname) =
      .ok (((pairs.map Prod.fst).map (rowOf offsets tblname)).map .row) := by
  rw [exceptMapM_eq_ok_iff, List.map_map, List.map_map, List.forall₂_map_right_iff,
    List.forall₂_same]
  intro p hp
  simp only [printRow, offsetAt_eq_ok (hadded p hp), htbl p hp]
  rfl

variable (tblname) in
/-- The lines of a table: the arrays for the runs of the sorted records, and a table
with an element for each PMU. -/
theorem printTable_eq_ok {pending : List EventObject} (hne : pending ≠ [])
    (hadded : AllAdded metric offsets pending)
    (hcheck : (recordWriter metric).check (sortedRecords metric pending) = true) :
    ∃ pmus : List Text, pmus.Nodup ∧ (∀ p, p ∈ pmus ↔ ∃ e ∈ pending, pmuOf e = p) ∧
      printTable metric offsets tblname pending =
        .ok ((keyRuns pmuOf (sortedRecords metric pending)).flatMap
            (arrayLines metric offsets tblname) ++
          .beginTable tblname :: (pmus.map (rowOf offsets tblname)).map .row ++ [.close]) := by
  have hnodup : metric = false → noDuplicateEvent none
      ((sortedRecords metric pending).map EventObject.event) = true := by
    rintro rfl
    exact hcheck
  obtain ⟨s, hloop, hlines, hpmus, hpmusNodup⟩ := foldlM_printRecord_start tblname
    (sortedRecords_ne_nil hne) (fun e he => (hadded e (mem_sortedRecords.mp he)).1) hnodup
  let pairs := s.pmus.insertionSort fun a b => toLex a ≤ toLex b
  have hpairs : ∀ p ∈ pairs, ∃ e ∈ pending, p = (e.event.pmu, tblPmu e.event.pmu) := by
    intro p hp
    obtain ⟨e, he, rfl⟩ := (hpmus p).mp (List.mem_insertionSort _ |>.mp hp)
    exact ⟨e, mem_sortedRecords.mp he, rfl⟩
  have htbl : ∀ p ∈ pairs, p.2 = tblPmu p.1 := by
    intro p hp
    obtain ⟨e, -, rfl⟩ := hpairs p hp
    rfl
  have hrows : pairs.mapM (printRow offsets tblname) =
      .ok (((pairs.map Prod.fst).map (rowOf offsets tblname)).map .row) := by
    refine mapM_printRow htbl fun p hp => ?_
    obtain ⟨e, he, rfl⟩ := hpairs p hp
    exact (hadded e he).2
  refine ⟨pairs.map Prod.fst, ?_, fun p => ?_, ?_⟩
  · refine ((List.perm_insertionSort _ _).nodup_iff.mpr hpmusNodup).map_on ?_
    intro p hp p' hp' hfst
    exact Prod.ext hfst (by rw [htbl p hp, htbl p' hp', hfst])
  · rw [List.mem_map]
    constructor
    · rintro ⟨p', hp', rfl⟩
      obtain ⟨e, he, rfl⟩ := hpairs p' hp'
      exact ⟨e, he, rfl⟩
    · rintro ⟨e, he, rfl⟩
      refine ⟨(e.event.pmu, tblPmu e.event.pmu), (List.mem_insertionSort _).mpr ?_, rfl⟩
      exact (hpmus _).mpr ⟨e, mem_sortedRecords.mpr he, rfl⟩
  · rw [printTable]
    change ((sortedRecords metric pending).foldlM _ _ >>= _) = _
    rw [hloop]
    change (pairs.mapM (printRow offsets tblname) >>= _) = _
    rw [hrows, ← hlines]
    change Except.ok (s.lines ++ [.close, .beginTable tblname] ++ _ ++ [.close]) = _
    simp only [List.append_assoc, List.cons_append, List.nil_append]

/-! ## Reading the lines -/

theorem foldlM_step_records (closed : List Definition) (name : Text)
    (records : List CompactPmuEvent) (run : List EventObject) :
    (run.map fun e => Line.record (recordOf metric offsets e).offset).foldlM Reading.step
        { closed, current := some (.array name records) } =
      some { closed
             current := some (.array name (records ++ run.map (recordOf metric offsets))) } := by
  induction run generalizing records with
  | nil => simp
  | cons e run ih =>
    rw [List.map_cons, List.foldlM_cons]
    change List.foldlM Reading.step _ _ = _
    rw [ih, List.append_assoc, List.singleton_append, List.map_cons]

/-- The lines of an array are read as its definition. -/
theorem foldlM_step_arrayLines (closed : List Definition) (run : Text × List EventObject) :
    (arrayLines metric offsets tblname run).foldlM Reading.step { closed, current := none } =
      some { closed := closed ++ [arrayOf metric offsets tblname run], current := none } := by
  rw [arrayLines, openLines, List.cons_append, List.foldlM_cons]
  change List.foldlM Reading.step _ _ = _
  rw [List.foldlM_append, foldlM_step_records]
  rfl

theorem foldlM_step_arrays (closed : List Definition) (runs : List (Text × List EventObject)) :
    (runs.flatMap (arrayLines metric offsets tblname)).foldlM Reading.step
        { closed, current := none } =
      some { closed := closed ++ runs.map (arrayOf metric offsets tblname), current := none } := by
  induction runs generalizing closed with
  | nil => simp
  | cons run runs ih =>
    rw [List.flatMap_cons, List.foldlM_append, foldlM_step_arrayLines, Option.bind_eq_bind,
      Option.bind_some, ih, List.append_assoc, List.singleton_append, List.map_cons]

theorem foldlM_step_rows (closed : List Definition) (name : Text) (rows rows' : List TableRow) :
    (rows'.map Line.row).foldlM Reading.step { closed, current := some (.table name rows) } =
      some { closed, current := some (.table name (rows ++ rows')) } := by
  induction rows' generalizing rows with
  | nil => simp
  | cons row rows' ih =>
    rw [List.map_cons, List.foldlM_cons]
    change List.foldlM Reading.step _ _ = _
    rw [ih, List.append_assoc, List.singleton_append]

/-- The lines of arrays and of the table after them. -/
theorem definitions_table (runs : List (Text × List EventObject)) (rows : List TableRow) :
    definitions (runs.flatMap (arrayLines metric offsets tblname) ++
        .beginTable tblname :: rows.map Line.row ++ [.close]) =
      some (runs.map (arrayOf metric offsets tblname) ++ [.table tblname rows]) := by
  rw [definitions, List.append_assoc, List.foldlM_append, foldlM_step_arrays, Option.bind_eq_bind,
    Option.bind_some, List.cons_append, List.foldlM_cons]
  change (List.foldlM Reading.step _ _).bind _ = _
  rw [List.foldlM_append, foldlM_step_rows]
  rfl

/-- What is written for pending records whose strings all have an offset: an array for
each run of the sorted records, and a table with an element for each PMU. -/
theorem pendingLines_eq_ok {t : TableState} (hne : t.pending ≠ []) (htbl : t.tblname = some tblname)
    (hadded : AllAdded metric offsets t.pending)
    (hcheck : (recordWriter metric).check (sortedRecords metric t.pending) = true) :
    ∃ (lines : List Line) (pmus : List Text), pendingLines metric offsets t = .ok lines ∧
      definitions lines = some ((keyRuns pmuOf (sortedRecords metric t.pending)).map
        (arrayOf metric offsets tblname) ++ [.table tblname (pmus.map (rowOf offsets tblname))]) ∧
      pmus.Nodup ∧ ∀ p, p ∈ pmus ↔ ∃ e ∈ t.pending, pmuOf e = p := by
  obtain ⟨pmus, hnodup, hmem, hprint⟩ :=
    printTable_eq_ok tblname hne hadded hcheck
  have hempty : ¬ t.pending.isEmpty := by
    rw [List.isEmpty_iff]
    exact hne
  refine ⟨_, pmus, ?_, definitions_table .., hnodup, hmem⟩
  rw [pendingLines, if_neg hempty, htbl]
  exact hprint

/-- Where the check of the records fails, so does an assertion. -/
theorem pendingLines_eq_error {t : TableState} (htbl : t.tblname = some tblname)
    (hadded : AllAdded false offsets t.pending)
    (hcheck : eventWriter.check (sortedRecords false t.pending) = false) :
    ∃ message, pendingLines false offsets t = .error (.assertion message) := by
  obtain ⟨message, hmessage⟩ := foldlM_printRecord_start_error tblname
    (fun e he => (hadded e (mem_sortedRecords.mp he)).1) hcheck
  have hempty : ¬ t.pending.isEmpty := by
    intro hnil
    rw [sortedRecords, List.isEmpty_iff.mp hnil] at hcheck
    exact absurd hcheck (by decide)
  refine ⟨message, ?_⟩
  rw [pendingLines, if_neg hempty, htbl]
  change ((sortedRecords false t.pending).foldlM _ _ >>= _) = _
  rw [hmessage]
  rfl

end Table

end PmuEvents.Jevents
