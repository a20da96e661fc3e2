import PmuEvents.Lib.Instances
import PmuEvents.Tables.MapForCpu
import Mathlib.Data.List.ModifyLast
set_option autoImplicit false

/-!
# `get_pmus`

The tree of all PMUs of the system, from the mapping-table row of CPU 0.  The row
pointer is used without a test, so the outcome of a call is either the function's
return or the dereference of a NULL row.  The main results: a call returns, with
the documented codes, exactly when some row matches the CPU, and then it returns
the class of every PMU of the row that has an instance.
-/

namespace PmuEvents.Lib

open PmuEvents.Libc PmuEvents.Tables

/-- The C string at an offset of the big string. -/
def cstrAt (big_c_string : List UInt8) (offset : Int) : CStr :=
  (big_c_string.drop offset.toNat).takeWhile (· ≠ 0)

/-- `get_pmu_name`. -/
def getPmuName (big_c_string : List UInt8) (entry : PmuTableEntry) : CStr :=
  cstrAt big_c_string entry.pmu_name.offset

/-- The third loop: every instance of the last class gets the entries of the
table row the class was made for. -/
def attachEntries (classes : List PmuClass) (entry : PmuTableEntry) : List PmuClass :=
  classes.modifyLast fun class_ =>
    { class_ with
      instances := class_.instances.map fun i =>
        { i with entries := some (entry.entries, entry.num_entries) } }

/-- The loop over the PMUs of the table, with the classes found so far. -/
def classesLoop (sys : Sysfs) (big_c_string : List UInt8) :
    List PmuTableEntry → List PmuClass → List PmuClass
  | [], classes => classes
  | entry :: pmus, classes =>
    let pmu_name := getPmuName big_c_string entry
    let found := getAllPmuInstancesFor sys pmu_name
    if found.1 = -1 then classesLoop sys big_c_string pmus classes
    else if found.2.length = 0 then classesLoop sys big_c_string pmus classes
    else
      classesLoop sys big_c_string pmus
        (attachEntries (classes ++ [{ name := pmu_name, instances := found.2 }]) entry)

/-- How a call of `get_pmus` ends. -/
inductive GetPmusOutcome where
  /-- the event table was read through a NULL row -/
  | nullMap
  | returned (code : Int) (pmus : Pmus)
  deriving DecidableEq, Repr

/-- `get_pmus`, with the static caches of `map_for_cpu` before the call. -/
def getPmus (strcmp_cpuid_str : CStr → CStr → Int) (pmu_events_map : List PmuEventsMap)
    (get_cpuid : PerfCpu → Option CStr) (big_c_string : List UInt8) (cache : MapCache)
    (sys : Sysfs) : GetPmusOutcome :=
  match (mapForCpu strcmp_cpuid_str pmu_events_map get_cpuid cache 0).1 with
  | none => .nullMap
  | some map =>
    let classes := classesLoop sys big_c_string map.event_table []
    if classes.length = 0 then .returned (-1) { classes } else .returned 0 { classes }

/-- The outcome the header and the comment of `get_pmus` promise: 0 with at least
one class, or -1 with none. -/
def GetPmusOutcome.AsDocumented : GetPmusOutcome → Prop
  | .nullMap => False
  | .returned code pmus =>
    (code = 0 ∧ 1 ≤ pmus.classes.length) ∨ (code = -1 ∧ pmus.classes = [])

/-- After any run of `map_for_cpu`, `get_pmus` ends as documented exactly when CPU
0 has a cpuid that some row of the table matches. -/
theorem getPmus_asDocumented_iff (strcmp_cpuid_str : CStr → CStr → Int)
    (pmu_events_map : List PmuEventsMap) (get_cpuid : PerfCpu → Option CStr)
    (big_c_string : List UInt8) (cache : MapCache) (sys : Sysfs)
    (h : ReachableCache strcmp_cpuid_str pmu_events_map get_cpuid cache) :
    (getPmus strcmp_cpuid_str pmu_events_map get_cpuid big_c_string cache sys).AsDocumented ↔
      ∃ cpuid, get_cpuid 0 = some cpuid ∧
        ∃ map ∈ pmu_events_map, strcmp_cpuid_str map.cpuid cpuid = 0 := by
  rw [← plainSearch_isSome_iff, ← (mapForCpu_valid h.valid 0).1, getPmus]
  cases (mapForCpu strcmp_cpuid_str pmu_events_map get_cpuid cache 0).1 with
  | none => simp [GetPmusOutcome.AsDocumented]
  | some map =>
    simp only [Option.isSome_some, iff_true]
    split
    · rename_i hlen
      exact .inr ⟨rfl, List.length_eq_zero_iff.mp hlen⟩
    · rename_i hlen
      exact .inl ⟨rfl, Nat.one_le_iff_ne_zero.mpr hlen⟩

/-! ## The classes found -/

/-- The instances of a PMU of the table. -/
def instancesFound (sys : Sysfs) (big_c_string : List UInt8) (entry : PmuTableEntry) :
    List PmuInstance :=
  (getAllPmuInstancesFor sys (getPmuName big_c_string entry)).2

/-- The class of a PMU: its instances, each with the entries of this PMU. -/
def classOf (sys : Sysfs) (big_c_string : List UInt8) (entry : PmuTableEntry) : PmuClass where
  name := getPmuName big_c_string entry
  instances := (instancesFound sys big_c_string entry).map fun i =>
    { i with entries := some (entry.entries, entry.num_entries) }

/-- The folders the loop takes for instances of an uncore PMU. -/
def acceptedFolders (class_name : CStr) (listing : List CStr) : List CStr :=
  listing.filter fun d_name => ¬ IsDot d_name ∧ isInstanceName class_name d_name

theorem attachEntries_append (sys : Sysfs) (big_c_string : List UInt8) (classes : List PmuClass)
    (entry : PmuTableEntry) :
    attachEntries
        (classes ++ [{ name := getPmuName big_c_string entry
                       instances := instancesFound sys big_c_string entry }]) entry =
      classes ++ [classOf sys big_c_string entry] := by
  rw [attachEntries, List.modifyLast_concat]
  rfl

/-- With a readable directory the loop appends, in table order, the classes of
the PMUs that have an instance. -/
theorem classesLoop_eq {sys : Sysfs} {listing : List CStr} (hlisting : sys.listing = some listing)
    (big_c_string : List UInt8) (pmus : List PmuTableEntry) (classes : List PmuClass) :
    classesLoop sys big_c_string pmus classes =
      classes ++ (pmus.filter fun entry => instancesFound sys big_c_string entry ≠ []).map
        (classOf sys big_c_string) := by
  induction pmus generalizing classes with
  | nil => simp [classesLoop]
  | cons entry pmus ih =>
    have hopened : (getAllPmuInstancesFor sys (getPmuName big_c_string entry)).1 ≠ -1 := by
      simp [getAllPmuInstancesFor, hlisting]
    have hfound : (getAllPmuInstancesFor sys (getPmuName big_c_string entry)).2 =
        instancesFound sys big_c_string entry := rfl
    rw [classesLoop]
    simp only [if_neg hopened, hfound, List.length_eq_zero_iff]
    split
    · rename_i hnil
      rw [ih, List.filter_cons_of_neg (by simpa using hnil)]
    · rename_i hne
      rw [ih, attachEntries_append, List.filter_cons_of_pos (by simpa using hne), List.map_cons,
        List.append_assoc, List.singleton_append]

/-- The uncore branch keeps the accepted folders in listing order. -/
theorem instancesLoop_uncore_names (sys : Sysfs) (class_name : CStr) (listing : List CStr) :
    (instancesLoop sys class_name false listing).map (·.name) =
      acceptedFolders class_name listing := by
  induction listing with
  | nil => rfl
  | cons d_name listing ih =>
    rw [instancesLoop, acceptedFolders]
    split
    · rename_i hdot
      rw [List.filter_cons_of_neg (by simp [hdot]), ih]
      rfl
    · rename_i hdot
      simp only [Bool.false_eq_true, if_false]
      split
      · rename_i haccept
        rw [List.filter_cons_of_pos (by simp [hdot, haccept]), List.map_cons, ih]
        rfl
      · rename_i hreject
        rw [List.filter_cons_of_neg (by simp [hreject]), ih]
        rfl

/-- For a row of the table and a readable directory, `get_pmus` returns 0 exactly
when some PMU of the row has an instance and -1 otherwise; the classes are those
of the PMUs with an instance, in table order, each instance with the entries of
its own PMU; and the instances of an uncore PMU are the accepted folders. -/
theorem getPmus_complete (strcmp_cpuid_str : CStr → CStr → Int)
    (pmu_events_map : List PmuEventsMap) (get_cpuid : PerfCpu → Option CStr)
    (big_c_string : List UInt8) (cache : MapCache) (sys : Sysfs) (map : PmuEventsMap)
    (listing : List CStr)
    (hmap : (mapForCpu strcmp_cpuid_str pmu_events_map get_cpuid cache 0).1 = some map)
    (hlisting : sys.listing = some listing) :
    getPmus strcmp_cpuid_str pmu_events_map get_cpuid big_c_string cache sys =
        .returned
          (if ∃ entry ∈ map.event_table, instancesFound sys big_c_string entry ≠ [] then 0 else -1)
          { classes :=
              (map.event_table.filter fun entry =>
                instancesFound sys big_c_string entry ≠ []).map (classOf sys big_c_string) } ∧
      ∀ entry ∈ map.event_table, getPmuName big_c_string entry ≠ cs "default_core" →
        (classOf sys big_c_string entry).instances.map (·.name) =
          acceptedFolders (getPmuName big_c_string entry) listing := by
  constructor
  · have hempty : ((map.event_table.filter fun entry =>
        instancesFound sys big_c_string entry ≠ []).map (classOf sys big_c_string)).length = 0 ↔
        ¬ ∃ entry ∈ map.event_table, instancesFound sys big_c_string entry ≠ [] := by
      simp only [List.length_eq_zero_iff, List.map_eq_nil_iff, List.filter_eq_nil_iff,
        decide_eq_true_eq, not_exists, not_and]
    rw [getPmus, hmap]
    simp only [classesLoop_eq hlisting, List.nil_append, hempty, ite_not]
    split
    · rfl
    · rfl
  · intro entry _ hname
    have hfound : instancesFound sys big_c_string entry =
        instancesLoop sys (getPmuName big_c_string entry) false listing := by
      simp [instancesFound, getAllPmuInstancesFor, hlisting, hname]
    rw [classOf, hfound, List.map_map, ← instancesLoop_uncore_names sys]
    rfl

/-! ## A table with the row of the test CPU -/

/-- What `strcmp_cpuid_str` answers for a pattern without metacharacters and
without a stepping. -/
def strcmpPlainCpuid (mapcpuid id : CStr) : Int := if mapcpuid = id then 0 else 1

/-- The row `print_mapping_table` writes for the test CPU. -/
def testcpuMap : PmuEventsMap where
  arch := cs "testarch"
  cpuid := cs "testcpu"
  event_table :=
    [{ entries := [{ offset := 13 }], num_entries := 1, pmu_name := { offset := 0 } }]
  metric_table := []

/-- The bytes of a big string that holds the name of the core PMU. -/
def coreName : List UInt8 := cs "default_core" ++ [0]

/-- On the test CPU the class `default_core` is found. -/
theorem getPmus_asDocumented_testcpu :
    (getPmus strcmpPlainCpuid [testcpuMap]
      (getCpuidAllowEnvOverride (some (cs "testcpu")) fun _ => none) coreName .initial
      hybridSysfs).AsDocumented :=
  (getPmus_asDocumented_iff strcmpPlainCpuid [testcpuMap]
    (getCpuidAllowEnvOverride (some (cs "testcpu")) fun _ => none) coreName .initial hybridSysfs
    .initial).mpr ⟨cs "testcpu", rfl, testcpuMap, by simp, by decide⟩

/-- The table entry of an uncore PMU with two events. -/
def chaEntry : PmuTableEntry where
  entries := [{ offset := 20 }, { offset := 40 }]
  num_entries := 2
  pmu_name := { offset := 13 }

/-- A row with the core PMU and one uncore PMU. -/
def chaMap : PmuEventsMap :=
  { testcpuMap with event_table := testcpuMap.event_table ++ [chaEntry] }

/-- The bytes of a big string that holds the names of both PMUs. -/
def chaNames : List UInt8 := coreName ++ cs "cha" ++ [0]

/-- A device directory with two folders of the uncore PMU and none of the core PMU. -/
def chaSysfs : Sysfs where
  listing := some [cs "cha_1", cs "..", cs "chaos", cs "cha_0"]
  accessible := fun _ => false
  content := fun _ => none
  nprocessors := 8

/-- The class of the core PMU is skipped, so the uncore PMU has the first class
but the second table entry. -/
theorem getPmus_complete_cha :
    getPmus strcmpPlainCpuid [chaMap]
        (getCpuidAllowEnvOverride (some (cs "testcpu")) fun _ => none) chaNames .initial
        chaSysfs =
      .returned 0 { classes := [classOf chaSysfs chaNames chaEntry] } ∧
    (classOf chaSysfs chaNames chaEntry).instances.map (·.name) = [cs "cha_1", cs "cha_0"] := by
  obtain ⟨hreturned, hnames⟩ := getPmus_complete strcmpPlainCpuid [chaMap]
    (getCpuidAllowEnvOverride (some (cs "testcpu")) fun _ => none) chaNames .initial chaSysfs
    chaMap [cs "cha_1", cs "..", cs "chaos", cs "cha_0"] (by decide) rfl
  refine ⟨?_, ?_⟩
  · rw [hreturned]
    decide
  · rw [hnames chaEntry (by decide) (by decide)]
    decide

/-- With `PERF_CPUID` set to a string no row matches, the table is read through NULL. -/
theorem not_getPmus_asDocumented_unknown :
    ¬ (getPmus strcmpPlainCpuid [testcpuMap]
      (getCpuidAllowEnvOverride (some (cs "unknown")) fun _ => none) coreName .initial
      hybridSysfs).AsDocumented := by
  have hnull : getPmus strcmpPlainCpuid [testcpuMap]
      (getCpuidAllowEnvOverride (some (cs "unknown")) fun _ => none) coreName .initial
      hybridSysfs = .nullMap := by decide
  rw [hnull]
  exact id

end PmuEvents.Lib
