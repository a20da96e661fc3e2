import PmuEvents.Lib.Types
set_option autoImplicit false

/-!
# The generated `map_for_cpu`

The search of the mapping table for the row of a CPU, with its two static
caches: the last answer by CPU number, and the last search by cpuid string.
`strcmp_cpuid_str` is chosen at compile time (x86 or aarch64), so it is a
parameter, as is the function that gives a CPU its cpuid string.
-/

namespace PmuEvents.Tables

open PmuEvents.Libc PmuEvents.Lib

/-- `struct perf_cpu`. -/
abbrev PerfCpu := BitVec 16

/-- `struct pmu_events_map`, with the table of events counted by its length. -/
structure PmuEventsMap where
  arch : CStr
  cpuid : CStr
  event_table : List PmuTableEntry
  metric_table : List PmuTableEntry
  deriving DecidableEq, Repr

/-- `get_cpuid_allow_env_override`: `PERF_CPUID` first, then the hardware. -/
def getCpuidAllowEnvOverride (perf_cpuid : Option CStr)
    (get_cpuid_str : PerfCpu → Option CStr) (cpu : PerfCpu) : Option CStr :=
  match perf_cpuid with
  | some cpuid => some cpuid
  | none => get_cpuid_str cpu

/-- The static variables of `map_for_cpu`; `none` while the `has_` flag is unset. -/
structure MapCache where
  last_result : Option (Option PmuEventsMap × PerfCpu)
  last_map_search : Option (Option PmuEventsMap × CStr)

/-- The static variables before the first call. -/
def MapCache.initial : MapCache := { last_result := none, last_map_search := none }

section Search

variable (strcmp_cpuid_str : CStr → CStr → Int) (pmu_events_map : List PmuEventsMap)

/-- The `for` loop: the first row whose pattern matches the cpuid, NULL at the
row that ends the table. -/
def searchMap (cpuid : CStr) : Option PmuEventsMap :=
  pmu_events_map.find? fun map => strcmp_cpuid_str map.cpuid cpuid = 0

variable (get_cpuid : PerfCpu → Option CStr)

/-- `map_for_cpu`: the row it returns (`none` for NULL) and the caches it leaves. -/
def mapForCpu (cache : MapCache) (cpu : PerfCpu) : Option PmuEventsMap × MapCache :=
  match cache.last_result.filter fun last => last.2 = cpu with
  | some last => (last.1, cache)
  | none =>
    match get_cpuid cpu with
    | none => (none, { cache with last_result := some (none, cpu) })
    | some cpuid =>
      match cache.last_map_search.filter fun last => strcmp last.2 cpuid = .eq with
      | some last => (last.1, { cache with last_result := some (last.1, cpu) })
      | none =>
        let map := searchMap strcmp_cpuid_str pmu_events_map cpuid
        (map, { last_result := some (map, cpu), last_map_search := some (map, cpuid) })

/-- The answers to a sequence of calls, each made on the caches the one before left. -/
def mapForCpuCalls (cache : MapCache) : List PerfCpu → List (Option PmuEventsMap)
  | [] => []
  | cpu :: calls =>
    let answer := mapForCpu strcmp_cpuid_str pmu_events_map get_cpuid cache cpu
    answer.1 :: mapForCpuCalls answer.2 calls

/-- The caches a run of calls can leave, for cpuid strings fixed over the run. -/
inductive ReachableCache : MapCache → Prop
  | initial : ReachableCache .initial
  | call {cache : MapCache} (cpu : PerfCpu) (h : ReachableCache cache) :
      ReachableCache (mapForCpu strcmp_cpuid_str pmu_events_map get_cpuid cache cpu).2

/-- The answer without caches. -/
def plainSearch (cpu : PerfCpu) : Option PmuEventsMap :=
  (get_cpuid cpu).bind (searchMap strcmp_cpuid_str pmu_events_map)

/-- Both caches hold what a search without them would find. -/
structure CacheValid (cache : MapCache) : Prop where
  result : ∀ map cpu, cache.last_result = some (map, cpu) →
    map = plainSearch strcmp_cpuid_str pmu_events_map get_cpuid cpu
  search : ∀ map cpuid, cache.last_map_search = some (map, cpuid) →
    map = searchMap strcmp_cpuid_str pmu_events_map cpuid

end Search

section Valid

variable {strcmp_cpuid_str : CStr → CStr → Int} {pmu_events_map : List PmuEventsMap}
variable {get_cpuid : PerfCpu → Option CStr}

/-- One call on valid caches answers as the plain search and leaves valid caches. -/
theorem mapForCpu_valid {cache : MapCache}
    (h : CacheValid strcmp_cpuid_str pmu_events_map get_cpuid cache) (cpu : PerfCpu) :
    (mapForCpu strcmp_cpuid_str pmu_events_map get_cpuid cache cpu).1 =
        plainSearch strcmp_cpuid_str pmu_events_map get_cpuid cpu ∧
      CacheValid strcmp_cpuid_str pmu_events_map get_cpuid
        (mapForCpu strcmp_cpuid_str pmu_events_map get_cpuid cache cpu).2 := by
  unfold mapForCpu
  split
  · rename_i last hlast
    obtain ⟨hres, hcpu⟩ := Option.filter_eq_some_iff.mp hlast
    obtain ⟨map, cpu'⟩ := last
    simp only [decide_eq_true_eq] at hcpu
    subst hcpu
    exact ⟨h.result _ _ hres, h⟩
  · split
    · rename_i hid
      have hplain : plainSearch strcmp_cpuid_str pmu_events_map get_cpuid cpu = none := by
        simp [plainSearch, hid]
      refine ⟨hplain.symm, ⟨?_, h.search⟩⟩
      intro map cpu' heq
      obtain ⟨rfl, rfl⟩ := Prod.mk.inj (Option.some.inj heq)
      exact hplain.symm
    · rename_i cpuid hid
      have hplain : plainSearch strcmp_cpuid_str pmu_events_map get_cpuid cpu =
          searchMap strcmp_cpuid_str pmu_events_map cpuid := by
        simp [plainSearch, hid]
      rw [hplain]
      split
      · rename_i last hlast
        obtain ⟨hres, hcpuid⟩ := Option.filter_eq_some_iff.mp hlast
        obtain ⟨map, cpuid'⟩ := last
        simp only [decide_eq_true_eq, strcmp_eq_iff] at hcpuid
        subst hcpuid
        have hmap := h.search _ _ hres
        refine ⟨hmap, ⟨?_, h.search⟩⟩
        intro map' cpu' heq
        obtain ⟨rfl, rfl⟩ := Prod.mk.inj (Option.some.inj heq)
        rw [hplain, hmap]
      · refine ⟨rfl, ⟨?_, ?_⟩⟩
        · intro map' cpu' heq
          obtain ⟨rfl, rfl⟩ := Prod.mk.inj (Option.some.inj heq)
          exact hplain.symm
        · intro map' cpuid' heq
          obtain ⟨rfl, rfl⟩ := Prod.mk.inj (Option.some.inj heq)
          rfl

/-- The caches are valid after any run of calls. -/
theorem ReachableCache.valid {cache : MapCache}
    (h : ReachableCache strcmp_cpuid_str pmu_events_map get_cpuid cache) :
    CacheValid strcmp_cpuid_str pmu_events_map get_cpuid cache := by
  induction h with
  | initial => exact ⟨by simp [MapCache.initial], by simp [MapCache.initial]⟩
  | call cpu _ ih => exact (mapForCpu_valid ih cpu).2

/-- From valid caches every call of a sequence answers as the plain search. -/
theorem mapForCpuCalls_of_valid {cache : MapCache}
    (h : CacheValid strcmp_cpuid_str pmu_events_map get_cpuid cache) (calls : List PerfCpu) :
    mapForCpuCalls strcmp_cpuid_str pmu_events_map get_cpuid cache calls =
      calls.map (plainSearch strcmp_cpuid_str pmu_events_map get_cpuid) := by
  induction calls generalizing cache with
  | nil => rfl
  | cons cpu calls ih =>
    obtain ⟨hanswer, hvalid⟩ := mapForCpu_valid h cpu
    rw [mapForCpuCalls, List.map_cons, hanswer, ih hvalid]

end Valid

/-- In every sequence of calls, each call returns NULL for a CPU without a cpuid,
and else the first row of the table whose pattern matches the cpuid. -/
theorem mapForCpuCalls_eq_find (strcmp_cpuid_str : CStr → CStr → Int)
    (pmu_events_map : List PmuEventsMap) (get_cpuid : PerfCpu → Option CStr)
    (calls : List PerfCpu) :
    mapForCpuCalls strcmp_cpuid_str pmu_events_map get_cpuid .initial calls =
      calls.map fun cpu =>
        match get_cpuid cpu with
        | none => none
        | some cpuid => pmu_events_map.find? fun map => strcmp_cpuid_str map.cpuid cpuid = 0 := by
  rw [mapForCpuCalls_of_valid ReachableCache.initial.valid]
  apply List.map_congr_left
  intro cpu _
  unfold plainSearch
  cases get_cpuid cpu with
  | none => rfl
  | some cpuid => rfl

/-- The plain search finds a row exactly when the CPU has a cpuid some pattern matches. -/
theorem plainSearch_isSome_iff (strcmp_cpuid_str : CStr → CStr → Int)
    (pmu_events_map : List PmuEventsMap) (get_cpuid : PerfCpu → Option CStr) (cpu : PerfCpu) :
    (plainSearch strcmp_cpuid_str pmu_events_map get_cpuid cpu).isSome ↔
      ∃ cpuid, get_cpuid cpu = some cpuid ∧
        ∃ map ∈ pmu_events_map, strcmp_cpuid_str map.cpuid cpuid = 0 := by
  unfold plainSearch
  cases get_cpuid cpu with
  | none => simp
  | some cpuid => simp [searchMap, List.find?_isSome]

end PmuEvents.Tables
