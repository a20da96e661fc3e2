import PmuEvents.Aarch64.CpuList
import PmuEvents.Aarch64.Io
import PmuEvents.Lib.FileContent
set_option autoImplicit false

/-!
# The cpuid string on AArch64

`get_cpuid_str` reads the identification register of a CPU; for any CPU it tries those
that are online, one after another.  The CPUs that are online come from a file of sysfs,
or else from `sysconf`.  The main results: which CPU the string is read from, and when
the assertion of `_get_cpuid` fails.
-/

namespace PmuEvents.Aarch64

open PmuEvents.Foundation PmuEvents.Libc PmuEvents.Lib PmuEvents.Tables

/-- What the functions learn from the system. -/
structure System where
  /-- `/sys/devices/system/cpu/online`, by what the calls of `read` store. -/
  online : Option (List (List UInt8))
  /-- `sysconf(_SC_NPROCESSORS_ONLN)` -/
  nprocessors : Int
  /-- The requests for the text of this file that are granted, by their sizes. -/
  reallocLine : Nat → Bool
  /-- The requests for the CPUs in a list that are granted, by their sizes. -/
  reallocCpus : Nat → Bool
  /-- The content of a file, if `fopen` can open it. -/
  fopen : CStr → Option (List UInt8)

variable (sys : System)

/-! ## The CPUs that are online -/

/-- `cpu_map__new_sysfs_online`, where `new` is `perf_cpu_map__new`. -/
def cpuMapNewSysfsOnline (new : Option CStr → Option (Option PerfCpuMap)) :
    Option (Option PerfCpuMap) :=
  match filenameReadStr sys.reallocLine sys.online with
  | some buf => new (some (cstr buf))
  | none => some none

/-- `cpu_map__new_sysconf` -/
def cpuMapNewSysconf : Option PerfCpuMap :=
  if sys.nprocessors < 0 then none
  else perfCpuMapAlloc ((List.range sys.nprocessors.toNat).map (BitVec.ofNat 16))

/-- `perf_cpu_map__new_online_cpus`, where `new` is `perf_cpu_map__new`. -/
def perfCpuMapNewOnlineCpus (new : Option CStr → Option (Option PerfCpuMap)) :
    Option (Option PerfCpuMap) :=
  match cpuMapNewSysfsOnline sys new with
  | none => none
  | some (some cpus) => some (some cpus)
  | some none => some (cpuMapNewSysconf sys)

/-- `perf_cpu_map__new`, which calls itself through `perf_cpu_map__new_online_cpus`;
`none` where the calls nest deeper than `depth`. -/
def perfCpuMapNew : Nat → Option CStr → Option (Option PerfCpuMap)
  | 0, _ => none
  | depth + 1, none => perfCpuMapNewOnlineCpus sys (perfCpuMapNew depth)
  | depth + 1, some cpu_list =>
    perfCpuMapNewStr sys.reallocCpus (perfCpuMapNewOnlineCpus sys (perfCpuMapNew depth)) cpu_list

/-- The map of the CPUs that are online. -/
def onlineCpus : Option PerfCpuMap :=
  match filenameReadStr sys.reallocLine sys.online with
  | none => cpuMapNewSysconf sys
  | some buf =>
    match perfCpuMapNewStr sys.reallocCpus (some none) (cstr buf) with
    | some (some cpus) => some cpus
    | _ => cpuMapNewSysconf sys

theorem perfCpuMapNew_some (depth : Nat) (cpu_list : CStr) :
    perfCpuMapNew sys (depth + 1) (some cpu_list) =
      perfCpuMapNewStr sys.reallocCpus (some none) cpu_list :=
  (perfCpuMapNewStr_online sys.reallocCpus _ cpu_list).1

/-- The calls never nest deeper than once through the file. -/
theorem perfCpuMapNew_none (depth : Nat) :
    perfCpuMapNew sys (depth + 2) none = some (onlineCpus sys) := by
  rw [perfCpuMapNew, perfCpuMapNewOnlineCpus, cpuMapNewSysfsOnline, onlineCpus]
  cases filenameReadStr sys.reallocLine sys.online with
  | none => rfl
  | some buf =>
    dsimp only
    rw [perfCpuMapNew_some]
    have hreturns := (perfCpuMapNewStr_online sys.reallocCpus (some none) (cstr buf)).2
    obtain ⟨result, hresult⟩ := Option.isSome_iff_exists.mp hreturns
    rw [hresult]
    cases result <;> rfl

/-! ## Reading the register -/

/-- What `_get_cpuid` does if it does not return `EINVAL`. -/
inductive Cpuid
  /-- The assertion on the CPU fails. -/
  | abort
  | text (buf : CStr)
  deriving DecidableEq, Repr

/-- `fgets(buf, size, file)`, on a file from its start. -/
def fgets (size : Nat) (file : List UInt8) : Option CStr :=
  if file = [] then none else some (cstr (cut (· = chr '\n') (file.take (size - 1))).1)

/-- The file of the register of a CPU. -/
def midrPath (cpu : PerfCpu) : CStr :=
  cs "/sys/devices/system/cpu/cpu" ++ cs (toString cpu.toInt) ++
    cs "/regs/identification/midr_el1"

/-- The register of a CPU, as the first `MIDR_SIZE - 1` characters of its file. -/
def readMidr (cpu : PerfCpu) : Option CStr := (sys.fopen (midrPath cpu)).bind (fgets 19)

/-- `_get_cpuid`; `none` for `EINVAL`. -/
def getCpuidOf (cpu : PerfCpu) : Option Cpuid :=
  if cpu = -1 then some .abort else (readMidr sys cpu).map .text

/-- `get_cpuid`; `none` for `EINVAL`. -/
def getCpuid (cpu : PerfCpu) : Option Cpuid :=
  if cpu ≠ -1 then getCpuidOf sys cpu
  else
    match perfCpuMapNewOnlineCpus sys (perfCpuMapNew sys 1) with
    | none => none
    | some none => none
    | some (some cpus) => cpus.cpus.findSome? (getCpuidOf sys)

/-- `get_cpuid_str`; `none` for NULL. -/
def getCpuidStr (cpu : PerfCpu) : Option Cpuid := getCpuid sys cpu

variable {sys}

theorem getCpuidStr_any :
    getCpuidStr sys (-1) =
      (onlineCpus sys).bind fun cpus => cpus.cpus.findSome? (getCpuidOf sys) := by
  have honline : perfCpuMapNewOnlineCpus sys (perfCpuMapNew sys 1) = some (onlineCpus sys) :=
    perfCpuMapNew_none sys 0
  rw [getCpuidStr, getCpuid, if_neg (not_not_intro rfl), honline]
  cases onlineCpus sys <;> rfl

theorem getCpuidOf_eq_abort {cpu : PerfCpu} : getCpuidOf sys cpu = some .abort ↔ cpu = -1 := by
  unfold getCpuidOf
  split
  · rename_i h
    exact ⟨fun _ => h, fun _ => rfl⟩
  · rename_i h
    refine ⟨fun heq => ?_, fun hcpu => absurd hcpu h⟩
    obtain ⟨buf, -, hbuf⟩ := Option.map_eq_some_iff.mp heq
    cases hbuf

theorem MapOf.cpus_eq {m : PerfCpuMap} {ranges : List CpuRange} (h : MapOf m ranges) :
    m.cpus = m.map := by
  rw [PerfCpuMap.cpus, h.whole, List.take_length]

theorem MapOf.lt {m : PerfCpuMap} {ranges : List CpuRange} (h : MapOf m ranges) :
    ∀ cpu ∈ m.cpus, cpu.toNat < 32767 := by
  intro cpu hcpu
  rw [h.cpus_eq] at hcpu
  obtain ⟨range, -, -, hle⟩ := (h.mem_iff cpu.toNat).mp (List.mem_map_of_mem hcpu)
  exact Nat.lt_of_le_of_lt hle range.lt

/-- The CPUs that are not from an empty file are CPUs. -/
theorem ne_any_of_mem_onlineCpus (hn : sys.nprocessors ≤ 65535)
    (hfile : ∀ buf, filenameReadStr sys.reallocLine sys.online = some buf → cstr buf ≠ [])
    {m : PerfCpuMap} (h : onlineCpus sys = some m) : ∀ cpu ∈ m.cpus, cpu ≠ -1 := by
  have hsysconf : ∀ {m}, cpuMapNewSysconf sys = some m → ∀ cpu ∈ m.cpus, cpu ≠ -1 := by
    intro m hm cpu hcpu
    unfold cpuMapNewSysconf perfCpuMapAlloc at hm
    split_ifs at hm
    obtain rfl := Option.some.inj hm
    rw [PerfCpuMap.cpus, List.take_length] at hcpu
    obtain ⟨i, hi, rfl⟩ := List.mem_map.mp hcpu
    rw [List.mem_range] at hi
    intro heq
    have htoNat := congrArg BitVec.toNat heq
    have hone : (-1 : PerfCpu).toNat = 65535 := rfl
    rw [BitVec.toNat_ofNat, hone] at htoNat
    omega
  unfold onlineCpus at h
  cases hread : filenameReadStr sys.reallocLine sys.online with
  | none =>
    rw [hread] at h
    exact hsysconf h
  | some buf =>
    rw [hread] at h
    dsimp only at h
    split at h
    · rename_i cpus hnew
      obtain rfl := Option.some.inj h
      rcases mapOf_of_perfCpuMapNewStr sys.reallocCpus hnew with ⟨hnil, -⟩ | ⟨ranges, -, -, -, hmap⟩
      · exact absurd hnil (hfile buf hread)
      · intro cpu hcpu heq
        have hlt := hmap.lt cpu hcpu
        rw [heq] at hlt
        exact absurd hlt (by decide)
    · exact hsysconf h

/-- Asking for any CPU trips the assertion exactly when the file of the CPUs that are
online can be read and is empty. -/
theorem getCpuidStr_eq_abort_iff (hn : sys.nprocessors ≤ 65535) :
    getCpuidStr sys (-1) = some .abort ↔
      ∃ buf, filenameReadStr sys.reallocLine sys.online = some buf ∧ cstr buf = [] := by
  rw [getCpuidStr_any]
  constructor
  · intro h
    obtain ⟨m, honline, hfind⟩ := Option.bind_eq_some_iff.mp h
    obtain ⟨before, cpu, after, hcpus, habort, -⟩ := List.findSome?_eq_some_iff.mp hfind
    by_contra hnone
    have hfile : ∀ buf, filenameReadStr sys.reallocLine sys.online = some buf → cstr buf ≠ [] :=
      fun buf hread hnil => hnone ⟨buf, hread, hnil⟩
    refine ne_any_of_mem_onlineCpus hn hfile honline cpu ?_ (getCpuidOf_eq_abort.mp habort)
    rw [hcpus]
    exact List.mem_append_right _ List.mem_cons_self
  · rintro ⟨buf, hread, hnil⟩
    have honline : onlineCpus sys = perfCpuMapNewAnyCpu := by
      unfold onlineCpus
      rw [hread]
      dsimp only
      rw [hnil, perfCpuMapNewStr_nil]
      rfl
    rw [honline]
    rfl

/-- A system whose file of the CPUs that are online is empty. -/
def emptyOnline : System :=
  { online := some [], nprocessors := 4, reallocLine := fun _ => true
    reallocCpus := fun _ => true, fopen := fun _ => none }

theorem getCpuidStr_abort_empty : getCpuidStr emptyOnline (-1) = some .abort := by
  have hn : emptyOnline.nprocessors ≤ 65535 := by decide
  exact (getCpuidStr_eq_abort_iff hn).mpr
    ⟨[], (filenameReadStr_eq_some_iff _).mpr ⟨[], rfl, rfl, fun _ _ _ _ => rfl, rfl⟩, rfl⟩

/-! ## The file lists the CPUs -/

/-- The file of the CPUs that are online holds a list of disjoint ranges, in whatever
pieces it is read. -/
structure ListsOnline (sys : System) (ranges : List CpuRange) : Prop where
  memory : ∀ size, sys.reallocLine size ∧ sys.reallocCpus size
  some_range : ranges ≠ []
  disjoint : ranges.Pairwise CpuRange.Disjoint
  file : ∃ fd rest, sys.online = some fd ∧ ListEnds rest ∧
    cstr (fd.takeWhile (· ≠ [])).flatten = cpuListText ranges ++ rest

theorem ListsOnline.onlineCpus {ranges : List CpuRange} (h : ListsOnline sys ranges) :
    ∃ m, onlineCpus sys = some m ∧ MapOf m ranges := by
  obtain ⟨fd, rest, hfd, hrest, htext⟩ := h.file
  have hread : filenameReadStr sys.reallocLine sys.online =
      some (fd.takeWhile (· ≠ [])).flatten :=
    (filenameReadStr_eq_some_iff sys.reallocLine).mpr
      ⟨fd, hfd, rfl, fun size _ _ _ => (h.memory size).1, (h.memory _).1⟩
  obtain ⟨m, hnew, hmap⟩ := exists_perfCpuMapNewStr sys.reallocCpus
    (fun size => (h.memory size).2) (some none)
    (readsCpuList_cpuListText h.some_range hrest) h.some_range (nodup_listedCpus.mpr h.disjoint)
  refine ⟨m, ?_, hmap⟩
  unfold PmuEvents.Aarch64.onlineCpus
  rw [hread]
  dsimp only
  rw [htext, hnew]

/-- A CPU of one of the ranges. -/
def Listed (ranges : List CpuRange) (c : Nat) : Prop :=
  ∃ range ∈ ranges, range.start ≤ c ∧ c ≤ range.end_

/-- In a list with increasing keys the first answer is that of the lowest key. -/
theorem findSome_increasing_iff {α β : Type} {key : α → Nat} {l : List α}
    (hkeys : (l.map key).Pairwise (· < ·)) {f : α → Option β} {b : β} :
    l.findSome? f = some b ↔
      ∃ a ∈ l, f a = some b ∧ ∀ a' ∈ l, key a' < key a → f a' = none := by
  rw [List.findSome?_eq_some_iff]
  constructor
  · rintro ⟨before, a, after, rfl, hfirst, hnone⟩
    refine ⟨a, List.mem_append_right _ List.mem_cons_self, hfirst, fun a' ha' hlt => ?_⟩
    rw [List.map_append, List.map_cons, List.pairwise_append] at hkeys
    rcases List.mem_append.mp ha' with hbefore | hafter
    · exact hnone a' hbefore
    · rcases List.mem_cons.mp hafter with rfl | hafter
      · exact absurd hlt (Nat.lt_irrefl _)
      · have hgt := (List.pairwise_cons.mp hkeys.2.1).1 (key a') (List.mem_map_of_mem hafter)
        omega
  · rintro ⟨a, ha, hfirst, hnone⟩
    obtain ⟨before, after, rfl⟩ := List.append_of_mem ha
    refine ⟨before, a, after, rfl, hfirst, fun a' ha' => ?_⟩
    rw [List.map_append, List.map_cons, List.pairwise_append] at hkeys
    exact hnone a' (List.mem_append_left _ ha')
      (hkeys.2.2 (key a') (List.mem_map_of_mem ha') (key a) List.mem_cons_self)

theorem ofNat_toNat_entry (cpu : PerfCpu) : BitVec.ofNat 16 cpu.toNat = cpu :=
  BitVec.eq_of_toNat_eq (by rw [BitVec.toNat_ofNat]; exact Nat.mod_eq_of_lt cpu.isLt)

/-- The CPUs of the map are the entries of the listed numbers. -/
theorem MapOf.mem_cpus_iff {m : PerfCpuMap} {ranges : List CpuRange} (h : MapOf m ranges)
    {cpu : PerfCpu} : cpu ∈ m.cpus ↔ Listed ranges cpu.toNat := by
  rw [h.cpus_eq, Listed, ← h.mem_iff]
  constructor
  · exact List.mem_map_of_mem
  · intro hmem
    obtain ⟨cpu', hcpu', heq⟩ := List.mem_map.mp hmem
    rwa [← BitVec.eq_of_toNat_eq heq]

theorem Listed.lt {ranges : List CpuRange} {c : Nat} (h : Listed ranges c) : c < 32767 := by
  obtain ⟨range, -, -, hle⟩ := h
  exact Nat.lt_of_le_of_lt hle range.lt

theorem getCpuidOf_of_lt {cpu : PerfCpu} (h : cpu.toNat < 32767) :
    getCpuidOf sys cpu = (readMidr sys cpu).map .text := by
  have hne : cpu ≠ -1 := by
    rintro rfl
    exact absurd h (by decide)
  rw [getCpuidOf, if_neg hne]

/-- For any CPU the string is that of the lowest CPU that is online and whose register
can be read. -/
theorem getCpuidStr_eq_text_iff {ranges : List CpuRange} (h : ListsOnline sys ranges)
    (buf : CStr) :
    getCpuidStr sys (-1) = some (.text buf) ↔
      ∃ c, Listed ranges c ∧ readMidr sys (BitVec.ofNat 16 c) = some buf ∧
        ∀ c' < c, Listed ranges c' → readMidr sys (BitVec.ofNat 16 c') = none := by
  obtain ⟨m, honline, hmap⟩ := h.onlineCpus
  have hkeys : (m.cpus.map BitVec.toNat).Pairwise (· < ·) := by
    rw [hmap.cpus_eq]
    exact hmap.increasing
  rw [getCpuidStr_any, honline, Option.bind_some, findSome_increasing_iff hkeys]
  constructor
  · rintro ⟨cpu, hcpu, hread, hnone⟩
    rw [getCpuidOf_of_lt (hmap.lt cpu hcpu)] at hread
    obtain ⟨buf', hbuf', heq⟩ := Option.map_eq_some_iff.mp hread
    obtain rfl := Cpuid.text.inj heq
    refine ⟨cpu.toNat, hmap.mem_cpus_iff.mp hcpu, by rwa [ofNat_toNat_entry], ?_⟩
    intro c' hlt hlisted
    have htoNat := toNat_entry hlisted.lt
    have hprobe := hnone (BitVec.ofNat 16 c') (hmap.mem_cpus_iff.mpr (by rwa [htoNat]))
      (by rwa [htoNat])
    rw [getCpuidOf_of_lt (by rw [htoNat]; exact hlisted.lt)] at hprobe
    exact Option.map_eq_none_iff.mp hprobe
  · rintro ⟨c, hlisted, hread, hnone⟩
    have htoNat := toNat_entry hlisted.lt
    refine ⟨BitVec.ofNat 16 c, hmap.mem_cpus_iff.mpr (by rwa [htoNat]), ?_, ?_⟩
    · rw [getCpuidOf_of_lt (by rw [htoNat]; exact hlisted.lt), hread]
      rfl
    · intro cpu' hcpu' hlt
      rw [htoNat] at hlt
      have hprobe := hnone cpu'.toNat hlt (hmap.mem_cpus_iff.mp hcpu')
      rw [ofNat_toNat_entry] at hprobe
      rw [getCpuidOf_of_lt (hmap.lt cpu' hcpu'), hprobe]
      rfl

/-- A system with the CPUs 0 and 1, of which 0 has no register to read. -/
def secondReadable : System where
  online := some [cs "0-", cs "1\n"]
  nprocessors := 2
  reallocLine := fun _ => true
  reallocCpus := fun _ => true
  fopen := fun path =>
    if path = cs "/sys/devices/system/cpu/cpu1/regs/identification/midr_el1" then
      some (cs "0x00000000410fd0c0\n")
    else none

theorem getCpuidStr_second :
    getCpuidStr secondReadable (-1) = some (.text (cs "0x00000000410fd0c0")) := by
  have hlists : ListsOnline secondReadable [⟨0, 1, by decide, by decide⟩] :=
    { memory := fun _ => ⟨rfl, rfl⟩
      some_range := List.cons_ne_nil _ _
      disjoint := by decide
      file := ⟨[cs "0-", cs "1\n"], [chr '\n'], rfl, by decide, by decide⟩ }
  refine (getCpuidStr_eq_text_iff hlists _).mpr ⟨1, ⟨_, List.mem_cons_self, by decide⟩, ?_, ?_⟩
  · decide
  · intro c' hlt _
    obtain rfl : c' = 0 := by omega
    decide

end PmuEvents.Aarch64
