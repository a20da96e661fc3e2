import PmuEvents.Lib.Parse
set_option autoImplicit false

/-!
# The device directory

What the library sees of `/sys/bus/event_source/devices`: the listing of that
directory, which paths exist, and the text `get_file_content` returns for a
path.  A PMU's files are reached through the same path concatenation the library
does.
-/

namespace PmuEvents.Lib

open PmuEvents.Libc

/-- The state of the file system the library reads. -/
structure Sysfs where
  /-- The names `readdir` returns for the base directory, in its order; `none`
  when `opendir` fails. -/
  listing : Option (List CStr)
  /-- Whether `access(path, F_OK)` answers `F_OK`. -/
  accessible : CStr → Bool
  /-- `get_file_content(path)`: the first line of the file, `none` for NULL. -/
  content : CStr → Option CStr
  /-- `sysconf(_SC_NPROCESSORS_ONLN)`. -/
  nprocessors : U64

/-- Base path for all PMU devices in sysfs. -/
def pmuDevicesBase : CStr := cs "/sys/bus/event_source/devices"

/-- `concat_path`: base + "/" + filename. -/
def concatPath (base filename : CStr) : CStr := base ++ cs "/" ++ filename

/-- `get_format_file_content`: the text of `[pmu]/format/[fmt_file]`. -/
def getFormatFileContent (sys : Sysfs) (fmt_file : CStr) (pmu : PmuInstance) :
    Option CStr :=
  let full_path := concatPath pmuDevicesBase pmu.name
  let format_path := concatPath full_path (cs "format/")
  sys.content (concatPath format_path fmt_file)

/-- The `int` -1. -/
def minusOne : BitVec 32 := BitVec.allOnes 32

/-- `read_perf_type`: the number in `[pmu]/type` as an `int`, or -1. -/
def readPerfType (sys : Sysfs) (pmu : PmuInstance) : BitVec 32 :=
  let full_path := concatPath pmuDevicesBase pmu.name
  match sys.content (concatPath full_path (cs "type")) with
  | none => minusOne
  | some content =>
    let res := strtoull 10 content
    if res.endptr ≠ [] then minusOne else res.value.setWidth 32

/-- `get_cpus_for` and `get_cpumask_for`: the range list in `[pmu_path]/[file]`. -/
def getRangesFor (sys : Sysfs) (file pmu_path : CStr) : Option RangeList :=
  let cpus_path := concatPath pmu_path file
  if sys.accessible cpus_path then
    match sys.content cpus_path with
    | none => none
    | some content => parseRangeList content
  else none

/-- `get_cpus_for`. -/
def getCpusFor (sys : Sysfs) (pmu_path : CStr) : Option RangeList :=
  getRangesFor sys (cs "cpus") pmu_path

/-- `get_cpumask_for`. -/
def getCpumaskFor (sys : Sysfs) (pmu_path : CStr) : Option RangeList :=
  getRangesFor sys (cs "cpumask") pmu_path

/-- `all_cpus`: one range for all CPUs in the system. -/
def allCpus (sys : Sysfs) : RangeList := [{ start := 0, end_ := sys.nprocessors - 1 }]

end PmuEvents.Lib
