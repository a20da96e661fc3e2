import PmuEvents.Libc.CString
set_option autoImplicit false

/-!
# The library's data types

The structures of `types.h` and of the internal header `_impl/pmu-events.h`.  A
counted array (`len` with a pointer) is a list.  Of `struct perf_event_attr`,
which the kernel headers declare, the library touches four members; all other
members are one value of an arbitrary type.
-/

namespace PmuEvents.Lib

open PmuEvents.Libc

/-- A range, e.g. "bit 5", "bit 4-6". -/
structure Range where
  start : U64
  end_ : U64
  deriving DecidableEq, Repr

/-- `struct range_list`. -/
abbrev RangeList := List Range

/-- An assignment of the form `key=value`. -/
structure Assignment where
  key : CStr
  value : U64
  deriving DecidableEq, Repr

/-- One of the three `struct perf_event_attr` members that event config can set. -/
inductive AttrVar where
  | config
  | config1
  | config2
  deriving DecidableEq, Repr

/-- A combination of a `perf_event_attr` member with the range list it applies to. -/
structure ConfigDef where
  var : AttrVar
  range : RangeList
  deriving DecidableEq, Repr

/-- `struct perf_event_attr`; `others` stands for every member the library does not name. -/
structure PerfEventAttr (β : Type) where
  type : BitVec 32
  config : U64
  config1 : U64
  config2 : U64
  others : β
  deriving DecidableEq, Repr

namespace PerfEventAttr

variable {β : Type}

/-- The config word an `AttrVar` names. -/
def word (attr : PerfEventAttr β) : AttrVar → U64
  | .config => attr.config
  | .config1 => attr.config1
  | .config2 => attr.config2

/-- Overwrite the config word an `AttrVar` names. -/
def setWord (attr : PerfEventAttr β) (var : AttrVar) (w : U64) : PerfEventAttr β :=
  match var with
  | .config => { attr with config := w }
  | .config1 => { attr with config1 := w }
  | .config2 => { attr with config2 := w }

@[simp] theorem word_setWord_self (attr : PerfEventAttr β) (var : AttrVar) (w : U64) :
    (attr.setWord var w).word var = w := by cases var <;> rfl

theorem word_setWord_of_ne (attr : PerfEventAttr β) {var other : AttrVar} (w : U64)
    (h : other ≠ var) : (attr.setWord var w).word other = attr.word other := by
  cases var <;> cases other <;> first | rfl | exact absurd rfl h

@[simp] theorem type_setWord (attr : PerfEventAttr β) (var : AttrVar) (w : U64) :
    (attr.setWord var w).type = attr.type := by cases var <;> rfl

@[simp] theorem others_setWord (attr : PerfEventAttr β) (var : AttrVar) (w : U64) :
    (attr.setWord var w).others = attr.others := by cases var <;> rfl

/-- The type, the three config words and the other members are all there is. -/
theorem ext_words {a b : PerfEventAttr β} (htype : a.type = b.type)
    (hword : ∀ var, a.word var = b.word var) (hothers : a.others = b.others) : a = b := by
  cases a
  cases b
  have h0 := hword .config
  have h1 := hword .config1
  have h2 := hword .config2
  simp only [word] at h0 h1 h2
  simp_all

end PerfEventAttr

/-- `struct compact_pmu_event`: where a record starts in the big string. -/
structure CompactPmuEvent where
  offset : Int
  deriving DecidableEq, Repr

/-- `struct pmu_table_entry`: one PMU's records and the offset of the PMU's name. -/
structure PmuTableEntry where
  entries : List CompactPmuEvent
  num_entries : Nat
  pmu_name : CompactPmuEvent
  deriving DecidableEq, Repr

/-- An instance of a pmu class, such as `uncore_cbox_0`.  The entries are `none`
until `get_pmus` stores them. -/
structure PmuInstance where
  name : CStr
  cpus : RangeList
  entries : Option (List CompactPmuEvent × Nat) := none
  deriving DecidableEq, Repr

/-- A class of pmu devices, such as `uncore_cbox`. -/
structure PmuClass where
  name : CStr
  instances : List PmuInstance
  deriving DecidableEq, Repr

/-- The list of all PMUs. -/
structure Pmus where
  classes : List PmuClass
  deriving DecidableEq, Repr

end PmuEvents.Lib
