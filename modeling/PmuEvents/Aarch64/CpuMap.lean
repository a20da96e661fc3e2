import PmuEvents.Libc.Strtoul
import PmuEvents.Tables.MapForCpu
import Mathlib.Algebra.Group.Nat.Defs
import Mathlib.Data.List.Nodup
import Mathlib.Data.List.Range
import Mathlib.Data.List.Pairwise
set_option autoImplicit false

/-!
# `perf_cpu_map__new`

The list of CPUs is read range by range into an array that grows, every CPU is checked
against those before it, and the array is sorted into the map.  The main results: what a
map can hold, and that the map of a printed list has exactly the CPUs of its ranges,
unless two of them meet.
-/

namespace PmuEvents.Aarch64

open PmuEvents.Foundation PmuEvents.Libc PmuEvents.Tables

/-! ## The array that grows -/

/-- A range of CPUs below `INT16_MAX`. -/
structure CpuRange where
  start : Nat
  end_ : Nat
  le : start ≤ end_
  lt : end_ < 32767
  deriving DecidableEq, Repr

/-- The CPUs of a range, in order. -/
def CpuRange.cpus (range : CpuRange) : List Nat :=
  List.range' range.start (range.end_ + 1 - range.start)

/-- `tmp_cpus` with `nr_cpus` entries written and room for `max_entries`. -/
structure TmpCpus where
  cpus : List PerfCpu
  max_entries : Nat
  fits : cpus.length ≤ max_entries

/-- `tmp_cpus` before the first CPU. -/
def TmpCpus.empty : TmpCpus := { cpus := [], max_entries := 0, fits := Nat.le_refl 0 }

section Memory

-- whether `realloc` grants a request of so many bytes; the requests of one call grow, so
-- that the size tells which of them it is
variable (realloc : Nat → Bool)

/-- The body of the loop over a range; `none` is the jump to `invalid`. -/
def TmpCpus.add (end_ : Nat) (tmp : TmpCpus) (start_cpu : Nat) : Option TmpCpus :=
  if BitVec.ofNat 16 start_cpu ∈ tmp.cpus then none
  else if h : tmp.cpus.length = tmp.max_entries then
    let max_entries :=
      tmp.max_entries + if 16 < end_ - start_cpu + 1 then end_ - start_cpu + 1 else 16
    if realloc (max_entries * 2) then
      some
        { cpus := tmp.cpus ++ [BitVec.ofNat 16 start_cpu]
          max_entries
          fits := by
            rw [List.length_append, List.length_singleton, h]
            exact Nat.add_le_add_left (by split <;> omega) _ }
    else none
  else
    some
      { tmp with
        cpus := tmp.cpus ++ [BitVec.ofNat 16 start_cpu]
        fits := by
          have := tmp.fits
          rw [List.length_append, List.length_singleton]
          omega }

/-- The loop over a range. -/
def TmpCpus.addRange (tmp : TmpCpus) (range : CpuRange) : Option TmpCpus :=
  range.cpus.foldlM (TmpCpus.add realloc range.end_) tmp

/-! ## The loop over the list -/

/-- `isdigit` on the first character of a string. -/
def startsWithDigit (s : CStr) : Bool := s.head?.any fun b => 0x30 ≤ b && b ≤ 0x39

/-- The two numbers of a range, and where the second one ends; `none` is the jump to
`invalid`. -/
def readRange (cpu_list : CStr) : Option (CpuRange × CStr) :=
  let first := strtoul cpu_list
  if hfirst : first.value.toNat < 32767 ∧
      first.endptr.head? ∈ [none, some (chr ','), some (chr '-'), some (chr '\n')] then
    match first.endptr with
    | [] => some (⟨_, _, Nat.le_refl _, hfirst.1⟩, [])
    | c :: p =>
      if c = chr '-' then
        let second := strtoul p
        if hsecond : second.value.toNat < 32767 ∧
            second.endptr.head? ∈ [none, some (chr ','), some (chr '\n')] then
          if hle : first.value.toNat ≤ second.value.toNat then
            some (⟨_, _, hle, hsecond.1⟩, second.endptr)
          else none
        else none
      else some (⟨_, _, Nat.le_refl _, hfirst.1⟩, c :: p)
  else none

theorem length_readRange_le {cpu_list p : CStr} {range : CpuRange}
    (h : readRange cpu_list = some (range, p)) : p.length ≤ cpu_list.length := by
  have hfirst := length_endptr_le cpu_list
  unfold readRange at h
  dsimp only at h
  split at h
  · split at h
    · obtain ⟨-, rfl⟩ := Prod.mk.inj (Option.some.inj h)
      exact Nat.zero_le _
    · rename_i c q heq
      rw [heq, List.length_cons] at hfirst
      have hsecond := length_endptr_le q
      split_ifs at h
      all_goals
        obtain ⟨-, rfl⟩ := Prod.mk.inj (Option.some.inj h)
        omega
  · cases h

/-- The loop over the list: the CPUs collected, and where it stops; `none` is the jump
to `invalid`. -/
def cpuListLoop (cpu_list : CStr) (tmp : TmpCpus) : Option (TmpCpus × CStr) :=
  if _hdigit : startsWithDigit cpu_list then
    match _h : readRange cpu_list with
    | none => none
    | some (range, p) =>
      match tmp.addRange realloc range with
      | none => none
      | some tmp' => cpuListLoop p.tail tmp'
  else some (tmp, cpu_list)
termination_by cpu_list.length
decreasing_by
  have hle := length_readRange_le _h
  cases cpu_list with
  | nil => cases _hdigit
  | cons b s =>
    rw [List.length_tail, List.length_cons] at *
    omega

end Memory

/-! ## Maps -/

/-- `struct perf_cpu_map`, with the length of the array that was allocated for it. -/
structure PerfCpuMap where
  map : List PerfCpu
  nr : Nat
  le : nr ≤ map.length
  deriving DecidableEq, Repr

/-- The CPUs of a map. -/
def PerfCpuMap.cpus (cpus : PerfCpuMap) : List PerfCpu := cpus.map.take cpus.nr

/-- `perf_cpu_map__alloc`; its callers fill the array at once, with `contents`. -/
def perfCpuMapAlloc (contents : List PerfCpu) : Option PerfCpuMap :=
  if contents.length = 0 then none
  else some { map := contents, nr := contents.length, le := Nat.le_refl _ }

/-- `perf_cpu_map__new_any_cpu`. -/
def perfCpuMapNewAnyCpu : Option PerfCpuMap := perfCpuMapAlloc [-1]

/-- `cmp_cpu`, as the order it gives `qsort`. -/
def cmpCpu (a b : PerfCpu) : Bool := decide (a.toInt - b.toInt ≤ 0)

/-- The body of the loop that removes duplicates, on the map and `j`. -/
def trimStep (state : List PerfCpu × Nat) (i : Nat) : List PerfCpu × Nat :=
  if i = 0 ∨ state.1[i]? ≠ state.1[i - 1]? then
    (state.1.set state.2 ((state.1[i]?).getD 0), state.2 + 1)
  else state

theorem trim_le (map : List PerfCpu) (n : Nat) :
    ((List.range n).foldl trimStep (map, 0)).1.length = map.length ∧
      ((List.range n).foldl trimStep (map, 0)).2 ≤ n := by
  induction n with
  | zero => exact ⟨rfl, Nat.le_refl _⟩
  | succ n ih =>
    rw [List.range_succ, List.foldl_append, List.foldl_cons, List.foldl_nil]
    unfold trimStep
    split
    · exact ⟨by rw [List.length_set]; exact ih.1, Nat.succ_le_succ ih.2⟩
    · exact ⟨ih.1, Nat.le_succ_of_le ih.2⟩

/-- `cpu_map__trim_new`; the field `le` is its assertion. -/
def cpuMapTrimNew (tmp_cpus : List PerfCpu) : Option PerfCpuMap :=
  match perfCpuMapAlloc tmp_cpus with
  | none => none
  | some cpus =>
    let sorted := cpus.map.mergeSort cmpCpu
    let trimmed := (List.range sorted.length).foldl trimStep (sorted, 0)
    some
      { map := trimmed.1
        nr := trimmed.2
        le := by
          rw [(trim_le sorted sorted.length).1]
          exact (trim_le sorted sorted.length).2 }

/-- `perf_cpu_map__new` on a string; `online` is what a call of
`perf_cpu_map__new_online_cpus` returns, `none` if it does not. -/
def perfCpuMapNewStr (realloc : Nat → Bool) (online : Option (Option PerfCpuMap))
    (cpu_list : CStr) : Option (Option PerfCpuMap) :=
  if ¬ startsWithDigit cpu_list ∧ cpu_list ≠ [] then some none
  else
    match cpuListLoop realloc cpu_list TmpCpus.empty with
    | none => some none
    | some (tmp, rest) =>
      if 0 < tmp.cpus.length then some (cpuMapTrimNew tmp.cpus)
      else if rest ≠ [] then online
      else some perfCpuMapNewAnyCpu

/-! ## Sorting -/

theorem trim_of_nodup {map : List PerfCpu} (hnodup : map.Nodup) {n : Nat} (hn : n ≤ map.length) :
    (List.range n).foldl trimStep (map, 0) = (map, n) := by
  induction n with
  | zero => rfl
  | succ n ih =>
    rw [List.range_succ, List.foldl_append, ih (Nat.le_of_succ_le hn), List.foldl_cons,
      List.foldl_nil]
    have hlt : n < map.length := hn
    have hne : n = 0 ∨ map[n]? ≠ map[n - 1]? := by
      rcases Nat.eq_zero_or_pos n with hzero | hpos
      · exact .inl hzero
      · right
        have hlt' : n - 1 < map.length := by omega
        rw [List.getElem?_eq_getElem hlt, List.getElem?_eq_getElem hlt', ne_eq, Option.some.injEq,
          hnodup.getElem_inj_iff]
        omega
    rw [trimStep, if_pos hne, List.getElem?_eq_getElem hlt, Option.getD_some,
      List.set_getElem_self]

theorem cmpCpu_trans (a b c : PerfCpu) (hab : cmpCpu a b) (hbc : cmpCpu b c) : cmpCpu a c := by
  simp only [cmpCpu, decide_eq_true_eq] at *
  omega

theorem cmpCpu_total (a b : PerfCpu) : (cmpCpu a b || cmpCpu b a) = true := by
  simp only [cmpCpu, Bool.or_eq_true, decide_eq_true_eq]
  omega

/-- The map of an array of distinct CPUs: the duplicates are gone before it is sorted. -/
theorem cpuMapTrimNew_of_nodup {tmp_cpus : List PerfCpu} (hne : tmp_cpus ≠ [])
    (hnodup : tmp_cpus.Nodup) :
    ∃ m, cpuMapTrimNew tmp_cpus = some m ∧ m.nr = m.map.length ∧
      m.map = tmp_cpus.mergeSort cmpCpu := by
  have hlen : tmp_cpus.length ≠ 0 := by simpa using hne
  have hsorted : (tmp_cpus.mergeSort cmpCpu).Nodup :=
    (List.mergeSort_perm _ _).nodup_iff.mpr hnodup
  unfold cpuMapTrimNew perfCpuMapAlloc
  rw [if_neg hlen]
  refine ⟨_, rfl, ?_, ?_⟩
  all_goals
    dsimp only
    rw [trim_of_nodup hsorted (Nat.le_refl _)]

/-- The CPUs of a sorted map increase, as numbers without a sign too if they have none. -/
theorem sorted_of_nodup {tmp_cpus : List PerfCpu} (hnodup : tmp_cpus.Nodup)
    (hlt : ∀ c ∈ tmp_cpus, c.toNat < 32767) :
    ((tmp_cpus.mergeSort cmpCpu).map BitVec.toNat).Pairwise (· < ·) := by
  have hperm := List.mergeSort_perm tmp_cpus cmpCpu
  have hsorted : (tmp_cpus.mergeSort cmpCpu).Nodup := hperm.nodup_iff.mpr hnodup
  have hle := List.pairwise_mergeSort cmpCpu_trans cmpCpu_total tmp_cpus
  rw [List.pairwise_map]
  refine (hle.and hsorted).imp_of_mem ?_
  rintro a b ha hb ⟨hab, hne⟩
  have hinta := BitVec.toInt_eq_toNat_of_lt (x := a)
    (by have := hlt a (hperm.mem_iff.mp ha); omega)
  have hintb := BitVec.toInt_eq_toNat_of_lt (x := b)
    (by have := hlt b (hperm.mem_iff.mp hb); omega)
  have hne' : a.toNat ≠ b.toNat := fun h => hne (BitVec.eq_of_toNat_eq h)
  simp only [cmpCpu, decide_eq_true_eq, hinta, hintb] at hab
  omega

end PmuEvents.Aarch64
