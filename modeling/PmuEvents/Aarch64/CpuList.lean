import PmuEvents.Aarch64.CpuMap
import PmuEvents.Lib.RangeListText
set_option autoImplicit false

/-!
# Lists of CPUs and their maps

The ranges that a string lists, and which CPUs `perf_cpu_map__new` makes of them.  A
string is read up to the first range that no digit follows its separator; what stands
behind it is not looked at.
-/

namespace PmuEvents.Aarch64

open PmuEvents.Foundation PmuEvents.Libc PmuEvents.Lib PmuEvents.Tables

/-- The entries of the array for CPUs. -/
def toEntries (cpus : List Nat) : List PerfCpu := cpus.map (BitVec.ofNat 16)

/-- The CPUs of ranges, one range behind the other. -/
def listedCpus (ranges : List CpuRange) : List Nat := ranges.flatMap CpuRange.cpus

/-- The ranges a string lists, read until no digit follows. -/
inductive ReadsCpuList : CStr → List CpuRange → Prop
  | done {s : CStr} (h : startsWithDigit s = false) : ReadsCpuList s []
  | range {s p : CStr} {range : CpuRange} {ranges : List CpuRange}
      (hdigit : startsWithDigit s = true) (hread : readRange s = some (range, p))
      (h : ReadsCpuList p.tail ranges) : ReadsCpuList s (range :: ranges)

theorem ReadsCpuList.unique {s : CStr} {ranges ranges' : List CpuRange}
    (h : ReadsCpuList s ranges) (h' : ReadsCpuList s ranges') : ranges = ranges' := by
  induction h generalizing ranges' with
  | done hno =>
    cases h' with
    | done => rfl
    | range hdigit => exact absurd hdigit (by rw [hno]; exact Bool.false_ne_true)
  | range hdigit hread _ ih =>
    cases h' with
    | done hno => exact absurd hdigit (by rw [hno]; exact Bool.false_ne_true)
    | range _ hread' hrest =>
      rw [hread] at hread'
      obtain ⟨rfl, rfl⟩ := Prod.mk.inj (Option.some.inj hread')
      rw [ih hrest]

theorem mem_cpus_iff {range : CpuRange} {c : Nat} :
    c ∈ range.cpus ↔ range.start ≤ c ∧ c ≤ range.end_ := by
  have hle := range.le
  rw [CpuRange.cpus, List.mem_range'_1]
  omega

theorem mem_listedCpus_iff {ranges : List CpuRange} {c : Nat} :
    c ∈ listedCpus ranges ↔ ∃ range ∈ ranges, range.start ≤ c ∧ c ≤ range.end_ := by
  simp only [listedCpus, List.mem_flatMap, mem_cpus_iff]

theorem listedCpus_lt {ranges : List CpuRange} : ∀ c ∈ listedCpus ranges, c < 32767 := by
  intro c hc
  obtain ⟨range, -, -, hle⟩ := mem_listedCpus_iff.mp hc
  exact Nat.lt_of_le_of_lt hle range.lt

theorem toNat_entry {c : Nat} (h : c < 32767) : (BitVec.ofNat 16 c).toNat = c := by
  rw [BitVec.toNat_ofNat]
  exact Nat.mod_eq_of_lt (by omega)

theorem map_toNat_toEntries {cpus : List Nat} (h : ∀ c ∈ cpus, c < 32767) :
    (toEntries cpus).map BitVec.toNat = cpus := by
  rw [toEntries, List.map_map]
  conv_rhs => rw [← List.map_id cpus]
  exact List.map_congr_left fun c hc => toNat_entry (h c hc)

theorem nodup_toEntries {cpus : List Nat} (h : ∀ c ∈ cpus, c < 32767) :
    (toEntries cpus).Nodup ↔ cpus.Nodup := by
  constructor
  · exact List.Nodup.of_map _
  · intro hnodup
    rw [← map_toNat_toEntries h] at hnodup
    exact hnodup.of_map _

/-! ## Collecting the CPUs -/

section Memory

variable (realloc : Nat → Bool)

theorem add_eq_some {end_ start_cpu : Nat} {tmp tmp' : TmpCpus}
    (h : tmp.add realloc end_ start_cpu = some tmp') :
    BitVec.ofNat 16 start_cpu ∉ tmp.cpus ∧
      tmp'.cpus = tmp.cpus ++ [BitVec.ofNat 16 start_cpu] := by
  unfold TmpCpus.add at h
  by_cases hmem : BitVec.ofNat 16 start_cpu ∈ tmp.cpus
  · rw [if_pos hmem] at h
    cases h
  · rw [if_neg hmem] at h
    dsimp only at h
    split_ifs at h
    all_goals
      obtain rfl := Option.some.inj h
      exact ⟨hmem, rfl⟩

theorem exists_add (hmem : ∀ size, realloc size) (end_ : Nat) {start_cpu : Nat} {tmp : TmpCpus}
    (h : BitVec.ofNat 16 start_cpu ∉ tmp.cpus) :
    ∃ tmp', tmp.add realloc end_ start_cpu = some tmp' := by
  unfold TmpCpus.add
  rw [if_neg h]
  split
  · exact ⟨_, if_pos (hmem _)⟩
  · exact ⟨_, rfl⟩

/-- The CPUs of one range are collected behind those before it, if none of them occurs
twice. -/
theorem addAll_eq_some {end_ : Nat} {cpus : List Nat} {tmp tmp' : TmpCpus}
    (hnodup : tmp.cpus.Nodup) (h : cpus.foldlM (TmpCpus.add realloc end_) tmp = some tmp') :
    tmp'.cpus = tmp.cpus ++ toEntries cpus ∧ tmp'.cpus.Nodup := by
  induction cpus generalizing tmp with
  | nil =>
    obtain rfl := Option.some.inj h
    exact ⟨(List.append_nil _).symm, hnodup⟩
  | cons c cpus ih =>
    rw [List.foldlM_cons] at h
    obtain ⟨tmp₁, hadd, hrest⟩ := Option.bind_eq_some_iff.mp h
    obtain ⟨hnot, hcpus⟩ := add_eq_some realloc hadd
    have hnodup₁ : tmp₁.cpus.Nodup := by
      rw [hcpus, List.nodup_append]
      refine ⟨hnodup, List.nodup_singleton _, ?_⟩
      rintro a ha b hb rfl
      rw [List.mem_singleton.mp hb] at ha
      exact hnot ha
    obtain ⟨hall, hnodup'⟩ := ih hnodup₁ hrest
    refine ⟨?_, hnodup'⟩
    rw [hall, hcpus, List.append_assoc]
    rfl

theorem exists_addAll (hmem : ∀ size, realloc size) (end_ : Nat) {cpus : List Nat}
    {tmp : TmpCpus} (h : (tmp.cpus ++ toEntries cpus).Nodup) :
    ∃ tmp', cpus.foldlM (TmpCpus.add realloc end_) tmp = some tmp' := by
  induction cpus generalizing tmp with
  | nil => exact ⟨tmp, rfl⟩
  | cons c cpus ih =>
    have hsplit : tmp.cpus ++ toEntries (c :: cpus) =
        tmp.cpus ++ [BitVec.ofNat 16 c] ++ toEntries cpus := by
      rw [List.append_assoc]
      rfl
    have hnot : BitVec.ofNat 16 c ∉ tmp.cpus := fun hin =>
      (List.nodup_append.mp h).2.2 _ hin _ List.mem_cons_self rfl
    obtain ⟨tmp₁, hadd⟩ := exists_add realloc hmem end_ hnot
    rw [hsplit, ← (add_eq_some realloc hadd).2] at h
    obtain ⟨tmp', hrest⟩ := ih h
    refine ⟨tmp', ?_⟩
    rw [List.foldlM_cons]
    exact Option.bind_eq_some_iff.mpr ⟨tmp₁, hadd, hrest⟩

/-! ## The loop over the list -/

theorem cpuListLoop_done {s : CStr} (h : startsWithDigit s = false) (tmp : TmpCpus) :
    cpuListLoop realloc s tmp = some (tmp, s) := by
  rw [cpuListLoop, dif_neg (by rw [h]; exact Bool.false_ne_true)]

/-- One turn of the loop. -/
theorem cpuListLoop_range {s : CStr} (h : startsWithDigit s = true) (tmp : TmpCpus) :
    cpuListLoop realloc s tmp =
      (readRange s).bind fun read => (tmp.addRange realloc read.1).bind fun tmp' =>
        cpuListLoop realloc read.2.tail tmp' := by
  conv_lhs => rw [cpuListLoop, dif_pos h]
  split
  · rename_i hread
    rw [hread]
    rfl
  · rename_i range p hread
    rw [hread, Option.bind_some]
    cases tmp.addRange realloc range <;> rfl

/-- What the loop collects are the CPUs of the ranges it read, none of them twice. -/
theorem reads_of_cpuListLoop {s rest : CStr} {tmp tmp' : TmpCpus} (hnodup : tmp.cpus.Nodup)
    (h : cpuListLoop realloc s tmp = some (tmp', rest)) :
    ∃ ranges, ReadsCpuList s ranges ∧
      tmp'.cpus = tmp.cpus ++ toEntries (listedCpus ranges) ∧ tmp'.cpus.Nodup := by
  induction hn : s.length using Nat.strongRecOn generalizing s tmp with
  | _ n ih =>
    cases hdigit : startsWithDigit s with
    | false =>
      rw [cpuListLoop_done realloc hdigit] at h
      obtain ⟨rfl, -⟩ := Prod.mk.inj (Option.some.inj h)
      exact ⟨[], .done hdigit, (List.append_nil _).symm, hnodup⟩
    | true =>
      rw [cpuListLoop_range realloc hdigit] at h
      obtain ⟨⟨range, p⟩, hread, h⟩ := Option.bind_eq_some_iff.mp h
      obtain ⟨tmp₁, hadd, hrest⟩ := Option.bind_eq_some_iff.mp h
      obtain ⟨hcpus, hnodup₁⟩ := addAll_eq_some realloc hnodup hadd
      have hshort : p.tail.length < n := by
        have hle := length_readRange_le hread
        cases s with
        | nil => cases hdigit
        | cons b s =>
          rw [List.length_cons] at hn hle
          rw [List.length_tail]
          omega
      obtain ⟨ranges, hreads, hall, hnodup'⟩ := ih _ hshort hnodup₁ hrest rfl
      refine ⟨range :: ranges, .range hdigit hread hreads, ?_, hnodup'⟩
      rw [hall, hcpus, List.append_assoc, toEntries, toEntries, ← List.map_append]
      rfl

theorem exists_cpuListLoop (hmem : ∀ size, realloc size) {s : CStr} {ranges : List CpuRange}
    (hreads : ReadsCpuList s ranges) {tmp : TmpCpus}
    (h : (tmp.cpus ++ toEntries (listedCpus ranges)).Nodup) :
    ∃ tmp' rest, cpuListLoop realloc s tmp = some (tmp', rest) := by
  induction hreads generalizing tmp with
  | done hno => exact ⟨tmp, _, cpuListLoop_done realloc hno tmp⟩
  | @range s p range ranges hdigit hread _ ih =>
    have hsplit : tmp.cpus ++ toEntries (listedCpus (range :: ranges)) =
        tmp.cpus ++ toEntries range.cpus ++ toEntries (listedCpus ranges) := by
      rw [List.append_assoc, toEntries, toEntries, toEntries, ← List.map_append]
      rfl
    rw [hsplit] at h
    have hfirst := (List.nodup_append.mp h).1
    obtain ⟨tmp₁, hadd⟩ := exists_addAll realloc hmem range.end_ hfirst
    rw [← (addAll_eq_some realloc (List.nodup_append.mp hfirst).1 hadd).1] at h
    obtain ⟨tmp', rest, hrest⟩ := ih h
    refine ⟨tmp', rest, ?_⟩
    rw [cpuListLoop_range realloc hdigit, hread, Option.bind_some]
    exact Option.bind_eq_some_iff.mpr ⟨tmp₁, hadd, hrest⟩

/-! ## The map of a string -/

/-- The map holds the CPUs of the ranges, each once and in increasing order. -/
structure MapOf (m : PerfCpuMap) (ranges : List CpuRange) : Prop where
  whole : m.nr = m.map.length
  increasing : (m.map.map BitVec.toNat).Pairwise (· < ·)
  mem_iff : ∀ c, c ∈ m.map.map BitVec.toNat ↔
    ∃ range ∈ ranges, range.start ≤ c ∧ c ≤ range.end_

/-- The map of an array of the listed CPUs. -/
theorem mapOf_trim {ranges : List CpuRange} (hne : listedCpus ranges ≠ [])
    (hnodup : (listedCpus ranges).Nodup) :
    ∃ m, cpuMapTrimNew (toEntries (listedCpus ranges)) = some m ∧ MapOf m ranges := by
  have hentries := (nodup_toEntries listedCpus_lt).mpr hnodup
  have hne' : toEntries (listedCpus ranges) ≠ [] := by simpa [toEntries] using hne
  obtain ⟨m, htrim, hnr, hmap⟩ := cpuMapTrimNew_of_nodup hne' hentries
  have hlt : ∀ c ∈ toEntries (listedCpus ranges), c.toNat < 32767 := by
    intro c hc
    have hmem : c.toNat ∈ (toEntries (listedCpus ranges)).map BitVec.toNat :=
      List.mem_map_of_mem hc
    rw [map_toNat_toEntries listedCpus_lt] at hmem
    exact listedCpus_lt _ hmem
  refine ⟨m, htrim, hnr, ?_, fun c => ?_⟩
  · rw [hmap]
    exact sorted_of_nodup hentries hlt
  · have hperm := (List.mergeSort_perm (toEntries (listedCpus ranges)) cmpCpu).map BitVec.toNat
    rw [hmap, hperm.mem_iff, map_toNat_toEntries listedCpus_lt, mem_listedCpus_iff]

theorem listedCpus_ne_nil {ranges : List CpuRange} (h : ranges ≠ []) : listedCpus ranges ≠ [] := by
  obtain ⟨range, ranges, rfl⟩ := List.exists_cons_of_ne_nil h
  apply List.ne_nil_of_mem (a := range.start)
  exact mem_listedCpus_iff.mpr ⟨range, List.mem_cons_self, Nat.le_refl _, range.le⟩

theorem perfCpuMapNewStr_nil (online : Option (Option PerfCpuMap)) :
    perfCpuMapNewStr realloc online [] = some perfCpuMapNewAnyCpu := by
  have hrefused : ¬ (¬ startsWithDigit [] = true ∧ ([] : CStr) ≠ []) := fun h => h.2 rfl
  rw [perfCpuMapNewStr, if_neg hrefused, cpuListLoop_done realloc rfl]
  rfl

theorem perfCpuMapNewStr_of_noDigit (online : Option (Option PerfCpuMap)) {s : CStr}
    (hne : s ≠ []) (hdigit : startsWithDigit s = false) :
    perfCpuMapNewStr realloc online s = some none := by
  rw [perfCpuMapNewStr, if_pos ⟨by rw [hdigit]; exact Bool.false_ne_true, hne⟩]

/-- On a string that starts with a digit the map is that of the array, and no other
function is asked for one. -/
theorem perfCpuMapNewStr_of_digit (online : Option (Option PerfCpuMap)) {s : CStr}
    (hdigit : startsWithDigit s = true) :
    perfCpuMapNewStr realloc online s =
      some ((cpuListLoop realloc s TmpCpus.empty).bind fun read => cpuMapTrimNew read.1.cpus) := by
  rw [perfCpuMapNewStr, if_neg fun h => h.1 hdigit]
  cases hloop : cpuListLoop realloc s TmpCpus.empty with
  | none => rfl
  | some read =>
    obtain ⟨tmp, rest⟩ := read
    obtain ⟨ranges, hreads, hcpus, -⟩ := reads_of_cpuListLoop realloc List.nodup_nil hloop
    have hpos : 0 < tmp.cpus.length := by
      cases hreads with
      | done hno => exact absurd hdigit (by rw [hno]; exact Bool.false_ne_true)
      | range =>
        rw [hcpus, List.length_append, toEntries, List.length_map]
        exact Nat.add_pos_right _
          (List.length_pos_iff.mpr (listedCpus_ne_nil (List.cons_ne_nil _ _)))
    dsimp only
    rw [if_pos hpos]
    rfl

/-- A call on a string returns, and never through `perf_cpu_map__new_online_cpus`. -/
theorem perfCpuMapNewStr_online (online : Option (Option PerfCpuMap)) (s : CStr) :
    perfCpuMapNewStr realloc online s = perfCpuMapNewStr realloc (some none) s ∧
      (perfCpuMapNewStr realloc online s).isSome := by
  cases hdigit : startsWithDigit s with
  | true =>
    rw [perfCpuMapNewStr_of_digit realloc online hdigit,
      perfCpuMapNewStr_of_digit realloc (some none) hdigit]
    exact ⟨rfl, rfl⟩
  | false =>
    by_cases hnil : s = []
    · subst hnil
      rw [perfCpuMapNewStr_nil, perfCpuMapNewStr_nil]
      exact ⟨rfl, rfl⟩
    · rw [perfCpuMapNewStr_of_noDigit realloc online hnil hdigit,
        perfCpuMapNewStr_of_noDigit realloc (some none) hnil hdigit]
      exact ⟨rfl, rfl⟩

/-- The map a string gives, whether or not memory is short: any CPU for the empty string,
and otherwise the CPUs of its ranges, which are disjoint. -/
theorem mapOf_of_perfCpuMapNewStr {online : Option (Option PerfCpuMap)} {s : CStr}
    {m : PerfCpuMap} (h : perfCpuMapNewStr realloc online s = some (some m)) :
    (s = [] ∧ m.cpus = [-1]) ∨
      ∃ ranges, ReadsCpuList s ranges ∧ ranges ≠ [] ∧ (listedCpus ranges).Nodup ∧
        MapOf m ranges := by
  cases hdigit : startsWithDigit s with
  | false =>
    by_cases hnil : s = []
    · subst hnil
      rw [perfCpuMapNewStr_nil] at h
      obtain rfl := Option.some.inj (Option.some.inj h)
      exact .inl ⟨rfl, rfl⟩
    · rw [perfCpuMapNewStr_of_noDigit realloc online hnil hdigit] at h
      cases Option.some.inj h
  | true =>
    right
    rw [perfCpuMapNewStr_of_digit realloc online hdigit] at h
    obtain ⟨⟨tmp, rest⟩, hloop, htrim⟩ := Option.bind_eq_some_iff.mp (Option.some.inj h)
    obtain ⟨ranges, hreads, hcpus, hnodup⟩ := reads_of_cpuListLoop realloc List.nodup_nil hloop
    have hne : ranges ≠ [] := by
      rintro rfl
      cases hreads with
      | done hno => exact absurd hdigit (by rw [hno]; exact Bool.false_ne_true)
    have hcpus' : tmp.cpus = toEntries (listedCpus ranges) := hcpus
    dsimp only at htrim
    rw [hcpus'] at htrim hnodup
    rw [nodup_toEntries listedCpus_lt] at hnodup
    obtain ⟨m', htrim', hmap⟩ := mapOf_trim (listedCpus_ne_nil hne) hnodup
    rw [htrim'] at htrim
    obtain rfl := Option.some.inj htrim
    exact ⟨ranges, hreads, hne, hnodup, hmap⟩

/-- With enough memory every list of disjoint ranges gives its map. -/
theorem exists_perfCpuMapNewStr (hmem : ∀ size, realloc size)
    (online : Option (Option PerfCpuMap)) {s : CStr} {ranges : List CpuRange}
    (hreads : ReadsCpuList s ranges) (hne : ranges ≠ []) (hnodup : (listedCpus ranges).Nodup) :
    ∃ m, perfCpuMapNewStr realloc online s = some (some m) ∧ MapOf m ranges := by
  have hdigit : startsWithDigit s = true := by
    cases hreads with
    | done => exact absurd rfl hne
    | range hdigit => exact hdigit
  have hentries : (TmpCpus.empty.cpus ++ toEntries (listedCpus ranges)).Nodup :=
    (nodup_toEntries listedCpus_lt).mpr hnodup
  obtain ⟨tmp, rest, hloop⟩ := exists_cpuListLoop realloc hmem hreads hentries
  obtain ⟨ranges', hreads', hcpus, -⟩ := reads_of_cpuListLoop realloc List.nodup_nil hloop
  obtain rfl := hreads.unique hreads'
  obtain ⟨m, htrim, hmap⟩ := mapOf_trim (listedCpus_ne_nil hne) hnodup
  have hcpus' : tmp.cpus = toEntries (listedCpus ranges) := hcpus
  refine ⟨m, ?_, hmap⟩
  rw [perfCpuMapNewStr_of_digit realloc online hdigit, hloop, Option.bind_some, hcpus', htrim]

end Memory

/-! ## Printed lists -/

/-- A range as `start-end`, or as one number. -/
def rangeText (range : CpuRange) : CStr :=
  if range.start = range.end_ then utf8 (Nat.toDigits 10 range.start)
  else utf8 (Nat.toDigits 10 range.start) ++ chr '-' :: utf8 (Nat.toDigits 10 range.end_)

/-- The texts of the ranges, joined by commas. -/
def cpuListText : List CpuRange → CStr
  | [] => []
  | [range] => rangeText range
  | range :: ranges => rangeText range ++ chr ',' :: cpuListText ranges

/-- What may stand behind a list: a separator and anything that no digit starts. -/
def ListEnds (rest : CStr) : Prop :=
  rest.head? ∈ [none, some (chr ','), some (chr '\n')] ∧ startsWithDigit rest.tail = false

instance (rest : CStr) : Decidable (ListEnds rest) := inferInstanceAs (Decidable (_ ∧ _))

theorem startsWithDigit_of_digitIn {b : UInt8} {s : CStr} (h : (digitIn 10 b).isSome) :
    startsWithDigit (b :: s) = true := by
  unfold digitIn at h
  by_cases hdigit : 0x30 ≤ b ∧ b ≤ 0x39
  · simpa [startsWithDigit] using hdigit
  · by_cases hlower : 0x61 ≤ b ∧ b ≤ 0x7a
    · have hle := UInt8.le_iff_toNat_le.mp hlower.1
      have h61 : (0x61 : UInt8).toNat = 97 := rfl
      simp only [hdigit, hlower, and_self, if_true, if_false] at h
      rw [if_neg (by omega)] at h
      cases h
    · by_cases hupper : 0x41 ≤ b ∧ b ≤ 0x5a
      · have hle := UInt8.le_iff_toNat_le.mp hupper.1
        have h41 : (0x41 : UInt8).toNat = 65 := rfl
        simp only [hdigit, hlower, hupper, and_self, if_true, if_false] at h
        rw [if_neg (by omega)] at h
        cases h
      · simp [hdigit, hlower, hupper] at h

theorem startsWithDigit_toDigits (n : Nat) (rest : CStr) :
    startsWithDigit (utf8 (Nat.toDigits 10 n) ++ rest) = true := by
  have hten : 1 < 10 := by decide
  have hdigits := digitIn_toDigits hten (Nat.le_refl 10) (by decide) n
  obtain ⟨b, s, hcons⟩ := List.exists_cons_of_ne_nil (utf8_toDigits_ne_nil hten (by decide) n)
  rw [hcons] at hdigits ⊢
  exact startsWithDigit_of_digitIn (hdigits b List.mem_cons_self)

theorem startsWithDigit_rangeText (range : CpuRange) (rest : CStr) :
    startsWithDigit (rangeText range ++ rest) = true := by
  unfold rangeText
  split
  · exact startsWithDigit_toDigits _ _
  · rw [List.append_assoc]
    exact startsWithDigit_toDigits _ _

/-- A number of a range, in front of what ends it. -/
theorem strtoul_number {n : Nat} (hn : n < 32767) {rest : CStr}
    (hrest : rest.head? ∈ [none, some (chr ','), some (chr '-'), some (chr '\n')]) :
    (strtoul (utf8 (Nat.toDigits 10 n) ++ rest)).value.toNat = n ∧
      (strtoul (utf8 (Nat.toDigits 10 n) ++ rest)).endptr = rest := by
  have hend : NoAlnum rest := by
    intro b hb
    rw [Option.mem_def] at hb
    rw [hb] at hrest
    simp only [List.mem_cons, Option.some.injEq, List.not_mem_nil, or_false, reduceCtorEq,
      false_or] at hrest
    rcases hrest with rfl | rfl | rfl <;> decide
  rw [strtoul_toDigits n hend, clamped_toNat, clamped_endptr]
  exact ⟨by omega, rfl⟩

theorem readRange_one {s p : CStr} {n : Nat} (hn : n < 32767)
    (hvalue : (strtoul s).value.toNat = n) (hend : (strtoul s).endptr = p)
    (hp : p.head? ∈ [none, some (chr ','), some (chr '\n')]) :
    readRange s = some (⟨n, n, Nat.le_refl n, hn⟩, p) := by
  subst hvalue hend
  have hsep : (strtoul s).endptr.head? ∈
      [none, some (chr ','), some (chr '-'), some (chr '\n')] := by
    simp only [List.mem_cons, List.not_mem_nil, or_false] at hp ⊢
    tauto
  unfold readRange
  dsimp only
  rw [dif_pos ⟨hn, hsep⟩]
  split
  · rename_i hnil
    exact congrArg (fun p => some ((⟨_, _, Nat.le_refl _, hn⟩ : CpuRange), p)) hnil.symm
  · rename_i c p hcons
    have hc : c ≠ chr '-' := by
      rintro rfl
      rw [hcons, List.head?_cons] at hp
      exact absurd hp (by decide)
    rw [if_neg hc]
    exact congrArg (fun p => some ((⟨_, _, Nat.le_refl _, hn⟩ : CpuRange), p)) hcons.symm

theorem readRange_two {s p q : CStr} {n k : Nat} (hn : n ≤ k) (hk : k < 32767)
    (hvalue : (strtoul s).value.toNat = n) (hend : (strtoul s).endptr = chr '-' :: p)
    (hvalue' : (strtoul p).value.toNat = k) (hend' : (strtoul p).endptr = q)
    (hq : q.head? ∈ [none, some (chr ','), some (chr '\n')]) :
    readRange s = some (⟨n, k, hn, hk⟩, q) := by
  subst hvalue hvalue' hend'
  have hfirst : (strtoul s).value.toNat < 32767 ∧ (strtoul s).endptr.head? ∈
      [none, some (chr ','), some (chr '-'), some (chr '\n')] := by
    rw [hend]
    exact ⟨Nat.lt_of_le_of_lt hn hk, by simp⟩
  unfold readRange
  dsimp only
  rw [dif_pos hfirst]
  split
  · rename_i hnil
    rw [hnil] at hend
    cases hend
  · rename_i c p' hcons
    obtain ⟨rfl, rfl⟩ := List.cons.inj (hcons.symm.trans hend)
    rw [if_pos rfl, dif_pos ⟨hk, hq⟩, dif_pos hn]

/-- A printed range is read back, up to the separator behind it. -/
theorem readRange_rangeText (range : CpuRange) {rest : CStr}
    (hrest : rest.head? ∈ [none, some (chr ','), some (chr '\n')]) :
    readRange (rangeText range ++ rest) = some (range, rest) := by
  obtain ⟨start, stop, hle, hlt⟩ := range
  have hsep : rest.head? ∈ [none, some (chr ','), some (chr '-'), some (chr '\n')] := by
    simp only [List.mem_cons, List.not_mem_nil, or_false] at hrest ⊢
    tauto
  have hstop := strtoul_number hlt hsep
  unfold rangeText
  dsimp only
  split
  · rename_i heq
    subst heq
    exact readRange_one hlt hstop.1 hstop.2 hrest
  · rw [List.append_assoc]
    have hdash : (chr '-' :: (utf8 (Nat.toDigits 10 stop) ++ rest)).head? ∈
        [none, some (chr ','), some (chr '-'), some (chr '\n')] := by simp
    have hstart := strtoul_number (Nat.lt_of_le_of_lt hle hlt) hdash
    exact readRange_two hle hlt hstart.1 hstart.2 hstop.1 hstop.2 hrest

/-- A printed list is read back, whatever stands behind its last separator. -/
theorem readsCpuList_cpuListText {ranges : List CpuRange} (hne : ranges ≠ []) {rest : CStr}
    (hrest : ListEnds rest) : ReadsCpuList (cpuListText ranges ++ rest) ranges := by
  induction ranges with
  | nil => exact absurd rfl hne
  | cons range ranges ih =>
    cases ranges with
    | nil =>
      exact .range (startsWithDigit_rangeText range rest)
        (readRange_rangeText range hrest.1) (.done hrest.2)
    | cons next ranges =>
      rw [cpuListText, List.append_assoc, List.cons_append]
      · exact .range (startsWithDigit_rangeText range _)
          (readRange_rangeText range (by simp)) (ih (List.cons_ne_nil _ _))
      · exact List.cons_ne_nil _ _

/-! ## Round trip -/

/-- Two ranges without a common CPU. -/
def CpuRange.Disjoint (range range' : CpuRange) : Prop :=
  range.end_ < range'.start ∨ range'.end_ < range.start

instance (range range' : CpuRange) : Decidable (range.Disjoint range') :=
  inferInstanceAs (Decidable (_ ∨ _))

theorem nodup_listedCpus {ranges : List CpuRange} :
    (listedCpus ranges).Nodup ↔ ranges.Pairwise CpuRange.Disjoint := by
  unfold listedCpus
  rw [List.nodup_flatMap]
  constructor
  · rintro ⟨-, hdisjoint⟩
    refine hdisjoint.imp fun {range range'} h => ?_
    by_contra hmeet
    have hle := range.le
    have hle' := range'.le
    simp only [CpuRange.Disjoint, not_or, Nat.not_lt] at hmeet
    exact h (a := max range.start range'.start) (mem_cpus_iff.mpr (by omega))
      (mem_cpus_iff.mpr (by omega))
  · intro hdisjoint
    refine ⟨fun range _ => List.nodup_range', hdisjoint.imp fun {range range'} h c hc hc' => ?_⟩
    rw [mem_cpus_iff] at hc hc'
    unfold CpuRange.Disjoint at h
    omega

/-- The map of a printed list has the CPUs of its ranges, unless two of them meet; then
there is none. -/
theorem perfCpuMapNewStr_cpuListText {realloc : Nat → Bool} (hmem : ∀ size, realloc size)
    (online : Option (Option PerfCpuMap)) {ranges : List CpuRange} (hne : ranges ≠ [])
    {rest : CStr} (hrest : ListEnds rest) :
    if ranges.Pairwise CpuRange.Disjoint then
      ∃ m, perfCpuMapNewStr realloc online (cpuListText ranges ++ rest) = some (some m) ∧
        MapOf m ranges
    else perfCpuMapNewStr realloc online (cpuListText ranges ++ rest) = some none := by
  have hreads := readsCpuList_cpuListText hne hrest
  split
  · rename_i hdisjoint
    exact exists_perfCpuMapNewStr realloc hmem online hreads hne (nodup_listedCpus.mpr hdisjoint)
  · rename_i hmeet
    have hreturns := (perfCpuMapNewStr_online realloc online (cpuListText ranges ++ rest)).2
    obtain ⟨result, hresult⟩ := Option.isSome_iff_exists.mp hreturns
    cases result with
    | none => exact hresult
    | some m =>
      rcases mapOf_of_perfCpuMapNewStr realloc hresult with ⟨hnil, -⟩ | ⟨ranges', hreads', -, h, -⟩
      · rw [hnil] at hreads
        cases hreads with
        | done => exact absurd rfl hne
        | range hdigit => cases hdigit
      · obtain rfl := hreads.unique hreads'
        exact absurd (nodup_listedCpus.mp h) hmeet

/-- The form in which the kernel prints the CPUs that are online. -/
theorem perfCpuMapNewStr_cpuListText_two :
    ∃ m, perfCpuMapNewStr (fun _ => true) none (cs "0-3,5\n") = some (some m) ∧
      MapOf m [⟨0, 3, by decide, by decide⟩, ⟨5, 5, by decide, by decide⟩] := by
  have hne : [(⟨0, 3, by decide, by decide⟩ : CpuRange), ⟨5, 5, by decide, by decide⟩] ≠ [] :=
    List.cons_ne_nil _ _
  have hrest : ListEnds [chr '\n'] := by decide
  have hmemory : ∀ size, (fun _ : Nat => true) size = true := fun _ => rfl
  have hmap := perfCpuMapNewStr_cpuListText hmemory none hne hrest
  rwa [if_pos (by decide)] at hmap

/-- A list out of order, with text behind it that is not looked at. -/
theorem mapOf_of_perfCpuMapNewStr_unordered :
    ∃ m ranges, perfCpuMapNewStr (fun _ => true) none (cs "2,0-1,x") = some (some m) ∧
      ranges ≠ [] ∧ (listedCpus ranges).Nodup ∧ MapOf m ranges := by
  have hne : [(⟨2, 2, by decide, by decide⟩ : CpuRange), ⟨0, 1, by decide, by decide⟩] ≠ [] :=
    List.cons_ne_nil _ _
  have hrest : ListEnds (cs ",x") := by decide
  have hreads := readsCpuList_cpuListText hne hrest
  obtain ⟨m, hnew, -⟩ := exists_perfCpuMapNewStr (fun _ => true) (fun _ => rfl) none hreads hne
    (nodup_listedCpus.mpr (by decide))
  rcases mapOf_of_perfCpuMapNewStr (fun _ => true) hnew with ⟨hnil, -⟩ | ⟨ranges, -, h⟩
  · cases hnil
  · exact ⟨m, ranges, hnew, h⟩

end PmuEvents.Aarch64
