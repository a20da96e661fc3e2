import PmuEvents.Jevents.Decompress
import PmuEvents.Libc.Strcmp
set_option autoImplicit false

/-!
# Metric groups

The array that `print_metricgroups` writes is sorted by the names as they stand in
the file, with the terminator `\000` spelled out, and `describe_metricgroup` searches
it with `strcmp`.  The main result says for which names the two orders agree.
-/

namespace PmuEvents.Jevents

open PmuEvents.Foundation PmuEvents.Libc

/-- The terminator as it is spelled in the file. -/
def nulText : Text := "\\000".toList

/-- The names of the metric groups with their descriptions. -/
structure MetricGroups where
  entries : List (Text × Text)
  nodup : (entries.map Prod.fst).Nodup
  plain : ∀ entry ∈ entries, ∀ c ∈ entry.1, c ≠ '\\' ∧ c ≠ '"' ∧ c ≠ '\x00'

namespace MetricGroups

variable (groups : MetricGroups)

/-- `_metricgroups`. -/
def dict : List (Text × Text) :=
  groups.entries.map fun entry => (entry.1 ++ nulText, entry.2 ++ nulText)

/-- `sorted(_metricgroups)`. -/
def sortedKeys : List Text := (groups.dict.map Prod.fst).insertionSort (· ≤ ·)

/-- `print_metricgroups`: the rows of the array `metricgroups`. -/
def printMetricgroups (offsets : Text → Int) : List (Int × Int) :=
  groups.sortedKeys.map fun mgroup =>
    (offsets mgroup, offsets ((groups.dict.lookup mgroup).getD []))

end MetricGroups

/-- `describe_metricgroup`, with the C strings at the offsets of `big_c_string`.  The
sums of two indices are taken not to overflow an `int`. -/
def describeMetricgroup (big_c_string : Int → CStr) (metricgroups : List (Int × Int))
    (group : CStr) : Option CStr :=
  let row (mid : Int) : Int × Int := metricgroups.getD mid.toNat (0, 0)
  (binarySearch (fun mid => strcmp (big_c_string (row mid).1) group) 0
      ((metricgroups.length : Int) - 1)).map
    fun mid => big_c_string (row mid).2

/-- The offsets of the big string read back the right texts. -/
structure OffsetsRead (big_c_string : Int → CStr) (offsets : Text → Int)
    (groups : MetricGroups) : Prop where
  name : ∀ entry ∈ groups.entries, big_c_string (offsets (entry.1 ++ nulText)) = utf8 entry.1
  description : ∀ entry ∈ groups.entries,
    big_c_string (offsets (entry.2 ++ nulText)) = utf8 entry.2

/-- Every group has its description, and nothing else has one. -/
def DescribesGroups (big_c_string : Int → CStr) (offsets : Text → Int)
    (groups : MetricGroups) : Prop :=
  ∀ group : CStr, 0 ∉ group →
    describeMetricgroup big_c_string (groups.printMetricgroups offsets) group =
      (groups.entries.find? fun entry => utf8 entry.1 = group).map fun entry => utf8 entry.2

/-- A name is a proper prefix of another one that goes on with a character below the
backslash. -/
def HasLowExtension (groups : MetricGroups) : Prop :=
  ∃ short ∈ groups.entries, ∃ long ∈ groups.entries, ∃ c r,
    long.1 = short.1 ++ c :: r ∧ c < '\\'

namespace MetricGroups

variable (groups : MetricGroups)

/-! ## The rows -/

/-- The names in the order of the rows. -/
def sortedNames : List Text := groups.sortedKeys.map fun key => removesuffix key nulText

theorem removesuffix_append (s t : Text) : removesuffix (s ++ t) t = s := by
  have hsuffix : t.isSuffixOf (s ++ t) = true := List.isSuffixOf_iff_suffix.mpr ⟨s, rfl⟩
  rw [removesuffix, if_pos hsuffix, List.length_append, Nat.add_sub_cancel, List.take_left]

theorem sortedKeys_perm : groups.sortedKeys.Perm (groups.dict.map Prod.fst) :=
  List.perm_insertionSort _ _

theorem dict_keys :
    groups.dict.map Prod.fst = (groups.entries.map Prod.fst).map (· ++ nulText) := by
  rw [dict, List.map_map, List.map_map]
  rfl

theorem sortedNames_perm : groups.sortedNames.Perm (groups.entries.map Prod.fst) := by
  have h := groups.sortedKeys_perm.map fun key => removesuffix key nulText
  rw [dict_keys, List.map_map] at h
  have hid : (groups.entries.map Prod.fst).map
      ((fun key => removesuffix key nulText) ∘ (· ++ nulText)) = groups.entries.map Prod.fst := by
    refine (List.map_congr_left fun s _ => ?_).trans (List.map_id _)
    exact removesuffix_append s nulText
  rw [hid] at h
  exact h

theorem sortedKeys_eq : groups.sortedKeys = groups.sortedNames.map (· ++ nulText) := by
  rw [sortedNames, List.map_map]
  refine (List.map_id groups.sortedKeys).symm.trans (List.map_congr_left fun key hkey => ?_)
  have hmem := groups.sortedKeys_perm.mem_iff.mp hkey
  rw [dict_keys] at hmem
  obtain ⟨name, -, rfl⟩ := List.mem_map.mp hmem
  rw [Function.comp_apply, removesuffix_append, id]

theorem sortedNames_nodup : groups.sortedNames.Nodup :=
  groups.sortedNames_perm.nodup_iff.mpr groups.nodup

theorem sortedKeys_pairwise : groups.sortedKeys.Pairwise (· < ·) := by
  have hsorted : groups.sortedKeys.Pairwise (· ≤ ·) := List.pairwise_insertionSort _ _
  have hnodup : groups.sortedKeys.Nodup := by
    rw [sortedKeys_eq]
    exact groups.sortedNames_nodup.map fun _ _ h => List.append_cancel_right h
  exact hsorted.imp₂ (fun _ _ hle hne => lt_of_le_of_ne hle hne) hnodup

/-- The names stand in increasing order exactly when none has a low extension: only
then does the backslash of the terminator put a name behind its extension. -/
theorem sortedNames_pairwise_iff :
    groups.sortedNames.Pairwise (· < ·) ↔ ¬ HasLowExtension groups := by
  have hkeys := groups.sortedKeys_pairwise
  rw [sortedKeys_eq, List.pairwise_map] at hkeys
  have hmem (name : Text) : name ∈ groups.sortedNames ↔ name ∈ groups.entries.map Prod.fst :=
    groups.sortedNames_perm.mem_iff
  constructor
  · rintro hsorted ⟨short, hshort, long, hlong, c, r, heq, hc⟩
    have hshort' := (hmem _).mpr (List.mem_map_of_mem hshort)
    have hlong' := (hmem _).mpr (List.mem_map_of_mem hlong)
    have hlt : short.1 < long.1 := by
      refine lt_of_le_of_ne (le_of_isPrefix ⟨c :: r, heq.symm⟩) fun hsame => ?_
      rw [← hsame] at heq
      simp at heq
    -- the two names stand in this order, and so do their keys
    have hkey : short.1 ++ nulText < long.1 ++ nulText := by
      obtain ⟨i, hi, hget⟩ := List.getElem_of_mem hshort'
      obtain ⟨j, hj, hget'⟩ := List.getElem_of_mem hlong'
      rcases Nat.lt_trichotomy i j with hij | rfl | hji
      · rw [← hget, ← hget']
        exact List.pairwise_iff_getElem.mp hkeys i j hi hj hij
      · rw [hget] at hget'
        exact absurd hget' (ne_of_lt hlt)
      · have := List.pairwise_iff_getElem.mp hsorted j i hj hi hji
        rw [hget, hget'] at this
        exact absurd this (lt_asymm hlt)
    rw [heq, List.append_assoc, append_lt_append_iff] at hkey
    rcases List.cons_lt_cons_iff.mp hkey with hlow | ⟨hsame, -⟩
    · exact absurd hlow (lt_asymm hc)
    · exact absurd hc (hsame ▸ lt_irrefl _)
  · intro hlow
    refine hkeys.imp_of_mem ?_
    intro a b ha hb hkey
    obtain ⟨entry, hentry, rfl⟩ := List.mem_map.mp ((hmem a).mp ha)
    obtain ⟨entry', hentry', rfl⟩ := List.mem_map.mp ((hmem b).mp hb)
    by_contra hnot
    rcases lt_or_eq_of_le (not_lt.mp hnot) with hlt | hsame
    · rcases Classical.em (entry'.1 <+: entry.1) with ⟨s, hs⟩ | hpre
      · cases s with
        | nil =>
          rw [List.append_nil] at hs
          exact absurd hs (ne_of_lt hlt)
        | cons c r =>
          rw [← hs, List.append_assoc, append_lt_append_iff] at hkey
          rcases List.cons_lt_cons_iff.mp hkey with hc | ⟨hsame, -⟩
          · exact hlow ⟨entry', hentry', entry, hentry, c, r, hs.symm, hc⟩
          · have hmemc : c ∈ entry.1 := hs ▸ List.mem_append_right _ List.mem_cons_self
            exact (groups.plain entry hentry c hmemc).1 hsame
      · exact absurd hkey (lt_asymm (append_lt_append_of_not_isPrefix hlt hpre nulText nulText))
    · rw [hsame] at hkey
      exact absurd hkey (lt_irrefl _)

/-! ## The search -/

/-- The name in a row. -/
def nameAt (mid : Int) : Text := groups.sortedNames.getD mid.toNat []

/-- The index of the last row. -/
def lastRow : Int := (groups.sortedNames.length : Int) - 1

theorem lookup_of_mem {l : List (Text × Text)} (hnodup : (l.map Prod.fst).Nodup)
    {entry : Text × Text} (h : entry ∈ l) : l.lookup entry.1 = some entry.2 := by
  induction l with
  | nil => cases h
  | cons head l ih =>
    obtain ⟨hhead, hnodup⟩ := List.nodup_cons.mp hnodup
    rcases List.mem_cons.mp h with rfl | h
    · exact List.lookup_cons_self
    · have hne : (entry.1 == head.1) = false := by
        rw [beq_eq_false_iff_ne]
        intro heq
        exact hhead (heq ▸ List.mem_map_of_mem h)
      rw [List.lookup_cons, hne]
      exact ih hnodup h

theorem lookup_dict {entry : Text × Text} (h : entry ∈ groups.entries) :
    groups.dict.lookup (entry.1 ++ nulText) = some (entry.2 ++ nulText) := by
  have hnodup : (groups.dict.map Prod.fst).Nodup := by
    rw [dict_keys]
    exact groups.nodup.map fun _ _ heq => List.append_cancel_right heq
  exact lookup_of_mem hnodup (List.mem_map_of_mem (f := fun entry : Text × Text =>
    (entry.1 ++ nulText, entry.2 ++ nulText)) h)

theorem length_printMetricgroups (offsets : Text → Int) :
    ((groups.printMetricgroups offsets).length : Int) - 1 = groups.lastRow := by
  rw [lastRow, printMetricgroups, sortedNames, List.length_map, List.length_map]

/-- What is in a row. -/
theorem printMetricgroups_row (offsets : Text → Int) {mid : Int} (hlow : 0 ≤ mid)
    (hhigh : mid ≤ groups.lastRow) :
    ∃ entry ∈ groups.entries, groups.nameAt mid = entry.1 ∧
      (groups.printMetricgroups offsets).getD mid.toNat (0, 0) =
        (offsets (entry.1 ++ nulText), offsets (entry.2 ++ nulText)) := by
  have hlt : mid.toNat < groups.sortedNames.length := by
    rw [lastRow] at hhigh
    omega
  have hname : groups.nameAt mid = groups.sortedNames[mid.toNat] := by
    rw [nameAt, List.getD_eq_getElem _ _ hlt]
  have hmem := groups.sortedNames_perm.mem_iff.mp (List.getElem_mem hlt)
  obtain ⟨entry, hentry, heq⟩ := List.mem_map.mp hmem
  refine ⟨entry, hentry, hname.trans heq.symm, ?_⟩
  have hrows : groups.printMetricgroups offsets = groups.sortedNames.map fun name =>
      (offsets (name ++ nulText), offsets ((groups.dict.lookup (name ++ nulText)).getD [])) := by
    rw [printMetricgroups, sortedKeys_eq, List.map_map]
    rfl
  have hlt' : mid.toNat < (groups.printMetricgroups offsets).length := by
    rw [hrows, List.length_map]
    exact hlt
  rw [List.getD_eq_getElem _ _ hlt']
  simp only [hrows, List.getElem_map, ← heq, groups.lookup_dict hentry, Option.getD_some]

theorem exists_nameAt {entry : Text × Text} (h : entry ∈ groups.entries) :
    ∃ mid, 0 ≤ mid ∧ mid ≤ groups.lastRow ∧ groups.nameAt mid = entry.1 := by
  have hmem := groups.sortedNames_perm.mem_iff.mpr (List.mem_map_of_mem (f := Prod.fst) h)
  obtain ⟨i, hi, heq⟩ := List.getElem_of_mem hmem
  refine ⟨i, by omega, by rw [lastRow]; omega, ?_⟩
  rw [nameAt, Int.toNat_natCast, List.getD_eq_getElem _ _ hi, heq]

theorem nameAt_injOn {i j : Int} (hi : 0 ≤ i ∧ i ≤ groups.lastRow)
    (hj : 0 ≤ j ∧ j ≤ groups.lastRow) (h : groups.nameAt i = groups.nameAt j) : i = j := by
  rw [lastRow] at hi hj
  have hi' : i.toNat < groups.sortedNames.length := by omega
  have hj' : j.toNat < groups.sortedNames.length := by omega
  rw [nameAt, nameAt, List.getD_eq_getElem _ _ hi', List.getD_eq_getElem _ _ hj'] at h
  have := (List.Nodup.getElem_inj_iff groups.sortedNames_nodup).mp h
  omega

theorem rowsSorted_iff :
    RowsSorted groups.nameAt 0 groups.lastRow ↔ groups.sortedNames.Pairwise (· < ·) := by
  rw [List.pairwise_iff_getElem]
  constructor
  · intro h i j hi hj hij
    have := h i j (by omega) (by omega) (by rw [lastRow]; omega)
    rwa [nameAt, nameAt, Int.toNat_natCast, Int.toNat_natCast, List.getD_eq_getElem _ _ hi,
      List.getD_eq_getElem _ _ hj] at this
  · intro h i j hlow hij hhigh
    rw [lastRow] at hhigh
    rw [nameAt, nameAt, List.getD_eq_getElem _ _ (by omega), List.getD_eq_getElem _ _ (by omega)]
    exact h _ _ (by omega) (by omega) (by omega)

section Describe

variable {groups} {big_c_string : Int → CStr} {offsets : Text → Int}
variable (hread : OffsetsRead big_c_string offsets groups)

include hread

/-- The search compares the names of the rows with the group. -/
theorem describeMetricgroup_eq (group : CStr) :
    describeMetricgroup big_c_string (groups.printMetricgroups offsets) group =
      (binarySearch (fun mid => strcmp (utf8 (groups.nameAt mid)) group) 0 groups.lastRow).map
        fun mid => big_c_string ((groups.printMetricgroups offsets).getD mid.toNat (0, 0)).2 := by
  rw [describeMetricgroup, length_printMetricgroups]
  congr 1
  refine binarySearch_congr fun mid hlow hhigh => ?_
  obtain ⟨entry, hentry, hname, hrow⟩ := groups.printMetricgroups_row offsets hlow hhigh
  dsimp only
  rw [hrow, hname, hread.name entry hentry]

/-- A group is described when its row is found. -/
theorem describeMetricgroup_of_found {mid : Int} {entry : Text × Text}
    (hentry : entry ∈ groups.entries) (hname : groups.nameAt mid = entry.1)
    (hfound : binarySearch
      (fun mid' => strcmp (utf8 (groups.nameAt mid')) (utf8 (groups.nameAt mid))) 0
        groups.lastRow = some mid) :
    describeMetricgroup big_c_string (groups.printMetricgroups offsets) (utf8 entry.1) =
      some (utf8 entry.2) := by
  obtain ⟨hlow, hhigh, -⟩ := binarySearch_eq_some hfound
  obtain ⟨entry', hentry', hname', hrow⟩ := groups.printMetricgroups_row offsets hlow hhigh
  have hsame : entry' = entry :=
    List.inj_on_of_nodup_map groups.nodup hentry' hentry (hname'.symm.trans hname)
  rw [describeMetricgroup_eq hread, ← hname, hfound, Option.map_some, hrow, hsame,
    hread.description entry hentry]

/-- The rows are found exactly when the groups are described. -/
theorem findsRows_iff_describes :
    FindsRows groups.nameAt (fun s t : Text => strcmp (utf8 s) (utf8 t)) 0 groups.lastRow ↔
      DescribesGroups big_c_string offsets groups := by
  constructor
  · intro hfinds group _
    cases hfind : groups.entries.find? fun entry => utf8 entry.1 = group with
    | some entry =>
      obtain rfl : utf8 entry.1 = group := by simpa using List.find?_some hfind
      have hentry := List.mem_of_find?_eq_some hfind
      obtain ⟨mid, hlow, hhigh, hname⟩ := groups.exists_nameAt hentry
      exact describeMetricgroup_of_found hread hentry hname (hfinds mid hlow hhigh)
    | none =>
      rw [describeMetricgroup_eq hread, Option.map_none, Option.map_eq_none_iff]
      by_contra hsome
      obtain ⟨mid, hmid⟩ := Option.ne_none_iff_exists'.mp hsome
      obtain ⟨hlow, hhigh, heq⟩ := binarySearch_eq_some hmid
      obtain ⟨entry, hentry, hname, -⟩ := groups.printMetricgroups_row offsets hlow hhigh
      have hsame : utf8 entry.1 = group := by rw [← hname, strcmp_eq_iff.mp heq]
      exact absurd (decide_eq_true hsame) (List.find?_eq_none.mp hfind entry hentry)
  · intro hdescribes mid hlow hhigh
    obtain ⟨entry, hentry, hname, -⟩ := groups.printMetricgroups_row offsets hlow hhigh
    have hnul : 0 ∉ utf8 entry.1 :=
      zero_not_mem_utf8 fun hmem => (groups.plain entry hentry _ hmem).2.2 rfl
    have hdescribe := hdescribes (utf8 entry.1) hnul
    have hfind : groups.entries.find? (fun e => utf8 e.1 = utf8 entry.1) ≠ none := by
      intro hnone
      exact List.find?_eq_none.mp hnone entry hentry (decide_eq_true rfl)
    obtain ⟨entry', hentry'⟩ := Option.ne_none_iff_exists'.mp hfind
    rw [hentry', Option.map_some, describeMetricgroup_eq hread, Option.map_eq_some_iff] at hdescribe
    obtain ⟨mid', hmid', -⟩ := hdescribe
    obtain ⟨hlow', hhigh', heq⟩ := binarySearch_eq_some hmid'
    have hsame : groups.nameAt mid' = groups.nameAt mid := by
      rw [hname]
      exact utf8_injective (strcmp_eq_iff.mp heq)
    have hindex : mid' = mid := groups.nameAt_injOn ⟨hlow', hhigh'⟩ ⟨hlow, hhigh⟩ hsame
    rw [hname, ← hindex]
    exact hindex ▸ hmid'

theorem describes_iff_sorted :
    DescribesGroups big_c_string offsets groups ↔ groups.sortedNames.Pairwise (· < ·) := by
  rw [← findsRows_iff_describes hread, findsRows_iff_sorted groups.nameAt compares_strcmp,
    groups.rowsSorted_iff]

end Describe

end MetricGroups

/-- The array and its search give every group its description, and no other string
one, exactly when no name is a proper prefix of another one that goes on with a
character below the backslash. -/
theorem describesGroups_iff (big_c_string : Int → CStr) (offsets : Text → Int)
    (groups : MetricGroups) (hread : OffsetsRead big_c_string offsets groups) :
    DescribesGroups big_c_string offsets groups ↔ ¬ HasLowExtension groups := by
  rw [MetricGroups.describes_iff_sorted hread, groups.sortedNames_pairwise_iff]

/-- The big string of the groups alone. -/
def groupBcs (groups : MetricGroups) : BigCString :=
  BigCString.empty.addAll (groups.entries.flatMap fun entry => metricGroupCalls entry.1 entry.2)

/-- The offsets that `compute` gives. -/
def groupOffsets (groups : MetricGroups) (s : Text) : Int :=
  (((groupBcs groups).compute insertionOrder).bind fun result => result.2.lookup s).getD 0

/-- The C strings in the compiled big string. -/
def groupStrings (groups : MetricGroups) (offset : Int) : CStr :=
  let compiled := ((groupBcs groups).compute insertionOrder).bind fun result => cBytes result.1
  (cStringAt ((compiled.getD [] ++ [0]).drop offset.toNat)).getD []

/-- What most metric groups are described as. -/
def topDown : Text :=
  "Grouping from Top-down Microarchitecture Analysis Metrics spreadsheet".toList

/-- Two metric groups with different beginnings. -/
def badAndMem : MetricGroups :=
  { entries := [("Bad".toList, topDown), ("Mem".toList, topDown)]
    nodup := by decide
    plain := by simp }

theorem describesGroups_badAndMem :
    DescribesGroups (groupStrings badAndMem) (groupOffsets badAndMem) badAndMem :=
  (describesGroups_iff _ _ badAndMem ⟨by decide +kernel, by decide +kernel⟩).mpr
    (badAndMem.sortedNames_pairwise_iff.mp (by decide +kernel))

/-- Two of the metric groups of skylake, one the beginning of the other. -/
def badAndBadSpec : MetricGroups :=
  { entries := [("Bad".toList, topDown), ("BadSpec".toList, topDown)]
    nodup := by decide
    plain := by simp }

/-- `BadSpec` stands before `Bad` in the array, so the search misses one of them. -/
theorem not_describesGroups_badAndBadSpec :
    ¬ DescribesGroups (groupStrings badAndBadSpec) (groupOffsets badAndBadSpec)
      badAndBadSpec := by
  have hread : OffsetsRead (groupStrings badAndBadSpec) (groupOffsets badAndBadSpec)
      badAndBadSpec := ⟨by decide +kernel, by decide +kernel⟩
  rw [MetricGroups.describes_iff_sorted hread]
  decide +kernel

end PmuEvents.Jevents
