import PmuEvents.Foundation.Scan
import PmuEvents.Lib.InstanceNames
import Mathlib.Data.Set.Insert
set_option autoImplicit false

/-!
# One class for a folder

Class names are prefixes of each other, so a folder's name can be cut into a class name
and a suffix in several ways.  No suffix that `strtoul` takes for a number contains an
underscore, so at most one of the cuts is accepted.  The main result: where no class name
passes the name test of another one, no folder is an instance of two classes, in
`get_all_pmu_instances_for` and in what `get_pmus` returns.
-/

namespace PmuEvents.Lib

open PmuEvents.Foundation PmuEvents.Libc PmuEvents.Tables

/-- No name is accepted as an instance name of another one. -/
def ApartNames (classes : Set CStr) : Prop :=
  ∀ c ∈ classes, ∀ c' ∈ classes, isInstanceName c c' = true → c = c'

/-- There is no underscore in a number. -/
theorem underscore_not_mem_numberText {minus : Bool} {digits s : CStr}
    (h : NumberText minus digits s) : chr '_' ∉ s := by
  obtain ⟨hspace, hsign, hdigits⟩ := h
  simp only [List.mem_append, not_or]
  refine ⟨?_, ?_, ?_⟩
  · intro hmem
    exact absurd (hspace _ hmem) (by decide)
  · cases hsign <;> decide
  · intro hmem
    exact absurd (hdigits.2 _ hmem) (by decide)

theorem AcceptedSuffix.underscore_not_mem {suffix : CStr} (h : AcceptedSuffix suffix) :
    chr '_' ∉ suffix := by
  rcases h with rfl | ⟨minus, digits, hnumber, -⟩
  · exact List.not_mem_nil
  · exact underscore_not_mem_numberText hnumber

/-- Two classes that accept a folder are the same, or one accepts the other's name. -/
theorem eq_of_isInstanceName {classes : Set CStr} (hapart : ApartNames classes)
    {c c' d_name : CStr} (hc : c ∈ classes) (hc' : c' ∈ classes)
    (h : isInstanceName c d_name = true) (h' : isInstanceName c' d_name = true) : c = c' := by
  rcases (isInstanceName_iff c d_name).mp h with rfl | ⟨suffix, rfl, hsuffix⟩
  · exact (hapart c' hc' d_name hc h').symm
  · rcases (isInstanceName_iff c' _).mp h' with rfl | ⟨suffix', heq, hsuffix'⟩
    · exact hapart c hc _ hc' h
    · exact (split_unique_last hsuffix.underscore_not_mem hsuffix'.underscore_not_mem heq).1

/-- An instance of a class other than `default_core` has passed the name test. -/
theorem TakesInstance.isInstanceName {sys : Sysfs} {class_name d_name : CStr}
    (h : TakesInstance sys class_name d_name) (hclass : class_name ≠ cs "default_core") :
    isInstanceName class_name d_name = true := by
  unfold TakesInstance getAllPmuInstancesFor at h
  split at h
  · exact absurd h List.not_mem_nil
  · rename_i listing _
    simp only [hclass, decide_false] at h
    rw [instancesLoop_uncore_names, acceptedFolders, List.mem_filter, decide_eq_true_iff] at h
    exact h.2.2

/-! ## The classes of `get_pmus` -/

theorem classesLoop_of_unreadable {sys : Sysfs} (hlisting : sys.listing = none)
    (big_c_string : List UInt8) (pmus : List PmuTableEntry) (classes : List PmuClass) :
    classesLoop sys big_c_string pmus classes = classes := by
  induction pmus with
  | nil => rfl
  | cons entry pmus ih =>
    rw [classesLoop, getAllPmuInstancesFor, hlisting]
    exact ih

/-- Every class found is the class of a PMU of the table. -/
theorem exists_classOf_of_mem {sys : Sysfs} {big_c_string : List UInt8}
    {pmus : List PmuTableEntry} {class_ : PmuClass}
    (h : class_ ∈ classesLoop sys big_c_string pmus []) :
    ∃ entry ∈ pmus, class_ = classOf sys big_c_string entry := by
  cases hlisting : sys.listing with
  | none =>
    rw [classesLoop_of_unreadable hlisting] at h
    exact absurd h List.not_mem_nil
  | some listing =>
    rw [classesLoop_eq hlisting, List.nil_append] at h
    obtain ⟨entry, hentry, rfl⟩ := List.mem_map.mp h
    exact ⟨entry, List.mem_of_mem_filter hentry, rfl⟩

/-- The instances in the class of a PMU are those taken for the name of the class. -/
theorem takesInstance_of_classOf {sys : Sysfs} {big_c_string : List UInt8}
    {entry : PmuTableEntry} {i : PmuInstance}
    (h : i ∈ (classOf sys big_c_string entry).instances) :
    TakesInstance sys (classOf sys big_c_string entry).name i.name := by
  obtain ⟨found, hfound, rfl⟩ := List.mem_map.mp h
  exact List.mem_map.mpr ⟨found, hfound, rfl⟩

theorem takesInstance_of_getPmus {strcmp_cpuid_str : CStr → CStr → Int}
    {pmu_events_map : List PmuEventsMap} {get_cpuid : PerfCpu → Option CStr}
    {big_c_string : List UInt8} {cache : MapCache} {sys : Sysfs} {code : Int} {pmus : Pmus}
    (h : getPmus strcmp_cpuid_str pmu_events_map get_cpuid big_c_string cache sys =
      .returned code pmus)
    {class_ : PmuClass} (hclass : class_ ∈ pmus.classes) {i : PmuInstance}
    (hi : i ∈ class_.instances) : TakesInstance sys class_.name i.name := by
  unfold getPmus at h
  split at h
  · cases h
  · rename_i map _
    have hclasses : pmus.classes = classesLoop sys big_c_string map.event_table [] := by
      dsimp only at h
      split at h
      · cases h
        rfl
      · cases h
        rfl
    rw [hclasses] at hclass
    obtain ⟨entry, -, rfl⟩ := exists_classOf_of_mem hclass
    exact takesInstance_of_classOf hi

/-- No folder is an instance of two uncore classes, none of which is accepted as an
instance name of another one, and no instance stands in two such classes of a result of
`get_pmus`. -/
theorem takesInstance_unique {classes : Set CStr} (hapart : ApartNames classes)
    (hcore : cs "default_core" ∉ classes) :
    (∀ sys d_name, ∀ c ∈ classes, ∀ c' ∈ classes,
        TakesInstance sys c d_name → TakesInstance sys c' d_name → c = c') ∧
      ∀ strcmp_cpuid_str pmu_events_map get_cpuid big_c_string cache sys code pmus,
        getPmus strcmp_cpuid_str pmu_events_map get_cpuid big_c_string cache sys =
            .returned code pmus →
          ∀ class_ ∈ pmus.classes, ∀ class_' ∈ pmus.classes,
            class_.name ∈ classes → class_'.name ∈ classes →
              ∀ i ∈ class_.instances, ∀ i' ∈ class_'.instances,
                i.name = i'.name → class_.name = class_'.name := by
  have hunique : ∀ sys d_name, ∀ c ∈ classes, ∀ c' ∈ classes,
      TakesInstance sys c d_name → TakesInstance sys c' d_name → c = c' := by
    intro sys d_name c hc c' hc' h h'
    exact eq_of_isInstanceName hapart hc hc' (h.isInstanceName fun heq => hcore (heq ▸ hc))
      (h'.isInstanceName fun heq => hcore (heq ▸ hc'))
  refine ⟨hunique, ?_⟩
  intro strcmp_cpuid_str pmu_events_map get_cpuid big_c_string cache sys code pmus hpmus
    class_ hclass class_' hclass' hname hname' i hi i' hi' heq
  refine hunique sys i.name _ hname _ hname' (takesInstance_of_getPmus hpmus hclass hi) ?_
  rw [heq]
  exact takesInstance_of_getPmus hpmus hclass' hi'

/-- The folder `cha_1` is taken for `cha`, and so not for `cha_mem`. -/
theorem takesInstance_unique_cha :
    TakesInstance chaSysfs (cs "cha") (cs "cha_1") ∧
      ¬ TakesInstance chaSysfs (cs "cha_mem") (cs "cha_1") := by
  have htakes : TakesInstance chaSysfs (cs "cha") (cs "cha_1") := by
    unfold TakesInstance
    decide
  refine ⟨htakes, fun hother => ?_⟩
  have happart : ApartNames {cs "cha", cs "cha_mem"} := by
    intro c hc c' hc' h
    rcases hc with rfl | rfl <;> rcases hc' with rfl | rfl
    · rfl
    · exact absurd h (by decide)
    · exact absurd h (by decide)
    · rfl
  have hcore : cs "default_core" ∉ ({cs "cha", cs "cha_mem"} : Set CStr) := by
    rintro (h | h)
    · exact absurd h (by decide)
    · exact absurd (Set.mem_singleton_iff.mp h) (by decide)
  have heq := (takesInstance_unique happart hcore).1 chaSysfs (cs "cha_1") _ (.inl rfl) _
    (.inr rfl) htakes hother
  exact absurd heq (by decide)

end PmuEvents.Lib
