import PmuEvents.Foundation.Traverse
import PmuEvents.Lib.Sysfs
import Mathlib.Data.List.Perm.Basic
set_option autoImplicit false

/-!
# `get_all_pmu_instances_for`

The instances of a PMU class among the folders of the device directory, in the
order `readdir` lists them.  The class `default_core` takes the folder `cpu`, or
else the folders that hold a `cpus` file; every other class takes the folders
whose name passes the name test.  The main result says for which directories the
instances of `default_core` do not depend on the listing order.
-/

namespace PmuEvents.Lib

open PmuEvents.Foundation PmuEvents.Libc

/-- `strtoul`, which on a 64-bit `long` reads as `strtoull` does. -/
def strtoul (base : Nat) (nptr : CStr) : Strto := strtoull base nptr

/-- The name test of the uncore branch: the class name, and then nothing, or an
underscore and what `strtoul` takes for a number. -/
def isInstanceName (class_name d_name : CStr) : Bool :=
  if ¬ class_name.isPrefixOf d_name then false
  else if d_name.length ≠ class_name.length then
    if d_name.length + 2 < class_name.length then false
    else if (d_name.drop class_name.length).head? ≠ some (chr '_') then false
    else
      let number := strtoul 10 (d_name.drop (class_name.length + 1))
      !number.erange && number.endptr.isEmpty
  else true

/-- The CPUs of an uncore instance: its `cpus` file, else its `cpumask` file, else all. -/
def uncoreCpus (sys : Sysfs) (full_path : CStr) : RangeList :=
  match getCpusFor sys full_path with
  | some cpus => cpus
  | none =>
    match getCpumaskFor sys full_path with
    | some cpus => cpus
    | none => allCpus sys

/-- The entries `.` and `..`. -/
def IsDot (d_name : CStr) : Prop := d_name = cs "." ∨ d_name = cs ".."

instance (d_name : CStr) : Decidable (IsDot d_name) := inferInstanceAs (Decidable (_ ∨ _))

/-- The loop over the directory entries. -/
def instancesLoop (sys : Sysfs) (class_name : CStr) (is_cpu : Bool) :
    List CStr → List PmuInstance
  | [] => []
  | d_name :: rest =>
    if IsDot d_name then instancesLoop sys class_name is_cpu rest
    else if is_cpu then
      -- `cpu` ends the loop: the function returns with what it has so far and this entry
      if d_name = cs "cpu" then [{ name := cs "cpu", cpus := allCpus sys }]
      else
        match getCpusFor sys (concatPath pmuDevicesBase d_name) with
        | none => instancesLoop sys class_name is_cpu rest
        | some cpus => { name := d_name, cpus } :: instancesLoop sys class_name is_cpu rest
    else if isInstanceName class_name d_name then
      { name := d_name, cpus := uncoreCpus sys (concatPath pmuDevicesBase d_name) } ::
        instancesLoop sys class_name is_cpu rest
    else instancesLoop sys class_name is_cpu rest

/-- `get_all_pmu_instances_for`: its return code and the instances it leaves in
the class. -/
def getAllPmuInstancesFor (sys : Sysfs) (class_name : CStr) : Int × List PmuInstance :=
  match sys.listing with
  | none => (-1, [])
  | some listing =>
    (0, instancesLoop sys class_name (class_name = cs "default_core") listing)

/-- The loop reads the files of the directory, not its listing. -/
theorem instancesLoop_listing (sys : Sysfs) (listing : Option (List CStr)) (class_name : CStr)
    (is_cpu : Bool) (entries : List CStr) :
    instancesLoop { sys with listing } class_name is_cpu entries =
      instancesLoop sys class_name is_cpu entries := by
  induction entries with
  | nil => rfl
  | cons d entries ih =>
    simp only [instancesLoop, ih]
    rfl

/-- A range list that parses has a range. -/
theorem parseRangeList_ne_nil {term : CStr} {ranges : RangeList}
    (h : parseRangeList term = some ranges) : ranges ≠ [] := by
  rintro rfl
  have hsegments := (List.forall₂_nil_right_iff).mp (mapM_eq_some_iff.mp h)
  exact absurd hsegments (List.splitOn_ne_nil _ _)

theorem getRangesFor_ne_nil {sys : Sysfs} {file pmu_path : CStr} {cpus : RangeList}
    (h : getRangesFor sys file pmu_path = some cpus) : cpus ≠ [] := by
  unfold getRangesFor at h
  dsimp only at h
  split at h
  · split at h
    · cases h
    · exact parseRangeList_ne_nil h
  · cases h

theorem uncoreCpus_ne_nil (sys : Sysfs) (full_path : CStr) : uncoreCpus sys full_path ≠ [] := by
  unfold uncoreCpus
  split
  · rename_i hcpus
    exact getRangesFor_ne_nil hcpus
  · split
    · rename_i hmask
      exact getRangesFor_ne_nil hmask
    · exact List.cons_ne_nil _ _

/-- Every instance has a range of CPUs. -/
theorem cpus_ne_nil_of_mem_instancesLoop {sys : Sysfs} {class_name : CStr} {is_cpu : Bool}
    {listing : List CStr} {i : PmuInstance}
    (h : i ∈ instancesLoop sys class_name is_cpu listing) : i.cpus ≠ [] := by
  induction listing with
  | nil => cases h
  | cons d_name listing ih =>
    rw [instancesLoop] at h
    split at h
    · exact ih h
    · split at h
      · split at h
        · rw [List.mem_singleton.mp h]
          exact List.cons_ne_nil _ _
        · split at h
          · exact ih h
          · rename_i hcpus
            rcases List.mem_cons.mp h with rfl | h
            · exact getRangesFor_ne_nil hcpus
            · exact ih h
      · split at h
        · rcases List.mem_cons.mp h with rfl | h
          · exact uncoreCpus_ne_nil _ _
          · exact ih h
        · exact ih h

theorem cpus_ne_nil_of_mem {sys : Sysfs} {class_name : CStr} {i : PmuInstance}
    (h : i ∈ (getAllPmuInstancesFor sys class_name).2) : i.cpus ≠ [] := by
  unfold getAllPmuInstancesFor at h
  split at h
  · cases h
  · exact cpus_ne_nil_of_mem_instancesLoop h

/-! ## The class `default_core` -/

/-- The instance an entry other than `cpu` contributes to `default_core`: one, if
it has a readable `cpus` file that parses. -/
def coreInstance (sys : Sysfs) (d_name : CStr) : Option PmuInstance :=
  if IsDot d_name then none
  else
    (getCpusFor sys (concatPath pmuDevicesBase d_name)).map fun cpus => { name := d_name, cpus }

/-- The instance of the entry `cpu`. -/
def cpuInstance (sys : Sysfs) : PmuInstance := { name := cs "cpu", cpus := allCpus sys }

theorem instancesLoop_core_cpu (sys : Sysfs) (class_name : CStr) (rest : List CStr) :
    instancesLoop sys class_name true (cs "cpu" :: rest) = [cpuInstance sys] := by
  have hdot : ¬ IsDot (cs "cpu") := by decide
  rw [instancesLoop, if_neg hdot]
  rfl

/-- An entry other than `cpu` adds its own instance and the loop goes on. -/
theorem instancesLoop_core_cons {sys : Sysfs} {class_name d : CStr} (rest : List CStr)
    (h : d ≠ cs "cpu") :
    instancesLoop sys class_name true (d :: rest) =
      (coreInstance sys d).toList ++ instancesLoop sys class_name true rest := by
  rw [instancesLoop, coreInstance]
  by_cases hdot : IsDot d
  · simp [hdot]
  · simp only [if_neg hdot, if_true, if_neg h]
    cases getCpusFor sys (concatPath pmuDevicesBase d) <;> rfl

/-- Up to the first `cpu`, the loop collects the entries with a `cpus` file. -/
theorem instancesLoop_core_append {sys : Sysfs} {class_name : CStr} {before : List CStr}
    (after : List CStr) (h : cs "cpu" ∉ before) :
    instancesLoop sys class_name true (before ++ cs "cpu" :: after) =
      before.filterMap (coreInstance sys) ++ [cpuInstance sys] := by
  induction before with
  | nil => exact instancesLoop_core_cpu sys class_name after
  | cons d before ih =>
    simp only [List.mem_cons, not_or] at h
    rw [List.cons_append, instancesLoop_core_cons _ (Ne.symm h.1), ih h.2,
      List.filterMap_cons]
    cases coreInstance sys d <;> rfl

/-- Without an entry `cpu` the loop runs over the whole listing. -/
theorem instancesLoop_core {sys : Sysfs} {class_name : CStr} {listing : List CStr}
    (h : cs "cpu" ∉ listing) :
    instancesLoop sys class_name true listing = listing.filterMap (coreInstance sys) := by
  induction listing with
  | nil => rfl
  | cons d listing ih =>
    simp only [List.mem_cons, not_or] at h
    rw [instancesLoop_core_cons _ (Ne.symm h.1), ih h.2, List.filterMap_cons]
    cases coreInstance sys d <;> rfl

/-- The (name, cpus) pair of an instance. -/
def nameAndCpus (i : PmuInstance) : CStr × RangeList := (i.name, i.cpus)

/-- The (name, cpus) pairs of the instances of `default_core` when `readdir`
lists the directory in the given order. -/
def coreInstances (sys : Sysfs) (listing : List CStr) : List (CStr × RangeList) :=
  (getAllPmuInstancesFor { sys with listing := some listing } (cs "default_core")).2.map
    nameAndCpus

theorem coreInstances_eq (sys : Sysfs) (listing : List CStr) :
    coreInstances sys listing =
      (instancesLoop sys (cs "default_core") true listing).map nameAndCpus := by
  simp [coreInstances, getAllPmuInstancesFor, instancesLoop_listing]

/-- The instances of `default_core` are the same set for any two listing orders of
a directory, and an entry `cpu` is the only one. -/
def CoreOrderFree (sys : Sysfs) (dir : List CStr) : Prop :=
  (∀ l₁ l₂, l₁.Perm dir → l₂.Perm dir → ∀ i, i ∈ coreInstances sys l₁ ↔ i ∈ coreInstances sys l₂) ∧
    (cs "cpu" ∈ dir → ∀ l, l.Perm dir →
      coreInstances sys l = [(cs "cpu", allCpus sys)])

/-- No entry but `cpu` has a readable `cpus` file that parses. -/
def OnlyCpuHasCpus (sys : Sysfs) (dir : List CStr) : Prop :=
  ∀ d ∈ dir, d ≠ cs "cpu" → coreInstance sys d = none

theorem coreInstances_of_not_mem {sys : Sysfs} {l : List CStr} (h : cs "cpu" ∉ l) :
    coreInstances sys l = (l.filterMap (coreInstance sys)).map nameAndCpus := by
  rw [coreInstances_eq, instancesLoop_core h]

theorem coreInstances_of_onlyCpu {sys : Sysfs} {l : List CStr} (hcpu : cs "cpu" ∈ l)
    (h : OnlyCpuHasCpus sys l) : coreInstances sys l = [(cs "cpu", allCpus sys)] := by
  obtain ⟨before, after, rfl, hbefore⟩ := List.eq_append_cons_of_mem hcpu
  have hnone : before.filterMap (coreInstance sys) = [] := by
    rw [List.filterMap_eq_nil_iff]
    intro d hd
    exact h d (by simp [hd]) (fun hd' => hbefore (hd' ▸ hd))
  rw [coreInstances_eq, instancesLoop_core_append after hbefore, hnone]
  rfl

/-- An entry other than `cpu` that is listed first contributes the first instance. -/
theorem coreInstances_cons {sys : Sysfs} {d : CStr} {i : PmuInstance} (rest : List CStr)
    (hd : d ≠ cs "cpu") (hi : coreInstance sys d = some i) :
    coreInstances sys (d :: rest) = nameAndCpus i :: coreInstances sys rest := by
  rw [coreInstances_eq, coreInstances_eq, instancesLoop_core_cons rest hd, hi]
  rfl

theorem coreInstance_name {sys : Sysfs} {d : CStr} {i : PmuInstance}
    (h : coreInstance sys d = some i) : i.name = d := by
  unfold coreInstance at h
  split at h
  · simp at h
  · obtain ⟨cpus, -, rfl⟩ := Option.map_eq_some_iff.mp h
    rfl

/-- The instances of `default_core` are independent of the listing order, with
`cpu` alone where it exists, exactly when there is no entry `cpu` or no other
entry has a usable `cpus` file. -/
theorem coreOrderFree_iff (sys : Sysfs) (dir : List CStr) :
    CoreOrderFree sys dir ↔ cs "cpu" ∉ dir ∨ OnlyCpuHasCpus sys dir := by
  constructor
  · rintro ⟨-, halone⟩
    by_contra hcon
    simp only [not_or, not_not, OnlyCpuHasCpus, not_forall] at hcon
    obtain ⟨hcpu, d, hd, hne, hsome⟩ := hcon
    obtain ⟨i, hi⟩ := Option.ne_none_iff_exists'.mp hsome
    -- the listing that names `d` first keeps the instance of `d`
    have hfirst := halone hcpu (d :: dir.erase d) (List.perm_cons_erase hd).symm
    rw [coreInstances_cons _ hne hi] at hfirst
    have hname : i.name = cs "cpu" := congrArg Prod.fst (List.cons.inj hfirst).1
    exact hne ((coreInstance_name hi).symm.trans hname)
  · intro hcond
    have halone : cs "cpu" ∈ dir → ∀ l, l.Perm dir →
        coreInstances sys l = [(cs "cpu", allCpus sys)] := by
      intro hcpu l hl
      have honly : OnlyCpuHasCpus sys dir := hcond.resolve_left (not_not.mpr hcpu)
      exact coreInstances_of_onlyCpu (hl.mem_iff.mpr hcpu)
        fun d hd => honly d (hl.mem_iff.mp hd)
    refine ⟨?_, halone⟩
    intro l₁ l₂ h₁ h₂ i
    by_cases hcpu : cs "cpu" ∈ dir
    · rw [halone hcpu l₁ h₁, halone hcpu l₂ h₂]
    · rw [coreInstances_of_not_mem (fun h => hcpu (h₁.mem_iff.mp h)),
        coreInstances_of_not_mem (fun h => hcpu (h₂.mem_iff.mp h))]
      exact (((h₁.trans h₂.symm).filterMap _).map _).mem_iff

/-- A device directory with an entry `cpu` and an entry `cpu_atom` that has a
`cpus` file. -/
def hybridSysfs : Sysfs where
  listing := some [cs "cpu_atom", cs "cpu"]
  accessible := fun path => path = pmuDevicesBase ++ cs "/cpu_atom/cpus"
  content := fun path =>
    if path = pmuDevicesBase ++ cs "/cpu_atom/cpus" then some (cs "0-3") else none
  nprocessors := 8

theorem not_coreOrderFree_hybrid : ¬ CoreOrderFree hybridSysfs [cs "cpu", cs "cpu_atom"] := by
  intro h
  have hboth : coreInstances hybridSysfs [cs "cpu_atom", cs "cpu"] =
      [(cs "cpu_atom", [⟨0, 3⟩]), (cs "cpu", [⟨0, 7⟩])] := by decide
  have halone := h.2 (by decide) [cs "cpu_atom", cs "cpu"] (by decide)
  rw [hboth] at halone
  exact absurd halone (by decide)

end PmuEvents.Lib
