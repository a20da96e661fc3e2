import PmuEvents.Memory.Attr
import PmuEvents.Lib.GetPmus
set_option autoImplicit false

/-!
# `get_pmus`, `free_pmus` and their memory

The tree of classes and instances as it lies in memory: an array of classes, an array of
instances for each class, and for each instance its name and its CPUs.  The main results:
where nothing is refused, `get_pmus` returns the tree of values and `free_pmus` gives back
all of it; and a refused request can make `get_pmus` read behind the array of classes
exactly if two PMUs of the table have an instance.
-/

namespace PmuEvents.Memory

open PmuEvents.Foundation PmuEvents.Libc PmuEvents.Lib PmuEvents.Tables

/-- A class of pmu devices, with the block of its instances.  The name is not copied. -/
structure HeldClass where
  name : CStr
  instances : HeldList HeldInstance
  deriving DecidableEq, Repr

/-- The class as the value it stands for. -/
def HeldClass.erase (class_ : HeldClass) : PmuClass :=
  { name := class_.name, instances := class_.instances.items.map HeldInstance.erase }

/-- The list of all PMUs. -/
abbrev HeldPmus := HeldList HeldClass

/-- A list after one element is stored behind the others. -/
def HeldList.push {α : Type} (list : HeldList α) (block : Block) (item : α) : HeldList α :=
  { len := list.len + 1, block := some block, items := list.items ++ [item] }

/-- The loop of `free_pmu_class` and `free_pmus`, and the array.  The first element of a
NULL array has a NULL address, which the functions that free an element ignore. -/
def freeArray {α : Type} (freeItem : α → C Unit) (list : HeldList α) : C Unit :=
  match list.block with
  | none => if list.len ≤ 1 then pure () else .fault
  | some block => do
    freeItems freeItem block list.len list.items
    release block

/-- `free_pmu_instance`. -/
def freePmuInstance (instance_ : HeldInstance) : C Unit := do
  freeRangeList instance_.cpus
  free instance_.name.block

/-- `free_pmu_class`. -/
def freePmuClass (class_ : HeldClass) : C Unit := freeArray freePmuInstance class_.instances

/-- `free_pmus`. -/
def freePmus (pmus : HeldPmus) : C Unit := freeArray freePmuClass pmus

/-- `all_cpus`. -/
def allCpus (dev : Device) : C (HeldList Range) := do
  let ranges ← acquire .block
  use ranges
  pure { len := 1, block := some ranges, items := [{ start := 0, end_ := dev.nprocessors - 1 }] }

/-- `get_cpus_for` and `get_cpumask_for`. -/
def getRangesFor (dev : Device) (file : CStr) (pmu_path : Str) : C (Option (HeldList Range)) := do
  let cpus_path ← concatPath pmu_path (lit file)
  let path ← cpus_path.read
  if ¬ dev.accessible path then
    free cpus_path.block
    pure none
  else
    let content ← getFileContent dev cpus_path
    free cpus_path.block
    match content with
    | none => pure none
    | some content =>
      let parsed ← parseRangeList content
      if parsed.1 = -1 then
        free content.block
        pure none
      else
        free content.block
        pure (some parsed.2)

/-- `get_cpus_for`. -/
def getCpusFor (dev : Device) (pmu_path : Str) : C (Option (HeldList Range)) :=
  getRangesFor dev (cs "cpus") pmu_path

/-- `get_cpumask_for`. -/
def getCpumaskFor (dev : Device) (pmu_path : Str) : C (Option (HeldList Range)) :=
  getRangesFor dev (cs "cpumask") pmu_path

/-- The CPUs of an uncore instance. -/
def uncoreCpus (dev : Device) (full_path : Str) : C (HeldList Range) := do
  match ← getCpusFor dev full_path with
  | some range_list => pure range_list
  | none =>
    match ← getCpumaskFor dev full_path with
    | some range_list => pure range_list
    | none => allCpus dev

/-- The loop over the directory entries, with the class found so far. -/
def instancesLoop (dev : Device) (is_cpu : Bool) (dfd : Block) :
    List CStr → HeldClass → C (Int × HeldClass)
  | [], class_ => do
    use dfd
    release dfd
    pure (0, class_)
  | d_name :: rest, class_ => do
    use dfd
    if IsDot d_name then instancesLoop dev is_cpu dfd rest class_
    else if is_cpu then
      if d_name = cs "cpu" then
        match ← grow .block class_.instances.block with
        | none =>
          freePmuClass class_
          release dfd
          pure (-1, class_)
        | some tmp =>
          let name ← strdup (lit (cs "cpu"))
          let cpus ← allCpus dev
          let i : HeldInstance := { name := { block := some name, text := cs "cpu" }, cpus }
          release dfd
          pure (0, { class_ with instances := class_.instances.push tmp i })
      else
        let full_path ← concatPath (lit pmuDevicesBase) (lit d_name)
        match ← getCpusFor dev full_path with
        | none =>
          free full_path.block
          instancesLoop dev is_cpu dfd rest class_
        | some cpus =>
          free full_path.block
          match ← grow .block class_.instances.block with
          | none =>
            freeRangeList cpus
            freePmuClass class_
            release dfd
            pure (-1, class_)
          | some tmp =>
            let name ← strdup (lit d_name)
            let i : HeldInstance := { name := { block := some name, text := d_name }, cpus }
            instancesLoop dev is_cpu dfd rest
              { class_ with instances := class_.instances.push tmp i }
    else if isInstanceName class_.name d_name then
      match ← grow .block class_.instances.block with
      | none =>
        freePmuClass class_
        release dfd
        pure (-1, class_)
      | some tmp =>
        let name ← strdup (lit d_name)
        let full_path ← concatPath (lit pmuDevicesBase) (lit d_name)
        let cpus ← uncoreCpus dev full_path
        free full_path.block
        let i : HeldInstance := { name := { block := some name, text := d_name }, cpus }
        instancesLoop dev is_cpu dfd rest { class_ with instances := class_.instances.push tmp i }
    else instancesLoop dev is_cpu dfd rest class_

/-- `get_all_pmu_instances_for`. -/
def getAllPmuInstancesFor (dev : Device) (class_name : CStr) : C (Int × HeldClass) := do
  let class_ : HeldClass := { name := class_name, instances := .empty }
  match dev.listing with
  | none => pure (-1, class_)
  | some listing =>
    let dfd ← acquire .directory
    instancesLoop dev (class_name = cs "default_core") dfd listing class_

/-- The class after every instance has got the entries of the table row. -/
def HeldClass.attach (class_ : HeldClass) (entry : PmuTableEntry) : HeldClass :=
  { class_ with
    instances :=
      { class_.instances with
        items := class_.instances.items.map fun i =>
          { i with entries := some (entry.entries, entry.num_entries) } } }

/-- The loop over the PMUs of the table, with the classes found so far. -/
def classesLoop (dev : Device) (big_c_string : List UInt8) :
    List PmuTableEntry → HeldPmus → C (Int × HeldPmus)
  | [], pmus => if pmus.len = 0 then pure (-1, pmus) else pure (0, pmus)
  | entry :: rest, pmus => do
    let found ← getAllPmuInstancesFor dev (getPmuName big_c_string entry)
    if found.1 = -1 then classesLoop dev big_c_string rest pmus
    else if found.2.instances.len = 0 then classesLoop dev big_c_string rest pmus
    else
      -- the new class is counted before there is memory for it
      let pmus := { pmus with len := pmus.len + 1 }
      match ← grow .block pmus.block with
      | none =>
        freePmuClass found.2
        freePmus pmus
        pure (-1, pmus)
      | some tmp =>
        use tmp
        deref found.2.instances.block
        classesLoop dev big_c_string rest
          { pmus with block := some tmp, items := pmus.items ++ [found.2.attach entry] }

/-- `get_pmus`. -/
def getPmus (strcmp_cpuid_str : CStr → CStr → Int) (pmu_events_map : List PmuEventsMap)
    (get_cpuid : PerfCpu → Option CStr) (big_c_string : List UInt8) (cache : MapCache)
    (dev : Device) : C (Int × HeldPmus) :=
  match (mapForCpu strcmp_cpuid_str pmu_events_map get_cpuid cache 0).1 with
  -- the table is read through a NULL row
  | none => .fault
  | some map => classesLoop dev big_c_string map.event_table .empty

/-! ## Freeing -/

section Free

variable {grants : Nat → Bool}

/-- `len` counts the elements, and there is an array when there is an element. -/
structure HeldList.Sound {α : Type} (list : HeldList α) : Prop where
  len : list.len = list.items.length
  block : list.block.isSome ↔ list.items ≠ []

theorem HeldList.sound_empty {α : Type} : (HeldList.empty : HeldList α).Sound :=
  ⟨rfl, by simp [HeldList.empty]⟩

theorem HeldList.Sound.push {α : Type} {list : HeldList α} (h : list.Sound) (block : Block)
    (item : α) : (list.push block item).Sound :=
  ⟨by simp [HeldList.push, h.len], by simp [HeldList.push]⟩

theorem HeldList.owned_push {α : Type} (owns : α → Multiset Block) (list : HeldList α)
    (block : Block) (item : α) :
    (list.push block item).owned owns = {block} + (list.items.map owns).sum + owns item := by
  rw [HeldList.owned, HeldList.push, pointee_some, List.map_append, List.sum_append,
    List.map_singleton, List.sum_singleton, add_assoc]

theorem triple_freeArray {α : Type} {freeItem : α → C Unit} {owns : α → Multiset Block}
    {list : HeldList α} (h : list.Sound)
    (hfree : ∀ item ∈ list.items,
      Triple grants (owns item) (freeItem item) fun _ held => held = 0) :
    Triple grants (list.owned owns) (freeArray freeItem list) fun _ held => held = 0 := by
  unfold freeArray HeldList.owned
  cases hblock : list.block with
  | none =>
    have hitems : list.items = [] := by
      by_contra hne
      have hsome := h.block.mpr hne
      rw [hblock] at hsome
      cases hsome
    have hlen : list.len ≤ 1 := by simp [h.len, hitems]
    rw [hitems]
    simp only [if_pos hlen]
    exact .pure rfl
  | some block =>
    rw [h.len]
    refine (triple_freeItems block hfree).bind fun _ held hheld => ?_
    rw [hheld]
    exact triple_free_last (some block)

/-- What an instance owns: its CPUs and its name. -/
def HeldInstance.owned (i : HeldInstance) : Multiset Block := pointee i.cpus.block + i.name.owned

theorem triple_freePmuInstance (i : HeldInstance) :
    Triple grants i.owned (freePmuInstance i) fun _ held => held = 0 :=
  triple_free rfl (triple_free_last i.name.block)

def HeldClass.owned (class_ : HeldClass) : Multiset Block :=
  class_.instances.owned HeldInstance.owned

theorem triple_freePmuClass {class_ : HeldClass} (h : class_.instances.Sound) :
    Triple grants class_.owned (freePmuClass class_) fun _ held => held = 0 :=
  triple_freeArray h fun i _ => triple_freePmuInstance i

/-- The list of classes and every class in it are sound. -/
structure SoundPmus (pmus : HeldPmus) : Prop where
  classes : pmus.Sound
  instances : ∀ class_ ∈ pmus.items, class_.instances.Sound

theorem triple_freePmus {pmus : HeldPmus} (h : SoundPmus pmus) :
    Triple grants (pmus.owned HeldClass.owned) (freePmus pmus) fun _ held => held = 0 :=
  triple_freeArray h.classes fun _ hclass => triple_freePmuClass (h.instances _ hclass)

end Free

/-! ## The CPUs of an instance -/

section Cpus

variable {grants : Nat → Bool} {pre : Multiset Block} {dev : Device}

theorem triple_allCpus :
    Triple grants pre (allCpus dev) fun r held =>
      r.items = Lib.allCpus dev.sysfs ∧ held = pointee r.block + pre :=
  .acquire fun _ _ => .use (by simp) (.pure ⟨rfl, rfl⟩)

/-- What `get_cpus_for` returns, and what is held for it. -/
def ReturnsRanges (grants : Nat → Bool) (value : Option RangeList) (r : Option (HeldList Range))
    (own : Multiset Block) : Prop :=
  match r with
  | none => (value = none ∨ Refuses grants) ∧ own = 0
  | some list => value = some list.items ∧ own = pointee list.block

theorem triple_getRangesFor (file : CStr) {pmu_path : Str} (h : pmu_path.Readable pre) :
    Triple grants pre (getRangesFor dev file pmu_path) fun r held =>
      ∃ own, ReturnsRanges grants (Lib.getRangesFor dev.sysfs file pmu_path.text) r own ∧
        held = own + pre := by
  have hnull : Lib.getRangesFor dev.sysfs file pmu_path.text = none ∨ Refuses grants →
      ∃ own, ReturnsRanges grants (Lib.getRangesFor dev.sysfs file pmu_path.text) none own ∧
        pre = own + pre := fun hnone => ⟨0, ⟨hnone, rfl⟩, (zero_add _).symm⟩
  refine triple_concatPath h (readable_lit _) fun cpus_path => ?_
  refine triple_read (readable_block _ _) ?_
  split
  · rename_i haccess
    refine triple_free rfl (.pure (hnull (.inl ?_)))
    exact if_neg haccess
  · rename_i haccess
    have hvalue : Lib.getRangesFor dev.sysfs file pmu_path.text =
        (dev.sysfs.content (Lib.concatPath pmu_path.text file)).bind Lib.parseRangeList := by
      have haccess : dev.sysfs.accessible (Lib.concatPath pmu_path.text file) = true :=
        not_not.mp haccess
      rw [Lib.getRangesFor, if_pos haccess]
      cases dev.sysfs.content (Lib.concatPath pmu_path.text file) with
      | none => rfl
      | some content => rfl
    refine (triple_getFileContent (readable_block _ _)).bind fun content held hcontent => ?_
    obtain ⟨own, ⟨htext, rfl⟩, rfl⟩ := hcontent
    have htext : dev.sysfs.content (Lib.concatPath pmu_path.text file) = content.map Str.text :=
      htext.symm
    rw [htext] at hvalue
    refine triple_free (add_left_comm _ _ _) ?_
    cases content with
    | none =>
      refine .pure ?_
      simpa using hnull (.inl hvalue)
    | some content =>
      refine (triple_parseRangeList (Str.readable_owned _ _)).bind fun parsed held hparsed => ?_
      obtain ⟨own, ⟨hcode, hlist, -, rfl⟩ | ⟨hcode, hlist, rfl⟩, rfl⟩ := hparsed
      · rw [if_neg (by rw [hcode]; decide)]
        exact triple_free (add_left_comm _ _ _) (.pure ⟨_, ⟨hvalue.trans hlist, rfl⟩, rfl⟩)
      · rw [if_pos hcode]
        refine triple_free (zero_add _) (.pure (hnull (hlist.imp_left fun hnone => ?_)))
        exact hvalue.trans hnone

theorem triple_uncoreCpus {full_path : Str} (h : full_path.Readable pre) :
    Triple grants pre (uncoreCpus dev full_path) fun r held =>
      (r.items = Lib.uncoreCpus dev.sysfs full_path.text ∨ Refuses grants) ∧
        held = pointee r.block + pre := by
  refine (triple_getRangesFor (cs "cpus") h).bind fun cpus held hcpus => ?_
  obtain ⟨own, hcpus, rfl⟩ := hcpus
  cases cpus with
  | some cpus =>
    obtain ⟨hvalue, rfl⟩ := hcpus
    refine .pure ⟨.inl ?_, rfl⟩
    simp only [Lib.uncoreCpus, Lib.getCpusFor, hvalue]
  | none =>
    obtain ⟨hcpus, rfl⟩ := hcpus
    rw [zero_add]
    refine (triple_getRangesFor (cs "cpumask") h).bind fun mask held hmask => ?_
    obtain ⟨own, hmask, rfl⟩ := hmask
    cases mask with
    | some mask =>
      obtain ⟨hvalue, rfl⟩ := hmask
      refine .pure ⟨hcpus.imp_left fun hnone => ?_, rfl⟩
      simp only [Lib.uncoreCpus, Lib.getCpusFor, Lib.getCpumaskFor, hnone, hvalue]
    | none =>
      obtain ⟨hmask, rfl⟩ := hmask
      rw [zero_add]
      refine triple_allCpus.conseq fun r held hr => ⟨?_, hr.2⟩
      rcases hcpus with hcpus | hrefuses
      · refine hmask.imp_left fun hnone => ?_
        simp only [Lib.uncoreCpus, Lib.getCpusFor, Lib.getCpumaskFor, hcpus, hnone, hr.1]
      · exact .inr hrefuses

end Cpus

/-! ## The instances of a class -/

section Instances

variable {grants : Nat → Bool} {pre : Multiset Block} {dev : Device}

/-- What `get_all_pmu_instances_for` returns for a class, and what is held for it. -/
def FindsInstances (grants : Nat → Bool) (name : CStr) (value : List PmuInstance)
    (r : Int × HeldClass) (own : Multiset Block) : Prop :=
  (r.1 = 0 ∧ r.2.name = name ∧ r.2.instances.Sound ∧ own = r.2.owned ∧
      (r.2.instances.items.map HeldInstance.erase = value ∨ Refuses grants) ∧
        r.2.instances.items.length ≤ value.length) ∨
    (r.1 = -1 ∧ own = 0 ∧ Refuses grants)

/-- The instances found so far, and those of the entries that are left. -/
def instancesFrom (dev : Device) (is_cpu : Bool) (entries : List CStr) (class_ : HeldClass) :
    List PmuInstance :=
  class_.instances.items.map HeldInstance.erase ++
    Lib.instancesLoop dev.sysfs class_.name is_cpu entries

/-- Where a request was refused only the number of instances matters. -/
theorem FindsInstances.of_le {name : CStr} {value value' : List PmuInstance}
    {r : Int × HeldClass} {own : Multiset Block} (h : FindsInstances grants name value r own)
    (hvalue : value = value' ∨ Refuses grants) (hle : value.length ≤ value'.length) :
    FindsInstances grants name value' r own := by
  rcases h with ⟨hcode, hname, hsound, hown, hitems, hlen⟩ | h
  · refine .inl ⟨hcode, hname, hsound, hown, ?_, hlen.trans hle⟩
    rcases hvalue with rfl | hrefuses
    · exact hitems
    · exact .inr hrefuses
  · exact .inr h

/-- An instance is stored behind the others. -/
theorem instancesFrom_push (is_cpu : Bool) (entries : List CStr) (class_ : HeldClass)
    (tmp : Block) (i : HeldInstance) :
    instancesFrom dev is_cpu entries { class_ with instances := class_.instances.push tmp i } =
      class_.instances.items.map HeldInstance.erase ++
        i.erase :: Lib.instancesLoop dev.sysfs class_.name is_cpu entries := by
  simp [instancesFrom, HeldList.push]

/-- What is held when an instance has been stored. -/
theorem owned_push (dfd : Block) (class_ : HeldClass) (tmp name : Block) (text : CStr)
    (cpus : HeldList Range) :
    {dfd} + HeldClass.owned { class_ with
        instances := class_.instances.push tmp
          { name := { block := some name, text }, cpus } } =
      pointee cpus.block + ({name} + ({tmp} + ({dfd} +
        (class_.instances.items.map HeldInstance.owned).sum))) := by
  rw [HeldClass.owned, HeldList.owned_push, HeldInstance.owned, Str.owned, pointee_some]
  abel

/-- The class is freed when the memory for a further instance is refused. -/
theorem triple_refused {class_ : HeldClass} (h : class_.instances.Sound) {dfd : Block}
    {value : List PmuInstance} (hrefuses : Refuses grants) :
    Triple grants ({dfd} + class_.owned)
      (freePmuClass class_ >>= fun _ => release dfd >>= fun _ => Pure.pure (-1, class_))
      (FindsInstances grants class_.name value) :=
  (triple_freePmuClass h).dispose (add_comm _ _)
    (.release (add_zero _).symm (.pure (.inr ⟨rfl, rfl, hrefuses⟩)))

theorem triple_instancesLoop (is_cpu : Bool) (dfd : Block) (entries : List CStr)
    {class_ : HeldClass} (h : class_.instances.Sound) :
    Triple grants ({dfd} + class_.owned) (instancesLoop dev is_cpu dfd entries class_)
      (FindsInstances grants class_.name (instancesFrom dev is_cpu entries class_)) := by
  induction entries generalizing class_ with
  | nil =>
    refine .use (by simp) (.release rfl (.pure (.inl ⟨rfl, rfl, h, rfl, .inl ?_, ?_⟩)))
    · simp [instancesFrom, Lib.instancesLoop]
    · simp [instancesFrom, Lib.instancesLoop]
  | cons d_name entries ih =>
    have hgrow : {dfd} + class_.owned = pointee class_.instances.block +
        ({dfd} + (class_.instances.items.map HeldInstance.owned).sum) := by
      rw [HeldClass.owned, HeldList.owned]
      exact add_left_comm _ _ _
    -- the loop goes on with an instance stored behind the others
    have hpush : ∀ tmp i, Triple grants
        ({dfd} + HeldClass.owned { class_ with instances := class_.instances.push tmp i })
        (instancesLoop dev is_cpu dfd entries
          { class_ with instances := class_.instances.push tmp i })
        (FindsInstances grants class_.name (class_.instances.items.map HeldInstance.erase ++
          i.erase :: Lib.instancesLoop dev.sysfs class_.name is_cpu entries)) := by
      intro tmp i
      rw [← instancesFrom_push is_cpu entries class_ tmp i]
      exact ih (h.push tmp i)
    refine .use (by simp) ?_
    rw [instancesFrom, Lib.instancesLoop]
    split
    · exact ih h
    · split
      · split
        · -- the folder `cpu` ends the loop
          refine .grow hgrow (fun tmp => ?_) fun hrefuses => triple_refused h hrefuses
          refine triple_strdup (readable_lit _) fun name => ?_
          refine triple_allCpus.bind fun cpus held hcpus => ?_
          obtain ⟨hitems, rfl⟩ := hcpus
          rw [← owned_push dfd class_ tmp name (cs "cpu") cpus]
          refine .release rfl (.pure (.inl ⟨rfl, rfl, h.push _ _, rfl, .inl ?_, ?_⟩))
          · simp [HeldList.push, HeldInstance.erase, hitems]
          · simp [HeldList.push]
        · refine triple_concatPath (readable_lit _) (readable_lit _) fun full_path => ?_
          refine (triple_getRangesFor (cs "cpus") (readable_block _ _)).bind
            fun cpus held hcpus => ?_
          obtain ⟨own, hcpus, rfl⟩ := hcpus
          have hcpus : ReturnsRanges grants (Lib.getCpusFor dev.sysfs
              (Lib.concatPath pmuDevicesBase d_name)) cpus own := hcpus
          cases cpus with
          | none =>
            obtain ⟨hnone, rfl⟩ := hcpus
            refine triple_free (zero_add _) ((ih h).conseq fun r held hr => ?_)
            refine hr.of_le (hnone.imp_left fun hnone => ?_) ?_
            · rw [hnone]
              rfl
            · rw [instancesFrom, List.length_append, List.length_append]
              split
              · exact Nat.le_refl _
              · exact Nat.add_le_add_left (Nat.le_succ _) _
          | some cpus =>
            obtain ⟨hsome, rfl⟩ := hcpus
            refine triple_free (add_left_comm _ _ _) ?_
            have hgrow' : pointee cpus.block + ({dfd} + class_.owned) =
                pointee class_.instances.block + (pointee cpus.block + ({dfd} +
                  (class_.instances.items.map HeldInstance.owned).sum)) := by
              rw [hgrow]
              exact add_left_comm _ _ _
            refine .grow hgrow' (fun tmp => ?_) fun hrefuses => ?_
            · refine triple_strdup (readable_lit _) fun name => ?_
              have hpre : {name} + ({tmp} + (pointee cpus.block + ({dfd} +
                  (class_.instances.items.map HeldInstance.owned).sum))) = _ :=
                Eq.trans (by abel) (owned_push dfd class_ tmp name d_name cpus).symm
              rw [hpre, hsome]
              exact hpush tmp _
            · exact triple_free rfl (triple_refused h hrefuses)
      · split
        · refine .grow hgrow (fun tmp => ?_) fun hrefuses => triple_refused h hrefuses
          refine triple_strdup (readable_lit _) fun name => ?_
          refine triple_concatPath (readable_lit _) (readable_lit _) fun full_path => ?_
          refine (triple_uncoreCpus (readable_block _ _)).bind fun cpus held hcpus => ?_
          obtain ⟨hitems, rfl⟩ := hcpus
          refine triple_free (add_left_comm _ _ _) ?_
          rw [← owned_push dfd class_ tmp name d_name]
          refine (hpush tmp _).conseq fun r held hr => hr.of_le ?_ (by simp)
          refine hitems.imp_left fun hitems => ?_
          rw [HeldInstance.erase, hitems]
          rfl
        · exact ih h

theorem triple_getAllPmuInstancesFor (class_name : CStr) :
    Triple grants 0 (getAllPmuInstancesFor dev class_name) fun r own =>
      FindsInstances grants class_name (Lib.getAllPmuInstancesFor dev.sysfs class_name).2 r own ∨
        (dev.listing = none ∧ r.1 = -1 ∧ own = 0) := by
  unfold getAllPmuInstancesFor
  cases hlisting : dev.listing with
  | none => exact .pure (.inr ⟨rfl, rfl, rfl⟩)
  | some listing =>
    have hvalue : (Lib.getAllPmuInstancesFor dev.sysfs class_name).2 =
        instancesFrom dev (class_name = cs "default_core") listing
          { name := class_name, instances := .empty } := by
      have hlisting' : dev.sysfs.listing = some listing := hlisting
      simp [Lib.getAllPmuInstancesFor, hlisting', instancesFrom, HeldList.empty]
    rw [hvalue]
    refine .acquire fun dfd _ => ?_
    have hpre : {dfd} + (0 : Multiset Block) =
        {dfd} + HeldClass.owned { name := class_name, instances := .empty } := by
      simp [HeldClass.owned, HeldList.owned, HeldList.empty]
    rw [hpre]
    exact (triple_instancesLoop _ dfd listing HeldList.sound_empty).conseq
      fun r own hr => .inl hr

end Instances

/-! ## The classes -/

section Classes

variable {grants : Nat → Bool} {dev : Device} {big_c_string : List UInt8}

theorem HeldClass.owned_attach (class_ : HeldClass) (entry : PmuTableEntry) :
    (class_.attach entry).owned = class_.owned := by
  simp only [HeldClass.owned, HeldList.owned, HeldClass.attach, List.map_map]
  rfl

theorem HeldClass.sound_attach {class_ : HeldClass} (h : class_.instances.Sound)
    (entry : PmuTableEntry) : (class_.attach entry).instances.Sound :=
  ⟨by simp [HeldClass.attach, h.len], by simp [HeldClass.attach, h.block]⟩

theorem HeldClass.erase_attach {class_ : HeldClass} {entry : PmuTableEntry}
    (hname : class_.name = getPmuName big_c_string entry)
    (hitems : class_.instances.items.map HeldInstance.erase =
      instancesFound dev.sysfs big_c_string entry) :
    (class_.attach entry).erase = classOf dev.sysfs big_c_string entry := by
  rw [classOf, ← hitems, HeldClass.erase, HeldClass.attach, hname, List.map_map, List.map_map]
  rfl

/-- The PMUs of the table that have an instance. -/
def withInstances (dev : Device) (big_c_string : List UInt8) (entries : List PmuTableEntry) :
    List PmuTableEntry :=
  entries.filter fun entry => instancesFound dev.sysfs big_c_string entry ≠ []

/-- What `get_pmus` returns, and what is held for it. -/
def FindsClasses (grants : Nat → Bool) (value : List PmuClass) (r : Int × HeldPmus)
    (held : Multiset Block) : Prop :=
  (r.1 = 0 ∧ SoundPmus r.2 ∧ r.2.items ≠ [] ∧ held = r.2.owned HeldClass.owned ∧
      (r.2.items.map HeldClass.erase = value ∨ Refuses grants)) ∨
    (r.1 = -1 ∧ held = 0 ∧ (value = [] ∧ r.2.items = [] ∨ Refuses grants))

theorem SoundPmus.push {pmus : HeldPmus} (h : SoundPmus pmus) (block : Block) {class_ : HeldClass}
    (hclass : class_.instances.Sound) : SoundPmus (pmus.push block class_) := by
  refine ⟨h.classes.push block class_, fun c hc => ?_⟩
  rcases List.mem_append.mp hc with hc | hc
  · exact h.instances c hc
  · rw [List.mem_singleton.mp hc]
    exact hclass

/-- Where a request was refused, only what is held matters. -/
theorem FindsClasses.of_value {value value' : List PmuClass} {r : Int × HeldPmus}
    {held : Multiset Block} (h : FindsClasses grants value r held)
    (hvalue : value = value' ∨ Refuses grants) : FindsClasses grants value' r held := by
  rcases hvalue with rfl | hrefuses
  · exact h
  · rcases h with ⟨hcode, hsound, hitems, hheld, -⟩ | ⟨hcode, hheld, -⟩
    · exact .inl ⟨hcode, hsound, hitems, hheld, .inr hrefuses⟩
    · exact .inr ⟨hcode, hheld, .inr hrefuses⟩

/-- A PMU with an instance adds its class. -/
theorem classesLoop_cons (sys : Sysfs) (entry : PmuTableEntry) (entries : List PmuTableEntry)
    (classes : List PmuClass) :
    Lib.classesLoop sys big_c_string (entry :: entries) classes =
      Lib.classesLoop sys big_c_string entries
        (if instancesFound sys big_c_string entry = [] then classes
          else classes ++ [classOf sys big_c_string entry]) := by
  rw [Lib.classesLoop]
  have hlen : (Lib.getAllPmuInstancesFor sys (getPmuName big_c_string entry)).2.length = 0 ↔
      instancesFound sys big_c_string entry = [] := List.length_eq_zero_iff
  by_cases hcode : (Lib.getAllPmuInstancesFor sys (getPmuName big_c_string entry)).1 = -1
  · have hnil : instancesFound sys big_c_string entry = [] := by
      unfold instancesFound
      unfold Lib.getAllPmuInstancesFor at hcode ⊢
      split at hcode
      · rfl
      · cases hcode
    rw [if_pos hcode, if_pos hnil]
  · rw [if_neg hcode]
    by_cases hnil : instancesFound sys big_c_string entry = []
    · rw [if_pos (hlen.mpr hnil), if_pos hnil]
    · rw [if_neg (mt hlen.mp hnil), if_neg hnil]
      exact congrArg _ (attachEntries_append sys big_c_string classes entry)

theorem HeldList.Sound.owned_nil {α : Type} {owns : α → Multiset Block} {list : HeldList α}
    (h : list.Sound) (hitems : list.items = []) : list.block = none ∧ list.owned owns = 0 := by
  have hblock : list.block = none := by
    by_contra hne
    exact h.block.mp (Option.isSome_iff_ne_none.mpr hne) hitems
  refine ⟨hblock, ?_⟩
  rw [HeldList.owned, hblock, hitems]
  rfl

/-- The loop does not fault where nothing is refused, nor where it finds one class at most. -/
theorem triple_classesLoop {entries : List PmuTableEntry} {pmus : HeldPmus} (h : SoundPmus pmus)
    (hfew : Refuses grants →
      pmus.items.length + (withInstances dev big_c_string entries).length ≤ 1) :
    Triple grants (pmus.owned HeldClass.owned) (classesLoop dev big_c_string entries pmus)
      (FindsClasses grants (Lib.classesLoop dev.sysfs big_c_string entries
        (pmus.items.map HeldClass.erase))) := by
  induction entries generalizing pmus with
  | nil =>
    rw [classesLoop, Lib.classesLoop, h.classes.len]
    by_cases hitems : pmus.items = []
    · rw [if_pos (by rw [hitems]; rfl)]
      exact .pure (.inr ⟨rfl, (h.classes.owned_nil hitems).2, .inl ⟨by rw [hitems]; rfl, hitems⟩⟩)
    · rw [if_neg (by simpa using hitems)]
      exact .pure (.inl ⟨rfl, h, hitems, rfl, .inl rfl⟩)
  | cons entry entries ih =>
    have hle : (withInstances dev big_c_string entries).length ≤
        (withInstances dev big_c_string (entry :: entries)).length :=
      ((List.sublist_cons_self _ _).filter _).length_le
    have hrest : Refuses grants →
        pmus.items.length + (withInstances dev big_c_string entries).length ≤ 1 :=
      fun hrefuses => (Nat.add_le_add_left hle _).trans (hfew hrefuses)
    -- the loop goes on without a class for this PMU
    have hskip : instancesFound dev.sysfs big_c_string entry = [] ∨ Refuses grants →
        Triple grants (pmus.owned HeldClass.owned) (classesLoop dev big_c_string entries pmus)
          (FindsClasses grants (Lib.classesLoop dev.sysfs big_c_string (entry :: entries)
            (pmus.items.map HeldClass.erase))) := by
      intro hnil
      refine (ih h hrest).conseq fun r held hr => hr.of_value (hnil.imp_left fun hnil => ?_)
      rw [classesLoop_cons, if_pos hnil]
    refine (triple_getAllPmuInstancesFor (getPmuName big_c_string entry)).call
      (zero_add _).symm fun found own hfound => ?_
    rcases hfound with (⟨hcode, hname, hsound, rfl, hvalue, hlen⟩ | ⟨hcode, rfl, hrefuses⟩) |
      ⟨hlisting, hcode, rfl⟩
    · rw [if_neg (by rw [hcode]; decide), hsound.len]
      by_cases hitems : found.2.instances.items = []
      · rw [if_pos (by rw [hitems]; rfl), HeldClass.owned, (hsound.owned_nil hitems).2, zero_add]
        refine hskip (hvalue.imp_left fun hvalue => ?_)
        rw [hitems] at hvalue
        exact hvalue.symm
      · rw [if_neg (by simpa using hitems)]
        have hnonempty : instancesFound dev.sysfs big_c_string entry ≠ [] := by
          intro hnil
          have hzero : found.2.instances.items.length ≤ 0 := by
            simpa [instancesFound] using hlen.trans (congrArg List.length hnil).le
          exact hitems (List.length_eq_zero_iff.mp (Nat.le_zero.mp hzero))
        have hcount : (withInstances dev big_c_string (entry :: entries)).length =
            (withInstances dev big_c_string entries).length + 1 := by
          rw [withInstances, List.filter_cons_of_pos (by simpa using hnonempty), List.length_cons]
          rfl
        have hgrow : found.2.owned + pmus.owned HeldClass.owned = pointee pmus.block +
            (found.2.owned + (pmus.items.map HeldClass.owned).sum) := by
          rw [HeldList.owned]
          exact add_left_comm _ _ _
        refine .grow hgrow (fun tmp => ?_) fun hrefuses => ?_
        · have hpre : {tmp} + (found.2.owned + (pmus.items.map HeldClass.owned).sum) =
              (pmus.push tmp (found.2.attach entry)).owned HeldClass.owned := by
            rw [HeldList.owned_push, HeldClass.owned_attach]
            abel
          have hderef : {tmp} + (found.2.owned + (pmus.items.map HeldClass.owned).sum) =
              pointee found.2.instances.block +
                ((found.2.instances.items.map HeldInstance.owned).sum +
                  ({tmp} + (pmus.items.map HeldClass.owned).sum)) := by
            rw [HeldClass.owned, HeldList.owned]
            abel
          refine .use (by simp) (triple_deref hderef (hsound.block.mpr hitems) ?_)
          have hfew' : Refuses grants → (pmus.push tmp (found.2.attach entry)).items.length +
              (withInstances dev big_c_string entries).length ≤ 1 := by
            intro hrefuses
            have := hfew hrefuses
            simp only [HeldList.push, List.length_append, List.length_singleton]
            omega
          rw [hpre]
          refine (ih (h.push tmp (HeldClass.sound_attach hsound entry)) hfew').conseq
            fun r held hr => hr.of_value (hvalue.imp_left fun hvalue => ?_)
          rw [classesLoop_cons, if_neg hnonempty, ← HeldClass.erase_attach hname hvalue,
            HeldList.push, List.map_append, List.map_singleton]
        · -- no class is stored yet, so there is no array
          have hnone : pmus.items = [] := by
            have := hfew hrefuses
            exact List.length_eq_zero_iff.mp (by omega)
          have hempty : pmus.block = none ∧ pmus.owned HeldClass.owned = 0 :=
            h.classes.owned_nil hnone
          refine (triple_freePmuClass hsound).dispose rfl ?_
          have hlen : pmus.len + 1 ≤ 1 := by rw [h.classes.len, hnone]; exact Nat.le_refl _
          simp only [freePmus, freeArray, hempty.1, if_pos hlen, hempty.2]
          exact .pure (.inr ⟨rfl, rfl, .inr hrefuses⟩)
    · rw [if_pos hcode, zero_add]
      exact hskip (.inr hrefuses)
    · rw [if_pos hcode, zero_add]
      refine hskip (.inl ?_)
      have hlisting' : dev.sysfs.listing = none := hlisting
      simp [instancesFound, Lib.getAllPmuInstancesFor, hlisting']

/-! ## Reading behind the array of classes -/

/-- The loop that frees reads as many elements as are counted, so it faults where one more
is counted than stored. -/
theorem freeItems_faults {α : Type} (freeItem : α → C Unit) (block : Block) (items : List α)
    (s : Store Kind) : run grants (freeItems freeItem block (items.length + 1) items) s = none := by
  induction items generalizing s with
  | nil => rfl
  | cons item items ih =>
    rw [List.length_cons, freeItems]
    simp only [run_bind, ih]
    simp

theorem freePmus_faults {pmus : HeldPmus} {block : Block} (hblock : pmus.block = some block)
    (hlen : pmus.len = pmus.items.length + 1) (s : Store Kind) :
    run grants (freePmus pmus) s = none := by
  unfold freePmus freeArray
  rw [hblock, hlen]
  simp only [run_bind, freeItems_faults]
  rfl

/-- With a class stored and a further PMU with an instance to come, some refusal makes the
loop fault. -/
theorem classesLoop_faults {entries : List PmuTableEntry} {pmus : HeldPmus} (h : SoundPmus pmus)
    {s : Store Kind} {frame : Multiset Block}
    (hs : s.live = pmus.owned HeldClass.owned + frame)
    (hmany : 2 ≤ pmus.items.length + (withInstances dev big_c_string entries).length)
    (hmore : withInstances dev big_c_string entries ≠ []) :
    ∃ grants, (∀ n < s.requests, grants n = true) ∧
      run grants (classesLoop dev big_c_string entries pmus) s = none := by
  induction entries generalizing pmus s with
  | nil => exact absurd rfl hmore
  | cons entry entries ih =>
    have hgranted : ¬ Refuses fun _ => true := fun ⟨n, hn⟩ => by cases hn
    obtain ⟨found, s₁, own, hrun, hlive, hfound⟩ :
        ∃ found s₁ own, run (fun _ => true)
            (getAllPmuInstancesFor dev (getPmuName big_c_string entry)) s = some (found, s₁) ∧
          s₁.live = own + s.live ∧ _ :=
      triple_getAllPmuInstancesFor (getPmuName big_c_string entry) s s.live (zero_add _).symm
    obtain ⟨hle, hsame⟩ := run_congr hrun
    have hfirst : ∀ grants : Nat → Bool, (∀ n < s₁.requests, grants n = true) →
        run grants (getAllPmuInstancesFor dev (getPmuName big_c_string entry)) s =
          some (found, s₁) := fun grants hgrants => hsame grants fun n hn => (hgrants n hn).symm
    -- the PMU has no instance: the refusal comes later
    have hskip : instancesFound dev.sysfs big_c_string entry = [] → own = 0 →
        ∃ grants, (∀ n < s₁.requests, grants n = true) ∧
          run grants (classesLoop dev big_c_string entries pmus) s₁ = none := by
      intro hnil hown
      have hcount : withInstances dev big_c_string (entry :: entries) =
          withInstances dev big_c_string entries :=
        List.filter_cons_of_neg (by simpa using hnil)
      rw [hcount] at hmany hmore
      exact ih h (by rw [hlive, hown, zero_add, hs]) hmany hmore
    rcases hfound with (⟨hcode, hname, hsound, rfl, hvalue, hlen⟩ | ⟨-, -, hrefuses⟩) |
      ⟨hlisting, hcode, rfl⟩
    · have hvalue : found.2.instances.items.map HeldInstance.erase =
          instancesFound dev.sysfs big_c_string entry := hvalue.resolve_right hgranted
      by_cases hitems : found.2.instances.items = []
      · obtain ⟨grants, hgrants, hfault⟩ :=
          hskip (by rw [← hvalue, hitems]; rfl) (hsound.owned_nil hitems).2
        refine ⟨grants, fun n hn => hgrants n (hn.trans_le hle), ?_⟩
        rw [classesLoop, run_bind, hfirst grants hgrants, Option.bind_some,
          if_neg (by rw [hcode]; decide), if_pos (by rw [hsound.len, hitems]; rfl)]
        exact hfault
      · have hlive' : s₁.live = found.2.owned + (pmus.owned HeldClass.owned + frame) := by
          rw [hlive, hs]
        have hold : ∀ r ∈ pmus.block, r ∈ s₁.live := by
          intro r hr
          rw [hlive', HeldList.owned, Option.mem_def.mp hr]
          simp
        by_cases hpmus : pmus.items = []
        · -- the first class is stored, and the rest of the loop is as with one class stored
          obtain ⟨hblock, howned⟩ : pmus.block = none ∧ pmus.owned HeldClass.owned = 0 :=
            h.classes.owned_nil hpmus
          let s₂ := s₁.exchanged Kind.block none
          let tmp := s₁.fresh Kind.block
          have hlive₂ : s₂.live =
              (pmus.push tmp (found.2.attach entry)).owned HeldClass.owned + frame := by
            change tmp ::ₘ s₁.live = _
            rw [HeldList.owned_push, HeldClass.owned_attach, hlive', howned, hpmus]
            simp
          have hone : (withInstances dev big_c_string (entry :: entries)).length ≤
              1 + (withInstances dev big_c_string entries).length := by
            rw [withInstances, withInstances, List.filter_cons]
            split
            · rw [List.length_cons, Nat.add_comm]
            · exact Nat.le_add_left _ _
          have hmany₂ : 2 ≤ (pmus.push tmp (found.2.attach entry)).items.length +
              (withInstances dev big_c_string entries).length := by
            rw [hpmus] at hmany
            simp only [HeldList.push, hpmus, List.nil_append, List.length_singleton]
            simp only [List.length_nil] at hmany
            omega
          have hmore₂ : withInstances dev big_c_string entries ≠ [] := by
            intro hnil
            rw [hnil] at hone
            rw [hpmus] at hmany
            simp only [List.length_nil] at hmany hone
            omega
          obtain ⟨grants, hgrants, hfault⟩ := ih
            (h.push tmp (HeldClass.sound_attach hsound entry)) hlive₂ hmany₂ hmore₂
          have hnext : ∀ n < s₁.requests, grants n = true :=
            fun n hn => hgrants n (Nat.lt_succ_of_lt hn)
          have hderef : ∀ s : Store Kind, s.live = s₂.live → ∀ next : Unit → C (Int × HeldPmus),
              run grants (deref found.2.instances.block >>= next) s = run grants (next ()) s := by
            intro s hs next
            obtain ⟨block, hblock⟩ := Option.isSome_iff_exists.mp (hsound.block.mpr hitems)
            rw [hblock]
            refine run_use ?_
            rw [hs]
            change block ∈ tmp ::ₘ s₁.live
            rw [hlive', HeldClass.owned, HeldList.owned, hblock]
            simp
          refine ⟨grants, fun n hn => hnext n (hn.trans_le hle), ?_⟩
          rw [classesLoop, run_bind, hfirst grants hnext, Option.bind_some,
            if_neg (by rw [hcode]; decide), if_neg (by simpa [hsound.len] using hitems), hblock,
            run_grow_granted (by simp) (hgrants s₁.requests (Nat.lt_succ_self _))]
          simp only
          rw [run_use (Multiset.mem_cons_self _ _), hderef _ rfl]
          exact hfault
        · obtain ⟨block, hblock⟩ :=
            Option.isSome_iff_exists.mp (h.classes.block.mpr hpmus)
          refine ⟨fun n => n < s₁.requests, fun n hn => by simpa using hn.trans_le hle, ?_⟩
          rw [classesLoop, run_bind, hfirst _ (fun n hn => by simpa using hn), Option.bind_some,
            if_neg (by rw [hcode]; decide), if_neg (by simpa [hsound.len] using hitems),
            run_grow_refused hold (by simp), run_bind]
          have hfault : ∀ s, run (fun n => decide (n < s₁.requests))
              (freePmus { pmus with len := pmus.len + 1 }) s = none :=
            freePmus_faults hblock (congrArg (· + 1) h.classes.len)
          simp only [run_bind, hfault]
          simp
    · exact absurd hrefuses hgranted
    · have hlisting' : dev.sysfs.listing = none := hlisting
      obtain ⟨grants, hgrants, hfault⟩ :=
        hskip (by simp [instancesFound, Lib.getAllPmuInstancesFor, hlisting']) rfl
      refine ⟨grants, fun n hn => hgrants n (hn.trans_le hle), ?_⟩
      rw [classesLoop, run_bind, hfirst grants hgrants, Option.bind_some, if_pos hcode]
      exact hfault

section Calls

variable (strcmp_cpuid_str : CStr → CStr → Int) (pmu_events_map : List PmuEventsMap)
  (get_cpuid : PerfCpu → Option CStr) (cache : MapCache)

/-- Some refusals make `get_pmus` fault exactly if no row matches the CPU or two PMUs of the
row have an instance. -/
theorem getPmus_faults_iff (dev : Device) (big_c_string : List UInt8) (s : Store Kind) :
    (∃ grants, run grants (getPmus strcmp_cpuid_str pmu_events_map get_cpuid big_c_string cache
        dev) s = none) ↔
      ∀ map, (mapForCpu strcmp_cpuid_str pmu_events_map get_cpuid cache 0).1 = some map →
        2 ≤ (withInstances dev big_c_string map.event_table).length := by
  have hempty : s.live = (HeldList.empty : HeldPmus).owned HeldClass.owned + s.live := by
    simp [HeldList.owned, HeldList.empty]
  have hsound : SoundPmus .empty := ⟨HeldList.sound_empty, by simp [HeldList.empty]⟩
  unfold getPmus
  cases (mapForCpu strcmp_cpuid_str pmu_events_map get_cpuid cache 0).1 with
  | none =>
    constructor
    · intro _ map hmap
      cases hmap
    · intro _
      exact ⟨fun _ => true, rfl⟩
  | some map =>
    simp only [Option.some.injEq, forall_eq']
    constructor
    · rintro ⟨grants, hfault⟩
      by_contra hfew
      have hfew' : Refuses grants → (HeldList.empty : HeldPmus).items.length +
          (withInstances dev big_c_string map.event_table).length ≤ 1 := by
        intro _
        simpa [HeldList.empty] using Nat.le_of_lt_succ (not_le.mp hfew)
      obtain ⟨r, s', held, hrun, -⟩ := triple_classesLoop hsound hfew' s s.live hempty
      rw [hrun] at hfault
      cases hfault
    · intro hmany
      obtain ⟨grants, -, hfault⟩ := classesLoop_faults hsound hempty
        (by simpa [HeldList.empty] using hmany)
        (fun hnil => by rw [hnil] at hmany; simp at hmany)
      exact ⟨grants, hfault⟩

section Row

variable {grants : Nat → Bool} {dev : Device} {big_c_string : List UInt8} {map : PmuEventsMap}
  (hmap : (mapForCpu strcmp_cpuid_str pmu_events_map get_cpuid cache 0).1 = some map)

include hmap

theorem triple_getPmus
    (hfew : Refuses grants → (withInstances dev big_c_string map.event_table).length ≤ 1) :
    Triple grants 0
      (getPmus strcmp_cpuid_str pmu_events_map get_cpuid big_c_string cache dev)
      (FindsClasses grants (Lib.classesLoop dev.sysfs big_c_string map.event_table [])) := by
  have hsound : SoundPmus .empty := ⟨HeldList.sound_empty, by simp [HeldList.empty]⟩
  have hcall : getPmus strcmp_cpuid_str pmu_events_map get_cpuid big_c_string cache dev =
      classesLoop dev big_c_string map.event_table .empty := by rw [getPmus, hmap]
  rw [hcall]
  exact triple_classesLoop hsound (by simpa [HeldList.empty] using hfew)

/-- Where nothing is refused, the tree is that of the values. -/
theorem getPmus_eq {r : Int × HeldPmus} {own : Multiset Block}
    (h : FindsClasses grants (Lib.classesLoop dev.sysfs big_c_string map.event_table []) r own)
    (hgranted : ¬ Refuses grants) :
    Lib.getPmus strcmp_cpuid_str pmu_events_map get_cpuid big_c_string cache dev.sysfs =
      .returned r.1 { classes := r.2.items.map HeldClass.erase } := by
  rw [Lib.getPmus, hmap]
  rcases h with ⟨hcode, -, hitems, -, hvalue⟩ | ⟨hcode, -, hvalue⟩
  · simp only [hcode, ← hvalue.resolve_right hgranted]
    rw [if_neg (by simpa using hitems)]
  · obtain ⟨hvalue, hitems⟩ := hvalue.resolve_right hgranted
    simp only [hcode, hvalue, hitems]
    rfl

end Row

end Calls

/-- The machine of `chaSysfs`. -/
def chaDevice : Device where
  listing := chaSysfs.listing
  accessible := fun _ => false
  file := fun _ => none
  nprocessors := 8
  fresh := fun _ => 0

end Classes

end PmuEvents.Memory
