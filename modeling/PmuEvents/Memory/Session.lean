import PmuEvents.Memory.Pmus
set_option autoImplicit false

/-!
# A client of the library

The public functions that hold memory, called in any order by a client that keeps the trees
it is given and frees each of them at most once.  Beside it the same calls on values, which
count what failed calls leave behind.  The main result: where nothing is refused, every run
of calls that is defined on values runs without a fault, gives the same values, and holds
the trees of the client and what the failed calls left.
-/

namespace PmuEvents.Memory

open PmuEvents.Foundation PmuEvents.Libc PmuEvents.Lib PmuEvents.Tables

/-- The calls of a client; trees are numbered from the oldest one that is not freed. -/
inductive Call (β : Type) where
  | getPmus
  | freePmus (tree : Nat)
  | genAttrForEvent (tree class_ instance_ : Nat) (event : CStr) (attr : PerfEventAttr β)

/-- What a client has: the caches of `map_for_cpu`, the trees it holds and the attributes it
was given, and what failed calls have left. -/
structure Session (β : Type) where
  cache : MapCache
  trees : List Pmus
  attrs : List (Int × PerfEventAttr β)
  left : Multiset Kind

/-- The same in memory. -/
structure HeldSession (β : Type) where
  cache : MapCache
  trees : List HeldPmus
  attrs : List (Int × PerfEventAttr β)

variable {β : Type}

def Session.initial : Session β := { cache := .initial, trees := [], attrs := [], left := 0 }

def HeldSession.initial : HeldSession β := { cache := .initial, trees := [], attrs := [] }

/-- An instance of a tree, by its place. -/
def instanceAt (trees : List Pmus) (tree class_ instance_ : Nat) : Option PmuInstance :=
  trees[tree]?.bind fun pmus => pmus.classes[class_]?.bind fun c => c.instances[instance_]?

/-- An instance of a tree in memory, by its place. -/
def heldInstanceAt (trees : List HeldPmus) (tree class_ instance_ : Nat) : Option HeldInstance :=
  trees[tree]?.bind fun pmus => pmus.items[class_]?.bind fun c => c.instances.items[instance_]?

section Steps

variable (strcmp_cpuid_str : CStr → CStr → Int) (pmu_events_map : List PmuEventsMap)
  (get_cpuid : PerfCpu → Option CStr) (big_c_string : List UInt8)

/-- A call on values; `none` where the call is undefined. -/
def Session.step (sys : Sysfs) (session : Session β) : Call β → Option (Session β)
  | .getPmus =>
    match Lib.getPmus strcmp_cpuid_str pmu_events_map get_cpuid big_c_string session.cache sys with
    | .nullMap => none
    | .returned code pmus =>
      some { session with
        cache := (mapForCpu strcmp_cpuid_str pmu_events_map get_cpuid session.cache 0).2
        trees := if code = 0 then session.trees ++ [pmus] else session.trees }
  | .freePmus tree => some { session with trees := session.trees.eraseIdx tree }
  | .genAttrForEvent tree class_ instance_ event attr =>
    match instanceAt session.trees tree class_ instance_ with
    | none => some session
    | some pmu =>
      match Lib.genAttrForEvent sys pmu event attr with
      | none => none
      | some r =>
        some { session with
          attrs := session.attrs ++ [r]
          left := session.left + genAttrLeak sys pmu event }

/-- A call in memory. -/
def HeldSession.step (dev : Device) (session : HeldSession β) : Call β → C (HeldSession β)
  | .getPmus => do
    let r ← getPmus strcmp_cpuid_str pmu_events_map get_cpuid big_c_string session.cache dev
    pure { session with
      cache := (mapForCpu strcmp_cpuid_str pmu_events_map get_cpuid session.cache 0).2
      trees := if r.1 = 0 then session.trees ++ [r.2] else session.trees }
  | .freePmus tree =>
    match session.trees[tree]? with
    | none => pure session
    | some pmus => do
      freePmus pmus
      pure { session with trees := session.trees.eraseIdx tree }
  | .genAttrForEvent tree class_ instance_ event attr =>
    match heldInstanceAt session.trees tree class_ instance_ with
    | none => pure session
    | some pmu => do
      let r ← genAttrForEvent dev pmu (lit event) attr
      pure { session with attrs := session.attrs ++ [r] }

/-- A run of calls on values. -/
def Session.calls (sys : Sysfs) (session : Session β) (calls : List (Call β)) :
    Option (Session β) :=
  calls.foldlM (Session.step strcmp_cpuid_str pmu_events_map get_cpuid big_c_string sys) session

/-- A run of calls in memory. -/
def HeldSession.calls (dev : Device) (session : HeldSession β) (calls : List (Call β)) :
    C (HeldSession β) :=
  calls.foldlM (HeldSession.step strcmp_cpuid_str pmu_events_map get_cpuid big_c_string dev)
    session

end Steps

/-! ## The two levels -/

/-- The tree as the value it stands for. -/
def erasePmus (pmus : HeldPmus) : Pmus := { classes := pmus.items.map HeldClass.erase }

/-- What the trees of a client own. -/
def HeldSession.owned (session : HeldSession β) : Multiset Block :=
  (session.trees.map (HeldList.owned HeldClass.owned)).sum

/-- A client in memory and a client on values are in the same state. -/
structure Represents (held : HeldSession β) (session : Session β) : Prop where
  cache : held.cache = session.cache
  trees : held.trees.map erasePmus = session.trees
  attrs : held.attrs = session.attrs
  sound : ∀ pmus ∈ held.trees, SoundPmus pmus

theorem represents_initial : Represents (HeldSession.initial : HeldSession β) .initial :=
  ⟨rfl, rfl, rfl, by simp [HeldSession.initial]⟩

/-- Both levels find the same instance at a place. -/
theorem instanceAt_erase (trees : List HeldPmus) (tree class_ instance_ : Nat) :
    instanceAt (trees.map erasePmus) tree class_ instance_ =
      (heldInstanceAt trees tree class_ instance_).map HeldInstance.erase := by
  unfold instanceAt heldInstanceAt
  rw [List.getElem?_map]
  cases trees[tree]? with
  | none => rfl
  | some pmus =>
    simp only [Option.map_some, Option.bind_some, erasePmus, List.getElem?_map]
    cases pmus.items[class_]? with
    | none => rfl
    | some c => simp [HeldClass.erase]

/-- What an element owns is among what its list owns. -/
theorem mem_sum_of_mem {α : Type} {owns : α → Multiset Block} {items : List α} {item : α}
    {block : Block} (h : item ∈ items) (hblock : block ∈ owns item) :
    block ∈ (items.map owns).sum := by
  obtain ⟨before, after, rfl⟩ := List.append_of_mem h
  simp [hblock]

/-- The name of an instance that a client holds can be read. -/
theorem readable_name {held : HeldSession β} {tree class_ instance_ : Nat} {pmu : HeldInstance}
    (h : heldInstanceAt held.trees tree class_ instance_ = some pmu) :
    pmu.name.Readable held.owned := by
  obtain ⟨pmus, hpmus, h⟩ := Option.bind_eq_some_iff.mp h
  obtain ⟨c, hc, hpmu⟩ := Option.bind_eq_some_iff.mp h
  intro block hblock
  refine mem_sum_of_mem (List.mem_of_getElem? hpmus) ?_
  refine Multiset.mem_add.mpr (.inr (mem_sum_of_mem (List.mem_of_getElem? hc) ?_))
  refine Multiset.mem_add.mpr (.inr (mem_sum_of_mem (List.mem_of_getElem? hpmu) ?_))
  rw [HeldInstance.owned, Str.owned, Option.mem_def.mp hblock]
  simp

section Runs

variable {strcmp_cpuid_str : CStr → CStr → Int} {pmu_events_map : List PmuEventsMap}
  {get_cpuid : PerfCpu → Option CStr} {big_c_string : List UInt8} {grants : Nat → Bool}
  {dev : Device}

/-- What a call does at both levels: the states stay the same, and what the call leaves in
memory is what is counted. -/
def Agrees (session session' : Session β) (held' : HeldSession β) (own : Multiset Block) : Prop :=
  Represents held' session' ∧
    ∃ leak, own = held'.owned + leak ∧ session'.left = session.left + leak.map Resource.kind

theorem triple_step (hgranted : ¬ Refuses grants) {held : HeldSession β}
    {session session' : Session β} (h : Represents held session) {call : Call β}
    (hstep : session.step strcmp_cpuid_str pmu_events_map get_cpuid big_c_string dev.sysfs call =
      some session') :
    Triple grants held.owned
      (held.step strcmp_cpuid_str pmu_events_map get_cpuid big_c_string dev call)
      (Agrees session session') := by
  have hidle : session = session' → Triple grants held.owned (Pure.pure held : C (HeldSession β))
      (Agrees session session') := by
    rintro rfl
    exact .pure ⟨h, 0, (add_zero _).symm, (add_zero _).symm⟩
  cases call with
  | getPmus =>
    simp only [Session.step] at hstep
    cases hmap : (mapForCpu strcmp_cpuid_str pmu_events_map get_cpuid session.cache 0).1 with
    | none =>
      rw [Lib.getPmus, hmap] at hstep
      cases hstep
    | some map =>
      rw [← h.cache] at hmap
      have hpre : held.owned = 0 + held.owned := (zero_add _).symm
      refine (triple_getPmus strcmp_cpuid_str pmu_events_map get_cpuid held.cache hmap
        (fun hrefuses => absurd hrefuses hgranted)).call hpre fun r own hr => ?_
      rw [← h.cache, getPmus_eq strcmp_cpuid_str pmu_events_map get_cpuid held.cache hmap hr
        hgranted] at hstep
      simp only [Option.some.injEq] at hstep
      subst hstep
      rcases hr with ⟨hcode, hsound, -, rfl, -⟩ | ⟨hcode, rfl, -⟩
      · have hown : r.2.owned HeldClass.owned + held.owned =
            ((held.trees ++ [r.2]).map (HeldList.owned HeldClass.owned)).sum := by
          rw [List.map_append, List.sum_append, List.map_singleton, List.sum_singleton]
          exact add_comm _ _
        simp only [hcode, if_true]
        refine .pure ⟨⟨rfl, ?_, h.attrs, ?_⟩, 0, hown.trans (add_zero _).symm, (add_zero _).symm⟩
        · rw [List.map_append, h.trees]
          rfl
        · intro pmus hpmus
          rcases List.mem_append.mp hpmus with hpmus | hpmus
          · exact h.sound pmus hpmus
          · rw [List.mem_singleton.mp hpmus]
            exact hsound
      · have hcode' : ¬ (-1 : Int) = 0 := by decide
        simp only [hcode, if_neg hcode', zero_add]
        exact .pure ⟨⟨rfl, h.trees, h.attrs, h.sound⟩, 0, (add_zero _).symm, (add_zero _).symm⟩
  | freePmus tree =>
    simp only [Session.step, Option.some.injEq] at hstep
    subst hstep
    simp only [HeldSession.step]
    split
    · rename_i hnone
      refine hidle ?_
      rw [List.eraseIdx_of_length_le]
      rw [← h.trees, List.length_map]
      exact List.getElem?_eq_none_iff.mp hnone
    · rename_i pmus hpmus
      obtain ⟨hlt, rfl⟩ := List.getElem?_eq_some_iff.mp hpmus
      have hpre : held.owned = held.trees[tree].owned HeldClass.owned +
          ((held.trees.eraseIdx tree).map (HeldList.owned HeldClass.owned)).sum := by
        rw [HeldSession.owned, ← List.sum_cons, ← List.map_cons]
        exact ((List.getElem_cons_eraseIdx_perm hlt).symm.map _).sum_eq
      refine (triple_freePmus (h.sound _ (List.getElem_mem hlt))).dispose hpre (.pure ?_)
      refine ⟨⟨h.cache, ?_, h.attrs, fun pmus hpmus => ?_⟩, 0, (add_zero _).symm,
        (add_zero _).symm⟩
      · rw [← h.trees, List.eraseIdx_map]
      · exact h.sound pmus (List.mem_of_mem_eraseIdx hpmus)
  | genAttrForEvent tree class_ instance_ event attr =>
    simp only [Session.step, ← h.trees, instanceAt_erase] at hstep
    simp only [HeldSession.step]
    cases hpmu : heldInstanceAt held.trees tree class_ instance_ with
    | none =>
      simp only [hpmu, Option.map_none, Option.some.injEq] at hstep
      exact hidle hstep
    | some pmu =>
      simp only [hpmu, Option.map_some] at hstep
      cases hvalue : Lib.genAttrForEvent dev.sysfs pmu.erase event attr with
      | none => simp [hvalue] at hstep
      | some r =>
        simp only [hvalue, Option.some.injEq] at hstep
        subst hstep
        refine (triple_genAttrForEvent (readable_name hpmu) (readable_lit event) hvalue).bind
          fun r' own hr => ?_
        obtain ⟨leak, rfl, ⟨rfl, hleak⟩ | ⟨hrefuses, -⟩⟩ := hr
        · refine .pure ⟨⟨h.cache, rfl, ?_, h.sound⟩, leak, add_comm _ _, ?_⟩
          · simp only [h.attrs]
          · rw [hleak]
            rfl
        · exact absurd hrefuses hgranted

/-- A run of calls, from any state of the client. -/
theorem triple_calls (hgranted : ¬ Refuses grants) (calls : List (Call β)) {held : HeldSession β}
    {session session' : Session β} (h : Represents held session)
    (hcalls : session.calls strcmp_cpuid_str pmu_events_map get_cpuid big_c_string dev.sysfs calls =
      some session') :
    Triple grants held.owned
      (held.calls strcmp_cpuid_str pmu_events_map get_cpuid big_c_string dev calls)
      (Agrees session session') := by
  induction calls generalizing held session with
  | nil =>
    obtain rfl := Option.some.inj hcalls
    exact .pure ⟨h, 0, (add_zero _).symm, (add_zero _).symm⟩
  | cons call calls ih =>
    obtain ⟨middle, hstep, hrest⟩ := Option.bind_eq_some_iff.mp hcalls
    refine (triple_step hgranted h hstep).bind fun held₁ own hagrees => ?_
    obtain ⟨h₁, leak₁, rfl, hleft₁⟩ := hagrees
    refine (ih h₁ hrest).frame rfl fun held₂ own hagrees => ?_
    obtain ⟨h₂, leak₂, rfl, hleft₂⟩ := hagrees
    refine ⟨h₂, leak₂ + leak₁, add_assoc _ _ _, ?_⟩
    rw [hleft₂, hleft₁, Multiset.map_add, add_assoc]
    exact congrArg _ (add_comm _ _)

end Runs

/-- The machine of `chaSysfs`, with a type file for one of the two folders. -/
def typedDevice : Device :=
  { chaDevice with
    file := fun path =>
      if path = pmuDevicesBase ++ cs "/cha_1/type" then some (.ofContent (cs "14\n") 3) else none }

/-- The client asks for the tree, for an event whose second assignment has no value, and
frees the tree. -/
def refusedEventCalls : List (Call Unit) :=
  [.getPmus, .genAttrForEvent 0 0 0 (cs "event=0x3c,umask=") ⟨0, 0, 0, 0, ()⟩, .freePmus 0]

end PmuEvents.Memory
