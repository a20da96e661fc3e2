import Mathlib.Data.List.Perm.Basic
set_option autoImplicit false

/-!
# A buffer written under the current name

Items are collected and written out together, under the name that is current then,
when the next name is set or when the buffer is closed.  Every item has a name it
should be written under.  A run writes all items under their own names exactly when
for every item this was the name set last, and no check of the written items fails.
-/

namespace PmuEvents.Foundation

variable {ν ι : Type}

/-- The current name, the items collected and the items written. -/
structure Buffer (ν ι : Type) where
  name : Option ν
  pending : List ι
  written : List (ν × ι)

/-- What is done with a buffer. -/
inductive BufferAction (ν ι : Type) where
  | enter (name : ν)
  | add (items : List ι)
  | close

/-- How items are written: their order, and a check of the ordered items. -/
structure Writer (ι : Type) where
  sort : List ι → List ι
  perm : ∀ l, (sort l).Perm l
  check : List ι → Bool

namespace Buffer

variable (writer : Writer ι)

/-- Writes the pending items; `none` where there is no name or the check fails. -/
def flush (b : Buffer ν ι) : Option (Buffer ν ι) :=
  if b.pending.isEmpty then some b
  else
    b.name.bind fun name =>
      if writer.check (writer.sort b.pending) then
        some { b with
          pending := []
          written := b.written ++ (writer.sort b.pending).map fun item => (name, item) }
      else none

/-- One action. -/
def step (b : Buffer ν ι) : BufferAction ν ι → Option (Buffer ν ι)
  | .enter name => (b.flush writer).map fun b => { b with name := some name }
  | .add items => some { b with pending := b.pending ++ items }
  | .close => b.flush writer

/-- A sequence of actions. -/
def run (b : Buffer ν ι) : List (BufferAction ν ι) → Option (Buffer ν ι)
  | [] => some b
  | action :: actions => (b.step writer action).bind fun b => run b actions

/-! ## What is written -/

/-- All items of a buffer with the names they are, or would now be, written under. -/
def labelled (b : Buffer ν ι) : List (Option ν × ι) :=
  (b.written.map fun entry => (some entry.1, entry.2)) ++ b.pending.map fun item => (b.name, item)

/-- The items added by a sequence of actions, each with the name that is current. -/
def labels : Option ν → List (BufferAction ν ι) → List (Option ν × ι)
  | _, [] => []
  | _, .enter name :: actions => labels (some name) actions
  | current, .add items :: actions =>
    (items.map fun item => (current, item)) ++ labels current actions
  | current, .close :: actions => labels current actions

/-- The name that is current after an action. -/
def nameAfter (current : Option ν) : BufferAction ν ι → Option ν
  | .enter name => some name
  | .add _ => current
  | .close => current

/-- The name that is current after a sequence of actions. -/
def nameAfterAll (current : Option ν) (actions : List (BufferAction ν ι)) : Option ν :=
  actions.foldl nameAfter current

variable {writer}

theorem run_append (b : Buffer ν ι) (actions actions' : List (BufferAction ν ι)) :
    b.run writer (actions ++ actions') =
      (b.run writer actions).bind fun b => b.run writer actions' := by
  induction actions generalizing b with
  | nil => rfl
  | cons action actions ih =>
    rw [List.cons_append, run, run, Option.bind_assoc]
    exact congrArg _ (funext ih)

theorem flush_spec {b b' : Buffer ν ι} (h : b.flush writer = some b') :
    b'.name = b.name ∧ b'.pending = [] ∧ b'.labelled.Perm b.labelled := by
  unfold flush at h
  split at h
  · rename_i hempty
    obtain rfl := Option.some.inj h
    exact ⟨rfl, List.isEmpty_iff.mp hempty, List.Perm.refl _⟩
  · obtain ⟨name, hname, h⟩ := Option.bind_eq_some_iff.mp h
    split at h
    · obtain rfl := Option.some.inj h
      refine ⟨rfl, rfl, ?_⟩
      simp only [labelled, List.map_append, List.map_map, List.map_nil, List.append_nil, hname]
      exact List.Perm.append_left _ ((writer.perm b.pending).map _)
    · cases h

/-- A step moves no item to another name. -/
theorem step_spec {b b' : Buffer ν ι} {action : BufferAction ν ι}
    (h : b.step writer action = some b') :
    b'.name = nameAfter b.name action ∧
      b'.labelled.Perm (b.labelled ++ labels b.name [action]) := by
  cases action with
  | enter name =>
    obtain ⟨b₁, hflush, rfl⟩ := Option.map_eq_some_iff.mp h
    obtain ⟨-, hpending, hperm⟩ := flush_spec hflush
    refine ⟨rfl, ?_⟩
    simp only [labelled, labels, hpending, List.map_nil, List.append_nil] at hperm ⊢
    exact hperm
  | add items =>
    obtain rfl := Option.some.inj h
    refine ⟨rfl, List.Perm.of_eq ?_⟩
    simp [labelled, labels]
  | close =>
    obtain ⟨hname, -, hperm⟩ := flush_spec h
    refine ⟨hname, ?_⟩
    simpa [labels] using hperm

theorem labels_cons (current : Option ν) (action : BufferAction ν ι)
    (actions : List (BufferAction ν ι)) :
    labels current (action :: actions) =
      labels current [action] ++ labels (nameAfter current action) actions := by
  cases action <;> simp [labels, nameAfter]

theorem labels_append (current : Option ν) (actions actions' : List (BufferAction ν ι)) :
    labels current (actions ++ actions') =
      labels current actions ++ labels (nameAfterAll current actions) actions' := by
  induction actions generalizing current with
  | nil => rfl
  | cons action actions ih =>
    rw [List.cons_append, labels_cons, ih, labels_cons current action actions, List.append_assoc]
    rfl

/-- Where a label comes from, for actions that belong to the members of a list. -/
theorem mem_labels_flatMap {α : Type} {actions : α → List (BufferAction ν ι)} {l : List α}
    {current : Option ν} {label : Option ν × ι} :
    label ∈ labels current (l.flatMap actions) ↔
      ∃ pre a post, l = pre ++ a :: post ∧
        label ∈ labels (nameAfterAll current (pre.flatMap actions)) (actions a) := by
  induction l generalizing current with
  | nil => simp [labels]
  | cons a l ih =>
    rw [List.flatMap_cons, labels_append, List.mem_append, ih]
    constructor
    · rintro (h | ⟨pre, a', post, rfl, h⟩)
      · exact ⟨[], a, l, rfl, h⟩
      · refine ⟨a :: pre, a', post, rfl, ?_⟩
        rw [List.flatMap_cons, nameAfterAll, List.foldl_append]
        exact h
    · rintro ⟨pre, a', post, heq, h⟩
      cases pre with
      | nil =>
        obtain ⟨rfl, rfl⟩ := List.cons.inj heq
        exact .inl h
      | cons a'' pre =>
        obtain ⟨rfl, rfl⟩ := List.cons.inj heq
        rw [List.flatMap_cons, nameAfterAll, List.foldl_append] at h
        exact .inr ⟨pre, a', post, rfl, h⟩

theorem run_spec {b b' : Buffer ν ι} {actions : List (BufferAction ν ι)}
    (h : b.run writer actions = some b') :
    b'.labelled.Perm (b.labelled ++ labels b.name actions) := by
  induction actions generalizing b with
  | nil =>
    obtain rfl := Option.some.inj h
    simp [labels]
  | cons action actions ih =>
    obtain ⟨b₁, hstep, hrun⟩ := Option.bind_eq_some_iff.mp h
    obtain ⟨hname, hperm⟩ := step_spec hstep
    rw [labels_cons, ← List.append_assoc, ← hname]
    exact (ih hrun).trans (hperm.append_right _)

/-! ## When a run succeeds -/

variable (writer) in
/-- The checks of all groups of items that are written together. -/
def ChecksPass : List ι → List (BufferAction ν ι) → Prop
  | _, [] => True
  | pending, .add items :: actions => ChecksPass (pending ++ items) actions
  | pending, .enter _ :: actions =>
    (pending = [] ∨ writer.check (writer.sort pending)) ∧ ChecksPass [] actions
  | pending, .close :: actions =>
    (pending = [] ∨ writer.check (writer.sort pending)) ∧ ChecksPass [] actions

theorem checksPass_of_check (h : ∀ l, writer.check l = true) (pending : List ι)
    (actions : List (BufferAction ν ι)) : ChecksPass writer pending actions := by
  induction actions generalizing pending with
  | nil => trivial
  | cons action actions ih =>
    cases action with
    | enter name => exact ⟨.inr (h _), ih []⟩
    | add items => exact ih _
    | close => exact ⟨.inr (h _), ih []⟩

theorem flush_eq_some {b : Buffer ν ι}
    (hcheck : b.pending = [] ∨ writer.check (writer.sort b.pending))
    (hname : ∀ item ∈ b.pending, b.name.isSome) : ∃ b', b.flush writer = some b' := by
  unfold flush
  split
  · exact ⟨b, rfl⟩
  · rename_i hempty
    rw [List.isEmpty_iff] at hempty
    obtain ⟨item, hitem⟩ := List.exists_mem_of_ne_nil _ hempty
    obtain ⟨name, hname⟩ := Option.isSome_iff_exists.mp (hname item hitem)
    rw [hname, Option.bind_some, if_pos (hcheck.resolve_left hempty)]
    exact ⟨_, rfl⟩

theorem check_of_flush {b b' : Buffer ν ι} (h : b.flush writer = some b') :
    b.pending = [] ∨ writer.check (writer.sort b.pending) := by
  unfold flush at h
  split at h
  · rename_i hempty
    exact .inl (List.isEmpty_iff.mp hempty)
  · obtain ⟨name, -, h⟩ := Option.bind_eq_some_iff.mp h
    split at h
    · rename_i hcheck
      exact .inr hcheck
    · cases h

theorem checksPass_of_run {b b' : Buffer ν ι} {actions : List (BufferAction ν ι)}
    (h : b.run writer actions = some b') : ChecksPass writer b.pending actions := by
  induction actions generalizing b with
  | nil => trivial
  | cons action actions ih =>
    obtain ⟨b₁, hstep, hrun⟩ := Option.bind_eq_some_iff.mp h
    have hrest := ih hrun
    cases action with
    | enter name =>
      obtain ⟨b₂, hflush, rfl⟩ := Option.map_eq_some_iff.mp hstep
      obtain ⟨-, hpending, -⟩ := flush_spec hflush
      exact ⟨check_of_flush hflush, by simpa only [hpending] using hrest⟩
    | add items =>
      obtain rfl := Option.some.inj hstep
      exact hrest
    | close =>
      obtain ⟨-, hpending, -⟩ := flush_spec hstep
      exact ⟨check_of_flush hstep, hpending ▸ hrest⟩

/-- A run succeeds when the checks pass and a name is set before every item. -/
theorem run_eq_some {b : Buffer ν ι} {actions : List (BufferAction ν ι)}
    (hchecks : ChecksPass writer b.pending actions)
    (hpending : ∀ item ∈ b.pending, b.name.isSome)
    (hlabels : ∀ label ∈ labels b.name actions, label.1.isSome) :
    ∃ b', b.run writer actions = some b' := by
  induction actions generalizing b with
  | nil => exact ⟨b, rfl⟩
  | cons action actions ih =>
    cases action with
    | enter name =>
      obtain ⟨b₁, hflush⟩ := flush_eq_some hchecks.1 hpending
      obtain ⟨-, hnil, -⟩ := flush_spec hflush
      rw [run, step, hflush]
      exact ih (b := { b₁ with name := some name }) (by simpa only [hnil] using hchecks.2)
        (by simp) hlabels
    | add items =>
      rw [labels, List.forall_mem_append] at hlabels
      refine ih (b := { b with pending := b.pending ++ items }) hchecks ?_ hlabels.2
      intro item hitem
      rcases List.mem_append.mp hitem with hitem | hitem
      · exact hpending item hitem
      · exact hlabels.1 _ (List.mem_map_of_mem hitem)
    | close =>
      obtain ⟨b₁, hflush⟩ := flush_eq_some hchecks.1 hpending
      obtain ⟨hname, hnil, -⟩ := flush_spec hflush
      rw [run, step, hflush]
      refine ih (by simpa only [hnil] using hchecks.2) (by simp [hnil]) ?_
      rw [hname]
      exact hlabels

/-! ## Items under their own names -/

variable (target : ι → ν)

/-- The items that a sequence of actions adds. -/
def addedItems (actions : List (BufferAction ν ι)) : List ι :=
  actions.flatMap fun
    | .add items => items
    | _ => []

theorem labels_map_snd (current : Option ν) (actions : List (BufferAction ν ι)) :
    (labels current actions).map Prod.snd = addedItems actions := by
  induction actions generalizing current with
  | nil => rfl
  | cons action actions ih =>
    cases action with
    | enter name => exact ih (some name)
    | add items =>
      have hitems : (items.map fun item => (current, item)).map Prod.snd = items := by
        rw [List.map_map]
        exact List.map_id _
      rw [labels, List.map_append, hitems, ih]
      rfl
    | close => exact ih current

variable (writer) in
/-- A run from the given name writes every item once, under its own name. -/
def WritesOwn (current : Option ν) (actions : List (BufferAction ν ι)) : Prop :=
  ∃ b', (Buffer.mk current [] []).run writer actions = some b' ∧
    b'.written.Perm ((addedItems actions).map fun item => (target item, item))

/-- Every item is added while its own name is current. -/
def AddedUnderOwn (current : Option ν) (actions : List (BufferAction ν ι)) : Prop :=
  ∀ label ∈ labels current actions, label.1 = some (target label.2)

variable {target}

theorem labels_eq_of_own {current : Option ν} {actions : List (BufferAction ν ι)}
    (h : AddedUnderOwn target current actions) :
    labels current actions = (addedItems actions).map fun item => (some (target item), item) := by
  rw [← labels_map_snd current, List.map_map]
  refine (List.map_id _).symm.trans (List.map_congr_left fun label hlabel => ?_)
  exact Prod.ext (h label hlabel) rfl

/-- After closing nothing is pending. -/
theorem run_close_pending {b b' : Buffer ν ι} {actions : List (BufferAction ν ι)}
    (h : b.run writer (actions ++ [.close]) = some b') : b'.pending = [] := by
  rw [run_append] at h
  obtain ⟨b₁, -, h⟩ := Option.bind_eq_some_iff.mp h
  obtain ⟨b₂, hflush, hrun⟩ := Option.bind_eq_some_iff.mp h
  obtain rfl := Option.some.inj hrun
  exact (flush_spec hflush).2.1

/-- A run that leaves nothing pending writes every item under its own name exactly when
the checks pass and every item is added while its name is current. -/
theorem writesOwn_iff {current : Option ν} {actions : List (BufferAction ν ι)}
    (hclose : ∀ b', (Buffer.mk current [] []).run writer actions = some b' → b'.pending = []) :
    WritesOwn writer target current actions ↔
      ChecksPass writer [] actions ∧ AddedUnderOwn target current actions := by
  have hwritten {b' : Buffer ν ι}
      (hrun : (Buffer.mk current [] []).run writer actions = some b') :
      (b'.written.map fun entry => (some entry.1, entry.2)).Perm (labels current actions) := by
    have hperm := run_spec hrun
    simpa only [labelled, hclose b' hrun, List.map_nil, List.append_nil,
      List.nil_append] using hperm
  constructor
  · rintro ⟨b', hrun, hperm⟩
    refine ⟨checksPass_of_run hrun, fun label hlabel => ?_⟩
    have hmem := ((hwritten hrun).symm.trans
      (hperm.map fun entry => (some entry.1, entry.2))).mem_iff.mp hlabel
    rw [List.map_map] at hmem
    obtain ⟨item, -, rfl⟩ := List.mem_map.mp hmem
    rfl
  · rintro ⟨hchecks, hown⟩
    obtain ⟨b', hrun⟩ := run_eq_some (b := Buffer.mk current [] []) hchecks (by simp)
      fun label hlabel => by rw [hown label hlabel]; rfl
    refine ⟨b', hrun, ?_⟩
    have hperm := hwritten hrun
    rw [labels_eq_of_own hown] at hperm
    have hinj : Function.Injective fun entry : ν × ι => (some entry.1, entry.2) := by
      rintro ⟨a, x⟩ ⟨b, y⟩ h
      obtain ⟨hname, hitem⟩ := Prod.mk.inj h
      exact Prod.ext (Option.some.inj hname) hitem
    refine (List.map_perm_map_iff hinj).mp (hperm.trans (List.Perm.of_eq ?_))
    rw [List.map_map]
    rfl

end Buffer

end PmuEvents.Foundation
