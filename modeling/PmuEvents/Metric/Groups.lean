import PmuEvents.Foundation.Scan
import PmuEvents.Foundation.Traverse
import PmuEvents.Metric.Simplify
import Mathlib.Data.Finset.Sort
import Mathlib.Data.List.Sort
import Mathlib.Data.List.Lex
import Mathlib.Data.Char
set_option autoImplicit false

/-!
# Metrics in groups

A script constructs metrics, and groups of metrics and of groups.  A group tells every metric
in it its name, and the JSON of a metric lists the names it was told.  The main result: these
are the names of all groups that the metric is in, at any depth.
-/

namespace PmuEvents.Metric

open PmuEvents.Foundation

/-! ## Metrics -/

/-- `Metric`. -/
structure MetricObject where
  name : Text
  description : Text
  expr : Expr
  scale_unit : Text
  constraint : Bool
  groups : Finset Text
  deriving DecidableEq

/-- The exceptions of the constructor. -/
inductive MetricError where
  | simplify (err : SimplifyError)
  /-- an empty scale unit has no first character -/
  | indexError

/-- The constructor of `Metric`, with `str.isdigit` for one character. -/
def MetricObject.init (isdigit : Char → Bool) (name description : Text) (expr : Expr)
    (scale_unit : Text) (constraint : Bool) : Except MetricError MetricObject :=
  match expr.simplify with
  | .error err => .error (.simplify err)
  | .ok expr =>
    let per_sec : Pattern Char := fun t =>
      (afterWord "/sec".toList t).map fun rest => (" per sec".toList, rest)
    match substituteAll per_sec scale_unit with
    | [] => .error .indexError
    | c :: unit =>
      let scale_unit := if isdigit c then c :: unit else '1' :: c :: unit
      .ok { name, description, expr, scale_unit, constraint, groups := ∅ }

/-- `ToPerfJson` of a metric: the items of the dictionary. -/
def MetricObject.toPerfJson (m : MetricObject) : List (Text × Text) :=
  [("MetricName".toList, m.name),
    ("MetricGroup".toList, [';'].intercalate (m.groups.sort (· ≤ ·))),
    ("BriefDescription".toList, m.description),
    ("MetricExpr".toList, m.expr.toPerfJson),
    ("ScaleUnit".toList, m.scale_unit)] ++
    if m.constraint then [("MetricConstraint".toList, "NO_NMI_WATCHDOG".toList)] else []

/-! ## Groups -/

/-- What can be in a group: a metric, by its number, or a group, which never changes. -/
inductive GroupMember where
  | metric (id : Nat)
  | group (name : Text) (metric_list : List GroupMember)

mutual

/-- `AddToMetricGroup`, on the metrics of the script. -/
def GroupMember.addToMetricGroup (group : Text) :
    GroupMember → List MetricObject → List MetricObject
  | .metric id, metrics => metrics.modify id fun m => { m with groups := insert group m.groups }
  | .group _ metric_list, metrics => addAllToMetricGroup group metric_list metrics

/-- The loop over the members of a group. -/
def addAllToMetricGroup (group : Text) :
    List GroupMember → List MetricObject → List MetricObject
  | [], metrics => metrics
  | x :: xs, metrics => addAllToMetricGroup group xs (x.addToMetricGroup group metrics)

end

mutual

/-- `Flatten`: the numbers of the metrics. -/
def GroupMember.flatten : GroupMember → Finset Nat
  | .metric id => {id}
  | .group _ metric_list => flattenAll ∅ metric_list

/-- The loop over the members of a group. -/
def flattenAll (result : Finset Nat) : List GroupMember → Finset Nat
  | [] => result
  | x :: xs => flattenAll (result ∪ x.flatten) xs

end

/-! ## Scripts -/

/-- The objects that a script has constructed: the metrics, and the groups with their members. -/
structure Objects where
  metrics : List MetricObject
  groups : List (Text × List GroupMember)

/-- An object of a script, by its number. -/
inductive ObjectRef where
  | metric (id : Nat)
  | group (index : Nat)

/-- A call of a constructor. -/
inductive Construct where
  | metric (name description : Text) (expr : Expr) (scale_unit : Text) (constraint : Bool)
  | group (name : Text) (metric_list : List ObjectRef)

/-- The object of a number, if it is constructed. -/
def Objects.resolve (objects : Objects) : ObjectRef → Option GroupMember
  | .metric id => if id < objects.metrics.length then some (.metric id) else none
  | .group index => objects.groups[index]?.map fun g => .group g.1 g.2

/-- A call of a constructor; `none` where it raises. -/
def Objects.construct (isdigit : Char → Bool) (objects : Objects) : Construct → Option Objects
  | .metric name description expr scale_unit constraint => do
    let m ← (MetricObject.init isdigit name description expr scale_unit constraint).toOption
    return { objects with metrics := objects.metrics ++ [m] }
  | .group name metric_list => do
    let metric_list ← metric_list.mapM objects.resolve
    return { metrics := addAllToMetricGroup name metric_list objects.metrics
             groups := objects.groups ++ [(name, metric_list)] }

/-- The order in which Python iterates over a set of metrics. -/
structure MetricSetOrder where
  iterate : Finset Nat → List Nat
  nodup : ∀ s, (iterate s).Nodup
  mem : ∀ s id, id ∈ iterate s ↔ id ∈ s

/-- The metrics of a set, with their numbers. -/
def Objects.metricsOf (objects : Objects) (setOrder : MetricSetOrder) (ids : Finset Nat) :
    List (Nat × MetricObject) :=
  (setOrder.iterate ids).filterMap fun id => objects.metrics[id]?.map fun m => (id, m)

/-- `ToPerfJson` of a group: the dictionaries of its metrics, sorted by name. -/
def Objects.toPerfJson (objects : Objects) (setOrder : MetricSetOrder) (group : GroupMember) :
    List (List (Text × Text)) :=
  ((objects.metricsOf setOrder group.flatten).insertionSort fun a b => a.2.name ≤ b.2.name).map
    fun m => m.2.toPerfJson

/-- The calls of a script. -/
def runScript (isdigit : Char → Bool) (script : List Construct) : Option Objects :=
  script.foldlM (Objects.construct isdigit) { metrics := [], groups := [] }

/-! ## What a group tells its metrics -/

/-- The loop adds to what it begins with. -/
theorem mem_flattenAll {result : Finset Nat} {xs : List GroupMember} {id : Nat} :
    id ∈ flattenAll result xs ↔ id ∈ result ∨ ∃ x ∈ xs, id ∈ x.flatten := by
  induction xs generalizing result with
  | nil => simp [flattenAll]
  | cons x xs ih =>
    rw [flattenAll, ih, Finset.mem_union, List.exists_mem_cons_iff, or_assoc]

mutual

theorem GroupMember.getElem?_addToMetricGroup (group : Text) (x : GroupMember)
    (metrics : List MetricObject) (id : Nat) :
    (x.addToMetricGroup group metrics)[id]? = metrics[id]?.map fun m =>
      if id ∈ x.flatten then { m with groups := insert group m.groups } else m := by
  cases x with
  | metric id' =>
    rw [GroupMember.addToMetricGroup, GroupMember.flatten, List.getElem?_modify]
    simp only [Finset.mem_singleton, eq_comm]
    rfl
  | group name metric_list =>
    rw [GroupMember.addToMetricGroup, GroupMember.flatten]
    exact getElem?_addAllToMetricGroup group metric_list metrics id

theorem getElem?_addAllToMetricGroup (group : Text) (xs : List GroupMember)
    (metrics : List MetricObject) (id : Nat) :
    (addAllToMetricGroup group xs metrics)[id]? = metrics[id]?.map fun m =>
      if id ∈ flattenAll ∅ xs then { m with groups := insert group m.groups } else m := by
  cases xs with
  | nil => simp [addAllToMetricGroup, flattenAll]
  | cons x xs =>
    rw [addAllToMetricGroup, getElem?_addAllToMetricGroup group xs,
      x.getElem?_addToMetricGroup group, Option.map_map]
    congr 1
    funext m
    simp only [mem_flattenAll, List.exists_mem_cons_iff, Finset.notMem_empty, false_or,
      Function.comp_apply]
    -- a metric that is told the name twice has it once
    by_cases hx : id ∈ x.flatten
    · by_cases hxs : ∃ y ∈ xs, id ∈ y.flatten
      · simp [hx, hxs]
      · simp [hx, hxs]
    · simp [hx]

end

theorem length_addAllToMetricGroup (group : Text) (xs : List GroupMember)
    (metrics : List MetricObject) :
    (addAllToMetricGroup group xs metrics).length = metrics.length := by
  have hle : ∀ id, (addAllToMetricGroup group xs metrics).length ≤ id ↔ metrics.length ≤ id := by
    intro id
    rw [← List.getElem?_eq_none_iff, ← List.getElem?_eq_none_iff, getElem?_addAllToMetricGroup,
      Option.map_eq_none_iff]
  exact Nat.le_antisymm ((hle _).mpr (Nat.le_refl _)) ((hle _).mp (Nat.le_refl _))

/-! ## The names of the groups -/

/-- `Flatten` of a constructed group. -/
def flattenGroup (g : Text × List GroupMember) : Finset Nat :=
  (GroupMember.group g.1 g.2).flatten

theorem mem_flattenGroup {g : Text × List GroupMember} {id : Nat} :
    id ∈ flattenGroup g ↔ ∃ x ∈ g.2, id ∈ x.flatten := by
  rw [flattenGroup, GroupMember.flatten, mem_flattenAll]
  simp

/-- The groups have metrics that are constructed, and the names of a metric are those of the
groups it is in. -/
structure Objects.NamesGroups (objects : Objects) : Prop where
  older : ∀ g ∈ objects.groups, ∀ id ∈ flattenGroup g, id < objects.metrics.length
  names : ∀ id m, objects.metrics[id]? = some m → ∀ name,
    name ∈ m.groups ↔ ∃ g ∈ objects.groups, g.1 = name ∧ id ∈ flattenGroup g

section Run

variable {isdigit : Char → Bool}

theorem MetricObject.groups_of_init {name description : Text} {expr : Expr} {scale_unit : Text}
    {constraint : Bool} {m : MetricObject}
    (h : MetricObject.init isdigit name description expr scale_unit constraint = .ok m) :
    m.groups = ∅ := by
  unfold MetricObject.init at h
  split at h
  · cases h
  · dsimp only at h
    split at h
    · cases h
    · cases h
      rfl

/-- What a script refers to has metrics that are constructed. -/
theorem Objects.NamesGroups.lt_of_resolve {objects : Objects} (h : objects.NamesGroups)
    {ref : ObjectRef} {x : GroupMember} (hx : objects.resolve ref = some x) {id : Nat}
    (hid : id ∈ x.flatten) : id < objects.metrics.length := by
  cases ref with
  | metric id' =>
    rw [Objects.resolve] at hx
    split at hx
    · rename_i hlt
      obtain rfl := Option.some.inj hx
      rw [GroupMember.flatten, Finset.mem_singleton] at hid
      rwa [hid]
    · cases hx
  | group index =>
    obtain ⟨g, hg, rfl⟩ := Option.map_eq_some_iff.mp hx
    exact h.older g (List.mem_of_getElem? hg) id hid

/-- A new metric is in no group. -/
theorem Objects.NamesGroups.metric {objects : Objects} (h : objects.NamesGroups)
    {m : MetricObject} (hm : m.groups = ∅) :
    { objects with metrics := objects.metrics ++ [m] : Objects }.NamesGroups := by
  constructor
  · intro g hg id hid
    have hlt := h.older g hg id hid
    rw [List.length_append]
    exact Nat.lt_add_right _ hlt
  · intro id m' hm' name
    by_cases hlt : id < objects.metrics.length
    · rw [List.getElem?_append_left hlt] at hm'
      exact h.names id m' hm' name
    · rw [List.getElem?_append_right (Nat.not_lt.mp hlt)] at hm'
      obtain rfl : m' = m := List.mem_singleton.mp (List.mem_of_getElem? hm')
      rw [hm]
      constructor
      · intro hname
        simp at hname
      · rintro ⟨g, hg, -, hid⟩
        exact absurd (h.older g hg id hid) hlt

/-- A new group tells its name to the metrics in it, and to no others. -/
theorem Objects.NamesGroups.group {objects : Objects} (h : objects.NamesGroups) (name : Text)
    {metric_list : List GroupMember}
    (hlist : ∀ x ∈ metric_list, ∀ id ∈ x.flatten, id < objects.metrics.length) :
    Objects.NamesGroups
      { metrics := addAllToMetricGroup name metric_list objects.metrics
        groups := objects.groups ++ [(name, metric_list)] } := by
  constructor
  · intro g hg id hid
    rw [length_addAllToMetricGroup]
    rcases List.mem_append.mp hg with hold | hnew
    · exact h.older g hold id hid
    · obtain rfl := List.mem_singleton.mp hnew
      obtain ⟨x, hx, hid⟩ := mem_flattenGroup.mp hid
      exact hlist x hx id hid
  · intro id m' hm' name'
    rw [getElem?_addAllToMetricGroup] at hm'
    obtain ⟨m, hm, rfl⟩ := Option.map_eq_some_iff.mp hm'
    have hnames := h.names id m hm name'
    have hgroup : id ∈ flattenAll ∅ metric_list ↔ id ∈ flattenGroup (name, metric_list) := by
      rw [flattenGroup, GroupMember.flatten]
    simp only [List.mem_append, List.mem_singleton, or_and_right, exists_or, exists_eq_left,
      ← hgroup, ← hnames]
    -- the name may be one that an older group has already
    by_cases hid : id ∈ flattenAll ∅ metric_list
    · simp only [hid, if_true, Finset.mem_insert, and_true]
      exact ⟨fun hname => hname.symm.imp_right Eq.symm, fun hname => (hname.imp_right Eq.symm).symm⟩
    · simp only [hid, if_false, and_false, or_false]

theorem Objects.NamesGroups.construct {objects objects' : Objects} (h : objects.NamesGroups)
    {call : Construct} (hcall : objects.construct isdigit call = some objects') :
    objects'.NamesGroups := by
  cases call with
  | metric name description expr scale_unit constraint =>
    simp only [Objects.construct, Option.bind_eq_bind, Option.bind_eq_some_iff] at hcall
    obtain ⟨m, hm, hcall⟩ := hcall
    obtain rfl := Option.some.inj hcall
    cases hinit : MetricObject.init isdigit name description expr scale_unit constraint with
    | error err =>
      rw [hinit] at hm
      cases hm
    | ok m' =>
      rw [hinit] at hm
      obtain rfl : m' = m := Option.some.inj hm
      exact h.metric (MetricObject.groups_of_init hinit)
  | group name metric_list =>
    simp only [Objects.construct, Option.bind_eq_bind, Option.bind_eq_some_iff] at hcall
    obtain ⟨members, hmembers, hcall⟩ := hcall
    obtain rfl := Option.some.inj hcall
    refine h.group name fun x hx id hid => ?_
    obtain ⟨ref, -, href⟩ := (mem_mapM_iff hmembers x).mp hx
    exact h.lt_of_resolve href hid

theorem namesGroups_of_runScript {script : List Construct} {objects : Objects}
    (h : runScript isdigit script = some objects) : objects.NamesGroups := by
  refine foldlM_some_keeps (P := Objects.NamesGroups) ?_ h ⟨by simp, by simp⟩
  exact fun objects call objects' hcall hnames => hnames.construct hcall

end Run

section Json

variable {objects : Objects} {setOrder : MetricSetOrder} {ids : Finset Nat}

theorem mem_metricsOf {m : Nat × MetricObject} :
    m ∈ objects.metricsOf setOrder ids ↔ m.1 ∈ ids ∧ objects.metrics[m.1]? = some m.2 := by
  simp only [Objects.metricsOf, List.mem_filterMap, setOrder.mem, Option.map_eq_some_iff]
  constructor
  · rintro ⟨id, hid, m', hm', rfl⟩
    exact ⟨hid, hm'⟩
  · rintro ⟨hid, hm⟩
    exact ⟨m.1, hid, m.2, hm, rfl⟩

theorem nodup_metricsOf : ((objects.metricsOf setOrder ids).map Prod.fst).Nodup := by
  have hfilter : (objects.metricsOf setOrder ids).map Prod.fst =
      (setOrder.iterate ids).filter fun id => objects.metrics[id]?.isSome := by
    rw [Objects.metricsOf]
    induction setOrder.iterate ids with
    | nil => rfl
    | cons id l ih => cases hm : objects.metrics[id]? <;> simp [hm, ih]
  rw [hfilter]
  exact (setOrder.nodup ids).filter _

end Json

/-- For every script, the JSON of a group has one dictionary for each metric in the group, at any
depth, sorted by the names of the metrics; and the groups that a metric names there are exactly
the groups of the script that it is in. -/
theorem toPerfJson_runScript (isdigit : Char → Bool) (script : List Construct)
    (objects : Objects) (h : runScript isdigit script = some objects)
    (setOrder : MetricSetOrder) (g : Text × List GroupMember) (hg : g ∈ objects.groups) :
    ∃ ms : List (Nat × MetricObject),
      objects.toPerfJson setOrder (.group g.1 g.2) = ms.map (fun m => m.2.toPerfJson) ∧
      ms.Pairwise (fun a b => a.2.name ≤ b.2.name) ∧ (ms.map Prod.fst).Nodup ∧
      (∀ id, id ∈ ms.map Prod.fst ↔ id ∈ flattenGroup g) ∧
      ∀ m ∈ ms, objects.metrics[m.1]? = some m.2 ∧ ∀ name,
        name ∈ m.2.groups ↔ ∃ g' ∈ objects.groups, g'.1 = name ∧ m.1 ∈ flattenGroup g' := by
  have hnames := namesGroups_of_runScript h
  have hperm := List.perm_insertionSort (fun a b : Nat × MetricObject => a.2.name ≤ b.2.name)
    (objects.metricsOf setOrder (flattenGroup g))
  refine ⟨(objects.metricsOf setOrder (flattenGroup g)).insertionSort
    fun a b => a.2.name ≤ b.2.name, rfl, ?_, ?_, fun id => ?_, fun m hm => ?_⟩
  · exact List.pairwise_insertionSort (fun a b : Nat × MetricObject => a.2.name ≤ b.2.name) _
  · exact (hperm.map Prod.fst).nodup_iff.mpr nodup_metricsOf
  · rw [(hperm.map Prod.fst).mem_iff, List.mem_map]
    constructor
    · rintro ⟨m, hm, rfl⟩
      exact (mem_metricsOf.mp hm).1
    · intro hid
      have hlt := hnames.older g hg id hid
      exact ⟨(id, objects.metrics[id]), mem_metricsOf.mpr ⟨hid, List.getElem?_eq_getElem hlt⟩, rfl⟩
  · have hfound := (mem_metricsOf.mp (hperm.mem_iff.mp hm)).2
    exact ⟨hfound, hnames.names m.1 m.2 hfound⟩

/-- A set of metrics in the order of their numbers. -/
def numberOrder : MetricSetOrder where
  iterate := fun s => s.sort (· ≤ ·)
  nodup := fun s => s.sort_nodup (· ≤ ·)
  mem := fun s _ => s.mem_sort (· ≤ ·)

/-- Two metrics, a group with the first, and a group with this group and the second. -/
def nestedGroups : List Construct :=
  [.metric ['a'] [] (.event ['x']) "1/sec".toList false,
    .metric ['b'] [] (.event ['y']) ['%'] true,
    .group ['G'] [.metric 0],
    .group ['H'] [.group 0, .metric 1]]

theorem toPerfJson_runScript_nested :
    ∃ objects, runScript Char.isDigit nestedGroups = some objects ∧ ∃ g ∈ objects.groups,
      g.1 = ['H'] ∧ ∃ ms : List (Nat × MetricObject),
        objects.toPerfJson numberOrder (.group g.1 g.2) = ms.map (fun m => m.2.toPerfJson) ∧
        ms.Pairwise (fun a b => a.2.name ≤ b.2.name) ∧ (ms.map Prod.fst).Nodup ∧
        (∀ id, id ∈ ms.map Prod.fst ↔ id ∈ flattenGroup g) ∧
        ∀ m ∈ ms, objects.metrics[m.1]? = some m.2 ∧ ∀ name,
          name ∈ m.2.groups ↔ ∃ g' ∈ objects.groups, g'.1 = name ∧ m.1 ∈ flattenGroup g' := by
  have hrun : (runScript Char.isDigit nestedGroups).any fun objects =>
      objects.groups.any fun g => g.1 = ['H'] := by decide +kernel
  obtain ⟨objects, hrun, hgroups⟩ := (Option.any_eq_true _ _).mp hrun
  obtain ⟨g, hg, hname⟩ := List.any_eq_true.mp hgroups
  exact ⟨objects, hrun, g, hg, of_decide_eq_true hname,
    toPerfJson_runScript Char.isDigit nestedGroups objects hrun numberOrder g hg⟩

end PmuEvents.Metric
