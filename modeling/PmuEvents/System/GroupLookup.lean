import PmuEvents.Jevents.MetricGroups
import PmuEvents.System.EventLookup
set_option autoImplicit false

/-!
# The metric groups of a run

The dictionary of metric groups that the first pass leaves is printed as an array of offsets
into the big string, and `describe_metricgroup` searches this array.  The main result: after a
run the search describes exactly the groups of the dictionary, unless one of their names goes on
where another one ends, with a character below the backslash.
-/

namespace PmuEvents.System

open PmuEvents.Foundation PmuEvents.Jevents PmuEvents.Lib PmuEvents.Libc PmuEvents.Metric

/-- The dictionary of a run is that of some metric groups, whose names and descriptions stand
in the generated file as they are. -/
structure HoldsGroups (g : Generator) (groups : MetricGroups) : Prop where
  dict : (g.metricgroups.entries.map fun e => (e.1, e.2)).Perm groups.dict
  plain : ∀ entry ∈ groups.entries, PlainName entry.1 ∧ PlainName entry.2

instance (g : Generator) (groups : MetricGroups) : Decidable (HoldsGroups g groups) :=
  decidable_of_iff ((g.metricgroups.entries.map fun e => (e.1, e.2)).Perm groups.dict ∧
      ∀ entry ∈ groups.entries, PlainName entry.1 ∧ PlainName entry.2)
    ⟨fun h => ⟨h.1, h.2⟩, fun h => ⟨h.1, h.2⟩⟩

section Generated

variable {lower : Text → Text} {parseMetric : Text → Except PyError Expr} {files : JsonFiles}
variable {setOrder : SetOrder} {mapfile : Text → Option (List CsvRow)}
variable {archs : List (Text × List Entry)} {generated : Generated}
variable {defs : List Definition} {rows : List MapRow} {groups : MetricGroups}

/-- The strings of the groups are in the big string. -/
theorem HoldsGroups.mem_texts (hgroups : HoldsGroups generated.globals groups)
    (h : Generates lower parseMetric files setOrder mapfile archs generated defs rows)
    {entry : Text × Text} (hentry : entry ∈ groups.entries) :
    entry.1 ++ nulText ∈ generated.globals.bcs.texts ∧
      entry.2 ++ nulText ∈ generated.globals.bcs.texts := by
  have hdict : (entry.1 ++ nulText, entry.2 ++ nulText) ∈ groups.dict :=
    List.mem_map_of_mem hentry
  obtain ⟨e, he, heq⟩ := List.mem_map.mp (hgroups.dict.mem_iff.mpr hdict)
  obtain ⟨hname, hdescription⟩ := Prod.mk.inj heq
  have hadded := (firstPass_spec h.first).1 e.1 e.2 (AList.mem_lookup_iff.mpr he)
  rw [hname, hdescription] at hadded
  exact hadded

/-- What the array refers to are the names and the descriptions. -/
theorem offsetsRead_of_generates
    (h : Generates lower parseMetric files setOrder mapfile archs generated defs rows)
    (hreads : generated.globals.bcs.ReadsBack setOrder)
    (hgroups : HoldsGroups generated.globals groups) :
    OffsetsRead (cstrAt generated.big_c_string) (addedOffset generated.offsets) groups := by
  constructor
  · intro entry hentry
    exact cstrAt_of_readsAt (hgroups.plain entry hentry).1
      (readsAt_of_generates h hreads (hgroups.mem_texts h hentry).1)
  · intro entry hentry
    exact cstrAt_of_readsAt (hgroups.plain entry hentry).2
      (readsAt_of_generates h hreads (hgroups.mem_texts h hentry).2)

end Generated

/-- Where a run of the generator ends, its file compiles and its strings can be read back,
`describe_metricgroup` gives every metric group of the run its description, and nothing else
one, exactly when no name is a proper prefix of another one that goes on with a character below
the backslash. -/
theorem describesGroups_generate (lower : Text → Text)
    (parseMetric : Text → Except PyError Expr) (files : JsonFiles) (setOrder : SetOrder)
    (mapfile : Text → Option (List CsvRow)) (arch : Text) (starting_dir : List Entry)
    (generated : Generated)
    (hgenerate :
      generate lower parseMetric files setOrder mapfile arch starting_dir = some generated)
    (hreads : generated.globals.bcs.ReadsBack setOrder) (groups : MetricGroups)
    (hgroups : HoldsGroups generated.globals groups) :
    DescribesGroups (cstrAt generated.big_c_string) (addedOffset generated.offsets) groups ↔
      ¬ HasLowExtension groups := by
  obtain ⟨defs, rows, h⟩ := generates_of_generate hgenerate
  rw [MetricGroups.describes_iff_sorted (offsetsRead_of_generates h hreads hgroups),
    groups.sortedNames_pairwise_iff]

/-- The model with a file of metric groups beside its events. -/
def groupedModel : List Entry :=
  [.dir "x86".toList
      [.dir "m".toList [.file "core.json".toList, .file "metricgroups.json".toList]],
    .dir "common".toList [.dir "common".toList [.file "tool.json".toList]]]

/-- A run for this model. -/
def generateGrouped : Option Generated :=
  generate (List.map Char.toLower) (fun _ => .error .keyError)
    { oneModelFiles with groups := fun _ => some badAndMem.entries } insertionOrder
    oneModelMapfile "x86".toList groupedModel

theorem describesGroups_generate_badAndMem :
    ∃ generated, generateGrouped = some generated ∧
      DescribesGroups (cstrAt generated.big_c_string) (addedOffset generated.offsets)
        badAndMem := by
  have hrun : generateGrouped.any fun generated =>
      decide (generated.globals.bcs.ReadsBack insertionOrder ∧
        HoldsGroups generated.globals badAndMem) := by decide +kernel
  obtain ⟨generated, hgenerate, hrun⟩ := (Option.any_eq_true _ _).mp hrun
  obtain ⟨hreads, hgroups⟩ := of_decide_eq_true hrun
  refine ⟨generated, hgenerate, (describesGroups_generate _ _ _ _ _ _ _ generated hgenerate hreads
    badAndMem hgroups).mpr ?_⟩
  exact badAndMem.sortedNames_pairwise_iff.mp (by decide +kernel)

end PmuEvents.System
