import PmuEvents.Lib.Types
set_option autoImplicit false

/-!
# `get_event_by_name`

The search for an event among the entries of an instance.  `none` stands for a read
outside of them.
-/

namespace PmuEvents.Lib

open PmuEvents.Libc

section Search

variable {β : Type} (decompress_event : Int → β) (name : β → CStr) (ev : CStr)

/-- The loop over the entries that are left, with `pmu_ev` as it is so far. -/
def searchEntries : List CompactPmuEvent → Nat → β → Option (Int × β)
  | _, 0, pmu_ev => some (-1, pmu_ev)
  | [], _ + 1, _ => none
  | entry :: entries, num_entries + 1, _ =>
    let pmu_ev := decompress_event entry.offset
    if strcmp (name pmu_ev) ev = .eq then some (0, pmu_ev)
    else searchEntries entries num_entries pmu_ev

/-- `get_event_by_name`: the return value and what is in `pmu_ev` then. -/
def getEventByName (pmu_instance : PmuInstance) (pmu_ev : β) : Option (Int × β) :=
  match pmu_instance.entries with
  | none => none
  | some (entries, num_entries) => searchEntries decompress_event name ev entries num_entries pmu_ev

variable {decompress_event name ev}

/-- Where no entry has the name, the search fails. -/
theorem searchEntries_eq_neg {entries : List CompactPmuEvent}
    (h : ∀ entry ∈ entries, name (decompress_event entry.offset) ≠ ev) (pmu_ev : β) :
    ∃ pmu_ev', searchEntries decompress_event name ev entries entries.length pmu_ev =
      some (-1, pmu_ev') := by
  induction entries generalizing pmu_ev with
  | nil => exact ⟨pmu_ev, rfl⟩
  | cons entry entries ih =>
    obtain ⟨hfirst, hrest⟩ := List.forall_mem_cons.mp h
    rw [List.length_cons, searchEntries, if_neg fun heq => hfirst (strcmp_eq_iff.mp heq)]
    exact ih hrest _

/-- The search finds the one entry that has the name. -/
theorem searchEntries_eq_zero {entries : List CompactPmuEvent} {entry : CompactPmuEvent}
    (hmem : entry ∈ entries) (hname : name (decompress_event entry.offset) = ev)
    (hunique : ∀ entry' ∈ entries, name (decompress_event entry'.offset) = ev → entry' = entry)
    (pmu_ev : β) :
    searchEntries decompress_event name ev entries entries.length pmu_ev =
      some (0, decompress_event entry.offset) := by
  induction entries generalizing pmu_ev with
  | nil => cases hmem
  | cons first entries ih =>
    obtain ⟨hfirst, hrest⟩ := List.forall_mem_cons.mp hunique
    rw [List.length_cons, searchEntries]
    split
    · rename_i heq
      rw [hfirst (strcmp_eq_iff.mp heq)]
    · rename_i hne
      refine ih ((List.mem_cons.mp hmem).resolve_left ?_) hrest _
      rintro rfl
      exact hne (strcmp_eq_iff.mpr hname)

end Search

end PmuEvents.Lib
