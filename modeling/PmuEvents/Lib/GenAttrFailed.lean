import PmuEvents.Lib.GenAttr
set_option autoImplicit false

/-!
# `gen_attr_for_event` when it fails

The attribute is written in place and nothing is taken back.  What a failed call
leaves is the caller's attribute with the type that was read and with the assignments
in front of the failing one applied; all other members are as they were.
-/

namespace PmuEvents.Lib

open PmuEvents.Foundation PmuEvents.Libc

variable {β : Type}

/-- `gen_attr_for_event` fails once it has applied the assignments `done`. -/
inductive FailsAfter (sys : Sysfs) (pmu : PmuInstance) (event : CStr) : List Assignment → Prop
  /-- the type file cannot be read, or holds -1 -/
  | type (htype : readPerfType sys pmu = minusOne) : FailsAfter sys pmu event []
  /-- the event string is not a list of assignments -/
  | event (htype : readPerfType sys pmu ≠ minusOne)
      (hevent : (parseAssignmentList event).1 = -1) : FailsAfter sys pmu event []
  /-- the key of an assignment has no format file, or one that does not parse -/
  | format {done rest : List Assignment} {asn : Assignment}
      (htype : readPerfType sys pmu ≠ minusOne) (hevent : (parseAssignmentList event).1 = 0)
      (hlist : (parseAssignmentList event).2 = done ++ asn :: rest)
      (hdone : AllFormats sys pmu done) (hkey : asn.key ≠ cs "period")
      (hformat : formatOf sys pmu asn.key = none) : FailsAfter sys pmu event done

/-- An assignment leaves the type and the other members alone. -/
theorem assign_frame (sys : Sysfs) (pmu : PmuInstance) (attr : PerfEventAttr β)
    (asn : Assignment) :
    (assign sys pmu attr asn).type = attr.type ∧
      (assign sys pmu attr asn).others = attr.others := by
  unfold assign
  split
  · exact ⟨rfl, rfl⟩
  · split
    · exact ⟨rfl, rfl⟩
    · rename_i d hd
      cases hval : applyRangeListToVal (attr.word d.var) asn.value d.range with
      | none => simp [applyConfigDefToAttr, hval]
      | some w => simp [applyConfigDefToAttr, hval]

/-- So does a run of assignments. -/
theorem foldl_assign_members (sys : Sysfs) (pmu : PmuInstance) (list : List Assignment)
    (attr : PerfEventAttr β) :
    (list.foldl (assign sys pmu) attr).type = attr.type ∧
      (list.foldl (assign sys pmu) attr).others = attr.others := by
  induction list generalizing attr with
  | nil => exact ⟨rfl, rfl⟩
  | cons asn list ih =>
    obtain ⟨htype, hothers⟩ := assign_frame sys pmu attr asn
    obtain ⟨htype', hothers'⟩ := ih (assign sys pmu attr asn)
    exact ⟨htype'.trans htype, hothers'.trans hothers⟩

/-- A loop that fails stops at a key without a usable format, and keeps what the
assignments in front of it wrote. -/
theorem genAttrLoop_failed {sys : Sysfs} {pmu : PmuInstance} {list : List Assignment}
    {attr attr' : PerfEventAttr β} (h : genAttrLoop sys pmu list attr = some (-1, attr')) :
    ∃ done asn rest, list = done ++ asn :: rest ∧ AllFormats sys pmu done ∧
      asn.key ≠ cs "period" ∧ formatOf sys pmu asn.key = none ∧
        attr' = done.foldl (assign sys pmu) attr := by
  have hnone : AllFormats sys pmu [] := by simp [AllFormats, bitAssignments]
  induction list generalizing attr with
  | nil => simp [genAttrLoop] at h
  | cons asn list ih =>
    rw [genAttrLoop] at h
    by_cases hperiod : asn.key = cs "period"
    · rw [if_pos hperiod] at h
      obtain ⟨done, asn', rest, rfl, hdone, hkey, hformat, rfl⟩ := ih h
      have hskip : assign sys pmu attr asn = attr := if_pos hperiod
      refine ⟨asn :: done, asn', rest, rfl, ?_, hkey, hformat, ?_⟩
      · rwa [AllFormats, bitAssignments_cons, if_pos hperiod]
      · rw [List.foldl_cons, hskip]
    · rw [if_neg hperiod] at h
      cases hcontent : getFormatFileContent sys asn.key pmu with
      | none =>
        simp only [hcontent, Option.some.injEq, Prod.mk.injEq, true_and] at h
        exact ⟨[], asn, list, rfl, hnone, hperiod, by rw [formatOf, hcontent]; rfl, h.symm⟩
      | some config_def_str =>
        cases hdef : parseConfigDef config_def_str with
        | none =>
          simp only [hcontent, hdef, Option.some.injEq, Prod.mk.injEq, true_and] at h
          refine ⟨[], asn, list, rfl, hnone, hperiod, ?_, h.symm⟩
          rw [formatOf, hcontent]
          exact hdef
        | some d =>
          have hformat : formatOf sys pmu asn.key = some d := by
            rw [formatOf, hcontent]
            exact hdef
          cases happly : applyConfigDefToAttr attr asn.value d with
          | none => simp [hcontent, hdef, happly] at h
          | some next =>
            simp only [hcontent, hdef, happly] at h
            have hassign : assign sys pmu attr asn = next := by
              simp [assign, hperiod, hformat, happly]
            obtain ⟨done, asn', rest, rfl, hdone, hkey', hformat', rfl⟩ := ih h
            refine ⟨asn :: done, asn', rest, rfl, ?_, hkey', hformat', ?_⟩
            · rw [AllFormats, bitAssignments_cons, if_neg hperiod, List.forall_mem_cons, hformat]
              exact ⟨rfl, hdone⟩
            · rw [List.foldl_cons, hassign]

/-- The code of `parse_assignment_list` is 0 or -1. -/
theorem parseAssignmentList_code (str : CStr) :
    (parseAssignmentList str).1 = 0 ∨ (parseAssignmentList str).1 = -1 := by
  unfold parseAssignmentList
  split
  · exact .inr rfl
  · exact .inl rfl

theorem failsAfter_of_failed {sys : Sysfs} {pmu : PmuInstance} {event : CStr}
    {attr attr' : PerfEventAttr β} (h : genAttrForEvent sys pmu event attr = some (-1, attr')) :
    ∃ done, FailsAfter sys pmu event done ∧
      attr' = done.foldl (assign sys pmu) { attr with type := readPerfType sys pmu } := by
  unfold genAttrForEvent at h
  by_cases htype : readPerfType sys pmu = minusOne
  · simp only [if_pos htype, Option.some.injEq, Prod.mk.injEq, true_and] at h
    exact ⟨[], .type htype, h.symm⟩
  · simp only [if_neg htype] at h
    rcases parseAssignmentList_code event with hevent | hevent
    · rw [hevent, if_neg (by decide)] at h
      obtain ⟨done, asn, rest, hlist, hdone, hkey, hformat, hattr⟩ := genAttrLoop_failed h
      exact ⟨done, .format htype hevent hlist hdone hkey hformat, hattr⟩
    · simp only [if_pos hevent, Option.some.injEq, Prod.mk.injEq, true_and] at h
      exact ⟨[], .event htype hevent, h.symm⟩

/-- What a failed call leaves: the type that was read, the assignments in front of the
failing one, and every other member as it was.  So the attribute is as it was exactly
when the type and the config words come out as before. -/
theorem genAttrForEvent_failed {sys : Sysfs} {pmu : PmuInstance} {event : CStr}
    {attr attr' : PerfEventAttr β} (h : genAttrForEvent sys pmu event attr = some (-1, attr')) :
    ∃ done, FailsAfter sys pmu event done ∧
      attr' = done.foldl (assign sys pmu) { attr with type := readPerfType sys pmu } ∧
        attr'.type = readPerfType sys pmu ∧ attr'.others = attr.others ∧
          (attr' = attr ↔ readPerfType sys pmu = attr.type ∧
            ∀ var, (done.foldl (assign sys pmu) attr).word var = attr.word var) := by
  obtain ⟨done, hfails, rfl⟩ := failsAfter_of_failed h
  obtain ⟨htype, hothers⟩ :=
    foldl_assign_members sys pmu done { attr with type := readPerfType sys pmu }
  refine ⟨done, hfails, rfl, htype, hothers, ?_⟩
  have hsame : readPerfType sys pmu = attr.type →
      { attr with type := readPerfType sys pmu } = attr := fun hread => by rw [hread]
  constructor
  · intro heq
    have hread : readPerfType sys pmu = attr.type :=
      htype.symm.trans (congrArg PerfEventAttr.type heq)
    refine ⟨hread, fun var => ?_⟩
    rw [hsame hread] at heq
    rw [heq]
  · rintro ⟨hread, hwords⟩
    rw [hsame hread] at htype hothers ⊢
    exact PerfEventAttr.ext_words htype hwords hothers

/-- An event string whose second key has no format file. -/
def unknownKey : CStr := cs "event=0x40,bogus=1"

/-- The call fails with the type read and the first assignment applied. -/
theorem genAttrForEvent_unknownKey :
    genAttrForEvent amdCpuSysfs ⟨cs "cpu", [], none⟩ unknownKey
      (⟨0, 0, 0, 0, ()⟩ : PerfEventAttr Unit) = some (-1, ⟨4, 0x40, 0, 0, ()⟩) := by decide

/-- The attribute is not the one before the call. -/
theorem genAttrForEvent_changed :
    ¬ ∀ attr', genAttrForEvent amdCpuSysfs ⟨cs "cpu", [], none⟩ unknownKey
      (⟨0, 0, 0, 0, ()⟩ : PerfEventAttr Unit) = some (-1, attr') → attr' = ⟨0, 0, 0, 0, ()⟩ := by
  intro h
  exact absurd (h _ genAttrForEvent_unknownKey) (by decide)

/-- The type file and the key `event` are what the failed call has written. -/
theorem genAttrForEvent_failed_unknownKey :
    ∃ done, FailsAfter amdCpuSysfs ⟨cs "cpu", [], none⟩ unknownKey done ∧
      (⟨4, 0x40, 0, 0, ()⟩ : PerfEventAttr Unit) =
        done.foldl (assign amdCpuSysfs ⟨cs "cpu", [], none⟩) ⟨4, 0, 0, 0, ()⟩ := by
  obtain ⟨done, hfails, hattr, -⟩ := genAttrForEvent_failed genAttrForEvent_unknownKey
  have hread : readPerfType amdCpuSysfs ⟨cs "cpu", [], none⟩ = 4 := by decide
  rw [hread] at hattr
  exact ⟨done, hfails, hattr⟩

end PmuEvents.Lib
