import PmuEvents.Lib.GenAttrFailed
set_option autoImplicit false

/-!
# The bits of a generated attribute

What a successful call of `gen_attr_for_event` leaves in the attribute: in the bits of a
format the value of its key, everywhere else what was there.
-/

namespace PmuEvents.Lib

open PmuEvents.Foundation PmuEvents.Libc

variable {β : Type} {sys : Sysfs} {pmu : PmuInstance}

/-- An attribute holds the values of assignments, and of another attribute the rest. -/
structure HoldsAssignments (sys : Sysfs) (pmu : PmuInstance) (list : List Assignment)
    (attr attr' : PerfEventAttr β) : Prop where
  type : attr'.type = readPerfType sys pmu
  others : attr'.others = attr.others
  bits : ∀ asn ∈ bitAssignments list, ∀ d, formatOf sys pmu asn.key = some d →
    ∀ p < 64, ∀ b, writtenBit asn.value d.range p = some b → (attr'.word d.var).getLsbD p = b
  frame : ∀ var, ∀ p < 64,
    (∀ asn ∈ bitAssignments list, ∀ d, formatOf sys pmu asn.key = some d → ¬ d.Covers var p) →
      (attr'.word var).getLsbD p = (attr.word var).getLsbD p

/-- Where all assignments that write a bit write the same, the bit has this value at the
end. -/
theorem foldl_assign_bit {list : List Assignment} (h : ∀ asn ∈ list, FormatInWord sys pmu asn)
    {var : AttrVar} {p : Nat} (hp : p < 64) {bit : Bool}
    (hsame : ∀ asn ∈ list, ∀ b, assignedBit sys pmu asn var p = some b → b = bit)
    {attr : PerfEventAttr β}
    (hwritten : (attr.word var).getLsbD p = bit ∨
      ∃ asn ∈ list, assignedBit sys pmu asn var p = some bit) :
    ((list.foldl (assign sys pmu) attr).word var).getLsbD p = bit := by
  induction list generalizing attr with
  | nil =>
    rcases hwritten with hbit | ⟨asn, hasn, -⟩
    · exact hbit
    · cases hasn
  | cons asn list ih =>
    rw [List.forall_mem_cons] at h hsame
    obtain ⟨-, -, hassign⟩ := assign_spec h.1 attr
    rw [List.foldl_cons]
    refine ih h.2 hsame.2 ?_
    rw [hassign var p hp]
    cases hbit : assignedBit sys pmu asn var p with
    | some b => exact .inl (hsame.1 b hbit)
    | none =>
      rcases hwritten with hold | ⟨asn', hasn', hwrites⟩
      · exact .inl hold
      · rcases List.mem_cons.mp hasn' with rfl | hasn'
        · rw [hbit] at hwrites
          cases hwrites
        · exact .inr ⟨asn', hasn', hwrites⟩

/-- The assignments of disjoint formats leave their values. -/
theorem holdsAssignments_foldl {list : List Assignment} (h : DisjointFormats sys pmu list)
    (attr : PerfEventAttr β) :
    HoldsAssignments sys pmu list attr
      (list.foldl (assign sys pmu) { attr with type := readPerfType sys pmu }) := by
  obtain ⟨htype, hothers, hframe⟩ :=
    foldl_assign_frame h.formatInWord { attr with type := readPerfType sys pmu }
  refine ⟨htype, hothers, ?_, ?_⟩
  · intro asn hasn d hd p hp b hb
    obtain ⟨hmem, hkey⟩ := mem_bitAssignments.mp hasn
    have hwrites : assignedBit sys pmu asn d.var p = some b := by
      rw [assignedBit, if_neg hkey, hd]
      exact (if_pos rfl).trans hb
    refine foldl_assign_bit h.formatInWord hp ?_ (.inr ⟨asn, hmem, hwrites⟩)
    intro asn' hmem' b' hb'
    rcases h.eq_or_disjoint hmem hmem' with rfl | hdisjoint
    · exact Option.some.inj (hb'.symm.trans hwrites)
    · rcases hdisjoint d.var p with hnone | hnone
      · exact absurd (hwrites.symm.trans hnone) (Option.some_ne_none b)
      · exact absurd (hb'.symm.trans hnone) (Option.some_ne_none b')
  · intro var p hp hfree
    rw [hframe var p hp fun asn hmem => assignedBit_eq_none fun hkey d hd =>
      hfree asn (mem_bitAssignments.mpr ⟨hmem, hkey⟩) d hd]
    cases var <;> rfl

/-- With disjoint formats a call succeeds exactly when the type and all formats can be read,
and then the attribute holds the values of the event string. -/
theorem genAttrForEvent_spec {event : CStr} {list : List Assignment}
    (hparse : parseAssignmentList event = (0, list)) (h : DisjointFormats sys pmu list)
    (attr : PerfEventAttr β) :
    ∃ code attr', genAttrForEvent sys pmu event attr = some (code, attr') ∧
      code = (if readPerfType sys pmu ≠ minusOne ∧ AllFormats sys pmu list then 0 else -1) ∧
      (code = 0 → HoldsAssignments sys pmu list attr attr') := by
  by_cases htype : readPerfType sys pmu = minusOne
  · exact ⟨-1, { attr with type := readPerfType sys pmu }, by simp [genAttrForEvent, htype],
      by simp [htype], by simp⟩
  · have hrun : genAttrForEvent sys pmu event attr =
        genAttrLoop sys pmu list { attr with type := readPerfType sys pmu } := by
      simp [genAttrForEvent, htype, hparse]
    rw [hrun]
    obtain ⟨hsome, hnone⟩ :=
      genAttrLoop_spec h.formatInWord { attr with type := readPerfType sys pmu }
    by_cases hall : AllFormats sys pmu list
    · exact ⟨0, _, hsome hall, by simp [htype, hall], fun _ => holdsAssignments_foldl h attr⟩
    · obtain ⟨attr', hattr'⟩ := hnone hall
      exact ⟨-1, attr', hattr', by simp [hall], by simp⟩

end PmuEvents.Lib
