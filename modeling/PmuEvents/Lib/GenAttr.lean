import PmuEvents.Foundation.Traverse
import PmuEvents.Lib.ApplyRange
import PmuEvents.Lib.Sysfs
import Mathlib.Data.List.Nodup
set_option autoImplicit false

/-!
# `gen_attr_for_event`

The attribute is written step by step: the type first, then one config word for
each assignment of the event string, as the format file named by the key says.
The results of this module: the return code and, on success, the whole attribute
are the same for every order of the assignments, provided distinct keys describe
disjoint bits; and a successful call touches only the bits its keys describe.
-/

namespace PmuEvents.Lib

open PmuEvents.Foundation PmuEvents.Libc

variable {β : Type}

/-- The loop of `gen_attr_for_event`; `none` is an undefined shift.  On failure
the attribute is left as the assignments before the failing one made it. -/
def genAttrLoop (sys : Sysfs) (pmu : PmuInstance) :
    List Assignment → PerfEventAttr β → Option (Int × PerfEventAttr β)
  | [], attr => some (0, attr)
  | asn :: list, attr =>
    if asn.key = cs "period" then genAttrLoop sys pmu list attr
    else
      match getFormatFileContent sys asn.key pmu with
      | none => some (-1, attr)
      | some config_def_str =>
        match parseConfigDef config_def_str with
        | none => some (-1, attr)
        | some conf_def =>
          match applyConfigDefToAttr attr asn.value conf_def with
          | none => none
          | some attr' => genAttrLoop sys pmu list attr'

/-- `gen_attr_for_event`: its return code and the attribute it leaves. -/
def genAttrForEvent (sys : Sysfs) (pmu : PmuInstance) (event : CStr)
    (attr : PerfEventAttr β) : Option (Int × PerfEventAttr β) :=
  let attr := { attr with type := readPerfType sys pmu }
  if attr.type = minusOne then some (-1, attr)
  else
    let parsed := parseAssignmentList event
    if parsed.1 = -1 then some (-1, attr) else genAttrLoop sys pmu parsed.2 attr

/-! ## The format a key names -/

/-- The config definition the format file of a key holds, if it holds one. -/
def formatOf (sys : Sysfs) (pmu : PmuInstance) (key : CStr) : Option ConfigDef :=
  (getFormatFileContent sys key pmu).bind parseConfigDef

/-- The bits a config definition describes. -/
def ConfigDef.Covers (d : ConfigDef) (var : AttrVar) (p : Nat) : Prop :=
  d.var = var ∧ Lib.Covers d.range p

/-- The assignments that set bits: every key but `period`. -/
def bitAssignments (list : List Assignment) : List Assignment :=
  list.filter fun asn => asn.key ≠ cs "period"

/-- Every format the keys name has its ranges inside the word, distinct
assignments have distinct keys, and their formats share no bit. -/
structure DisjointFormats (sys : Sysfs) (pmu : PmuInstance) (list : List Assignment) :
    Prop where
  inWord : ∀ asn ∈ bitAssignments list, ∀ d, formatOf sys pmu asn.key = some d →
    ∀ r ∈ d.range, r.InWord
  keys : ((bitAssignments list).map Assignment.key).Nodup
  disjoint : ∀ a ∈ bitAssignments list, ∀ b ∈ bitAssignments list, a.key ≠ b.key →
    ∀ da db, formatOf sys pmu a.key = some da → formatOf sys pmu b.key = some db →
      ∀ var p, ¬ (da.Covers var p ∧ db.Covers var p)

/-! ## One assignment as a function on attributes -/

/-- What an assignment with a readable format does to an attribute. -/
def assign (sys : Sysfs) (pmu : PmuInstance) (attr : PerfEventAttr β) (asn : Assignment) :
    PerfEventAttr β :=
  if asn.key = cs "period" then attr
  else
    match formatOf sys pmu asn.key with
    | none => attr
    | some d => (applyConfigDefToAttr attr asn.value d).getD attr

/-- Every key but `period` has a format file that parses. -/
def AllFormats (sys : Sysfs) (pmu : PmuInstance) (list : List Assignment) : Prop :=
  ∀ asn ∈ bitAssignments list, (formatOf sys pmu asn.key).isSome

instance (sys : Sysfs) (pmu : PmuInstance) (list : List Assignment) :
    Decidable (AllFormats sys pmu list) :=
  inferInstanceAs (Decidable (∀ asn ∈ bitAssignments list, _))

/-- With ranges inside the word, applying a definition writes the covered bits
and leaves everything else. -/
theorem applyConfigDefToAttr_spec {d : ConfigDef} (h : ∀ r ∈ d.range, r.InWord)
    (attr : PerfEventAttr β) (val : U64) :
    ∃ attr', applyConfigDefToAttr attr val d = some attr' ∧
      attr'.type = attr.type ∧ attr'.others = attr.others ∧
      ∀ var, ∀ p < 64, (attr'.word var).getLsbD p =
        if d.var = var then (writtenBit val d.range p).getD ((attr.word var).getLsbD p)
        else (attr.word var).getLsbD p := by
  obtain ⟨w, happly, hbits⟩ := applyRangeListToVal_spec h (attr.word d.var) val
  refine ⟨attr.setWord d.var w, by rw [applyConfigDefToAttr, happly]; rfl,
    attr.type_setWord _ _, attr.others_setWord _ _, ?_⟩
  intro var p hp
  by_cases hv : d.var = var
  · subst hv
    rw [PerfEventAttr.word_setWord_self, if_pos rfl]
    exact hbits p hp
  · rw [if_neg hv, PerfEventAttr.word_setWord_of_ne _ _ (Ne.symm hv)]

/-- The bit an assignment writes at a position of a config word, if any. -/
def assignedBit (sys : Sysfs) (pmu : PmuInstance) (asn : Assignment) (var : AttrVar)
    (p : Nat) : Option Bool :=
  if asn.key = cs "period" then none
  else
    match formatOf sys pmu asn.key with
    | none => none
    | some d => if d.var = var then writtenBit asn.value d.range p else none

/-- An assignment's format, when it is read, lies inside the word. -/
def FormatInWord (sys : Sysfs) (pmu : PmuInstance) (asn : Assignment) : Prop :=
  asn.key ≠ cs "period" → ∀ d, formatOf sys pmu asn.key = some d → ∀ r ∈ d.range, r.InWord

theorem assign_spec {sys : Sysfs} {pmu : PmuInstance} {asn : Assignment}
    (h : FormatInWord sys pmu asn) (attr : PerfEventAttr β) :
    (assign sys pmu attr asn).type = attr.type ∧
      (assign sys pmu attr asn).others = attr.others ∧
      ∀ var, ∀ p < 64, ((assign sys pmu attr asn).word var).getLsbD p =
        (assignedBit sys pmu asn var p).getD ((attr.word var).getLsbD p) := by
  unfold assign assignedBit
  by_cases hk : asn.key = cs "period"
  · simp [hk]
  · cases hf : formatOf sys pmu asn.key with
    | none => simp [hk]
    | some d =>
      obtain ⟨attr', happly, htype, hothers, hbits⟩ :=
        applyConfigDefToAttr_spec (h hk d hf) attr asn.value
      simp only [hk, if_false, happly, Option.getD_some]
      refine ⟨htype, hothers, ?_⟩
      intro var p hp
      rw [hbits var p hp]
      split <;> rfl

/-- Two attributes with the same type, other members and config bits are equal. -/
theorem PerfEventAttr.ext_bits {a b : PerfEventAttr β} (htype : a.type = b.type)
    (hothers : a.others = b.others)
    (hbits : ∀ var, ∀ p < 64, (a.word var).getLsbD p = (b.word var).getLsbD p) : a = b :=
  PerfEventAttr.ext_words htype (fun var => BitVec.eq_of_getLsbD_eq (hbits var)) hothers

/-- Assignments that write no common bit commute. -/
theorem assign_comm {sys : Sysfs} {pmu : PmuInstance} {a b : Assignment}
    (ha : FormatInWord sys pmu a) (hb : FormatInWord sys pmu b)
    (hdisj : ∀ var p, assignedBit sys pmu a var p = none ∨ assignedBit sys pmu b var p = none)
    (attr : PerfEventAttr β) :
    assign sys pmu (assign sys pmu attr a) b = assign sys pmu (assign sys pmu attr b) a := by
  obtain ⟨hta, hoa, hba⟩ := assign_spec ha attr
  obtain ⟨htb, hob, hbb⟩ := assign_spec hb attr
  obtain ⟨htab, hoab, hbab⟩ := assign_spec hb (assign sys pmu attr a)
  obtain ⟨htba, hoba, hbba⟩ := assign_spec ha (assign sys pmu attr b)
  refine PerfEventAttr.ext_bits ?_ ?_ ?_
  · rw [htab, htba, hta, htb]
  · rw [hoab, hoba, hoa, hob]
  · intro var p hp
    rw [hbab var p hp, hbba var p hp, hba var p hp, hbb var p hp]
    rcases hdisj var p with h | h <;> simp [h]

/-! ## The whole loop -/

theorem mem_bitAssignments {list : List Assignment} {asn : Assignment} :
    asn ∈ bitAssignments list ↔ asn ∈ list ∧ asn.key ≠ cs "period" := by
  simp [bitAssignments]

theorem bitAssignments_cons (asn : Assignment) (list : List Assignment) :
    bitAssignments (asn :: list) =
      if asn.key = cs "period" then bitAssignments list else asn :: bitAssignments list := by
  by_cases h : asn.key = cs "period" <;> simp [bitAssignments, h]

/-- The loop succeeds exactly when every format is there, and then it has applied
the assignments in order. -/
theorem genAttrLoop_spec {sys : Sysfs} {pmu : PmuInstance} {list : List Assignment}
    (h : ∀ asn ∈ list, FormatInWord sys pmu asn) (attr : PerfEventAttr β) :
    (AllFormats sys pmu list →
        genAttrLoop sys pmu list attr = some (0, list.foldl (assign sys pmu) attr)) ∧
      (¬ AllFormats sys pmu list →
        ∃ attr', genAttrLoop sys pmu list attr = some (-1, attr')) := by
  induction list generalizing attr with
  | nil => exact ⟨fun _ => rfl, fun hn => absurd (by simp [AllFormats, bitAssignments]) hn⟩
  | cons asn list ih =>
    simp only [List.mem_cons, forall_eq_or_imp] at h
    by_cases hk : asn.key = cs "period"
    · have hall : AllFormats sys pmu (asn :: list) ↔ AllFormats sys pmu list := by
        simp [AllFormats, bitAssignments_cons, hk]
      have hassign : assign sys pmu attr asn = attr := if_pos hk
      rw [hall, List.foldl_cons, hassign, genAttrLoop, if_pos hk]
      exact ih h.2 attr
    · have hall : AllFormats sys pmu (asn :: list) ↔
          (formatOf sys pmu asn.key).isSome ∧ AllFormats sys pmu list := by
        simp [AllFormats, bitAssignments_cons, hk]
      rw [hall, List.foldl_cons, genAttrLoop, if_neg hk]
      cases hc : getFormatFileContent sys asn.key pmu with
      | none => simp [formatOf, hc]
      | some config_def_str =>
        cases hd : parseConfigDef config_def_str with
        | none => simp [formatOf, hc, hd]
        | some d =>
          have hf : formatOf sys pmu asn.key = some d := by simp [formatOf, hc, hd]
          obtain ⟨attr', happly, -⟩ := applyConfigDefToAttr_spec (h.1 hk d hf) attr asn.value
          have hassign : assign sys pmu attr asn = attr' := by
            simp [assign, hk, hf, happly]
          simp only [hd, happly, hassign, hf, Option.isSome_some, true_and]
          exact ih h.2 attr'

/-- A run of assignments leaves every bit that none of them writes, the type and
the other members alone. -/
theorem foldl_assign_frame {sys : Sysfs} {pmu : PmuInstance} {list : List Assignment}
    (h : ∀ asn ∈ list, FormatInWord sys pmu asn) (attr : PerfEventAttr β) :
    (list.foldl (assign sys pmu) attr).type = attr.type ∧
      (list.foldl (assign sys pmu) attr).others = attr.others ∧
      ∀ var, ∀ p < 64, (∀ asn ∈ list, assignedBit sys pmu asn var p = none) →
        ((list.foldl (assign sys pmu) attr).word var).getLsbD p =
          (attr.word var).getLsbD p := by
  induction list generalizing attr with
  | nil => exact ⟨rfl, rfl, fun _ _ _ _ => rfl⟩
  | cons asn list ih =>
    simp only [List.mem_cons, forall_eq_or_imp] at h
    obtain ⟨htype, hothers, hbits⟩ := assign_spec h.1 attr
    obtain ⟨htype', hothers', hbits'⟩ := ih h.2 (assign sys pmu attr asn)
    rw [List.foldl_cons]
    refine ⟨htype'.trans htype, hothers'.trans hothers, ?_⟩
    intro var p hp hnone
    simp only [List.mem_cons, forall_eq_or_imp] at hnone
    rw [hbits' var p hp hnone.2, hbits var p hp, hnone.1]
    rfl

/-- A bit no format of the list covers is written by none of its assignments. -/
theorem assignedBit_eq_none {sys : Sysfs} {pmu : PmuInstance} {asn : Assignment}
    {var : AttrVar} {p : Nat}
    (h : asn.key ≠ cs "period" → ∀ d, formatOf sys pmu asn.key = some d → ¬ d.Covers var p) :
    assignedBit sys pmu asn var p = none := by
  unfold assignedBit
  by_cases hk : asn.key = cs "period"
  · simp [hk]
  · cases hf : formatOf sys pmu asn.key with
    | none => simp [hk]
    | some d =>
      simp only [hk, if_false]
      split
      · rename_i hv
        rw [writtenBit_eq_none_iff]
        exact fun hc => h hk d hf ⟨hv, hc⟩
      · rfl

/-! ## Reordering the assignments -/

namespace DisjointFormats

variable {sys : Sysfs} {pmu : PmuInstance} {list : List Assignment}

theorem formatInWord (h : DisjointFormats sys pmu list) :
    ∀ asn ∈ list, FormatInWord sys pmu asn :=
  fun asn hmem hk => h.inWord asn (mem_bitAssignments.mpr ⟨hmem, hk⟩)

/-- Two assignments of the list are the same, or write no common bit. -/
theorem eq_or_disjoint (h : DisjointFormats sys pmu list) {a b : Assignment}
    (ha : a ∈ list) (hb : b ∈ list) :
    a = b ∨ ∀ var p, assignedBit sys pmu a var p = none ∨
      assignedBit sys pmu b var p = none := by
  by_cases hka : a.key = cs "period"
  · exact .inr fun var p => .inl (assignedBit_eq_none fun hk => absurd hka hk)
  by_cases hkb : b.key = cs "period"
  · exact .inr fun var p => .inr (assignedBit_eq_none fun hk => absurd hkb hk)
  have hma := mem_bitAssignments.mpr ⟨ha, hka⟩
  have hmb := mem_bitAssignments.mpr ⟨hb, hkb⟩
  by_cases hkey : a.key = b.key
  · exact .inl (List.inj_on_of_nodup_map h.keys hma hmb hkey)
  · refine .inr fun var p => ?_
    by_cases hcov : ∃ d, formatOf sys pmu a.key = some d ∧ d.Covers var p
    · obtain ⟨da, hda, hca⟩ := hcov
      exact .inr (assignedBit_eq_none fun _ db hdb hcb =>
        h.disjoint a hma b hmb hkey da db hda hdb var p ⟨hca, hcb⟩)
    · exact .inl (assignedBit_eq_none fun _ d hd hc => hcov ⟨d, hd, hc⟩)

/-- Every order of the assignments has the same effect. -/
theorem foldl_perm (h : DisjointFormats sys pmu list) {list' : List Assignment}
    (hperm : list.Perm list') (attr : PerfEventAttr β) :
    list.foldl (assign sys pmu) attr = list'.foldl (assign sys pmu) attr := by
  refine hperm.foldl_eq' ?_ attr
  intro a ha b hb z
  rcases h.eq_or_disjoint ha hb with rfl | hdisj
  · rfl
  · exact assign_comm (h.formatInWord a ha) (h.formatInWord b hb) hdisj z

end DisjointFormats

theorem AllFormats.perm_iff {sys : Sysfs} {pmu : PmuInstance} {list list' : List Assignment}
    (hperm : list.Perm list') : AllFormats sys pmu list ↔ AllFormats sys pmu list' := by
  simp only [AllFormats, mem_bitAssignments, hperm.mem_iff]

/-- The parses of two orders of the same segments are two orders of the same
assignments, or both fail. -/
theorem parseAssignmentList_perm {event event' : CStr}
    (hperm : (segments event).Perm (segments event')) :
    (parseAssignmentList event).1 = (parseAssignmentList event').1 ∧
      (parseAssignmentList event).2.Perm (parseAssignmentList event').2 := by
  unfold parseAssignmentList
  cases h : (segments event).mapM parseAssignment with
  | none =>
    cases h' : (segments event').mapM parseAssignment with
    | none => exact ⟨rfl, .refl _⟩
    | some list' =>
      obtain ⟨list, hl, _⟩ := mapM_perm hperm.symm h'
      rw [h] at hl
      simp at hl
  | some list =>
    obtain ⟨list', hl', hp⟩ := mapM_perm hperm h
    rw [hl']
    exact ⟨rfl, hp⟩

/-- The generated attribute does not depend on the order of the assignments, and
on success only the bits of the named formats and the type have changed. -/
theorem genAttrForEvent_reorder {sys : Sysfs} {pmu : PmuInstance} {event event' : CStr}
    (hperm : (segments event).Perm (segments event'))
    (hdisj : DisjointFormats sys pmu (parseAssignmentList event).2)
    (attr : PerfEventAttr β) :
    ∃ code a a', genAttrForEvent sys pmu event attr = some (code, a) ∧
      genAttrForEvent sys pmu event' attr = some (code, a') ∧
      (code = 0 → a = a' ∧ a.others = attr.others ∧
        ∀ var, ∀ p < 64,
          (∀ asn ∈ bitAssignments (parseAssignmentList event).2,
            ∀ d, formatOf sys pmu asn.key = some d → ¬ d.Covers var p) →
          (a.word var).getLsbD p = (attr.word var).getLsbD p) := by
  obtain ⟨hcode, hlist⟩ := parseAssignmentList_perm hperm
  unfold genAttrForEvent
  simp only [← hcode]
  by_cases htype : readPerfType sys pmu = minusOne
  · refine ⟨-1, _, _, if_pos htype, if_pos htype, ?_⟩
    simp
  simp only [if_neg htype]
  by_cases hparse : (parseAssignmentList event).1 = -1
  · refine ⟨-1, _, _, if_pos hparse, if_pos hparse, ?_⟩
    simp
  simp only [if_neg hparse]
  have hword := hdisj.formatInWord
  have hword' : ∀ asn ∈ (parseAssignmentList event').2, FormatInWord sys pmu asn :=
    fun asn hmem => hword asn (hlist.mem_iff.mpr hmem)
  by_cases hall : AllFormats sys pmu (parseAssignmentList event).2
  · refine ⟨0, _, _, (genAttrLoop_spec hword _).1 hall,
      (genAttrLoop_spec hword' _).1 ((AllFormats.perm_iff hlist).mp hall), ?_⟩
    intro _
    obtain ⟨-, hothers, hbits⟩ :=
      foldl_assign_frame hword { attr with type := readPerfType sys pmu }
    refine ⟨hdisj.foldl_perm hlist _, hothers, ?_⟩
    intro var p hp hfree
    rw [hbits var p hp fun asn hmem => assignedBit_eq_none fun hk d hd =>
      hfree asn (mem_bitAssignments.mpr ⟨hmem, hk⟩) d hd]
    cases var <;> rfl
  · obtain ⟨a, ha⟩ := (genAttrLoop_spec hword { attr with type := readPerfType sys pmu }).2 hall
    obtain ⟨a', ha'⟩ := (genAttrLoop_spec hword' { attr with type := readPerfType sys pmu }).2
      (fun h => hall ((AllFormats.perm_iff hlist).mpr h))
    refine ⟨-1, a, a', ha, ha', ?_⟩
    simp

/-- The `cpu` device of a recent AMD processor, as far as the keys `event` and
`umask` read it. -/
def amdCpuSysfs : Sysfs where
  listing := some [cs "cpu"]
  accessible := fun _ => true
  content := fun path =>
    if path = pmuDevicesBase ++ cs "/cpu/type" then some (cs "4")
    else if path = pmuDevicesBase ++ cs "/cpu/format//event" then some (cs "config:0-7,32-35")
    else if path = pmuDevicesBase ++ cs "/cpu/format//umask" then some (cs "config:8-15")
    else none
  nprocessors := 8

/-- The two formats of `amdCpuSysfs` lie inside the word and share no bit. -/
theorem disjointFormats_amdCpu :
    DisjointFormats amdCpuSysfs ⟨cs "cpu", [], none⟩
      (parseAssignmentList (cs "event=0x40,umask=1")).2 := by
  have hlist : bitAssignments (parseAssignmentList (cs "event=0x40,umask=1")).2 =
      [⟨cs "event", 0x40⟩, ⟨cs "umask", 1⟩] := by decide
  have hevent : formatOf amdCpuSysfs ⟨cs "cpu", [], none⟩ (cs "event") =
      some ⟨.config, [⟨0, 7⟩, ⟨32, 35⟩]⟩ := by decide
  have humask : formatOf amdCpuSysfs ⟨cs "cpu", [], none⟩ (cs "umask") =
      some ⟨.config, [⟨8, 15⟩]⟩ := by decide
  have hseparate : ∀ var p,
      ¬ (ConfigDef.Covers ⟨.config, [⟨0, 7⟩, ⟨32, 35⟩]⟩ var p ∧
        ConfigDef.Covers ⟨.config, [⟨8, 15⟩]⟩ var p) := by
    simp [ConfigDef.Covers, Covers, Range.Covers]
    omega
  constructor
  · rw [hlist]
    simp only [List.mem_cons, List.not_mem_nil, or_false, forall_eq_or_imp, forall_eq,
      hevent, humask, Option.some.injEq, forall_eq']
    exact ⟨⟨⟨by decide, by decide, by decide⟩, by decide, by decide, by decide⟩,
      by decide, by decide, by decide⟩
  · rw [hlist]
    decide
  · rw [hlist]
    simp only [List.mem_cons, List.not_mem_nil, or_false, forall_eq_or_imp, forall_eq,
      hevent, humask, Option.some.injEq, ne_eq, not_true_eq_false, false_implies, true_and,
      and_true]
    constructor
    · rintro - _ _ rfl rfl
      exact hseparate
    · rintro - _ _ rfl rfl var p h
      exact hseparate var p h.symm

theorem genAttrForEvent_reorder_amdCpu :
    ∃ code a a',
      genAttrForEvent amdCpuSysfs ⟨cs "cpu", [], none⟩ (cs "event=0x40,umask=1")
        (⟨0, 0, 0, 0, ()⟩ : PerfEventAttr Unit) = some (code, a) ∧
      genAttrForEvent amdCpuSysfs ⟨cs "cpu", [], none⟩ (cs "umask=1,event=0x40")
        (⟨0, 0, 0, 0, ()⟩ : PerfEventAttr Unit) = some (code, a') ∧
      (code = 0 → a = a' ∧ a.others = () ∧
        ∀ var, ∀ p < 64,
          (∀ asn ∈ bitAssignments (parseAssignmentList (cs "event=0x40,umask=1")).2,
            ∀ d, formatOf amdCpuSysfs ⟨cs "cpu", [], none⟩ asn.key = some d →
              ¬ d.Covers var p) →
          (a.word var).getLsbD p =
            ((⟨0, 0, 0, 0, ()⟩ : PerfEventAttr Unit).word var).getLsbD p) := by
  have hperm : (segments (cs "event=0x40,umask=1")).Perm
      (segments (cs "umask=1,event=0x40")) := by decide
  exact genAttrForEvent_reorder hperm disjointFormats_amdCpu ⟨0, 0, 0, 0, ()⟩

end PmuEvents.Lib
