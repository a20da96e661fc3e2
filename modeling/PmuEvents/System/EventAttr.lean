import PmuEvents.Jevents.EventString
import PmuEvents.Lib.AttrBits
import PmuEvents.Libc.Strcmp
set_option autoImplicit false

/-!
# From the fields of a JSON event to the bits of an attribute

The generator writes the fields of an event as an event string, and `gen_attr_for_event`
writes the numbers of this string to the bits that the format files of the device name.  The
main result: the numbers in the JSON file are those in the attribute.
-/

namespace PmuEvents.System

open PmuEvents.Foundation PmuEvents.Jevents PmuEvents.Lib PmuEvents.Libc PmuEvents.Metric

variable {β : Type}

/-- The format files for some keys of a device name ranges inside the words, and no bit twice. -/
structure FormatsApart (sys : Sysfs) (pmu : PmuInstance) (keys : List CStr) : Prop where
  inWord : ∀ key ∈ keys, ∀ d, formatOf sys pmu key = some d → ∀ r ∈ d.range, r.InWord
  disjoint : ∀ a ∈ keys, ∀ b ∈ keys, a ≠ b →
    ∀ da db, formatOf sys pmu a = some da → formatOf sys pmu b = some db →
      ∀ var p, ¬ (da.Covers var p ∧ db.Covers var p)

/-- The format files of an instance are those of its name. -/
theorem FormatsApart.of_name {sys : Sysfs} {pmu pmu' : PmuInstance} {keys : List CStr}
    (hname : pmu'.name = pmu.name) (h : FormatsApart sys pmu keys) :
    FormatsApart sys pmu' keys := by
  have hformat : ∀ key, formatOf sys pmu' key = formatOf sys pmu key := by
    intro key
    rw [formatOf, formatOf, getFormatFileContent, getFormatFileContent, hname]
  constructor
  · intro key hkey d hd
    rw [hformat] at hd
    exact h.inWord key hkey d hd
  · intro a ha b hb hne da db hda hdb
    rw [hformat] at hda hdb
    exact h.disjoint a ha b hb hne da db hda hdb

/-- The keys of event strings for which there are format files. -/
def formatKeys : List CStr := (itemNames.filter fun name => name ≠ "period").map cs

/-- What an event string sets: the code and the fields that are not zero, but the period. -/
def settings (jd : JsonDict) (code : String × Int) : List FieldItem :=
  (eventItems jd code).filter fun item => item.name ≠ "period"

/-- The type of the device and the formats of the settings can be read. -/
def Settable (sys : Sysfs) (pmu : PmuInstance) (items : List FieldItem) : Prop :=
  readPerfType sys pmu ≠ minusOne ∧
    ∀ item ∈ items, (formatOf sys pmu (cs item.name)).isSome

instance (sys : Sysfs) (pmu : PmuInstance) (items : List FieldItem) :
    Decidable (Settable sys pmu items) :=
  inferInstanceAs (Decidable (_ ≠ _ ∧ ∀ item ∈ items, _))

/-- An attribute has the numbers of an event at the bits their formats name, the type of the
device, and of another attribute the rest. -/
structure HoldsSettings (sys : Sysfs) (pmu : PmuInstance) (items : List FieldItem)
    (attr attr' : PerfEventAttr β) : Prop where
  type : attr'.type = readPerfType sys pmu
  others : attr'.others = attr.others
  bits : ∀ item ∈ items, ∀ d, formatOf sys pmu (cs item.name) = some d →
    ∀ p < 64, ∀ b, writtenBit (BitVec.ofInt 64 item.number) d.range p = some b →
      (attr'.word d.var).getLsbD p = b
  frame : ∀ var, ∀ p < 64,
    (∀ item ∈ items, ∀ d, formatOf sys pmu (cs item.name) = some d → ¬ d.Covers var p) →
      (attr'.word var).getLsbD p = (attr.word var).getLsbD p

section Settings

variable {jd : JsonDict} {code : String × Int}

theorem cs_injective : Function.Injective cs := fun _ _ h =>
  String.toList_injective (utf8_injective h)

/-- The key of the code is none of the fields. -/
theorem eventCode_not_mem (h : eventCode jd = .ok code) : code.1 ∉ eventFields.map Prod.snd := by
  simp only [eventCode, bind_eq_ok] at h
  obtain ⟨_, _, _, _, configcode, _, eventidcode, _, h⟩ := h
  have hkeys : ∀ key ∈ ["config", "eventid", "event"], key ∉ eventFields.map Prod.snd := by
    decide
  split at h
  · obtain rfl := Except.ok.inj h
    exact hkeys _ (by simp)
  · obtain rfl := Except.ok.inj h
    exact hkeys _ (by simp)
  · obtain rfl := Except.ok.inj h
    exact hkeys _ (by simp)

theorem names_filterMap_sublist (jd : JsonDict) (fields : List (String × String)) :
    ((fields.filterMap (fieldItem jd)).map FieldItem.name).Sublist (fields.map Prod.snd) := by
  induction fields with
  | nil => exact .slnil
  | cons field fields ih =>
    rw [List.filterMap_cons, List.map_cons]
    cases hitem : fieldItem jd field with
    | none => exact ih.cons _
    | some item =>
      obtain ⟨val, number, -, -, -, rfl⟩ := fieldItem_eq_some.mp hitem
      exact ih.cons_cons _

/-- The names of the fields of an event string are distinct. -/
theorem nodup_eventItems (h : eventCode jd = .ok code) :
    ((eventItems jd code).map FieldItem.name).Nodup := by
  have hfields := names_filterMap_sublist jd eventFields
  have hdistinct : (eventFields.map Prod.snd).Nodup := by decide
  rw [eventItems, List.map_cons, List.nodup_cons]
  exact ⟨fun hmem => eventCode_not_mem h (hfields.subset hmem), hdistinct.sublist hfields⟩

theorem mem_settings {item : FieldItem} :
    item ∈ settings jd code ↔ item ∈ eventItems jd code ∧ item.name ≠ "period" := by
  rw [settings, List.mem_filter, decide_eq_true_eq]

/-- The assignments of an event string that set bits are those of the settings. -/
theorem bitAssignments_eventItems (h : eventCode jd = .ok code) :
    bitAssignments ((eventItems jd code).map FieldItem.assignment) =
      (settings jd code).map FieldItem.assignment := by
  rw [bitAssignments, settings, List.filter_map]
  congr 1
  refine List.filter_congr fun item hitem => ?_
  have hperiod := (itemNames_plain _ (eventItems_name h hitem)).2.2.2
  simp [FieldItem.assignment, hperiod]

theorem mem_formatKeys_of_settings (h : eventCode jd = .ok code) {item : FieldItem}
    (hitem : item ∈ settings jd code) : cs item.name ∈ formatKeys := by
  obtain ⟨hmem, hperiod⟩ := mem_settings.mp hitem
  refine List.mem_map_of_mem (List.mem_filter.mpr ⟨eventItems_name h hmem, ?_⟩)
  exact decide_eq_true hperiod

/-- A setting is read back as its number. -/
theorem assignment_value (h : eventCode jd = .ok code) (hfit : NumbersFit jd)
    (hsmall : DecimalFieldsSmall jd) {item : FieldItem} (hitem : item ∈ settings jd code) :
    item.assignment.value = BitVec.ofInt 64 item.number := by
  obtain ⟨hpos, hlt⟩ := hfit.item h (mem_settings.mp hitem).1
  have hvalue := (assignment_value_eq_iff hpos hlt).mpr
    ((decimalFieldsSmall_iff code).mp hsmall item hitem)
  rw [← hvalue, BitVec.ofInt_natCast, BitVec.ofNat_toNat, BitVec.setWidth_eq]

variable {sys : Sysfs} {pmu : PmuInstance}

theorem disjointFormats_eventItems (h : eventCode jd = .ok code)
    (hapart : FormatsApart sys pmu formatKeys) :
    DisjointFormats sys pmu ((eventItems jd code).map FieldItem.assignment) := by
  have hmem : ∀ asn ∈ bitAssignments ((eventItems jd code).map FieldItem.assignment),
      asn.key ∈ formatKeys := by
    rw [bitAssignments_eventItems h]
    intro asn hasn
    obtain ⟨item, hitem, rfl⟩ := List.mem_map.mp hasn
    exact mem_formatKeys_of_settings h hitem
  refine ⟨fun asn hasn => hapart.inWord _ (hmem asn hasn), ?_, ?_⟩
  · have hnames : ((settings jd code).map FieldItem.name).Nodup :=
      (nodup_eventItems h).sublist (List.filter_sublist.map _)
    have hkeys := hnames.map cs_injective
    rw [bitAssignments_eventItems h, List.map_map]
    rwa [List.map_map] at hkeys
  · exact fun a ha b hb => hapart.disjoint _ (hmem a ha) _ (hmem b hb)

theorem allFormats_eventItems (h : eventCode jd = .ok code) :
    AllFormats sys pmu ((eventItems jd code).map FieldItem.assignment) ↔
      ∀ item ∈ settings jd code, (formatOf sys pmu (cs item.name)).isSome := by
  rw [AllFormats, bitAssignments_eventItems h, List.forall_mem_map]
  rfl

/-- Where every setting is read back as its number, the attribute has the numbers. -/
theorem holdsSettings_of_holdsAssignments (h : eventCode jd = .ok code) (hfit : NumbersFit jd)
    (hsmall : DecimalFieldsSmall jd) {attr attr' : PerfEventAttr β}
    (hholds :
      HoldsAssignments sys pmu ((eventItems jd code).map FieldItem.assignment) attr attr') :
    HoldsSettings sys pmu (settings jd code) attr attr' := by
  obtain ⟨htype, hothers, hbits, hframe⟩ := hholds
  rw [bitAssignments_eventItems h] at hbits hframe
  rw [List.forall_mem_map] at hbits
  refine ⟨htype, hothers, fun item hitem d hd p hp b hb => ?_, fun var p hp hfree => ?_⟩
  · rw [← assignment_value h hfit hsmall hitem] at hb
    exact hbits item hitem d hd p hp b hb
  · exact hframe var p hp (List.forall_mem_map.mpr hfree)

end Settings

/-- The library reads the event string of a plain event as its items. -/
theorem parseAssignmentList_plainEvent {lower : Text → Text}
    {parseMetric : Text → Except PyError Expr} {archStdEvents : Text → Option JsonEvent}
    {jd : JsonDict} {ev : JsonEvent} {event : Text} (hplain : PlainEvent lower jd)
    (hinit : JsonEvent.init lower parseMetric archStdEvents jd = .ok ev)
    (hevent : ev.event = some event) :
    ∃ code, eventCode jd = .ok code ∧
      parseAssignmentList (utf8 event) = (0, (eventItems jd code).map FieldItem.assignment) := by
  obtain ⟨code, hcode, hstring⟩ :=
    init_event hplain.no_msr_index hplain.no_filter hplain.no_arch_std_event hinit
  have heq := realEvent_eq_some hplain.name_not_fixed (hstring.symm.trans hevent)
  have hlist := parseAssignmentList_items hcode hplain.numbers
  rw [← heq] at hlist
  exact ⟨code, hcode, hlist⟩

/-- With the event string of a plain event the call succeeds exactly when everything can be
set. -/
theorem genAttrForEvent_items {jd : JsonDict} {code : String × Int} {event : CStr}
    (hcode : eventCode jd = .ok code) (hfit : NumbersFit jd) (hsmall : DecimalFieldsSmall jd)
    (hparse : parseAssignmentList event = (0, (eventItems jd code).map FieldItem.assignment))
    {sys : Sysfs} {pmu : PmuInstance} (hapart : FormatsApart sys pmu formatKeys)
    (attr : PerfEventAttr β) :
    ∃ attr' result, genAttrForEvent sys pmu event attr = some (result, attr') ∧
      result = (if Settable sys pmu (settings jd code) then 0 else -1) ∧
      (result = 0 → HoldsSettings sys pmu (settings jd code) attr attr') := by
  obtain ⟨result, attr', hrun, hresult, hholds⟩ :=
    genAttrForEvent_spec hparse (disjointFormats_eventItems hcode hapart) attr
  simp only [allFormats_eventItems hcode] at hresult
  exact ⟨attr', result, hrun, hresult, fun hzero =>
    holdsSettings_of_holdsAssignments hcode hfit hsmall (hholds hzero)⟩

/-- For an event whose numbers are read back, on a device whose formats share no bit, the call
succeeds exactly when the type of the device and the formats of the settings can be read; and
then the bits of each format have the number that the JSON file gives for it, and all other
bits are as they were. -/
theorem genAttrForEvent_plainEvent (lower : Text → Text)
    (parseMetric : Text → Except PyError Expr) (archStdEvents : Text → Option JsonEvent)
    (jd : JsonDict) (ev : JsonEvent) (event : Text) (hplain : PlainEvent lower jd)
    (hsmall : DecimalFieldsSmall jd)
    (hinit : JsonEvent.init lower parseMetric archStdEvents jd = .ok ev)
    (hevent : ev.event = some event) (sys : Sysfs) (pmu : PmuInstance)
    (hapart : FormatsApart sys pmu formatKeys) (attr : PerfEventAttr β) :
    ∃ key attr' result, eventCode jd = .ok key ∧
      genAttrForEvent sys pmu (utf8 event) attr = some (result, attr') ∧
      result = (if Settable sys pmu (settings jd key) then 0 else -1) ∧
      (result = 0 → HoldsSettings sys pmu (settings jd key) attr attr') := by
  obtain ⟨key, hcode, hparse⟩ := parseAssignmentList_plainEvent hplain hinit hevent
  obtain ⟨attr', result, hrun, hresult, hholds⟩ :=
    genAttrForEvent_items hcode hplain.numbers hsmall hparse hapart attr
  exact ⟨key, attr', result, hcode, hrun, hresult, hholds⟩

/-- A device with formats for the event code and the counter mask. -/
def maskSysfs : Sysfs where
  listing := some [cs "cpu"]
  accessible := fun _ => true
  content := fun path =>
    if path = pmuDevicesBase ++ cs "/cpu/type" then some (cs "4")
    else if path = pmuDevicesBase ++ cs "/cpu/format//event" then some (cs "config:0-7,32-35")
    else if path = pmuDevicesBase ++ cs "/cpu/format//cmask" then some (cs "config:24-31")
    else none
  nprocessors := 8

/-- The one instance on this device. -/
def maskInstance : PmuInstance := { name := cs "cpu", cpus := [] }

/-- Its two formats. -/
def maskFormats (key : CStr) : Option ConfigDef :=
  if key = cs "event" then some ⟨.config, [⟨0, 7⟩, ⟨32, 35⟩]⟩
  else if key = cs "cmask" then some ⟨.config, [⟨24, 31⟩]⟩
  else none

theorem formatsApart_mask : FormatsApart maskSysfs maskInstance formatKeys := by
  have hformats : ∀ key ∈ formatKeys, formatOf maskSysfs maskInstance key = maskFormats key := by
    decide +kernel
  have hsome : ∀ key d, maskFormats key = some d →
      key = cs "event" ∧ d = ⟨.config, [⟨0, 7⟩, ⟨32, 35⟩]⟩ ∨
        key = cs "cmask" ∧ d = ⟨.config, [⟨24, 31⟩]⟩ := by
    intro key d hd
    unfold maskFormats at hd
    split at hd
    · rename_i hkey
      exact .inl ⟨hkey, (Option.some.inj hd).symm⟩
    · split at hd
      · rename_i hkey
        exact .inr ⟨hkey, (Option.some.inj hd).symm⟩
      · cases hd
  have hseparate : ∀ var p,
      ¬ (ConfigDef.Covers ⟨.config, [⟨0, 7⟩, ⟨32, 35⟩]⟩ var p ∧
        ConfigDef.Covers ⟨.config, [⟨24, 31⟩]⟩ var p) := by
    simp [ConfigDef.Covers, Covers, Range.Covers]
    omega
  constructor
  · intro key hkey d hd
    rw [hformats key hkey] at hd
    rcases hsome key d hd with ⟨-, rfl⟩ | ⟨-, rfl⟩
    · exact List.forall_mem_cons.mpr ⟨⟨by decide, by decide, by decide⟩,
        List.forall_mem_singleton.mpr ⟨by decide, by decide, by decide⟩⟩
    · exact List.forall_mem_singleton.mpr ⟨by decide, by decide, by decide⟩
  · intro a ha b hb hne da db hda hdb var p
    rw [hformats a ha] at hda
    rw [hformats b hb] at hdb
    rcases hsome a da hda with ⟨rfl, rfl⟩ | ⟨rfl, rfl⟩ <;>
      rcases hsome b db hdb with ⟨rfl, rfl⟩ | ⟨rfl, rfl⟩
    · exact absurd rfl hne
    · exact hseparate var p
    · exact fun hboth => hseparate var p hboth.symm
    · exact absurd rfl hne

/-- An attribute with all members zero. -/
def zeroAttr : PerfEventAttr Unit := ⟨0, 0, 0, 0, ()⟩

theorem genAttrForEvent_plainEvent_mask :
    ∃ attr', genAttrForEvent maskSysfs maskInstance (cs "event=0x3c,cmask=0x10") zeroAttr =
        some (0, attr') ∧
      HoldsSettings maskSysfs maskInstance (settings (maskEvent "0x10") ("event", 0x3c)) zeroAttr
        attr' := by
  obtain ⟨ev, hinit, hevent⟩ : ∃ ev, initAscii (maskEvent "0x10") = .ok ev ∧
      ev.event = some "event=0x3c,cmask=0x10".toList := ⟨_, rfl, rfl⟩
  have hsmall : DecimalFieldsSmall (maskEvent "0x10") := by
    intro field hfield _ val n hval hdec _
    rw [(maskEvent_field hfield hval).2] at hdec
    exact absurd rfl hdec
  obtain ⟨key, attr', result, hcode, hrun, hresult, hholds⟩ :=
    genAttrForEvent_plainEvent _ _ _ _ _ _ (plainEvent_maskEvent rfl) hsmall hinit hevent
      maskSysfs maskInstance formatsApart_mask zeroAttr
  obtain rfl : ("event", 0x3c) = key := Except.ok.inj hcode
  have hsettable : Settable maskSysfs maskInstance
      (settings (maskEvent "0x10") ("event", 0x3c)) := by decide +kernel
  rw [if_pos hsettable] at hresult
  subst hresult
  exact ⟨attr', hrun, hholds rfl⟩

end PmuEvents.System
