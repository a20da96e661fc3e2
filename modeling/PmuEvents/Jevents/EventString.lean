import PmuEvents.Jevents.JsonEvent
import PmuEvents.Lib.Parse
import PmuEvents.Foundation.Traverse
set_option autoImplicit false

/-!
# Event strings and the library's parser

The generator writes the fields of an event as assignments, the library reads
them back.  A hexadecimal field is written in hexadecimal and read as it was
meant; a decimal field is written in decimal, but `parse_assignment` reads every
value in base 16.  The main result says for which dictionaries the library reads
the numbers the JSON file holds.
-/

namespace PmuEvents.Jevents

open PmuEvents.Foundation PmuEvents.Libc PmuEvents.Lib

/-! ## The fields of an event -/

/-- A field that is present and not zero: its name in the event string, its text
and the number the text denotes. -/
structure FieldItem where
  name : String
  val : Text
  number : Int

/-- The item of one row of `event_fields`. -/
def fieldItem (jd : JsonDict) (field : String × String) : Option FieldItem :=
  match jd field.1 with
  | none => none
  | some val =>
    match fieldInt val with
    | .ok number => if number = 0 then none else some { name := field.2, val, number }
    | .error _ => none

/-- What `canonicalize_value` writes for a text that denotes the number. -/
def canonicalText (val : Text) (number : Int) : Text :=
  if "0x".toList.isPrefixOf val then llx number else pyStr number

/-- The assignment written for an item. -/
def FieldItem.text (item : FieldItem) : Text :=
  assignmentText item.name (canonicalText item.val item.number)

theorem exceptE_eq_ok {α : Type} {x : Except PyError α} {a : α} :
    exceptE x = .ok a ↔ x = .ok a := by
  cases x <;> simp [exceptE]

theorem isZero_eq_ok {val : Text} {b : Bool} :
    isZero val = .ok b ↔ ∃ number, fieldInt val = .ok number ∧ b = decide (number = 0) := by
  rw [isZero, exceptE_eq_ok, map_eq_ok]
  simp only [eq_comm]

theorem canonicalizeValue_eq_ok {val text : Text} :
    canonicalizeValue val = .ok text ↔
      ∃ number, fieldInt val = .ok number ∧ text = canonicalText val number := by
  rw [canonicalizeValue, exceptE_eq_ok, fieldInt]
  unfold canonicalText
  split
  · rw [map_eq_ok]
    simp only [eq_comm]
  · rw [map_eq_ok]
    simp only [eq_comm]

/-- The loop over `event_fields` appends one assignment for every item. -/
theorem addFields_eq_ok {jd : JsonDict} {fields : List (String × String)} {event event' : Text}
    (h : addFields jd fields event = .ok event') :
    event' = event ++ (fields.filterMap (fieldItem jd)).flatMap fun item => ',' :: item.text := by
  induction fields generalizing event with
  | nil =>
    rw [addFields, Except.ok.injEq] at h
    simp [h]
  | cons field fields ih =>
    obtain ⟨key, name⟩ := field
    rw [List.filterMap_cons]
    cases hval : jd key with
    | none =>
      simp only [addFields, hval] at h
      simp only [fieldItem, hval]
      exact ih h
    | some val =>
      simp only [addFields, hval, bind_eq_ok] at h
      obtain ⟨b, hb, h⟩ := h
      obtain ⟨number, hnumber, rfl⟩ := isZero_eq_ok.mp hb
      simp only [fieldItem, hval, hnumber]
      by_cases hzero : number = 0
      · simp only [hzero, decide_true, if_true] at h ⊢
        exact ih h
      · simp only [hzero, decide_false, Bool.false_eq_true, if_false, bind_eq_ok] at h ⊢
        obtain ⟨canonical, hcanonical, h⟩ := h
        obtain ⟨number', hnumber', rfl⟩ := canonicalizeValue_eq_ok.mp hcanonical
        obtain rfl : number = number' := Except.ok.inj (hnumber.symm.trans hnumber')
        rw [ih h, List.flatMap_cons, List.append_assoc]
        rfl

/-- Without a filter, an MSR and an architecture standard event, the event string
is the code and the fields, unless the name is a well known one. -/
theorem init_event {lower : Text → Text} {parseMetric : Text → Except PyError Metric.Expr}
    {archStdEvents : Text → Option JsonEvent} {jd : JsonDict} {ev : JsonEvent}
    (hmsr : jd "MSRIndex" = none) (hfilter : jd "Filter" = none)
    (hstd : jd "ArchStdEvent" = none)
    (h : JsonEvent.init lower parseMetric archStdEvents jd = .ok ev) :
    ∃ code, eventCode jd = .ok code ∧
      ev.event = JsonEvent.realEvent lower ((jd "EventName").map lower)
        (some (assignmentText code.1 (llx code.2) ++
          (eventFields.filterMap (fieldItem jd)).flatMap fun item => ',' :: item.text)) := by
  unfold JsonEvent.init at h
  simp only [hmsr, hfilter, hstd, lookupMsr, JsonEvent.applyArchStd, bind_eq_ok, pure_eq_ok,
    Except.ok.injEq] at h
  obtain ⟨code, hcode, msr, rfl, -, -, -, -, -, -, event, hevent, stdPair, rfl, rfl⟩ := h
  exact ⟨code, hcode, by rw [addFields_eq_ok hevent]⟩

/-! ## Reading an assignment back -/

/-- The number base 16 gives the canonical text of a number. -/
def readNumber (val : Text) (number : Nat) : Nat :=
  if "0x".toList.isPrefixOf val then number
  else Numeral.value 16 (Numeral.digits 10 number)

theorem readNumber_of_lt {val : Text} {n : Nat} (h : n < 10) : readNumber val n = n := by
  unfold readNumber
  split
  · rfl
  · exact (Numeral.value_digits_eq_iff (by decide) (by decide) n).mpr h

/-- A canonical text is a hexadecimal numeral with its prefix, or a decimal
numeral; either way base 16 gives it `readNumber`. -/
theorem canonicalText_cases (val : Text) (n : Nat) :
    (utf8 (canonicalText val n) = cs "0x" ++ utf8 (Nat.toDigits 16 n) ∧ readNumber val n = n) ∨
      (utf8 (canonicalText val n) = utf8 (Nat.toDigits 10 n) ∧
        readNumber val n = Numeral.value 16 (Numeral.digits 10 n)) := by
  have hnonneg : ¬ (n : Int) < 0 := by omega
  have hstr : pyStr n = Nat.toDigits 10 n := by rw [pyStr, if_neg hnonneg, Int.natAbs_natCast]
  unfold canonicalText
  split
  · rename_i hval
    by_cases hsmall : n < 10
    · have hn : (n : Int) ≥ 0 ∧ (n : Int) < 10 := by omega
      refine .inr ⟨by rw [llx, if_pos hn, hstr], ?_⟩
      rw [readNumber_of_lt hsmall,
        (Numeral.value_digits_eq_iff (by decide) (by decide) n).mpr hsmall]
    · have hn : ¬ ((n : Int) ≥ 0 ∧ (n : Int) < 10) := by omega
      refine .inl ⟨?_, by rw [readNumber, if_pos hval]⟩
      rw [llx, if_neg hn, pyHex, if_neg hnonneg, Int.natAbs_natCast, utf8_cons, utf8_cons]
      rfl
  · rename_i hval
    exact .inr ⟨by rw [hstr], by rw [readNumber, if_neg hval]⟩

/-- Every byte of a canonical text is a hexadecimal digit or the `x` of the prefix. -/
theorem mem_utf8_canonicalText {val : Text} {n : Nat} {b : UInt8}
    (hb : b ∈ utf8 (canonicalText val n)) : (digitIn 16 b).isSome ∨ b = chr 'x' := by
  rcases canonicalText_cases val n with ⟨htext, -⟩ | ⟨htext, -⟩
  · rw [htext, List.mem_append] at hb
    rcases hb with hb | hb
    · rcases List.mem_pair.mp hb with rfl | rfl
      · exact .inl (by decide)
      · exact .inr rfl
    · exact .inl (digitIn_toDigits (by decide) (Nat.le_refl 16) (Nat.le_refl 16) n b hb)
  · rw [htext] at hb
    exact .inl (digitIn_toDigits (by decide) (by decide) (Nat.le_refl 16) n b hb)

theorem parseValue_canonicalText (val : Text) (n : Nat) :
    parseValue (utf8 (canonicalText val n)) = some (clamped (readNumber val n) []).value := by
  have hnone : utf8 (canonicalText val n) ≠ cs "None" := by
    intro hnone
    have hb : chr 'N' ∈ utf8 (canonicalText val n) := by rw [hnone]; decide
    rcases mem_utf8_canonicalText hb with h | h
    · exact absurd h (by decide)
    · exact absurd h (by decide)
  have hread : utf8 (canonicalText val n) ≠ [] ∧
      strtoull 16 (utf8 (canonicalText val n)) = clamped (readNumber val n) [] := by
    rcases canonicalText_cases val n with ⟨htext, hnumber⟩ | ⟨htext, hnumber⟩
    · rw [htext, hnumber]
      exact ⟨by simp [cs], strtoull_hexPrefix n⟩
    · rw [htext, hnumber]
      exact ⟨utf8_toDigits_ne_nil (by decide) (by decide) n,
        strtoull_toDigits (by decide) (by decide) (Nat.le_refl 16) n⟩
  simp [parseValue, hnone, hread.1, hread.2]

/-- The item is read back with the number its text denotes. -/
def FieldItem.assignment (item : FieldItem) : Assignment :=
  { key := cs item.name, value := (clamped (readNumber item.val item.number.toNat) []).value }

theorem parseAssignment_text {item : FieldItem} (hname : chr '=' ∉ cs item.name)
    (hne : cs item.name ≠ []) (hnumber : 0 ≤ item.number) :
    parseAssignment (utf8 item.text) = some item.assignment := by
  have htext : utf8 item.text =
      cs item.name ++ chr '=' :: utf8 (canonicalText item.val item.number) := by
    rw [FieldItem.text, assignmentText, utf8_append, utf8_cons]
    rfl
  have hvalue := parseValue_canonicalText item.val item.number.toNat
  rw [Int.toNat_of_nonneg hnumber] at hvalue
  rw [htext, parseAssignment_append hname, if_neg hne, hvalue]
  rfl

/-! ## Whole event strings -/

/-- What an event string holds: the event, config or event id code, which is
always written as `llx` writes it, and the fields. -/
def eventItems (jd : JsonDict) (code : String × Int) : List FieldItem :=
  { name := code.1, val := "0x".toList, number := code.2 } ::
    eventFields.filterMap (fieldItem jd)

/-- The keys of an event string. -/
def itemNames : List String := "config" :: "eventid" :: "event" :: eventFields.map Prod.snd

theorem itemNames_plain : ∀ name ∈ itemNames,
    chr '=' ∉ cs name ∧ chr ',' ∉ cs name ∧ cs name ≠ [] ∧
      (cs name = cs "period" ↔ name = "period") := by
  decide

theorem eventCode_name {jd : JsonDict} {code : String × Int} (h : eventCode jd = .ok code) :
    code.1 ∈ itemNames ∧ code.1 ≠ "period" := by
  simp only [eventCode, bind_eq_ok] at h
  obtain ⟨_, _, _, _, configcode, _, eventidcode, _, h⟩ := h
  split at h
  · obtain rfl := Except.ok.inj h
    simp [itemNames]
  · obtain rfl := Except.ok.inj h
    simp [itemNames]
  · obtain rfl := Except.ok.inj h
    simp [itemNames]

theorem fieldItem_eq_some {jd : JsonDict} {field : String × String} {item : FieldItem} :
    fieldItem jd field = some item ↔
      ∃ val number, jd field.1 = some val ∧ fieldInt val = .ok number ∧ number ≠ 0 ∧
        item = { name := field.2, val, number } := by
  unfold fieldItem
  cases hval : jd field.1 with
  | none => simp
  | some val =>
    cases hint : fieldInt val with
    | error e => simp [hint]
    | ok number =>
      by_cases hzero : number = 0
      · simp [hint, hzero]
      · simp [hint, hzero, eq_comm]

theorem eventItems_name {jd : JsonDict} {code : String × Int} (h : eventCode jd = .ok code)
    {item : FieldItem} (hitem : item ∈ eventItems jd code) : item.name ∈ itemNames := by
  rcases List.mem_cons.mp hitem with rfl | hitem
  · exact (eventCode_name h).1
  · obtain ⟨field, hfield, hitem⟩ := List.mem_filterMap.mp hitem
    obtain ⟨val, number, -, -, -, rfl⟩ := fieldItem_eq_some.mp hitem
    exact List.mem_append_right ["config", "eventid", "event"]
      (List.mem_map_of_mem (f := Prod.snd) hfield)

/-- The numbers of a dictionary fit in 64 bits. -/
structure NumbersFit (jd : JsonDict) : Prop where
  code : ∀ key n, eventCode jd = .ok (key, n) → 0 ≤ n ∧ n < 2 ^ 64
  fields : ∀ field ∈ eventFields, ∀ val n, jd field.1 = some val → fieldInt val = .ok n →
    0 ≤ n ∧ n < 2 ^ 64

theorem NumbersFit.item {jd : JsonDict} (hfit : NumbersFit jd) {code : String × Int}
    (h : eventCode jd = .ok code) {item : FieldItem} (hitem : item ∈ eventItems jd code) :
    0 ≤ item.number ∧ item.number < 2 ^ 64 := by
  rcases List.mem_cons.mp hitem with rfl | hitem
  · exact hfit.code code.1 code.2 h
  · obtain ⟨field, hfield, hitem⟩ := List.mem_filterMap.mp hitem
    obtain ⟨val, number, hval, hnumber, -, rfl⟩ := fieldItem_eq_some.mp hitem
    exact hfit.fields field hfield val number hval hnumber

/-- Texts joined by commas. -/
theorem utf8_flatMap_comma (first : Text) (rest : List Text) :
    utf8 (first ++ rest.flatMap fun t => ',' :: t) =
      [chr ','].intercalate ((first :: rest).map utf8) := by
  induction rest generalizing first with
  | nil => simp
  | cons t rest ih =>
    rw [List.flatMap_cons, List.cons_append, utf8_append, utf8_cons, ih t]
    rfl

theorem not_mem_utf8_text {item : FieldItem} (hname : item.name ∈ itemNames)
    (hnumber : 0 ≤ item.number) : chr ',' ∉ utf8 item.text := by
  rw [FieldItem.text, assignmentText, utf8_append, utf8_cons, ← Int.toNat_of_nonneg hnumber]
  simp only [List.mem_append, not_or]
  refine ⟨(itemNames_plain _ hname).2.1, by decide, ?_⟩
  intro hmem
  rcases mem_utf8_canonicalText hmem with h | h
  · exact absurd h (by decide)
  · exact absurd h (by decide)

/-- The library accepts the event string and reads one assignment for each item. -/
theorem parseAssignmentList_items {jd : JsonDict} {code : String × Int}
    (h : eventCode jd = .ok code) (hfit : NumbersFit jd) :
    parseAssignmentList (utf8 (assignmentText code.1 (llx code.2) ++
        (eventFields.filterMap (fieldItem jd)).flatMap fun item => ',' :: item.text)) =
      (0, (eventItems jd code).map FieldItem.assignment) := by
  have hsegments : segments (utf8 (assignmentText code.1 (llx code.2) ++
      (eventFields.filterMap (fieldItem jd)).flatMap fun item => ',' :: item.text)) =
      ((eventItems jd code).map FieldItem.text).map utf8 := by
    rw [← List.flatMap_map FieldItem.text fun t => ',' :: t, utf8_flatMap_comma, segments]
    refine List.splitOn_intercalate (chr ',') ?_ (by simp)
    simp only [List.mem_map]
    rintro l ⟨t, ht, rfl⟩
    obtain ⟨item, hitem, rfl⟩ :=
      List.mem_map.mp (show t ∈ (eventItems jd code).map FieldItem.text from ht)
    exact not_mem_utf8_text (eventItems_name h hitem) (hfit.item h hitem).1
  apply parseAssignmentList_of_mapM
  rw [hsegments, mapM_eq_some_iff, List.map_map, List.forall₂_map_left_iff,
    List.forall₂_map_right_iff, List.forall₂_same]
  intro item hitem
  have hplain := itemNames_plain _ (eventItems_name h hitem)
  exact parseAssignment_text hplain.1 hplain.2.2.1 (hfit.item h hitem).1

/-! ## When the numbers agree -/

/-- A field's number is read back unless it was written in decimal: then it must be
below ten, or the largest number of 64 bits, at which base 16 is cut off. -/
theorem assignment_value_eq_iff {item : FieldItem} (h : 0 ≤ item.number)
    (h' : item.number < 2 ^ 64) :
    (item.assignment.value.toNat : Int) = item.number ↔
      (¬ "0x".toList.isPrefixOf item.val → item.number < 10 ∨ item.number = 2 ^ 64 - 1) := by
  obtain ⟨name, val, number⟩ := item
  obtain ⟨n, rfl⟩ := Int.eq_ofNat_of_zero_le h
  simp only [FieldItem.assignment, Int.toNat_natCast, clamped_toNat]
  simp only at h'
  by_cases hval : "0x".toList.isPrefixOf val
  · simp only [readNumber, hval, if_true, not_true_eq_false, false_implies, iff_true]
    omega
  · have hbase : 10 < 16 := by decide
    have hle : n ≤ Numeral.value 16 (Numeral.digits 10 n) :=
      Numeral.le_value_digits (by decide) (Nat.le_of_lt hbase) n
    have hsmall := Numeral.value_digits_eq_iff (by decide) hbase n
    simp only [readNumber, hval, Bool.false_eq_true, if_false, not_false_eq_true, forall_const]
    generalize Numeral.value 16 (Numeral.digits 10 n) = m at hle hsmall
    omega

/-- `parse_assignment_list` accepts the event string and, leaving out the period,
gives in order the code and the fields that are not zero, each with its number. -/
def ReadsBack (jd : JsonDict) (event : Text) : Prop :=
  ∃ code, eventCode jd = .ok code ∧ (parseAssignmentList (utf8 event)).1 = 0 ∧
    ((parseAssignmentList (utf8 event)).2.filter fun asn => asn.key ≠ cs "period").map
        (fun asn => (asn.key, (asn.value.toNat : Int))) =
      ((eventItems jd code).filter fun item => item.name ≠ "period").map
        fun item => (cs item.name, item.number)

/-- Every field written in decimal, other than the period, is below ten or the
largest number of 64 bits. -/
def DecimalFieldsSmall (jd : JsonDict) : Prop :=
  ∀ field ∈ eventFields, field.1 ≠ "SampleAfterValue" → ∀ val n, jd field.1 = some val →
    ¬ "0x".toList.isPrefixOf val → pyInt 10 val = .ok n → n < 10 ∨ n = 2 ^ 64 - 1

/-- The dictionaries whose event string is the code and the fields only. -/
structure PlainEvent (lower : Text → Text) (jd : JsonDict) : Prop where
  no_arch_std_event : jd "ArchStdEvent" = none
  no_filter : jd "Filter" = none
  no_msr_index : jd "MSRIndex" = none
  name_not_fixed : ∀ name, jd "EventName" = some name →
    ∀ row ∈ fixedEvents, row.1 ≠ lower (lower name)
  numbers : NumbersFit jd

theorem parseAssignmentList_filter {jd : JsonDict} {code : String × Int}
    (h : eventCode jd = .ok code) :
    (((eventItems jd code).map FieldItem.assignment).filter fun asn =>
        asn.key ≠ cs "period").map (fun asn => (asn.key, (asn.value.toNat : Int))) =
      ((eventItems jd code).filter fun item => item.name ≠ "period").map
        fun item => (cs item.name, (item.assignment.value.toNat : Int)) := by
  rw [List.filter_map, List.map_map]
  congr 1
  apply List.filter_congr
  intro item hitem
  have hperiod := (itemNames_plain _ (eventItems_name h hitem)).2.2.2
  simp [FieldItem.assignment, hperiod]

theorem decimalFieldsSmall_iff {jd : JsonDict} (code : String × Int) :
    DecimalFieldsSmall jd ↔
      ∀ item ∈ (eventItems jd code).filter fun item => item.name ≠ "period",
        ¬ "0x".toList.isPrefixOf item.val → item.number < 10 ∨ item.number = 2 ^ 64 - 1 := by
  have hkey : ∀ field ∈ eventFields, field.2 = "period" ↔ field.1 = "SampleAfterValue" := by
    decide
  simp only [List.mem_filter, decide_eq_true_eq, ne_eq, and_imp]
  constructor
  · intro hsmall item hitem hname hval
    rcases List.mem_cons.mp hitem with rfl | hitem
    · exact absurd rfl hval
    · obtain ⟨field, hfield, hitem⟩ := List.mem_filterMap.mp hitem
      obtain ⟨val, number, hjd, hnumber, -, rfl⟩ := fieldItem_eq_some.mp hitem
      rw [fieldInt, if_neg hval] at hnumber
      exact hsmall field hfield (fun heq => hname ((hkey field hfield).mpr heq)) val number hjd
        hval hnumber
  · intro hitems field hfield hperiod val n hjd hval hn
    by_cases hzero : n = 0
    · exact .inl (by omega)
    · have hnumber : fieldInt val = .ok n := by rw [fieldInt, if_neg hval, hn]
      have hitem : fieldItem jd field = some { name := field.2, val, number := n } :=
        fieldItem_eq_some.mpr ⟨val, n, hjd, hnumber, hzero, rfl⟩
      exact hitems _ (List.mem_cons_of_mem _ (List.mem_filterMap.mpr ⟨field, hfield, hitem⟩))
        (fun heq => hperiod ((hkey field hfield).mp heq)) hval

theorem realEvent_eq_some {lower : Text → Text} {jd : JsonDict} {text event : Text}
    (hfixed : ∀ name, jd "EventName" = some name →
      ∀ row ∈ fixedEvents, row.1 ≠ lower (lower name))
    (h : JsonEvent.realEvent lower ((jd "EventName").map lower) (some text) = some event) :
    event = text := by
  unfold JsonEvent.realEvent at h
  split at h
  · simp at h
  · simp at h
  · rename_i name hname
    obtain ⟨name', hname', rfl⟩ := Option.map_eq_some_iff.mp hname
    have hnone : fixedEvents.find? (fun row => row.1 = lower (lower name')) = none := by
      rw [List.find?_eq_none]
      intro row hrow
      simpa using hfixed name' hname' row hrow
    rw [hnone] at h
    exact (Option.some.inj h).symm

/-- The library reads back the numbers of an event string exactly when every field
written in decimal is below ten or the largest number of 64 bits. -/
theorem readsBack_iff_decimalFieldsSmall {lower : Text → Text}
    {parseMetric : Text → Except PyError Metric.Expr} {archStdEvents : Text → Option JsonEvent}
    {jd : JsonDict} {ev : JsonEvent} {event : Text} (hplain : PlainEvent lower jd)
    (hinit : JsonEvent.init lower parseMetric archStdEvents jd = .ok ev)
    (hevent : ev.event = some event) : ReadsBack jd event ↔ DecimalFieldsSmall jd := by
  obtain ⟨code, hcode, hstring⟩ :=
    init_event hplain.no_msr_index hplain.no_filter hplain.no_arch_std_event hinit
  have heq := realEvent_eq_some hplain.name_not_fixed (hstring.symm.trans hevent)
  have hlist := parseAssignmentList_items hcode hplain.numbers
  rw [← heq] at hlist
  have hread : ReadsBack jd event ↔
      ∀ item ∈ (eventItems jd code).filter fun item => item.name ≠ "period",
        (item.assignment.value.toNat : Int) = item.number := by
    simp only [ReadsBack, hcode, Except.ok.injEq, exists_eq_left', hlist, true_and,
      parseAssignmentList_filter hcode, List.map_inj_left, Prod.mk.injEq]
  rw [hread, decimalFieldsSmall_iff code]
  refine forall₂_congr fun item hitem => ?_
  have hfit := hplain.numbers.item hcode (List.mem_of_mem_filter hitem)
  exact assignment_value_eq_iff hfit.1 hfit.2

/-! ## A counter mask of sixteen -/

/-- An event with a counter mask. -/
def maskEvent (mask : String) : JsonDict :=
  JsonDict.ofList [("EventName", "foo".toList), ("EventCode", "0x3c".toList),
    ("CounterMask", mask.toList)]

/-- Loading an event with ASCII names, without metrics and standard events. -/
def initAscii (jd : JsonDict) : Except PyError JsonEvent :=
  JsonEvent.init (List.map Char.toLower) (fun _ => .error .syntaxError) (fun _ => none) jd

theorem maskEvent_field {mask : String} {field : String × String} {val : Text}
    (hfield : field ∈ eventFields) (h : maskEvent mask field.1 = some val) :
    field.1 = "CounterMask" ∧ val = mask.toList := by
  have habsent : ∀ field ∈ eventFields, field.1 ≠ "CounterMask" →
      maskEvent mask field.1 = none := by
    simp [eventFields, maskEvent, JsonDict.ofList]
  by_cases hkey : field.1 = "CounterMask"
  · rw [hkey] at h
    exact ⟨hkey, (Option.some.inj h).symm⟩
  · rw [habsent field hfield hkey] at h
    exact absurd h (by simp)

theorem plainEvent_maskEvent {mask : String} (h : fieldInt mask.toList = .ok 16) :
    PlainEvent (List.map Char.toLower) (maskEvent mask) where
  no_arch_std_event := rfl
  no_filter := rfl
  no_msr_index := rfl
  name_not_fixed := by
    intro name hname
    obtain rfl : "foo".toList = name := Option.some.inj hname
    decide
  numbers := by
    constructor
    · intro key n hcode
      have hevent : eventCode (maskEvent mask) = .ok ("event", 0x3c) := rfl
      obtain ⟨-, rfl⟩ := Prod.mk.inj (Except.ok.inj (hevent.symm.trans hcode))
      decide
    · intro field hfield val n hval hn
      rw [(maskEvent_field hfield hval).2, h] at hn
      obtain rfl := Except.ok.inj hn
      decide

/-- Spelled in hexadecimal, the mask is read back. -/
theorem readsBack_maskEvent_hex :
    ReadsBack (maskEvent "0x10") "event=0x3c,cmask=0x10".toList := by
  obtain ⟨ev, hinit, hevent⟩ : ∃ ev, initAscii (maskEvent "0x10") = .ok ev ∧
      ev.event = some "event=0x3c,cmask=0x10".toList := ⟨_, rfl, rfl⟩
  refine (readsBack_iff_decimalFieldsSmall (plainEvent_maskEvent rfl) hinit hevent).mpr ?_
  intro field hfield _ val n hval hdec _
  rw [(maskEvent_field hfield hval).2] at hdec
  exact absurd rfl hdec

/-- Spelled in decimal, sixteen is read as twenty-two. -/
theorem not_readsBack_maskEvent_dec :
    ∃ ev event, initAscii (maskEvent "16") = .ok ev ∧ ev.event = some event ∧
      PlainEvent (List.map Char.toLower) (maskEvent "16") ∧ ¬ ReadsBack (maskEvent "16") event := by
  refine ⟨_, "event=0x3c,cmask=16".toList, rfl, rfl, plainEvent_maskEvent rfl, ?_⟩
  rintro ⟨code, hcode, -, hlist⟩
  obtain rfl : ("event", 0x3c) = code := Except.ok.inj hcode
  exact absurd hlist (by decide)

end PmuEvents.Jevents
