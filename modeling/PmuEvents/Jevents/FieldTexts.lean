import PmuEvents.Jevents.EventString
set_option autoImplicit false

/-!
# The texts of event fields

`is_zero` and `canonicalize_value` are meant to let a text through that is no integer, but
their handlers name no exception, so such a text raises a `NameError`.  The main result:
an event that is valid without its fields is built as it is meant exactly when every text
given for a field is an integer.
-/

namespace PmuEvents.Jevents

open PmuEvents.Foundation

/-- `int` takes the text: in base 16 where it starts with `0x`, else in base 10. -/
def IntegerText (val : Text) : Prop := ∃ number, fieldInt val = .ok number

instance (val : Text) : Decidable (IntegerText val) :=
  match h : fieldInt val with
  | .ok number => .isTrue ⟨number, h⟩
  | .error _ => .isFalse fun ⟨_, hok⟩ => by
    rw [h] at hok
    cases hok

/-- What a field is meant to add to the event string: nothing for zero, the canonical form
of another integer, and a text that is no integer as it is. -/
def meantText (name : String) (val : Text) : Text :=
  match fieldInt val with
  | .ok number => if number = 0 then [] else ',' :: assignmentText name (canonicalText val number)
  | .error _ => ',' :: assignmentText name val

/-- What the fields of a dictionary are meant to add, in the order of `event_fields`. -/
def meantTexts (jd : JsonDict) (fields : List (String × String)) : Text :=
  fields.flatMap fun field => (jd field.1).elim [] (meantText field.2)

/-- The text of the filter. -/
def filterText (jd : JsonDict) : Text :=
  match jd "Filter" with
  | none | some [] => []
  | some filter => ',' :: filter

/-- The text of the MSR and its value. -/
def msrText (jd : JsonDict) (msr : Option Text) : Text :=
  msr.elim [] fun msr => ',' :: msr ++ (jd "MSRValue").getD "None".toList

/-- The event string, which an architecture standard event replaces. -/
def stdEvent (lower : Text → Text) (archStdEvents : Text → Option JsonEvent)
    (arch_std : Option Text) (event : Text) : Option Text :=
  match arch_std with
  | none | some [] => some event
  | some arch_std => (archStdEvents (lower arch_std)).bind (·.event)

/-- The event string with what the fields, the filter and the MSR add. -/
def eventString (jd : JsonDict) (code : String × Int) (fields : Text) (msr : Option Text) : Text :=
  assignmentText code.1 (llx code.2) ++ fields ++ filterText jd ++ msrText jd msr

section Init

variable (lower : Text → Text) (parseMetric : Text → Except PyError Metric.Expr)
variable (archStdEvents : Text → Option JsonEvent)

/-- The constructor raises no exception, and the fields are in the event string as they are
meant. -/
def FieldsPassThrough (jd : JsonDict) : Prop :=
  ∃ code msr ev, eventCode jd = .ok code ∧ lookupMsr (jd "MSRIndex") = .ok msr ∧
    JsonEvent.init lower parseMetric archStdEvents jd = .ok ev ∧
    ev.event = JsonEvent.realEvent lower ev.name
      (stdEvent lower archStdEvents (jd "ArchStdEvent")
        (eventString jd code (meantTexts jd eventFields) msr))

/-- The dictionary without its event fields. -/
def withoutFields (jd : JsonDict) : JsonDict :=
  fun key => if key ∈ eventFields.map Prod.fst then none else jd key

/-- The constructor takes the dictionary without its event fields. -/
def OtherwiseValid (jd : JsonDict) : Prop :=
  ∃ ev, JsonEvent.init lower parseMetric archStdEvents (withoutFields jd) = .ok ev

end Init

/-! ## The loop over the fields -/

theorem isZero_of_integer {val : Text} {number : Int} (h : fieldInt val = .ok number) :
    isZero val = .ok (number = 0) := isZero_eq_ok.mpr ⟨number, h, rfl⟩

theorem canonicalizeValue_of_integer {val : Text} {number : Int} (h : fieldInt val = .ok number) :
    canonicalizeValue val = .ok (canonicalText val number) :=
  canonicalizeValue_eq_ok.mpr ⟨number, h, rfl⟩

/-- Integers are added as they are meant. -/
theorem addFields_of_integers {jd : JsonDict} {fields : List (String × String)}
    (h : ∀ field ∈ fields, ∀ val, jd field.1 = some val → IntegerText val) (event : Text) :
    addFields jd fields event = .ok (event ++ meantTexts jd fields) := by
  induction fields generalizing event with
  | nil => rw [addFields, meantTexts, List.flatMap_nil, List.append_nil]
  | cons field fields ih =>
    obtain ⟨key, name⟩ := field
    have ih := ih fun field hfield => h field (List.mem_cons_of_mem _ hfield)
    rw [meantTexts, List.flatMap_cons, ← meantTexts]
    cases hval : jd key with
    | none =>
      simp only [addFields, hval]
      exact ih event
    | some val =>
      obtain ⟨number, hnumber⟩ := h (key, name) List.mem_cons_self val hval
      simp only [addFields, hval, isZero_of_integer hnumber, canonicalizeValue_of_integer hnumber,
        Option.elim_some, meantText, hnumber]
      by_cases hzero : number = 0
      · rw [if_pos hzero, List.nil_append, ← ih event]
        simp [hzero, bind, Except.bind]
      · rw [if_neg hzero, ← List.append_assoc, ← ih]
        simp [hzero, bind, Except.bind]

/-- The loop gets past integers only. -/
theorem integerText_of_addFields {jd : JsonDict} {fields : List (String × String)}
    {event event' : Text} (h : addFields jd fields event = .ok event') :
    ∀ field ∈ fields, ∀ val, jd field.1 = some val → IntegerText val := by
  induction fields generalizing event with
  | nil => simp
  | cons field fields ih =>
    obtain ⟨key, name⟩ := field
    rw [List.forall_mem_cons]
    cases hval : jd key with
    | none =>
      simp only [addFields, hval] at h
      refine ⟨?_, ih h⟩
      intro val hsome
      cases hsome
    | some val =>
      simp only [addFields, hval, bind_eq_ok] at h
      obtain ⟨zero, hzero, h⟩ := h
      obtain ⟨number, hnumber, rfl⟩ := isZero_eq_ok.mp hzero
      refine ⟨fun val' hsome => ?_, ?_⟩
      · obtain rfl := Option.some.inj hsome
        exact ⟨number, hnumber⟩
      · split at h
        · exact ih h
        · obtain ⟨canonical, -, h⟩ := bind_eq_ok.mp h
          exact ih h

/-! ## The constructor -/

section Init

variable {lower : Text → Text} {parseMetric : Text → Except PyError Metric.Expr}
variable {archStdEvents : Text → Option JsonEvent} {jd : JsonDict}

/-- What can raise in the constructor besides the fields. -/
structure OthersReturn (lower : Text → Text) (parseMetric : Text → Except PyError Metric.Expr)
    (archStdEvents : Text → Option JsonEvent) (jd : JsonDict) : Prop where
  code : ∃ code, eventCode jd = .ok code
  msr : ∃ msr, lookupMsr (jd "MSRIndex") = .ok msr
  aggr_mode : ∃ aggr_mode, convertAggrMode (jd "AggregationMode") = .ok aggr_mode
  event_grouping : ∃ grouping, convertMetricConstraint (jd "MetricConstraint") = .ok grouping
  metric_expr : ∃ expr, JsonEvent.metricExpr parseMetric (jd "MetricExpr") = .ok expr
  arch_std : ∀ self event, ∃ self', JsonEvent.applyArchStd lower archStdEvents (jd "ArchStdEvent")
    self event = .ok (self', stdEvent lower archStdEvents (jd "ArchStdEvent") event)

/-- Whether the architecture standard event is found does not depend on the event. -/
theorem applyArchStd_eq_ok {arch_std : Option Text} {self : JsonEvent} {event : Text}
    {result : JsonEvent × Option Text}
    (h : JsonEvent.applyArchStd lower archStdEvents arch_std self event = .ok result)
    (self₁ : JsonEvent) (event₁ : Text) :
    ∃ self', JsonEvent.applyArchStd lower archStdEvents arch_std self₁ event₁ =
      .ok (self', stdEvent lower archStdEvents arch_std event₁) := by
  unfold JsonEvent.applyArchStd at h ⊢
  unfold stdEvent
  cases arch_std with
  | none => exact ⟨self₁, rfl⟩
  | some name =>
    cases name with
    | nil => exact ⟨self₁, rfl⟩
    | cons c name =>
      dsimp only at h ⊢
      split at h
      · rename_i std hstd
        exact ⟨self₁.copyUndefined std, by rw [hstd]; rfl⟩
      · cases h

/-- A constructor that returns has got past the fields and everything else. -/
theorem returned_of_init {ev : JsonEvent}
    (h : JsonEvent.init lower parseMetric archStdEvents jd = .ok ev) :
    OthersReturn lower parseMetric archStdEvents jd ∧
      ∃ event event', addFields jd eventFields event = .ok event' := by
  unfold JsonEvent.init at h
  simp only [bind_eq_ok] at h
  obtain ⟨code, hcode, msr, hmsr, aggr_mode, haggr, grouping, hgrouping, expr, hexpr, event',
    hevent, std, hstd, -⟩ := h
  exact ⟨⟨⟨code, hcode⟩, ⟨msr, hmsr⟩, ⟨aggr_mode, haggr⟩, ⟨grouping, hgrouping⟩, ⟨expr, hexpr⟩,
    applyArchStd_eq_ok hstd⟩, ⟨_, event', hevent⟩⟩

/-- Where the others return and the loop over the fields does, the constructor does. -/
theorem init_of_addFields (h : OthersReturn lower parseMetric archStdEvents jd) {fields : Text}
    (hfields : ∀ event, addFields jd eventFields event = .ok (event ++ fields)) :
    ∃ code msr ev, eventCode jd = .ok code ∧ lookupMsr (jd "MSRIndex") = .ok msr ∧
      JsonEvent.init lower parseMetric archStdEvents jd = .ok ev ∧
      ev.event = JsonEvent.realEvent lower ev.name
        (stdEvent lower archStdEvents (jd "ArchStdEvent")
        (eventString jd code fields msr)) := by
  obtain ⟨code, hcode⟩ := h.code
  obtain ⟨msr, hmsr⟩ := h.msr
  obtain ⟨aggr_mode, haggr⟩ := h.aggr_mode
  obtain ⟨grouping, hgrouping⟩ := h.event_grouping
  obtain ⟨expr, hexpr⟩ := h.metric_expr
  unfold JsonEvent.init
  simp only [bind_eq_ok, pure_eq_ok, hcode, hmsr, haggr, hgrouping, hexpr, hfields,
    Except.ok.injEq, exists_eq_left']
  obtain ⟨self', hself⟩ := h.arch_std _ _
  refine ⟨code, msr, _, rfl, rfl, ⟨_, hself, rfl⟩, ?_⟩
  refine congrArg (fun event => JsonEvent.realEvent lower self'.name
    (stdEvent lower archStdEvents (jd "ArchStdEvent") event)) ?_
  rw [eventString, filterText, msrText]
  rcases jd "Filter" with _ | _ | ⟨c, filter⟩ <;> cases msr <;> simp

theorem OthersReturn.of_withoutFields
    (h : OthersReturn lower parseMetric archStdEvents (withoutFields jd)) :
    OthersReturn lower parseMetric archStdEvents jd := by
  have hcode : eventCode (withoutFields jd) = eventCode jd := by
    simp [eventCode, withoutFields, eventFields]
  have hkeys : ∀ key ∈ ["MSRIndex", "AggregationMode", "MetricConstraint", "MetricExpr",
      "ArchStdEvent"], withoutFields jd key = jd key := by
    simp [withoutFields, eventFields]
  simp only [List.forall_mem_cons] at hkeys
  obtain ⟨hmsr, haggr, hgrouping, hexpr, hstd, -⟩ := hkeys
  obtain ⟨code, msr, aggr_mode, grouping, expr, arch_std⟩ := h
  rw [hcode] at code
  rw [hmsr] at msr
  rw [haggr] at aggr_mode
  rw [hgrouping] at grouping
  rw [hexpr] at expr
  rw [hstd] at arch_std
  exact ⟨code, msr, aggr_mode, grouping, expr, arch_std⟩

/-- Every text that is given for an event field is an integer. -/
def IntegerFields (jd : JsonDict) : Prop :=
  ∀ field ∈ eventFields, ∀ val, jd field.1 = some val → IntegerText val

/-- An event that is valid without its fields is built, with its fields as they are meant,
exactly when every text given for a field is an integer. -/
theorem fieldsPassThrough_iff (hvalid : OtherwiseValid lower parseMetric archStdEvents jd) :
    FieldsPassThrough lower parseMetric archStdEvents jd ↔ IntegerFields jd := by
  constructor
  · rintro ⟨code, msr, ev, -, -, hinit, -⟩
    obtain ⟨-, event, event', hfields⟩ := returned_of_init hinit
    exact integerText_of_addFields hfields
  · intro hfields
    obtain ⟨ev, hinit⟩ := hvalid
    exact init_of_addFields (returned_of_init hinit).1.of_withoutFields
      (addFields_of_integers hfields)

end Init

/-! ## A mask and a list of masks -/

/-- An event with a counter mask of zero and a unit mask. -/
def umaskEvent (umask : String) : JsonDict :=
  JsonDict.ofList [("EventName", "foo".toList), ("EventCode", "0x3c".toList),
    ("CounterMask", "0".toList), ("UMask", umask.toList)]

theorem otherwiseValid_umaskEvent (umask : String) :
    OtherwiseValid (List.map Char.toLower) (fun _ => .error .syntaxError) (fun _ => none)
      (umaskEvent umask) := ⟨_, rfl⟩

/-- A unit mask is an integer. -/
theorem fieldsPassThrough_umask :
    FieldsPassThrough (List.map Char.toLower) (fun _ => .error .syntaxError) (fun _ => none)
      (umaskEvent "0x1f") := by
  refine (fieldsPassThrough_iff (otherwiseValid_umaskEvent "0x1f")).mpr ?_
  unfold IntegerFields
  simp only [eventFields, List.forall_mem_cons]
  decide

/-- A list of two unit masks raises. -/
theorem not_fieldsPassThrough_umaskList :
    OtherwiseValid (List.map Char.toLower) (fun _ => .error .syntaxError) (fun _ => none)
        (umaskEvent "0x01,0x02") ∧
      initAscii (umaskEvent "0x01,0x02") = .error .nameError ∧
      ¬ FieldsPassThrough (List.map Char.toLower) (fun _ => .error .syntaxError)
        (fun _ => none) (umaskEvent "0x01,0x02") := by
  have hraises : initAscii (umaskEvent "0x01,0x02") = .error .nameError := rfl
  refine ⟨otherwiseValid_umaskEvent _, hraises, ?_⟩
  rintro ⟨code, msr, ev, -, -, hinit, -⟩
  cases hraises.symm.trans hinit

end PmuEvents.Jevents
