import PmuEvents.Jevents.PyText
import PmuEvents.Metric.Expr
import Mathlib.Data.Int.Bitwise
set_option autoImplicit false

/-!
# `JsonEvent`

An event or metric loaded from a dictionary of a JSON file.  Python's `str.lower`,
the metric parser (`metric.ParsePerfJson`, then `Simplify`) and the architecture
standard events found so far are parameters.  All values of the dictionary are
texts.
-/

namespace PmuEvents.Jevents

open PmuEvents.Foundation PmuEvents.Metric

/-- The dictionary of parsed json values. -/
abbrev JsonDict := String → Option Text

/-- A JSON dictionary with the given items. -/
def JsonDict.ofList (items : List (String × Text)) : JsonDict :=
  fun key => (items.find? fun item => item.1 = key).map Prod.snd

/-- The attributes of an event or metric. -/
structure JsonEvent where
  name : Option Text
  topic : Text
  compat : Option Text
  desc : Option Text
  long_desc : Option Text
  pmu : Text
  unit : Option Text
  perpkg : Option Text
  aggr_mode : Option Text
  deprecated : Option Text
  retirement_latency_mean : Option Text
  retirement_latency_min : Option Text
  retirement_latency_max : Option Text
  metric_name : Option Text
  metric_group : Option Text
  metricgroup_no_group : Option Text
  default_metricgroup_name : Option Text
  event_grouping : Option Text
  metric_expr : Option Expr
  metric_threshold : Option Text
  event : Option Text
  deriving DecidableEq, Repr

/-! ## The helpers of the constructor -/

/-- `llx`: a conversion similar to the printf modifier `%#llx`. -/
def llx (x : Int) : Text := if x ≥ 0 ∧ x < 10 then pyStr x else pyHex x

/-- The replacements `fixdesc` makes: newlines, quotes and carriage returns as C
escapes. -/
def escapeDesc (s : Text) : Text :=
  replaceChar '\r' ['\\', 'r'] (replaceChar '"' ['\\', '"'] (replaceChar '\n' ['\\', 'n'] s))

/-- `fixdesc`: fix formatting issues of a description. -/
def fixdesc (s : Text) : Text :=
  escapeDesc
    (removesuffix (removesuffix (removesuffix s ".  ".toList) ". ".toList) ".".toList)

/-- The lookup of a table indexed with `[]`. -/
def tableLookup {κ : Type} [DecidableEq κ] (table : List (κ × String)) (key : κ) :
    Except PyError Text :=
  match table.find? fun row => row.1 = key with
  | some row => .ok row.2.toList
  | none => .error .keyError

/-- `convert_aggr_mode`. -/
def convertAggrMode (aggr_mode : Option Text) : Except PyError (Option Text) :=
  match aggr_mode with
  | none | some [] => .ok none
  | some mode =>
    (tableLookup [("PerChip".toList, "1"), ("PerCore".toList, "2")] mode).map some

/-- `convert_metric_constraint`. -/
def convertMetricConstraint (metric_constraint : Option Text) : Except PyError (Option Text) :=
  match metric_constraint with
  | none | some [] => .ok none
  | some constraint =>
    (tableLookup
      [("NO_GROUP_EVENTS".toList, "1"), ("NO_GROUP_EVENTS_NMI".toList, "2"),
        ("NO_NMI_WATCHDOG".toList, "2"), ("NO_GROUP_EVENTS_SMT".toList, "3"),
        ("NO_THRESHOLD_AND_NMI".toList, "4")] constraint).map some

/-- `lookup_msr`: the event field for the msr number, or the first in a list. -/
def lookupMsr (num : Option Text) : Except PyError (Option Text) :=
  match num with
  | none | some [] => .ok none
  | some num => do
    let msr ← pyInt 0 (firstOfList num)
    (tableLookup [((0x3F6 : Int), "ldlat="), (0x1A6, "offcore_rsp="), (0x1A7, "offcore_rsp="),
      (0x3F7, "frontend=")] msr).map some

/-- The well known event names and their event strings. -/
def fixedEvents : List (Text × Text) :=
  [("inst_retired.any".toList, "event=0xc0,period=2000003".toList),
    ("inst_retired.any_p".toList, "event=0xc0,period=2000003".toList),
    ("cpu_clk_unhalted.ref".toList, "event=0x0,umask=0x03,period=2000003".toList),
    ("cpu_clk_unhalted.thread".toList, "event=0x3c,period=2000003".toList),
    ("cpu_clk_unhalted.core".toList, "event=0x3c,period=2000003".toList),
    ("cpu_clk_unhalted.thread_any".toList, "event=0x3c,any=1,period=2000003".toList)]

/-- The PMUs of the JSON units that are not simply `uncore_` and the unit. -/
def unitTable : List (Text × Text) :=
  [("CBO".toList, "uncore_cbox".toList), ("QPI LL".toList, "uncore_qpi".toList),
    ("SBO".toList, "uncore_sbox".toList), ("iMPH-U".toList, "uncore_arb".toList),
    ("CPU-M-CF".toList, "cpum_cf".toList), ("CPU-M-SF".toList, "cpum_sf".toList),
    ("PAI-CRYPTO".toList, "pai_crypto".toList), ("PAI-EXT".toList, "pai_ext".toList),
    ("UPI LL".toList, "uncore_upi".toList), ("hisi_sicl,cpa".toList, "hisi_sicl,cpa".toList),
    ("hisi_sccl,ddrc".toList, "hisi_sccl,ddrc".toList),
    ("hisi_sccl,hha".toList, "hisi_sccl,hha".toList),
    ("hisi_sccl,l3c".toList, "hisi_sccl,l3c".toList), ("imx8_ddr".toList, "imx8_ddr".toList),
    ("imx9_ddr".toList, "imx9_ddr".toList), ("L3PMC".toList, "amd_l3".toList),
    ("DFPMC".toList, "amd_df".toList), ("UMCPMC".toList, "amd_umc".toList),
    ("cpu_core".toList, "cpu_core".toList), ("cpu_atom".toList, "cpu_atom".toList),
    ("ali_drw".toList, "ali_drw".toList), ("arm_cmn".toList, "arm_cmn".toList),
    ("software".toList, "software".toList), ("tool".toList, "tool".toList)]

/-- `int(val, 16)` for a text that starts with `0x`, else `int(val)`. -/
def fieldInt (val : Text) : Except PyError Int :=
  if "0x".toList.isPrefixOf val then pyInt 16 val else pyInt 10 val

/-- The handler `except e:` names no exception, so evaluating it raises another one. -/
def exceptE {α : Type} : Except PyError α → Except PyError α
  | .ok a => .ok a
  | .error _ => .error .nameError

/-- `is_zero`. -/
def isZero (val : Text) : Except PyError Bool :=
  exceptE ((fieldInt val).map fun x => x = 0)

/-- `canonicalize_value`: hexadecimal for a text in hexadecimal, else decimal. -/
def canonicalizeValue (val : Text) : Except PyError Text :=
  exceptE
    (if "0x".toList.isPrefixOf val then (pyInt 16 val).map llx else (pyInt 10 val).map pyStr)

/-- `event_fields`: the JSON keys and what they are called in the event string. -/
def eventFields : List (String × String) :=
  [("AnyThread", "any"), ("PortMask", "ch_mask"), ("CounterMask", "cmask"),
    ("EdgeDetect", "edge"), ("FCMask", "fc_mask"), ("Invert", "inv"),
    ("SampleAfterValue", "period"), ("UMask", "umask"), ("NodeType", "type"),
    ("RdWrMask", "rdwrmask"), ("EnAllCores", "enallcores"), ("EnAllSlices", "enallslices"),
    ("SliceId", "sliceid"), ("ThreadMask", "threadmask")]

/-- One assignment of an event string. -/
def assignmentText (key : String) (value : Text) : Text := key.toList ++ '=' :: value

/-- The loop over `event_fields`. -/
def addFields (jd : JsonDict) : List (String × String) → Text → Except PyError Text
  | [], event => .ok event
  | (key, value) :: fields, event =>
    match jd key with
    | none => addFields jd fields event
    | some val => do
      if ← isZero val then addFields jd fields event
      else
        let canonical ← canonicalizeValue val
        addFields jd fields (event ++ ',' :: assignmentText value canonical)

/-- `int` of the text under a key, None where the key is missing. -/
def intAt (base : Nat) (text : Option Text) : Except PyError (Option Int) :=
  match text with
  | none => .ok none
  | some text => (pyInt base text).map some

/-- The key and the number of the event code: the config code, else the event id
code, else the event code with its extension. -/
def eventCode (jd : JsonDict) : Except PyError (String × Int) := do
  let eventcode := (← intAt 0 ((jd "EventCode").map firstOfList)).getD 0
  let ext_sel ← intAt 10 (jd "ExtSel")
  let eventcode := ext_sel.elim eventcode fun x => Int.lor eventcode (x * 2 ^ 8)
  let configcode ← intAt 0 (jd "ConfigCode")
  let eventidcode ← intAt 0 (jd "EventidCode")
  match configcode, eventidcode with
  | some configcode, _ => .ok ("config", configcode)
  | none, some eventidcode => .ok ("eventid", eventidcode)
  | none, none => .ok ("event", eventcode)

/-- What is appended to the descriptions before the precise-event note. -/
def extraDesc (jd : JsonDict) : Text :=
  let data_la : Text :=
    match jd "Data_LA" with
    | some _ =>
      "  Supports address when precise".toList ++ if (jd "Errata").isSome then ['.'] else []
    | none => []
  match jd "Errata" with
  | some errata => data_la ++ "  Spec update: ".toList ++ errata
  | none => data_la

/-- The note on precise events. -/
def preciseNote (precise desc : Option Text) : Text :=
  if truthy precise ∧ truthy desc ∧ ¬ "(Precise Event)".toList <:+: desc.getD [] then
    if precise = some ['2'] then " (Must be precise)".toList else " (Precise event)".toList
  else []

/-- The two descriptions with the extra text, the long one dropped where they agree. -/
def describe (desc long_desc : Option Text) (extra_desc : Text) : Option Text × Option Text :=
  let extend (d : Option Text) := if truthy d then d.map (· ++ extra_desc) else d
  let desc := extend desc
  let long_desc := extend long_desc
  if truthy desc ∧ truthy long_desc ∧ desc = long_desc then (desc, none) else (desc, long_desc)

namespace JsonEvent

/-- The attributes that are empty in an event, copied from its architecture
standard event.  The event string is not among them: it is set afterwards. -/
def copyUndefined (self std : JsonEvent) : JsonEvent :=
  let copy {α : Type} (isSet : α → Bool) (x y : α) : α := if isSet x then x else y
  { name := copy truthy self.name std.name
    topic := copy (fun s => !s.isEmpty) self.topic std.topic
    compat := copy truthy self.compat std.compat
    desc := copy truthy self.desc std.desc
    long_desc := copy truthy self.long_desc std.long_desc
    pmu := copy (fun s => !s.isEmpty) self.pmu std.pmu
    unit := copy truthy self.unit std.unit
    perpkg := copy truthy self.perpkg std.perpkg
    aggr_mode := copy truthy self.aggr_mode std.aggr_mode
    deprecated := copy truthy self.deprecated std.deprecated
    retirement_latency_mean :=
      copy truthy self.retirement_latency_mean std.retirement_latency_mean
    retirement_latency_min := copy truthy self.retirement_latency_min std.retirement_latency_min
    retirement_latency_max := copy truthy self.retirement_latency_max std.retirement_latency_max
    metric_name := copy truthy self.metric_name std.metric_name
    metric_group := copy truthy self.metric_group std.metric_group
    metricgroup_no_group := copy truthy self.metricgroup_no_group std.metricgroup_no_group
    default_metricgroup_name :=
      copy truthy self.default_metricgroup_name std.default_metricgroup_name
    event_grouping := copy truthy self.event_grouping std.event_grouping
    metric_expr := copy Option.isSome self.metric_expr std.metric_expr
    metric_threshold := copy truthy self.metric_threshold std.metric_threshold
    event := self.event }

section Init

variable (lower : Text → Text) (parseMetric : Text → Except PyError Expr)
variable (archStdEvents : Text → Option JsonEvent)

/-- `real_event`: well known event names have an event string of their own. -/
def realEvent (name event : Option Text) : Option Text :=
  match name with
  | none | some [] => none
  | some name =>
    match fixedEvents.find? fun row => row.1 = lower name with
    | some row => some row.2
    | none => event

/-- `unit_to_pmu`: a JSON unit as a Linux PMU name. -/
def unitToPmu (unit : Option Text) : Text :=
  match unit with
  | none | some [] => "default_core".toList
  | some unit =>
    match unitTable.find? fun row => row.1 = unit with
    | some row => row.2
    | none => "uncore_".toList ++ lower unit

/-- The parsed and simplified metric expression. -/
def metricExpr (text : Option Text) : Except PyError (Option Expr) :=
  match text with
  | none => .ok none
  | some text => (parseMetric text).map some

/-- The event string and the attributes an event takes from its architecture
standard event. -/
def applyArchStd (arch_std : Option Text) (self : JsonEvent) (event : Text) :
    Except PyError (JsonEvent × Option Text) :=
  match arch_std with
  | none | some [] => .ok (self, some event)
  | some arch_std =>
    match archStdEvents (lower arch_std) with
    | some std => .ok (self.copyUndefined std, std.event)
    | none => .error (.argumentTypeError arch_std)

/-- The constructor of `JsonEvent`. -/
def init (jd : JsonDict) : Except PyError JsonEvent := do
  let (code_key, code) ← eventCode jd
  let name := (jd "EventName").map lower
  let desc := (jd "BriefDescription").map fixdesc
  let long_desc := (jd "PublicDescription").map fixdesc
  let msr ← lookupMsr (jd "MSRIndex")
  let aggr_mode ← convertAggrMode (jd "AggregationMode")
  let event_grouping ← convertMetricConstraint (jd "MetricConstraint")
  let metric_expr ← metricExpr parseMetric (jd "MetricExpr")
  let extra_desc := extraDesc jd ++ preciseNote (jd "PEBS") desc
  let event ← addFields jd eventFields (assignmentText code_key (llx code))
  let event := match jd "Filter" with
    | none | some [] => event
    | some filter => event ++ ',' :: filter
  let event := match msr with
    | none => event
    | some msr => event ++ ',' :: msr ++ (jd "MSRValue").getD "None".toList
  let (desc, long_desc) := describe desc long_desc extra_desc
  let self : JsonEvent :=
    { name, topic := [], compat := jd "Compat", desc, long_desc
      pmu := unitToPmu lower (jd "Unit"), unit := jd "ScaleUnit", perpkg := jd "PerPkg"
      aggr_mode, deprecated := jd "Deprecated"
      retirement_latency_mean := jd "RetirementLatencyMean"
      retirement_latency_min := jd "RetirementLatencyMin"
      retirement_latency_max := jd "RetirementLatencyMax"
      metric_name := jd "MetricName", metric_group := jd "MetricGroup"
      metricgroup_no_group := jd "MetricgroupNoGroup"
      default_metricgroup_name := jd "DefaultMetricgroupName"
      event_grouping, metric_expr, metric_threshold := jd "MetricThreshold"
      event := none }
  let (self, event) ← applyArchStd lower archStdEvents (jd "ArchStdEvent") self event
  return { self with event := realEvent lower self.name event }

end Init

end JsonEvent

end PmuEvents.Jevents
