import PmuEvents.Jevents.BigCString
import PmuEvents.Jevents.JsonEvent
set_option autoImplicit false

/-!
# Records of the big string

The text of an event or a metric in the big string, its attributes one after the
other, and the texts that a file of events or of metric groups adds.
-/

namespace PmuEvents.Jevents

open PmuEvents.Foundation PmuEvents.Metric

/-- The attributes of a `JsonEvent` that go into records. -/
inductive Attr where
  | name
  | topic
  | desc
  | event
  | compat
  | deprecated
  | perpkg
  | unit
  | retirement_latency_mean
  | retirement_latency_min
  | retirement_latency_max
  | long_desc
  | metric_name
  | metric_group
  | metric_expr
  | metric_threshold
  | metricgroup_no_group
  | default_metricgroup_name
  | aggr_mode
  | event_grouping
  deriving DecidableEq, Repr

/-- `_json_event_attributes`, in the order they are visited. -/
def jsonEventAttributes : List Attr :=
  [.name, .topic, .desc, .event, .compat, .deprecated, .perpkg, .unit,
    .retirement_latency_mean, .retirement_latency_min, .retirement_latency_max, .long_desc]

/-- `_json_metric_attributes`. -/
def jsonMetricAttributes : List Attr :=
  [.metric_name, .metric_group, .metric_expr, .metric_threshold, .desc, .long_desc, .unit,
    .compat, .metricgroup_no_group, .default_metricgroup_name, .aggr_mode, .event_grouping]

/-- `_json_enum_attributes`: bools or enum values, encoded as one digit. -/
def jsonEnumAttributes : List Attr := [.aggr_mode, .deprecated, .event_grouping, .perpkg]

/-- The attributes of a record. -/
def recordAttributes (metric : Bool) : List Attr :=
  if metric then jsonMetricAttributes else jsonEventAttributes

namespace JsonEvent

/-- `getattr(self, attr)`, an expression as the text it is written as. -/
def getattr (self : JsonEvent) : Attr → Option Text
  | .name => self.name
  | .topic => some self.topic
  | .desc => self.desc
  | .event => self.event
  | .compat => self.compat
  | .deprecated => self.deprecated
  | .perpkg => self.perpkg
  | .unit => self.unit
  | .retirement_latency_mean => self.retirement_latency_mean
  | .retirement_latency_min => self.retirement_latency_min
  | .retirement_latency_max => self.retirement_latency_max
  | .long_desc => self.long_desc
  | .metric_name => self.metric_name
  | .metric_group => self.metric_group
  | .metric_expr => self.metric_expr.map Expr.toPerfJson
  | .metric_threshold => self.metric_threshold
  | .metricgroup_no_group => self.metricgroup_no_group
  | .default_metricgroup_name => self.default_metricgroup_name
  | .aggr_mode => self.aggr_mode
  | .event_grouping => self.event_grouping

/-- The text of an attribute as it stands in the file: in a metric the backslashes of
the expression and of the threshold are doubled. -/
def attrText (self : JsonEvent) (metric : Bool) (attr : Attr) : Text :=
  let x := (self.getattr attr).getD []
  if metric ∧ (attr = .metric_expr ∨ attr = .metric_threshold) then
    replaceChar '\\' ['\\', '\\'] x
  else x

/-- The loop's share for one attribute: a digit, or a text with its terminator. -/
def attrString (self : JsonEvent) (metric : Bool) (attr : Attr) : Text :=
  let x := self.attrText metric attr
  if attr ∈ jsonEnumAttributes then if x.isEmpty then ['0'] else x
  else if x.isEmpty then "\\000".toList
  else x ++ "\\000".toList

/-- `build_c_string`. -/
def buildCString (self : JsonEvent) (metric : Bool) : Text :=
  (recordAttributes metric).flatMap (self.attrString metric)

end JsonEvent

/-- The `add` calls for an event of a file: the name of its PMU and its record, for the
event and for the metric in it. -/
def eventCalls (event : JsonEvent) : List (Text × Bool) :=
  let pmu_name := event.pmu ++ "\\000".toList
  (if truthy event.name then [(pmu_name, false), (event.buildCString false, false)] else []) ++
    if truthy event.metric_name then [(pmu_name, true), (event.buildCString true, true)] else []

/-- The `add` calls for a metric group and its description. -/
def metricGroupCalls (mgroup description : Text) : List (Text × Bool) :=
  [(mgroup ++ "\\000".toList, true), (description ++ "\\000".toList, true)]

end PmuEvents.Jevents
