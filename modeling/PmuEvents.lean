import PmuEvents.Lib.GenAttrFailed
import PmuEvents.Lib.RangeListText
import PmuEvents.Lib.AssignmentText
import PmuEvents.Lib.InstanceClasses
import PmuEvents.Lib.FileContent
import PmuEvents.Metric.Meaning
import PmuEvents.Metric.RewriteSteps
import PmuEvents.Metric.RoundTrip
import PmuEvents.Metric.SimplifyTwice
import PmuEvents.Jevents.FieldTexts
import PmuEvents.Jevents.ReadJson
import PmuEvents.Foundation.UnitSuffix
import PmuEvents.Jevents.BigCString
import PmuEvents.Jevents.CLen
import PmuEvents.Jevents.FoldStructure
import PmuEvents.Jevents.Record
import PmuEvents.Jevents.ReadBack
import PmuEvents.Jevents.TableRecord
import PmuEvents.Jevents.Decompress
import PmuEvents.Foundation.BinarySearch
import PmuEvents.Libc.Strcmp
import PmuEvents.Jevents.MetricGroups
import PmuEvents.Foundation.Flush
import PmuEvents.Jevents.Walk
import PmuEvents.Jevents.WalkOrder
import PmuEvents.Jevents.ArchAlone
import PmuEvents.Jevents.MetricTables
import PmuEvents.Jevents.Descriptions
import PmuEvents.Tables.StrcmpCpuid
import PmuEvents.Aarch64.Midr
import PmuEvents.X86.Cpuid
import PmuEvents.Memory.Session
import PmuEvents.Jevents.TableFile
import PmuEvents.Jevents.SysTables
import PmuEvents.System.EventLookup
import PmuEvents.System.EventAttr
import PmuEvents.Example.ReadEvent
import PmuEvents.Metric.Groups
import PmuEvents.System.GroupLookup
