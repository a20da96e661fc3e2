import PmuEvents.Libc.Strtoull
import PmuEvents.Lib.Types
set_option autoImplicit false

/-!
# The text parsers of the library

`parse_range`, `parse_range_list`, `parse_config_def`, `parse_assignment` and
`parse_assignment_list`.  A parser that returns -1 answers `none`; allocation is
taken to succeed.  The two list parsers overwrite each comma of a copy of their
argument with a NUL and parse the pieces in turn, so they visit the segments
`splitOn` gives.
-/

namespace PmuEvents.Lib

open PmuEvents.Foundation PmuEvents.Libc

/-- `parse_range`: "5" (5 exactly) or "4-7" (4 to 7, inclusively). -/
def parseRange (term : CStr) : Option Range :=
  -- no empty strings please
  if term = [] then none
  else
    match strchr term (chr '-') with
    | none =>
      let val := strtoull 10 term
      if val.endptr ≠ [] then none
      else some { start := val.value, end_ := val.value }
    | some minus_sign =>
      let start := strtoull 10 term
      if start.endptr.head? ≠ some (chr '-') then none
      else if minus_sign.tail = [] then none
      else
        let stop := strtoull 10 minus_sign.tail
        if stop.endptr ≠ [] then none
        else some { start := start.value, end_ := stop.value }

/-- The segments of a comma separated list, in order. -/
def segments (s : CStr) : List CStr := s.splitOn (chr ',')

/-- `parse_range_list`: a comma separated list of ranges, e.g. "4,15-43,12". -/
def parseRangeList (term : CStr) : Option RangeList :=
  (segments term).mapM parseRange

/-- `strncmp(s, lit, strlen(lit)) == 0`, answering with what follows the literal. -/
def afterPrefix (lit s : CStr) : Option CStr :=
  if lit.isPrefixOf s then some (s.drop lit.length) else none

/-- `parse_config_def`: a `perf_event_attr` member, a colon, and a range list. -/
def parseConfigDef (term : CStr) : Option ConfigDef :=
  match afterPrefix (cs "config:") term with
  | some start_term =>
    (parseRangeList start_term).map fun range => { var := .config, range }
  | none =>
    match afterPrefix (cs "config1:") term with
    | some start_term =>
      (parseRangeList start_term).map fun range => { var := .config1, range }
    | none =>
      match afterPrefix (cs "config2:") term with
      | some start_term =>
        (parseRangeList start_term).map fun range => { var := .config2, range }
      | none => none

/-- `parse_assignment`: the form "foo=42", the value in base 16; "None" is zero. -/
def parseAssignment (term : CStr) : Option Assignment :=
  match strchr term (chr '=') with
  | none => none
  | some equal_sign =>
    if equal_sign.length = term.length then none
    else if equal_sign.tail = [] then none
    else
      let key := term.take (term.length - equal_sign.length)
      if equal_sign.tail = cs "None" then some { key, value := 0 }
      else
        let value := strtoull 16 equal_sign.tail
        if value.endptr ≠ [] then none else some { key, value := value.value }

/-- `parse_assignment_list`: its return code and the list it leaves, which is
empty on failure. -/
def parseAssignmentList (str : CStr) : Int × List Assignment :=
  match (segments str).mapM parseAssignment with
  | none => (-1, [])
  | some assignments => (0, assignments)

/-! ## One segment -/

/-- The value part of an assignment. -/
def parseValue (text : CStr) : Option U64 :=
  if text = [] then none
  else if text = cs "None" then some 0
  else if (strtoull 16 text).endptr ≠ [] then none
  else some (strtoull 16 text).value

/-- A segment splits at its first `=` into a non-empty key and its value part. -/
theorem parseAssignment_append {key text : CStr} (hkey : chr '=' ∉ key) :
    parseAssignment (key ++ chr '=' :: text) =
      if key = [] then none
      else (parseValue text).map fun value => { key, value } := by
  have htake : (key ++ chr '=' :: text).take
      ((key ++ chr '=' :: text).length - (chr '=' :: text).length) = key := by
    rw [List.length_append, Nat.add_sub_cancel, List.take_left]
  unfold parseAssignment
  rw [strchr_append text hkey]
  simp only [htake, List.tail_cons]
  by_cases hk : key = []
  · simp [hk]
  · have hpos : 0 < key.length := List.length_pos_iff.mpr hk
    have hne : (chr '=' :: text).length ≠ (key ++ chr '=' :: text).length := by
      rw [List.length_append]
      omega
    simp only [hne, hk, if_false, parseValue]
    by_cases ht : text = []
    · simp [ht]
    · by_cases hn : text = cs "None"
      · rw [if_neg ht, if_neg ht, if_pos hn, if_pos hn]
        rfl
      · by_cases he : (strtoull 16 text).endptr = []
        · simp [ht, hn, he]
        · simp [ht, hn, he]

/-! ## Whole lists -/

theorem parseAssignmentList_of_mapM {str : CStr} {list : List Assignment}
    (h : (segments str).mapM parseAssignment = some list) :
    parseAssignmentList str = (0, list) := by
  simp [parseAssignmentList, h]

example : parseRangeList (cs "1,7-9") = some [⟨1, 1⟩, ⟨7, 9⟩] := by decide
example : parseRangeList (cs "1,,7-9") = none := by decide
example : parseAssignmentList (cs "event=0x3c,any=None") =
    (0, [⟨cs "event", 0x3c⟩, ⟨cs "any", 0⟩]) := by decide

end PmuEvents.Lib
