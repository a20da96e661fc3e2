import PmuEvents.Lib.Parse
import PmuEvents.Foundation.Scan
import PmuEvents.Foundation.Traverse
set_option autoImplicit false

/-!
# The loops of the list parsers

`parse_range_list` and `parse_assignment_list` as they run: the piece up to the next
comma of the copied string is parsed into a new last element, until there is no
further comma or a piece is refused.  The main results: they accept exactly the
strings all of whose segments are accepted, and store the elements in order.
-/

namespace PmuEvents.Lib

open PmuEvents.Foundation PmuEvents.Libc

section Strchr

variable {s t : CStr} {c : UInt8}

theorem strchr_eq_none (h : strchr s c = none) : c ∉ s := by
  induction s with
  | nil => exact List.not_mem_nil
  | cons b s ih =>
    rw [strchr] at h
    split at h
    · cases h
    · rename_i hb
      rw [List.mem_cons, not_or]
      exact ⟨Ne.symm hb, ih h⟩

/-- `strchr` splits a string at the first byte sought. -/
theorem strchr_eq_some (h : strchr s c = some t) :
    ∃ before after, s = before ++ c :: after ∧ t = c :: after ∧ c ∉ before := by
  induction s with
  | nil => cases h
  | cons b s ih =>
    rw [strchr] at h
    split at h
    · rename_i hb
      obtain rfl := Option.some.inj h
      exact ⟨[], s, by rw [hb]; rfl, by rw [hb], List.not_mem_nil⟩
    · rename_i hb
      obtain ⟨before, after, rfl, rfl, hbefore⟩ := ih h
      refine ⟨b :: before, after, rfl, rfl, ?_⟩
      rw [List.mem_cons, not_or]
      exact ⟨Ne.symm hb, hbefore⟩

theorem strchr_of_not_mem (h : c ∉ s) : strchr s c = none := by
  cases hs : strchr s c with
  | none => rfl
  | some t =>
    obtain ⟨before, after, rfl, -, -⟩ := strchr_eq_some hs
    exact absurd (List.mem_append_right _ List.mem_cons_self) h

theorem length_tail_lt_of_strchr (h : strchr s c = some t) : t.tail.length < s.length := by
  obtain ⟨before, after, rfl, rfl, -⟩ := strchr_eq_some h
  simp only [List.tail_cons, List.length_append, List.length_cons]
  omega

end Strchr

section Loop

variable {α : Type} (parse : CStr → Option α)

/-- The loop over the pieces of the copied string from `cur_range` on, with the elements
stored so far.  Where a piece is refused, `len` has counted it already. -/
def listLoop (cur_range : CStr) (items : List α) : Except Nat (List α) :=
  match _h : strchr cur_range (chr ',') with
  | none =>
    match parse cur_range with
    | none => .error (items.length + 1)
    | some item => .ok (items ++ [item])
  | some next_comma =>
    -- the comma is overwritten with a NUL, which ends the piece
    match parse (cur_range.take (cur_range.length - next_comma.length)) with
    | none => .error (items.length + 1)
    | some item => listLoop next_comma.tail (items ++ [item])
termination_by cur_range.length
decreasing_by exact length_tail_lt_of_strchr _h

/-- How a list parser leaves the list: its return code, `len`, and the elements. -/
structure ParsedList (α : Type) where
  code : Int
  len : Nat
  items : List α
  deriving DecidableEq, Repr

/-- `parse_range_list`; on failure the elements are freed and `len` keeps its count. -/
def parseRangeListLoop (term : CStr) : ParsedList Range :=
  match listLoop parseRange term [] with
  | .error len => { code := -1, len, items := [] }
  | .ok ranges => { code := 0, len := ranges.length, items := ranges }

/-- `parse_assignment_list`; on failure `len` is 0. -/
def parseAssignmentListLoop (str : CStr) : ParsedList Assignment :=
  match listLoop parseAssignment str [] with
  | .error _ => { code := -1, len := 0, items := [] }
  | .ok assignments => { code := 0, len := assignments.length, items := assignments }

/-! ## The segments -/

theorem segments_of_strchr_none {s : CStr} (h : strchr s (chr ',') = none) : segments s = [s] :=
  List.splitOn_eq_singleton (strchr_eq_none h)

/-- The piece before the first comma is the first segment. -/
theorem segments_of_strchr_some {s next_comma : CStr} (h : strchr s (chr ',') = some next_comma) :
    segments s = s.take (s.length - next_comma.length) :: segments next_comma.tail := by
  obtain ⟨before, after, rfl, rfl, hbefore⟩ := strchr_eq_some h
  rw [List.length_append, Nat.add_sub_cancel, List.take_left, List.tail_cons]
  exact List.splitOn_append_cons_self_of_not_mem hbefore after

/-- The loop accepts exactly when every segment is accepted, and appends what they
parse to. -/
theorem listLoop_eq_ok {cur_range : CStr} {items result : List α} :
    listLoop parse cur_range items = .ok result ↔
      ∃ new, (segments cur_range).mapM parse = some new ∧ result = items ++ new := by
  fun_induction listLoop parse cur_range items with
  | case1 cur items hcomma hparse =>
    simp [segments_of_strchr_none hcomma, hparse]
  | case2 cur items hcomma item hparse =>
    simp [segments_of_strchr_none hcomma, hparse, eq_comm]
  | case3 cur items next_comma hcomma hparse =>
    simp [segments_of_strchr_some hcomma, hparse]
  | case4 cur items next_comma hcomma item hparse ih =>
    rw [ih, segments_of_strchr_some hcomma, List.mapM_cons, hparse]
    simp only [Option.bind_eq_bind, Option.bind_some, Option.pure_def,
      Option.bind_eq_some_iff, Option.some.injEq]
    constructor
    · rintro ⟨new, hnew, rfl⟩
      exact ⟨item :: new, ⟨new, hnew, rfl⟩, List.append_assoc _ _ _⟩
    · rintro ⟨_, ⟨new, hnew, rfl⟩, rfl⟩
      exact ⟨new, hnew, List.append_cons items item new⟩

theorem listLoop_of_mapM {str : CStr} {list : List α}
    (h : (segments str).mapM parse = some list) : listLoop parse str [] = .ok list :=
  (listLoop_eq_ok parse).mpr ⟨list, h, rfl⟩

theorem listLoop_of_mapM_none {str : CStr} (h : (segments str).mapM parse = none) :
    ∃ len, listLoop parse str [] = .error len := by
  cases hloop : listLoop parse str [] with
  | error len => exact ⟨len, rfl⟩
  | ok result =>
    obtain ⟨new, hnew, -⟩ := (listLoop_eq_ok parse).mp hloop
    rw [h] at hnew
    cases hnew

end Loop

/-- `parse_range_list` returns 0 with the ranges of all segments, or -1. -/
theorem parseRangeListLoop_of_some {term : CStr} {list : RangeList}
    (h : parseRangeList term = some list) :
    parseRangeListLoop term = { code := 0, len := list.length, items := list } := by
  rw [parseRangeListLoop, listLoop_of_mapM parseRange h]

theorem parseRangeListLoop_of_none {term : CStr} (h : parseRangeList term = none) :
    (parseRangeListLoop term).code = -1 := by
  obtain ⟨len, hlen⟩ := listLoop_of_mapM_none parseRange h
  rw [parseRangeListLoop, hlen]

/-- `parse_assignment_list` returns what the segments parse to, with its length. -/
theorem parseAssignmentListLoop_eq (str : CStr) :
    parseAssignmentListLoop str =
      { code := (parseAssignmentList str).1
        len := (parseAssignmentList str).2.length
        items := (parseAssignmentList str).2 } := by
  unfold parseAssignmentListLoop parseAssignmentList
  cases hmap : (segments str).mapM parseAssignment with
  | none =>
    obtain ⟨len, hlen⟩ := listLoop_of_mapM_none parseAssignment hmap
    rw [hlen]
    rfl
  | some list => rw [listLoop_of_mapM parseAssignment hmap]

end PmuEvents.Lib
