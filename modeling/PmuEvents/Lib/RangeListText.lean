import PmuEvents.Lib.RangeText
set_option autoImplicit false

/-!
# The texts of range lists and config definitions

Which range list texts and config definitions are accepted with well-formed segments
only, and the round trip of a list of ranges: written in decimal and joined by
commas, it is parsed back to itself.
-/

namespace PmuEvents.Lib

open PmuEvents.Foundation PmuEvents.Libc

/-! ## Accepted lists -/

/-- Every segment is well-formed, and the list holds the ranges in order. -/
def ListText (term : CStr) (list : RangeList) : Prop :=
  List.Forall₂ RangeText (segments term) list

/-- Some segment is not made of numbers at all, or no segment is odd. -/
def NothingOdd (term : CStr) : Prop :=
  (∃ s ∈ segments term, ∀ r, ¬ ReadsRange s r) ∨ ∀ s ∈ segments term, ¬ Odd s

theorem parseRangeList_eq_some_iff {term : CStr} {list : RangeList} :
    parseRangeList term = some list ↔ List.Forall₂ ReadsRange (segments term) list := by
  rw [parseRangeList, mapM_eq_some_iff]
  exact Iff.of_eq (congrArg (fun R => List.Forall₂ R _ _)
    (funext fun _ => funext fun _ => propext parseRange_eq_some_iff))

/-- The ranges of segments that are all made of numbers. -/
theorem exists_ranges {l : List CStr} (h : ∀ s ∈ l, ∃ r, ReadsRange s r) :
    ∃ list, List.Forall₂ ReadsRange l list := by
  induction l with
  | nil => exact ⟨[], .nil⟩
  | cons s l ih =>
    obtain ⟨r, hr⟩ := h s List.mem_cons_self
    obtain ⟨list, hlist⟩ := ih fun s hs => h s (List.mem_cons_of_mem _ hs)
    exact ⟨r :: list, .cons hr hlist⟩

theorem rangeText_of_reads {l : List CStr} {list : RangeList}
    (h : List.Forall₂ ReadsRange l list) (hodd : ∀ s ∈ l, ¬ Odd s) :
    List.Forall₂ RangeText l list := by
  induction h with
  | nil => exact .nil
  | cons hr _ ih =>
    rw [List.forall_mem_cons] at hodd
    exact .cons (hr.rangeText_iff.mpr hodd.1) (ih hodd.2)

theorem not_odd_of_rangeText {l : List CStr} {list : RangeList}
    (h : List.Forall₂ RangeText l list) : ∀ s ∈ l, ¬ Odd s := by
  induction h with
  | nil => simp
  | cons hr _ ih => exact List.forall_mem_cons.mpr ⟨hr.not_odd, ih⟩

/-- Whatever list is accepted, its text is well-formed, exactly when nothing is odd. -/
theorem listText_of_parse_iff (term : CStr) :
    (∀ list, parseRangeList term = some list → ListText term list) ↔ NothingOdd term := by
  constructor
  · intro h
    by_cases hreads : ∀ s ∈ segments term, ∃ r, ReadsRange s r
    · obtain ⟨list, hlist⟩ := exists_ranges hreads
      exact .inr (not_odd_of_rangeText (h list (parseRangeList_eq_some_iff.mpr hlist)))
    · simp only [not_forall, not_exists] at hreads
      obtain ⟨s, hs, hnone⟩ := hreads
      exact .inl ⟨s, hs, hnone⟩
  · intro h list hlist
    rw [parseRangeList_eq_some_iff] at hlist
    rcases h with ⟨s, hs, hnone⟩ | hodd
    · obtain ⟨i, hi, rfl⟩ := List.getElem_of_mem hs
      have hi' : i < list.length := hlist.length_eq ▸ hi
      exact absurd (hlist.get hi hi') (hnone _)
    · exact rangeText_of_reads hlist hodd

/-- An accepted list has a well-formed text, of as many ranges as `len` says. -/
def StrictList (term : CStr) : Prop :=
  (parseRangeListLoop term).code = 0 →
    (parseRangeListLoop term).len = (parseRangeListLoop term).items.length ∧
      ListText term (parseRangeListLoop term).items

theorem strictList_iff (term : CStr) : StrictList term ↔ NothingOdd term := by
  rw [← listText_of_parse_iff, StrictList]
  cases hparse : parseRangeList term with
  | none =>
    rw [parseRangeListLoop_of_none hparse]
    exact iff_of_true (fun h => absurd h (by decide)) nofun
  | some list =>
    rw [parseRangeListLoop_of_some hparse]
    simp

/-! ## Config definitions -/

/-- The member name and the colon in front of a config definition's list. -/
def configPrefix : AttrVar → CStr
  | .config => cs "config:"
  | .config1 => cs "config1:"
  | .config2 => cs "config2:"

/-- An accepted config definition names a member and goes on with a well-formed list. -/
def StrictConfig (term : CStr) : Prop :=
  ∀ config_def, parseConfigDef term = some config_def →
    ∃ rest, term = configPrefix config_def.var ++ rest ∧ ListText rest config_def.range

theorem afterPrefix_eq_some_iff {lit s rest : CStr} :
    afterPrefix lit s = some rest ↔ s = lit ++ rest := by
  unfold afterPrefix
  constructor
  · intro h
    split at h
    · rename_i hprefix
      obtain ⟨t, rfl⟩ := List.isPrefixOf_iff_prefix.mp hprefix
      rw [List.drop_left, Option.some.injEq] at h
      rw [h]
    · cases h
  · rintro rfl
    rw [if_pos (List.isPrefixOf_iff_prefix.mpr (List.prefix_append lit rest)), List.drop_left]

theorem seven_le_configPrefix (var : AttrVar) : 7 ≤ (configPrefix var).length := by
  cases var <;> decide

/-- The member's text ends within a definition in one way only. -/
theorem configPrefix_inj {var var' : AttrVar} {rest rest' : CStr}
    (h : configPrefix var ++ rest = configPrefix var' ++ rest') : var = var' ∧ rest = rest' := by
  -- the members differ in the byte behind "config"
  have htake : (configPrefix var).take 7 = (configPrefix var').take 7 := by
    have heq := congrArg (List.take 7) h
    rwa [List.take_append_of_le_length (seven_le_configPrefix var),
      List.take_append_of_le_length (seven_le_configPrefix var')] at heq
  have hvar : var = var' := by
    cases var <;> cases var' <;> first | rfl | exact absurd htake (by decide)
  subst hvar
  exact ⟨rfl, List.append_cancel_left h⟩

theorem parseConfigDef_eq_some_iff {term : CStr} {config_def : ConfigDef} :
    parseConfigDef term = some config_def ↔
      ∃ rest, term = configPrefix config_def.var ++ rest ∧
        parseRangeList rest = some config_def.range := by
  obtain ⟨var, range⟩ := config_def
  have hsplit : ∀ (var' : AttrVar) {rest : CStr}, term = configPrefix var' ++ rest →
      (((parseRangeList rest).map fun range => ConfigDef.mk var' range) = some ⟨var, range⟩ ↔
        ∃ rest, term = configPrefix var ++ rest ∧ parseRangeList rest = some range) := by
    rintro var' rest rfl
    constructor
    · intro h
      obtain ⟨list, hlist, heq⟩ := Option.map_eq_some_iff.mp h
      obtain ⟨rfl, rfl⟩ := ConfigDef.mk.inj heq
      exact ⟨rest, rfl, hlist⟩
    · rintro ⟨rest', heq, hlist⟩
      obtain ⟨rfl, rfl⟩ := configPrefix_inj heq
      rw [hlist]
      rfl
  have hnone : ∀ var', afterPrefix (configPrefix var') term = none →
      ∀ rest, term ≠ configPrefix var' ++ rest := by
    rintro var' hafter rest heq
    rw [afterPrefix_eq_some_iff.mpr heq] at hafter
    cases hafter
  unfold parseConfigDef
  split
  · rename_i rest hrest
    exact hsplit .config (afterPrefix_eq_some_iff.mp hrest)
  · rename_i hconfig
    split
    · rename_i rest hrest
      exact hsplit .config1 (afterPrefix_eq_some_iff.mp hrest)
    · rename_i hconfig1
      split
      · rename_i rest hrest
        exact hsplit .config2 (afterPrefix_eq_some_iff.mp hrest)
      · rename_i hconfig2
        refine iff_of_false nofun ?_
        rintro ⟨rest, heq, -⟩
        cases var with
        | config => exact hnone .config hconfig rest heq
        | config1 => exact hnone .config1 hconfig1 rest heq
        | config2 => exact hnone .config2 hconfig2 rest heq

/-- A config definition is accepted with a well-formed list only, exactly when nothing
is odd behind its member name. -/
theorem strictConfig_iff (term : CStr) :
    StrictConfig term ↔ ∀ var rest, term = configPrefix var ++ rest → NothingOdd rest := by
  constructor
  · rintro h var rest rfl
    rw [← listText_of_parse_iff]
    intro list hlist
    obtain ⟨rest', heq, htext⟩ :=
      h ⟨var, list⟩ (parseConfigDef_eq_some_iff.mpr ⟨rest, rfl, hlist⟩)
    obtain ⟨-, rfl⟩ := configPrefix_inj heq
    exact htext
  · intro h config_def hparse
    obtain ⟨rest, heq, hlist⟩ := parseConfigDef_eq_some_iff.mp hparse
    exact ⟨rest, heq, (listText_of_parse_iff rest).mpr (h config_def.var rest heq) _ hlist⟩

/-- Only well-formed text is accepted exactly where no segment is odd, or one is not
made of numbers at all. -/
theorem strict_iff_nothingOdd (term : CStr) :
    (StrictList term ↔ NothingOdd term) ∧
      (StrictConfig term ↔ ∀ var rest, term = configPrefix var ++ rest → NothingOdd rest) :=
  ⟨strictList_iff term, strictConfig_iff term⟩

/-- `--5` is taken for a range, from 0 to the two's complement of 5. -/
theorem not_strict_doubleMinus :
    parseRangeListLoop (cs "--5") = { code := 0, len := 1, items := [⟨0, -5⟩] } ∧
      ¬ StrictList (cs "--5") ∧
        parseConfigDef (cs "config:--5") = some ⟨.config, [⟨0, -5⟩]⟩ ∧
          ¬ StrictConfig (cs "config:--5") := by
  have hparse : parseRangeList (cs "--5") = some [⟨0, -5⟩] := by decide
  have hseg : segments (cs "--5") = [cs "--5"] := by decide
  have hodd : Odd (cs "--5") := .leadingMinus rfl
  have hconfig : parseConfigDef (cs "config:--5") = some ⟨.config, [⟨0, -5⟩]⟩ := by decide
  have hnot : ¬ ListText (cs "--5") [⟨0, -5⟩] := by
    intro htext
    rw [ListText, hseg] at htext
    exact not_odd_of_rangeText htext _ (List.mem_singleton_self _) hodd
  refine ⟨parseRangeListLoop_of_some hparse, ?_, hconfig, ?_⟩
  · intro hstrict
    rw [StrictList, parseRangeListLoop_of_some hparse] at hstrict
    exact hnot (hstrict rfl).2
  · intro hstrict
    obtain ⟨rest, heq, htext⟩ := hstrict _ hconfig
    have happend : configPrefix .config ++ rest = configPrefix .config ++ cs "--5" := heq.symm
    have hrest : rest = cs "--5" := (configPrefix_inj happend).2
    rw [hrest] at htext
    exact hnot htext

/-! ## Lists written in decimal -/

/-- A number in decimal. -/
def decimalText (v : U64) : CStr := utf8 (Nat.toDigits 10 v.toNat)

/-- A range as `start-end`, or as one number when both are equal. -/
def printRange (r : Range) : CStr :=
  if r.start = r.end_ then decimalText r.start
  else decimalText r.start ++ chr '-' :: decimalText r.end_

/-- The texts of the ranges, joined by commas. -/
def printRangeList (list : RangeList) : CStr := [chr ','].intercalate (list.map printRange)

theorem isDecimal_decimalText (v : U64) : IsDecimal (decimalText v) :=
  ⟨utf8_toDigits_ne_nil (by decide) (by decide) _,
    digitIn_toDigits (by decide) (Nat.le_refl 10) (by decide) _⟩

theorem digitsValue_decimalText (v : U64) : digitsValue false (decimalText v) = v := by
  have hvalue : decimalValue (decimalText v) = v.toNat := by
    rw [decimalValue, decimalText, filterMap_digitIn_toDigits (by decide) (Nat.le_refl 10)
      (by decide), Numeral.value_digits (by decide)]
  apply BitVec.eq_of_toNat_eq
  rw [digitsValue_toNat (hvalue ▸ v.isLt), hvalue]

theorem readsRange_printRange (r : Range) : ReadsRange (printRange r) r := by
  obtain ⟨start, stop⟩ := r
  have hstart := (isDecimal_decimalText start).numberText
  have hstop := (isDecimal_decimalText stop).numberText
  unfold printRange
  split
  · rename_i heq
    obtain rfl : start = stop := heq
    have hone := ReadsRange.one hstart
    rwa [digitsValue_decimalText] at hone
  · have htwo := ReadsRange.two hstart hstop
    rwa [digitsValue_decimalText, digitsValue_decimalText] at htwo

theorem comma_not_mem_decimalText (v : U64) : chr ',' ∉ decimalText v := by
  intro hmem
  exact absurd ((isDecimal_decimalText v).2 _ hmem) (by decide)

theorem comma_not_mem_printRange (r : Range) : chr ',' ∉ printRange r := by
  have hne : chr ',' ≠ chr '-' := by decide
  unfold printRange
  split <;> simp [comma_not_mem_decimalText, hne]

/-- A list of ranges survives printing and parsing. -/
theorem parseRangeListLoop_printRangeList {list : RangeList} (h : list ≠ []) :
    parseRangeListLoop (printRangeList list) =
      { code := 0, len := list.length, items := list } := by
  apply parseRangeListLoop_of_some
  have hsegments : segments (printRangeList list) = list.map printRange := by
    apply List.splitOn_intercalate
    · intro s hs
      obtain ⟨r, -, rfl⟩ := List.mem_map.mp hs
      exact comma_not_mem_printRange r
    · simpa using h
  rw [parseRangeList_eq_some_iff, hsegments, List.forall₂_map_left_iff, List.forall₂_same]
  exact fun r _ => readsRange_printRange r

/-- A bit, the whole range of 64 bits, and a range whose end comes first. -/
theorem parseRangeListLoop_printRangeList_three :
    parseRangeListLoop (printRangeList [⟨7, 7⟩, ⟨0, -1⟩, ⟨9, 4⟩]) =
      { code := 0, len := 3, items := [⟨7, 7⟩, ⟨0, -1⟩, ⟨9, 4⟩] } :=
  parseRangeListLoop_printRangeList (List.cons_ne_nil _ _)

end PmuEvents.Lib
