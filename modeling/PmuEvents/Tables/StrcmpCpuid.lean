import PmuEvents.Lib.ListLoop
import PmuEvents.Libc.Regex
import PmuEvents.Tables.MapForCpu
import Mathlib.Data.List.Find
set_option autoImplicit false

/-!
# `strcmp_cpuid_str` of x86

A row of the mapping table names its CPUs by a regular expression.  Whether the row also
names a stepping is guessed from the number of dashes in the text of the expression,
which counts the dashes of bracket expressions as well, and that the whole of the id
matched is judged by the length of the match alone.  The main result: for which rows
without a stepping and ids the two guesses are right, so that a row selects exactly the
ids whose vendor, family and model it matches.
-/

namespace PmuEvents.Tables

open PmuEvents.Foundation PmuEvents.Libc PmuEvents.Lib

/-! ## The functions -/

/-- The loop of `is_full_cpuid`: the dashes from `tmp` on. -/
def countDashes (tmp : CStr) : Nat :=
  match h : strchr tmp (chr '-') with
  | none => 0
  | some dash => countDashes dash.tail + 1
termination_by tmp.length
decreasing_by exact length_tail_lt_of_strchr h

/-- `is_full_cpuid`. -/
def isFullCpuid (id : CStr) : Bool := countDashes id = 3

/-- `strcmp_cpuid_str` of x86. -/
def strcmpCpuidStr (regcomp : Regcomp) (mapcpuid id : CStr) : Int :=
  let full_mapcpuid := isFullCpuid mapcpuid
  let full_cpuid := isFullCpuid id
  if full_mapcpuid && !full_cpuid then 1
  else
    match regcomp mapcpuid with
    | none => 1
    | some regexec =>
      match regexec id with
      | none => 1
      | some (rm_so, rm_eo) =>
        let match_len := rm_eo - rm_so
        let cpuid_len :=
          if !full_mapcpuid && full_cpuid then
            -- a full id has a '-', so `strrchr` is not NULL
            id.length - ((strrchr id (chr '-')).getD []).length
          else id.length
        if match_len = cpuid_len then 0 else 1

/-! ## Rows and ids -/

/-- The bytes of hexadecimal numbers. -/
def hexDigits : List UInt8 := cs "0123456789ABCDEFabcdef"

/-- A row without a stepping: vendor and family literally, and an expression for the model. -/
structure CpuidPattern where
  vendor : List UInt8
  family : List UInt8
  model : Ere .alternatives
  ordinary : ∀ b ∈ vendor ++ family, Ordinary b ∧ b ≠ chr '-'
  hexadecimal : ∀ b ∈ model.literals, b ∈ hexDigits

/-- An id with all four parts. -/
structure FullCpuid where
  vendor : CStr
  family : CStr
  model : CStr
  stepping : CStr
  dashFree : ∀ part ∈ [vendor, family, model, stepping], chr '-' ∉ part

/-- The text of a row. -/
def CpuidPattern.text (p : CpuidPattern) : CStr :=
  p.vendor ++ chr '-' :: (p.family ++ chr '-' :: p.model.text)

/-- Vendor and family with their dashes. -/
def CpuidPattern.literals (p : CpuidPattern) : List UInt8 :=
  p.vendor ++ chr '-' :: (p.family ++ [chr '-'])

theorem CpuidPattern.ordinary_literals (p : CpuidPattern) : ∀ b ∈ p.literals, Ordinary b := by
  intro b hb
  simp only [literals, List.mem_append, List.mem_cons, List.not_mem_nil, or_false] at hb
  rcases hb with hb | rfl | hb | rfl
  · exact (p.ordinary b (List.mem_append_left _ hb)).1
  · decide
  · exact (p.ordinary b (List.mem_append_right _ hb)).1
  · decide

/-- The expression in the row. -/
def CpuidPattern.ere (p : CpuidPattern) : Ere .alternatives :=
  p.model.prepend p.literals p.ordinary_literals

theorem CpuidPattern.ere_text (p : CpuidPattern) : p.ere.text = p.text := by
  simp [ere, Ere.prepend_text, literals, text]

/-- The row matches a text as a whole. -/
def CpuidPattern.Matches (p : CpuidPattern) (w : CStr) : Prop := w ∈ p.ere.language

instance (p : CpuidPattern) (w : CStr) : Decidable (p.Matches w) :=
  inferInstanceAs (Decidable (w ∈ p.ere.language))

/-- The dashes in the part of the row for the model, all of them in bracket expressions. -/
def CpuidPattern.modelDashes (p : CpuidPattern) : Nat := p.model.text.count (chr '-')

/-- The part of an id without the stepping. -/
def FullCpuid.platform (id : FullCpuid) : CStr :=
  id.vendor ++ chr '-' :: (id.family ++ chr '-' :: id.model)

def FullCpuid.text (id : FullCpuid) : CStr := id.platform ++ chr '-' :: id.stepping

/-- The first match is as long as what the row is compared with, which depends on the
dashes in the row. -/
def CpuidPattern.Selects (p : CpuidPattern) (id : FullCpuid) : Prop :=
  ∃ before found after, id.text = before ++ (found ++ after) ∧
    FirstMatch p.ere.language before found after ∧
    found.length = (if p.modelDashes = 1 then id.text else id.platform).length

/-- Where the stepping of an id does not decide whether a row selects it. -/
structure SteppingIgnored (p : CpuidPattern) (id : FullCpuid) : Prop where
  /-- A row with one dash for the model passes for one with a stepping, and is compared
  with the whole id. -/
  counted : p.modelDashes = 1 → (p.Matches id.text ↔ p.Matches id.platform)
  /-- Else the match does not run on into the stepping, -/
  ends : p.modelDashes ≠ 1 → p.Matches id.platform →
    ∀ s, s <+: id.stepping → ¬ p.Matches (id.platform ++ chr '-' :: s)
  /-- and no first match as long as vendor, family and model lies further right. -/
  starts : p.modelDashes ≠ 1 → ∀ before found after, id.text = before ++ (found ++ after) →
    FirstMatch p.ere.language before found after → found.length = id.platform.length →
      before = []

/-! ## Dashes -/

theorem countDashes_eq_count (tmp : CStr) : countDashes tmp = tmp.count (chr '-') := by
  fun_induction countDashes tmp with
  | case1 tmp h => exact (List.count_eq_zero.mpr (strchr_eq_none h)).symm
  | case2 tmp dash h ih =>
    obtain ⟨before, after, rfl, rfl, hbefore⟩ := strchr_eq_some h
    rw [ih, List.count_append, List.count_eq_zero.mpr hbefore, List.count_cons_self,
      List.tail_cons, Nat.zero_add]

theorem isFullCpuid_eq (id : CStr) : isFullCpuid id = decide (id.count (chr '-') = 3) := by
  rw [isFullCpuid, countDashes_eq_count]

theorem CpuidPattern.dash_not_mem_vendor (p : CpuidPattern) : chr '-' ∉ p.vendor :=
  fun h => (p.ordinary _ (List.mem_append_left _ h)).2 rfl

theorem CpuidPattern.dash_not_mem_family (p : CpuidPattern) : chr '-' ∉ p.family :=
  fun h => (p.ordinary _ (List.mem_append_right _ h)).2 rfl

theorem CpuidPattern.count_literals (p : CpuidPattern) : p.literals.count (chr '-') = 2 := by
  have hvendor := List.count_eq_zero.mpr p.dash_not_mem_vendor
  have hfamily := List.count_eq_zero.mpr p.dash_not_mem_family
  simp [literals, List.count_append, hvendor, hfamily]

/-- A row counts as one with a stepping when there is one dash in the part for the model. -/
theorem CpuidPattern.isFullCpuid_text (p : CpuidPattern) :
    isFullCpuid p.text = decide (p.modelDashes = 1) := by
  have hcount : p.text.count (chr '-') = 2 + p.modelDashes := by
    rw [← p.ere_text, ere, Ere.prepend_text, List.count_append, p.count_literals, modelDashes]
  rw [isFullCpuid_eq, hcount, decide_eq_decide]
  omega

theorem FullCpuid.count_platform (id : FullCpuid) : id.platform.count (chr '-') = 2 := by
  have hvendor := List.count_eq_zero.mpr (id.dashFree id.vendor (by simp))
  have hfamily := List.count_eq_zero.mpr (id.dashFree id.family (by simp))
  have hmodel := List.count_eq_zero.mpr (id.dashFree id.model (by simp))
  simp [platform, List.count_append, hvendor, hfamily, hmodel]

theorem FullCpuid.count_text (id : FullCpuid) : id.text.count (chr '-') = 3 := by
  have hstepping := List.count_eq_zero.mpr (id.dashFree id.stepping (by simp))
  simp [text, List.count_append, id.count_platform, hstepping]

theorem FullCpuid.isFullCpuid_text (id : FullCpuid) : isFullCpuid id.text = true := by
  rw [isFullCpuid_eq, id.count_text]
  rfl

/-- The last dash of an id stands before the stepping. -/
theorem FullCpuid.strrchr_text (id : FullCpuid) :
    strrchr id.text (chr '-') = some (chr '-' :: id.stepping) :=
  strrchr_append _ (id.dashFree _ (by simp))

/-! ## What a row selects -/

section Selects

variable {regcomp : Regcomp} {p : CpuidPattern} {id : FullCpuid}

/-- The id is full, so the verdict is on the length of the match alone. -/
theorem strcmpCpuidStr_eq_zero_iff_report {regexec : Regexec}
    (h : regcomp p.text = some regexec) :
    strcmpCpuidStr regcomp p.text id.text = 0 ↔
      ∃ so eo, regexec id.text = some (so, eo) ∧
        eo - so = (if p.modelDashes = 1 then id.text else id.platform).length := by
  have hplatform : id.text.length - (chr '-' :: id.stepping).length = id.platform.length := by
    rw [FullCpuid.text, List.length_append, Nat.add_sub_cancel]
  simp only [strcmpCpuidStr, p.isFullCpuid_text, id.isFullCpuid_text, h, id.strrchr_text,
    Option.getD_some, hplatform, Bool.not_true, Bool.and_false, Bool.false_eq_true, if_false,
    Bool.and_true, Bool.not_eq_true', decide_eq_false_iff_not]
  cases regexec id.text with
  | none => simp
  | some offsets =>
    by_cases hdashes : p.modelDashes = 1
    · simp [hdashes, Prod.ext_iff]
    · simp [hdashes, Prod.ext_iff]

/-- The program's verdict on a row. -/
theorem strcmpCpuidStr_eq_zero_iff (h : Compiles regcomp p.ere) :
    strcmpCpuidStr regcomp p.text id.text = 0 ↔ p.Selects id := by
  obtain ⟨regexec, hregcomp, hreports⟩ := h
  rw [p.ere_text] at hregcomp
  rw [strcmpCpuidStr_eq_zero_iff_report hregcomp, (hreports id.text).length_iff,
    CpuidPattern.Selects]

theorem CpuidPattern.selects_of_one_dash (h : p.modelDashes = 1) :
    p.Selects id ↔ p.Matches id.text := by
  rw [Selects, if_pos h]
  exact exists_firstMatch_length_iff

/-- A row that matches vendor, family and model, and nothing longer, selects the id. -/
theorem CpuidPattern.selects_of_matches (h : p.modelDashes ≠ 1) (hmatch : p.Matches id.platform)
    (hends : ∀ s, s <+: id.stepping → ¬ p.Matches (id.platform ++ chr '-' :: s)) :
    p.Selects id := by
  rw [Selects, if_neg h]
  refine ⟨[], id.platform, chr '-' :: id.stepping, rfl, .of_longest hmatch ?_, rfl⟩
  intro t r hcut ht
  cases t with
  | nil => exact absurd rfl ht
  | cons c s =>
    obtain ⟨rfl, hstepping⟩ := List.cons.inj hcut
    exact hends s ⟨r, hstepping.symm⟩

/-- A match as long as vendor, family and model at the start of an id is these. -/
theorem FullCpuid.eq_platform {found after : CStr} (hcut : id.text = found ++ after)
    (hlen : found.length = id.platform.length) : found = id.platform :=
  (List.append_inj hcut hlen.symm).1.symm

/-- Where a row selects what it matches, no match runs on into the stepping. -/
theorem CpuidPattern.Selects.ends (hselects : p.Selects id) (h : p.modelDashes ≠ 1)
    (hmatch : p.Matches id.platform) (s : CStr) (hs : s <+: id.stepping) :
    ¬ p.Matches (id.platform ++ chr '-' :: s) := by
  rw [Selects, if_neg h] at hselects
  obtain ⟨before, found, after, hcut, hfirst, hlen⟩ := hselects
  obtain rfl := hfirst.before_eq_nil hcut hmatch
  obtain ⟨r, hr⟩ := hs
  intro hlonger
  have hrest : (id.platform ++ chr '-' :: s) ++ r = found ++ after := by
    rw [List.nil_append] at hcut
    rw [← hcut, FullCpuid.text, ← hr, List.append_assoc, List.cons_append]
  have hle := hfirst.longest hrest hlonger
  rw [List.length_append, List.length_cons, hlen] at hle
  omega

/-- A row selects the ids it matches without the stepping exactly when the stepping is
ignored. -/
theorem CpuidPattern.selects_iff_matches_iff :
    (p.Selects id ↔ p.Matches id.platform) ↔ SteppingIgnored p id := by
  by_cases hdashes : p.modelDashes = 1
  · rw [selects_of_one_dash hdashes]
    constructor
    · intro h
      exact ⟨fun _ => h, fun hne => absurd hdashes hne, fun hne => absurd hdashes hne⟩
    · intro h
      exact h.counted hdashes
  · constructor
    · intro h
      refine ⟨fun heq => absurd heq hdashes, ?_, ?_⟩
      · intro _ hmatch
        exact (h.mpr hmatch).ends hdashes hmatch
      · intro _ before found after hcut hfirst hlen
        have hselects : p.Selects id := by
          rw [Selects, if_neg hdashes]
          exact ⟨before, found, after, hcut, hfirst, hlen⟩
        exact hfirst.before_eq_nil hcut (h.mp hselects)
    · intro h
      constructor
      · intro hselects
        rw [Selects, if_neg hdashes] at hselects
        obtain ⟨before, found, after, hcut, hfirst, hlen⟩ := hselects
        obtain rfl := h.starts hdashes before found after hcut hfirst hlen
        rw [List.nil_append] at hcut
        rw [← FullCpuid.eq_platform hcut hlen]
        exact hfirst.mem
      · intro hmatch
        exact selects_of_matches hdashes hmatch (h.ends hdashes hmatch)

/-! ## Hexadecimal rows -/

theorem CpuidPattern.count_le_two (h : p.model.Avoids (chr '-')) {w : CStr}
    (hw : p.Matches w) : w.count (chr '-') ≤ 2 := by
  have hmodel : ∀ v ∈ p.model.language, v.count (chr '-') = 0 :=
    fun v hv => List.count_eq_zero.mpr (Ere.language_le_without h hv)
  rcases Ere.of_mem_prepend p.ordinary_literals hw with hw | ⟨v, hv, rfl⟩
  · rw [hmodel w hw]
    exact Nat.zero_le 2
  · rw [List.count_append, p.count_literals, hmodel v hv]

/-- A part of an id that starts further right, but is as long as vendor, family and model,
has all dashes of the id, unless the stepping is longer than the vendor. -/
theorem FullCpuid.count_of_shifted {before found after : CStr}
    (hcut : id.text = before ++ (found ++ after)) (hlen : found.length = id.platform.length)
    (hbefore : before ≠ []) (hstepping : id.stepping.length < id.vendor.length) :
    found.count (chr '-') = 3 := by
  have htotal : before.length + after.length = id.stepping.length + 1 := by
    have hlength := congrArg List.length hcut
    simp only [text, List.length_append, List.length_cons] at hlength
    omega
  have hpos : 0 < before.length := List.length_pos_of_ne_nil hbefore
  have hvendor : before <+: id.vendor := by
    have hstart : id.vendor <+: id.text := by simp [text, platform]
    exact List.prefix_of_prefix_length_le ⟨found ++ after, hcut.symm⟩ hstart (by omega)
  have hsuffix : after <:+ id.stepping := by
    have hend : after <:+ id.text := ⟨before ++ found, by rw [hcut, List.append_assoc]⟩
    have hend' : id.stepping <:+ id.text := ⟨id.platform ++ [chr '-'], by simp [text]⟩
    exact List.suffix_of_suffix_length_le hend hend' (by omega)
  have hbeforeCount : before.count (chr '-') = 0 :=
    List.count_eq_zero.mpr fun h => id.dashFree _ (by simp) (hvendor.subset h)
  have hafterCount : after.count (chr '-') = 0 :=
    List.count_eq_zero.mpr fun h => id.dashFree _ (by simp) (hsuffix.subset h)
  have hcount : id.text.count (chr '-') = 3 := id.count_text
  rw [hcut, List.count_append, List.count_append, hbeforeCount, hafterCount] at hcount
  omega

/-- When no bracket expression takes a dash and the stepping is shorter than the vendor, the
stepping is ignored but for ids that a row with one dash for the model matches. -/
theorem steppingIgnored_iff_of_avoids (h : p.model.Avoids (chr '-'))
    (hstepping : id.stepping.length < id.vendor.length) :
    SteppingIgnored p id ↔ ¬ (p.modelDashes = 1 ∧ p.Matches id.platform) := by
  have htext : ¬ p.Matches id.text := by
    intro hmatch
    have hle := p.count_le_two h hmatch
    rw [id.count_text] at hle
    omega
  constructor
  · rintro hignored ⟨hdashes, hmatch⟩
    exact htext ((hignored.counted hdashes).mpr hmatch)
  · intro hnot
    refine ⟨?_, ?_, ?_⟩
    · intro hdashes
      exact iff_of_false htext fun hmatch => hnot ⟨hdashes, hmatch⟩
    · intro _ _ s _ hmatch
      have hle := p.count_le_two h hmatch
      rw [List.count_append, id.count_platform, List.count_cons_self] at hle
      omega
    · intro _ before found after hcut hfirst hlen
      by_contra hbefore
      have hle := p.count_le_two h hfirst.mem
      rw [id.count_of_shifted hcut hlen hbefore hstepping] at hle
      omega

/-- In a table whose rows all ignore the stepping, the search finds the first row that
matches vendor, family and model. -/
theorem searchMap_eq_find {pmu_events_map : List PmuEventsMap}
    {row : PmuEventsMap → CpuidPattern}
    (htext : ∀ map ∈ pmu_events_map, map.cpuid = (row map).text)
    (hcompiles : ∀ map ∈ pmu_events_map, Compiles regcomp (row map).ere)
    (hignored : ∀ map ∈ pmu_events_map, SteppingIgnored (row map) id) :
    searchMap (strcmpCpuidStr regcomp) pmu_events_map id.text =
      pmu_events_map.find? fun map => (row map).Matches id.platform := by
  apply List.find?_congr
  intro map hmap
  rw [htext map hmap, decide_eq_decide, strcmpCpuidStr_eq_zero_iff (hcompiles map hmap)]
  exact CpuidPattern.selects_iff_matches_iff.mpr (hignored map hmap)

end Selects

/-- For a row without a stepping and a full id: the function takes the row for that of the
CPU when the row matches vendor, family and model, and only then, exactly where the stepping
is ignored.  Where no bracket expression takes a dash and the stepping is shorter than the
vendor, the rows with one dash for the model go wrong, on the ids they match. -/
theorem strcmpCpuidStr_eq_zero_iff_matches {regcomp : Regcomp} (p : CpuidPattern)
    (id : FullCpuid) (h : Compiles regcomp p.ere) :
    ((strcmpCpuidStr regcomp p.text id.text = 0 ↔ p.Matches id.platform) ↔
        SteppingIgnored p id) ∧
      (p.model.Avoids (chr '-') → id.stepping.length < id.vendor.length →
        (SteppingIgnored p id ↔ ¬ (p.modelDashes = 1 ∧ p.Matches id.platform))) := by
  refine ⟨?_, steppingIgnored_iff_of_avoids⟩
  rw [strcmpCpuidStr_eq_zero_iff h]
  exact CpuidPattern.selects_iff_matches_iff

/-- `AuthenticAMD-23-[[:xdigit:]]+` -/
def anyModel : CpuidPattern where
  vendor := cs "AuthenticAMD"
  family := cs "23"
  model := .only (.single (.repeated (.bracket
    { negated := false, start := .none, items := [.charClass .xdigit], last_dash := false,
      nonempty := by decide }) .plus))
  ordinary := by decide +kernel
  hexadecimal := by decide +kernel

/-- `AuthenticAMD-23-[0-9]` -/
def decimalModel : CpuidPattern where
  vendor := cs "AuthenticAMD"
  family := cs "23"
  model := .only (.single (.once (.bracket
    { negated := false, start := .none, last_dash := false,
      items := [.range (.plain (chr '0') (by decide)) (.plain (chr '9') (by decide)) (by decide)],
      nonempty := by decide })))
  ordinary := by decide +kernel
  hexadecimal := by decide +kernel

/-- `AuthenticAMD-23-1-0` -/
def modelOne : FullCpuid where
  vendor := cs "AuthenticAMD"
  family := cs "23"
  model := cs "1"
  stepping := cs "0"
  dashFree := by decide

theorem strcmpCpuidStr_anyModel :
    ((strcmpCpuidStr (regcompOf anyModel.ere) anyModel.text modelOne.text = 0 ↔
        anyModel.Matches modelOne.platform) ↔ SteppingIgnored anyModel modelOne) ∧
      (SteppingIgnored anyModel modelOne ↔
        ¬ (anyModel.modelDashes = 1 ∧ anyModel.Matches modelOne.platform)) := by
  obtain ⟨hexact, hshort⟩ :=
    strcmpCpuidStr_eq_zero_iff_matches anyModel modelOne (compiles_regcompOf _)
  have havoids : anyModel.model.Avoids (chr '-') := by
    show Bracket.accepts _ _ = false
    decide
  exact ⟨hexact, hshort havoids (by decide)⟩

/-- The dash of the range makes the row one with a stepping. -/
theorem strcmpCpuidStr_decimalModel :
    decimalModel.text = cs "AuthenticAMD-23-[0-9]" ∧ modelOne.text = cs "AuthenticAMD-23-1-0" ∧
      Compiles (regcompOf decimalModel.ere) decimalModel.ere ∧
      ¬ (strcmpCpuidStr (regcompOf decimalModel.ere) decimalModel.text modelOne.text = 0 ↔
        decimalModel.Matches modelOne.platform) := by
  refine ⟨by decide, by decide, compiles_regcompOf _, ?_⟩
  have hdashes : decimalModel.modelDashes = 1 := by decide
  rw [strcmpCpuidStr_eq_zero_iff (compiles_regcompOf _),
    CpuidPattern.selects_of_one_dash hdashes]
  have hmatch : decimalModel.Matches modelOne.platform := by decide +kernel
  have htext : ¬ decimalModel.Matches modelOne.text := by decide +kernel
  exact fun h => htext (h.mpr hmatch)

end PmuEvents.Tables
