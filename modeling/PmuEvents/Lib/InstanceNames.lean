import PmuEvents.Lib.GetPmus
import PmuEvents.Libc.NumberText
set_option autoImplicit false

/-!
# The names of PMU instances

The comment on the name test promises the class name, or the class name, an
underscore and digits.  What follows the underscore is handed to `strtoul`, which also
takes nothing at all, white space and signs, and reports a number of `2^64` or more.
The main result: the names for which the test and the comment agree.
-/

namespace PmuEvents.Lib

open PmuEvents.Libc

/-- `PMU_NAME(_[0-9]+)?` -/
def DocumentedName (class_name d_name : CStr) : Prop :=
  d_name = class_name ∨ ∃ digits, IsDecimal digits ∧ d_name = class_name ++ chr '_' :: digits

/-- `get_all_pmu_instances_for` takes the folder for an instance of the class. -/
def TakesInstance (sys : Sysfs) (class_name d_name : CStr) : Prop :=
  d_name ∈ (getAllPmuInstancesFor sys class_name).2.map (·.name)

/-- What follows the underscore is not empty, and if it is a number with or without
white space and a sign in front, it is digits alone exactly when it is below 2^64. -/
structure PlainSuffix (suffix : CStr) : Prop where
  ne_nil : suffix ≠ []
  number : ∀ minus digits, NumberText minus digits suffix →
    (decimalValue digits < 2 ^ 64 ↔ suffix = digits)

/-- The folder is not the class's own `.` or `..`, and what follows the class name and
an underscore is plain. -/
def PlainName (class_name d_name : CStr) : Prop :=
  ¬ (IsDot d_name ∧ d_name = class_name) ∧
    ∀ suffix, d_name = class_name ++ chr '_' :: suffix → PlainSuffix suffix

/-- The suffixes that the name test takes for a number. -/
def AcceptedSuffix (suffix : CStr) : Prop :=
  suffix = [] ∨ ∃ minus digits, NumberText minus digits suffix ∧ decimalValue digits < 2 ^ 64

theorem strtoul_accepts_iff (suffix : CStr) :
    (!(strtoul 10 suffix).erange && (strtoul 10 suffix).endptr.isEmpty) = true ↔
      AcceptedSuffix suffix := by
  by_cases hnil : suffix = []
  · subst hnil
    exact iff_of_true rfl (.inl rfl)
  · simp only [Bool.and_eq_true, Bool.not_eq_true', List.isEmpty_iff, strtoul,
      strtoull_endptr_eq_nil hnil, AcceptedSuffix, hnil, false_or]
    constructor
    · rintro ⟨hrange, minus, digits, h⟩
      rw [strtoull_whole h] at hrange
      exact ⟨minus, digits, h, Nat.not_le.mp (of_decide_eq_false hrange)⟩
    · rintro ⟨minus, digits, h, hlt⟩
      rw [strtoull_whole h]
      exact ⟨decide_eq_false (Nat.not_le.mpr hlt), minus, digits, h⟩

/-- The name test, by what follows the class name. -/
theorem isInstanceName_append (class_name rest : CStr) :
    isInstanceName class_name (class_name ++ rest) = true ↔
      rest = [] ∨ ∃ suffix, rest = chr '_' :: suffix ∧ AcceptedSuffix suffix := by
  have hprefix : class_name.isPrefixOf (class_name ++ rest) = true :=
    List.isPrefixOf_iff_prefix.mpr (List.prefix_append class_name rest)
  have hshort : ¬ (class_name ++ rest).length + 2 < class_name.length := by
    rw [List.length_append]
    omega
  unfold isInstanceName
  rw [if_neg (not_not.mpr hprefix)]
  cases rest with
  | nil => simp
  | cons b suffix =>
    have hlen : (class_name ++ b :: suffix).length ≠ class_name.length := by
      rw [List.length_append, List.length_cons]
      omega
    have hdrop : (class_name ++ b :: suffix).drop (class_name.length + 1) = suffix := by
      rw [List.drop_append, List.drop_eq_nil_of_le (Nat.le_succ _), Nat.add_sub_cancel_left]
      rfl
    rw [if_pos hlen, if_neg hshort, List.drop_left, List.head?_cons, hdrop]
    by_cases hb : b = chr '_'
    · rw [if_neg (by simp [hb]), strtoul_accepts_iff]
      simp [hb]
    · rw [if_pos (by simp [hb])]
      simp [hb]

theorem isInstanceName_iff (class_name d_name : CStr) :
    isInstanceName class_name d_name = true ↔
      d_name = class_name ∨
        ∃ suffix, d_name = class_name ++ chr '_' :: suffix ∧ AcceptedSuffix suffix := by
  by_cases hprefix : class_name <+: d_name
  · obtain ⟨rest, rfl⟩ := hprefix
    rw [isInstanceName_append]
    simp
  · have hreject : isInstanceName class_name d_name = false := by
      unfold isInstanceName
      rw [if_pos (fun h => hprefix (List.isPrefixOf_iff_prefix.mp h))]
    refine iff_of_false (by simp [hreject]) ?_
    rintro (rfl | ⟨suffix, rfl, -⟩)
    · exact hprefix (List.prefix_refl _)
    · exact hprefix (List.prefix_append _ _)

/-- For a class other than `default_core`, the folders taken are those that pass the
name test. -/
theorem takesInstance_iff {sys : Sysfs} {listing : List CStr}
    (hlisting : sys.listing = some listing) {class_name d_name : CStr}
    (hclass : class_name ≠ cs "default_core") (hd : d_name ∈ listing) :
    TakesInstance sys class_name d_name ↔
      ¬ IsDot d_name ∧ isInstanceName class_name d_name = true := by
  have hnames : (getAllPmuInstancesFor sys class_name).2.map (·.name) =
      acceptedFolders class_name listing := by
    simp only [getAllPmuInstancesFor, hlisting, hclass, decide_false]
    exact instancesLoop_uncore_names sys class_name listing
  rw [TakesInstance, hnames, acceptedFolders, List.mem_filter]
  simp [hd]

/-- A plain suffix is accepted exactly when it is a string of digits. -/
theorem PlainSuffix.accepted_iff {suffix : CStr} (h : PlainSuffix suffix) :
    AcceptedSuffix suffix ↔ IsDecimal suffix := by
  constructor
  · rintro (hnil | ⟨minus, digits, hnumber, hlt⟩)
    · exact absurd hnil h.ne_nil
    · rw [(h.number minus digits hnumber).mp hlt]
      exact hnumber.isDecimal
  · intro hdigits
    exact .inr ⟨false, suffix, hdigits.numberText,
      (h.number false suffix hdigits.numberText).mpr rfl⟩

theorem plainSuffix_of_accepted_iff {suffix : CStr}
    (h : AcceptedSuffix suffix ↔ IsDecimal suffix) : PlainSuffix suffix where
  ne_nil := fun hnil => (h.mp (.inl hnil)).1 hnil
  number := by
    intro minus digits hnumber
    constructor
    · intro hlt
      exact hnumber.eq_digits (h.mp (.inr ⟨minus, digits, hnumber, hlt⟩))
    · rintro rfl
      rcases h.mpr hnumber.isDecimal with hnil | ⟨minus', digits', hnumber', hlt⟩
      · exact absurd hnil hnumber.isDecimal.1
      · rwa [hnumber'.eq_digits hnumber.isDecimal]

/-- A folder is an instance of the class as documented exactly when what follows the
class name is plain. -/
theorem takesInstance_documented_iff {sys : Sysfs} {listing : List CStr}
    (hlisting : sys.listing = some listing) {class_name d_name : CStr}
    (hclass : class_name ≠ cs "default_core") (hd : d_name ∈ listing) :
    (TakesInstance sys class_name d_name ↔ DocumentedName class_name d_name) ↔
      PlainName class_name d_name := by
  rw [takesInstance_iff hlisting hclass hd, isInstanceName_iff]
  by_cases hname : d_name = class_name
  · -- the name of the class itself: only `.` and `..` are passed over
    subst hname
    have hsuffix : ∀ suffix, d_name ≠ d_name ++ chr '_' :: suffix := fun suffix heq => by
      have hlen := congrArg List.length heq
      rw [List.length_append, List.length_cons] at hlen
      omega
    simp [DocumentedName, PlainName, hsuffix]
  · by_cases hunder : ∃ suffix, d_name = class_name ++ chr '_' :: suffix
    · obtain ⟨suffix, rfl⟩ := hunder
      have hdot : ¬ IsDot (class_name ++ chr '_' :: suffix) := by
        intro hdot
        have hmem : chr '_' ∈ class_name ++ chr '_' :: suffix :=
          List.mem_append_right _ List.mem_cons_self
        rcases hdot with hdot | hdot
        · rw [hdot] at hmem
          exact absurd hmem (by decide)
        · rw [hdot] at hmem
          exact absurd hmem (by decide)
      simp only [hdot, not_false_eq_true, true_and, hname, false_or, DocumentedName, PlainName,
        false_and, List.append_cancel_left_eq, List.cons.injEq, exists_eq_right',
        exists_eq_left', forall_eq']
      constructor
      · exact plainSuffix_of_accepted_iff
      · exact PlainSuffix.accepted_iff
    · have hnone : ∀ suffix, d_name ≠ class_name ++ chr '_' :: suffix := fun suffix heq =>
        hunder ⟨suffix, heq⟩
      simp [DocumentedName, PlainName, hname, hnone]

/-- The folder `cha_1` is taken for an instance of the uncore PMU `cha`. -/
theorem takesInstance_cha :
    TakesInstance chaSysfs (cs "cha") (cs "cha_1") ↔ DocumentedName (cs "cha") (cs "cha_1") := by
  refine (takesInstance_documented_iff rfl (by decide) (by decide)).mpr ⟨by decide, ?_⟩
  intro suffix heq
  have hsplit : cs "cha" ++ chr '_' :: suffix = cs "cha" ++ chr '_' :: cs "1" := heq.symm
  obtain rfl := (List.cons.inj (List.append_cancel_left hsplit)).2
  have hall : ((cs "1").all fun b => (digitIn 10 b).isSome) = true := by decide
  have hdigits : IsDecimal (cs "1") := ⟨by decide, List.all_eq_true.mp hall⟩
  refine ⟨by decide, fun minus digits hnumber => ?_⟩
  rw [← hnumber.eq_digits hdigits]
  exact iff_of_true (by decide) rfl

/-- A device directory in which a sign follows the underscore of a folder's name. -/
def signedSysfs : Sysfs := { chaSysfs with listing := some [cs "cha_+1"] }

/-- The folder `cha_+1` is taken for an instance of `cha`. -/
theorem takesInstance_signed :
    TakesInstance signedSysfs (cs "cha") (cs "cha_+1") ∧
      ¬ DocumentedName (cs "cha") (cs "cha_+1") := by
  refine ⟨by unfold TakesInstance; decide, ?_⟩
  rintro (heq | ⟨digits, hdigits, heq⟩)
  · exact absurd heq (by decide)
  · have hsplit : cs "cha" ++ chr '_' :: digits = cs "cha" ++ chr '_' :: cs "+1" := heq.symm
    obtain rfl := (List.cons.inj (List.append_cancel_left hsplit)).2
    exact absurd (hdigits.2 (chr '+') List.mem_cons_self) (by decide)

end PmuEvents.Lib
