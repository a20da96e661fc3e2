import PmuEvents.Lib.Types
import Mathlib.Algebra.GroupWithZero.Nat
import Mathlib.Tactic.Common
set_option autoImplicit false

/-!
# Placing a value's bits into a config word

`apply_range_list_to_val` and `apply_config_def_to_attr`.  A shift of a 64-bit
operand by 64 or more is undefined in C; the model answers `none` when one is
reached.  The main results describe the word left behind bit by bit: a bit
outside every range keeps its value, a bit inside takes the value bit the last
range around it gives; and they say when no undefined shift is reached.
-/

namespace PmuEvents.Lib

open PmuEvents.Libc

/-- `x << count`, undefined from a count of 64 on. -/
def shl (x count : U64) : Option U64 :=
  if count.toNat < 64 then some (x <<< count.toNat) else none

/-- `x >> count`, undefined from a count of 64 on. -/
def shr (x count : U64) : Option U64 :=
  if count.toNat < 64 then some (x >>> count.toNat) else none

/-- One turn of the loop: the new config word and what is left to apply. -/
def applyRange (config to_apply : U64) (range : Range) : Option (U64 × U64) := do
  let range_len := range.end_ - range.start + 1
  let ones ← shr (BitVec.allOnes 64) (64 - range_len)
  let mask ← shl ones range.start
  let cur_apply ← shl to_apply range.start
  let rest ← shr to_apply range_len
  return ((config &&& ~~~mask) ||| (cur_apply &&& mask), rest)

/-- `apply_range_list_to_val`: copies the bits of `to_apply`, least significant
first, into the positions given by the ranges. -/
def applyRangeListToVal (config to_apply : U64) : RangeList → Option U64
  | [] => some config
  | range :: list =>
    match applyRange config to_apply range with
    | none => none
    | some (config', rest) => applyRangeListToVal config' rest list

/-- `apply_config_def_to_attr`. -/
def applyConfigDefToAttr {β : Type} (attr : PerfEventAttr β) (val : U64)
    (conf : ConfigDef) : Option (PerfEventAttr β) :=
  (applyRangeListToVal (attr.word conf.var) val conf.range).map (attr.setWord conf.var)

/-! ## Ranges inside the word -/

namespace Range

/-- A range with `start <= end <= 63` that is shorter than the word. -/
structure InWord (r : Range) : Prop where
  ordered : r.start.toNat ≤ r.end_.toNat
  inside : r.end_.toNat ≤ 63
  short : r.end_.toNat - r.start.toNat + 1 < 64

/-- The number of bits of a range. -/
def len (r : Range) : Nat := r.end_.toNat - r.start.toNat + 1

/-- The bit positions of a range. -/
def Covers (r : Range) (p : Nat) : Prop := r.start.toNat ≤ p ∧ p ≤ r.end_.toNat

instance (r : Range) (p : Nat) : Decidable (r.Covers p) :=
  inferInstanceAs (Decidable (_ ∧ _))

theorem InWord.rangeLen {r : Range} (h : r.InWord) :
    (r.end_ - r.start + 1).toNat = r.len := by
  have hle : r.start ≤ r.end_ := h.ordered
  have hin := h.inside
  have hone : BitVec.toNat (1 : U64) = 1 := rfl
  rw [BitVec.toNat_add, BitVec.toNat_sub_of_le hle, hone, len]
  omega

theorem InWord.rangeGap {r : Range} (h : r.InWord) :
    ((64 : U64) - (r.end_ - r.start + 1)).toNat = 64 - r.len := by
  have hlen := h.rangeLen
  have hshort : r.len < 64 := h.short
  have hle : r.end_ - r.start + 1 ≤ (64 : U64) := by
    rw [BitVec.le_def, hlen]
    simp
    omega
  rw [BitVec.toNat_sub_of_le hle, hlen]
  rfl

end Range

/-- The mask of a range: ones exactly at its positions. -/
def fieldMask (r : Range) : U64 := (BitVec.allOnes 64 >>> (64 - r.len)) <<< r.start.toNat

theorem getLsbD_fieldMask {r : Range} (h : r.InWord) {p : Nat} (hp : p < 64) :
    (fieldMask r).getLsbD p = decide (r.Covers p) := by
  have hord := h.ordered
  have hin := h.inside
  have hlen : r.len = r.end_.toNat - r.start.toNat + 1 := rfl
  have hiff : (¬ p < r.start.toNat ∧ 64 - r.len + (p - r.start.toNat) < 64) ↔ r.Covers p := by
    unfold Range.Covers
    omega
  rw [Bool.eq_iff_iff, decide_eq_true_iff, ← hiff]
  simp only [fieldMask, BitVec.getLsbD_shiftLeft, BitVec.getLsbD_ushiftRight,
    BitVec.getLsbD_allOnes, hp, Bool.and_eq_true, Bool.not_eq_true', decide_eq_true_eq,
    decide_eq_false_iff_not, true_and]

/-- On a range inside the word none of the shifts is undefined. -/
theorem applyRange_eq {r : Range} (h : r.InWord) (config to_apply : U64) :
    applyRange config to_apply r =
      some ((config &&& ~~~fieldMask r) ||| (to_apply <<< r.start.toNat &&& fieldMask r),
        to_apply >>> r.len) := by
  have hord := h.ordered
  have hin := h.inside
  have hshort : r.len < 64 := h.short
  have hpos : 0 < r.len := Nat.succ_pos _
  have hgap : 64 - r.len < 64 := by omega
  have hstart : r.start.toNat < 64 := by omega
  simp only [applyRange, shr, shl, h.rangeLen, h.rangeGap, hshort, hstart, hgap, if_true,
    Option.bind_eq_bind, Option.bind_some, Option.pure_def, fieldMask]

/-- One turn on a range inside the word replaces the covered bits by the low
bits of the value and consumes as many. -/
theorem applyRange_spec {r : Range} (h : r.InWord) (config to_apply : U64) :
    ∃ config', applyRange config to_apply r = some (config', to_apply >>> r.len) ∧
      ∀ p < 64, config'.getLsbD p =
        if r.Covers p then to_apply.getLsbD (p - r.start.toNat) else config.getLsbD p := by
  refine ⟨_, applyRange_eq h config to_apply, ?_⟩
  intro p hp
  simp only [BitVec.getLsbD_or, BitVec.getLsbD_and, BitVec.getLsbD_not,
    getLsbD_fieldMask h hp, hp, BitVec.getLsbD_shiftLeft, decide_true, Bool.true_and]
  by_cases hc : r.Covers p
  · have hge : ¬ p < r.start.toNat := by
      have := hc.1
      omega
    simp [hc, hge]
  · simp [hc]

/-! ## Range lists -/

/-- The value bit a range list writes at position `p`: the last range that
contains `p` decides, and the ranges before it have consumed their lengths. -/
def writtenBit (to_apply : U64) : RangeList → Nat → Option Bool
  | [], _ => none
  | r :: list, p =>
    match writtenBit (to_apply >>> r.len) list p with
    | some b => some b
    | none => if r.Covers p then some (to_apply.getLsbD (p - r.start.toNat)) else none

/-- The bit positions of a range list. -/
def Covers (list : RangeList) (p : Nat) : Prop := ∃ r ∈ list, r.Covers p

theorem writtenBit_eq_none_iff {list : RangeList} {p : Nat} (to_apply : U64) :
    writtenBit to_apply list p = none ↔ ¬ Covers list p := by
  induction list generalizing to_apply with
  | nil => simp [writtenBit, Covers]
  | cons r list ih =>
    have hcons : Covers (r :: list) p ↔ r.Covers p ∨ Covers list p := by simp [Covers]
    rw [hcons, writtenBit]
    cases hw : writtenBit (to_apply >>> r.len) list p with
    | some b =>
      have : Covers list p := by
        by_contra hc
        rw [(ih _).mpr hc] at hw
        simp at hw
      simp [this]
    | none =>
      have : ¬ Covers list p := (ih _).mp hw
      simp [this]

/-- The loop over ranges inside the word reaches no undefined shift, and leaves
at each position the bit the list writes there, or else the bit that was there. -/
theorem applyRangeListToVal_spec {list : RangeList} (h : ∀ r ∈ list, r.InWord)
    (config to_apply : U64) :
    ∃ config', applyRangeListToVal config to_apply list = some config' ∧
      ∀ p < 64, config'.getLsbD p =
        (writtenBit to_apply list p).getD (config.getLsbD p) := by
  induction list generalizing config to_apply with
  | nil => exact ⟨config, rfl, fun p _ => rfl⟩
  | cons r list ih =>
    simp only [List.mem_cons, forall_eq_or_imp] at h
    obtain ⟨config₁, happly, hbits₁⟩ := applyRange_spec h.1 config to_apply
    obtain ⟨config₂, hrest, hbits₂⟩ := ih h.2 config₁ (to_apply >>> r.len)
    refine ⟨config₂, by rw [applyRangeListToVal, happly]; exact hrest, ?_⟩
    intro p hp
    rw [hbits₂ p hp, writtenBit]
    cases writtenBit (to_apply >>> r.len) list p with
    | some b => rfl
    | none =>
      rw [Option.getD_none, hbits₁ p hp]
      split <;> rfl

example : applyRangeListToVal 0 (BitVec.allOnes 64) [⟨0, 3⟩, ⟨8, 11⟩] =
    some 0b111100001111 := by decide

/-! ## Where each bit comes from -/

/-- The number of value bits a range list consumes. -/
def totalLen (list : RangeList) : Nat := (list.map Range.len).sum

/-- The last range that contains a position writes there the value bit that its
own offset and the lengths of the ranges before it give. -/
theorem writtenBit_append_cons {r : Range} {after : RangeList} {p : Nat} (hr : r.Covers p)
    (hafter : ¬ Covers after p) (before : RangeList) (to_apply : U64) :
    writtenBit to_apply (before ++ r :: after) p =
      some (to_apply.getLsbD (totalLen before + (p - r.start.toNat))) := by
  induction before generalizing to_apply with
  | nil =>
    rw [List.nil_append, writtenBit, (writtenBit_eq_none_iff _).mpr hafter]
    simp [hr, totalLen]
  | cons r' before ih =>
    have hlen : totalLen (r' :: before) = r'.len + totalLen before := by simp [totalLen]
    rw [List.cons_append, writtenBit, ih, hlen, BitVec.getLsbD_ushiftRight, Nat.add_assoc]

/-- Bit placement: a position no range contains keeps its bit; else the last range
that contains it decides, with the value bit at its offset after all earlier
ranges.  `getLsbD` reads 0 from position 64 on. -/
theorem applyRangeListToVal_getLsbD {list : RangeList} (h : ∀ r ∈ list, r.InWord)
    (config to_apply : U64) :
    ∃ config', applyRangeListToVal config to_apply list = some config' ∧
      ∀ p < 64,
        (¬ Covers list p → config'.getLsbD p = config.getLsbD p) ∧
        ∀ before r after, list = before ++ r :: after → r.Covers p → ¬ Covers after p →
          config'.getLsbD p =
            to_apply.getLsbD (totalLen before + (p - r.start.toNat)) := by
  obtain ⟨config', happly, hbits⟩ := applyRangeListToVal_spec h config to_apply
  refine ⟨config', happly, ?_⟩
  intro p hp
  constructor
  · intro hnone
    rw [hbits p hp, (writtenBit_eq_none_iff to_apply).mpr hnone, Option.getD_none]
  · intro before r after hlist hr hafter
    rw [hbits p hp, hlist, writtenBit_append_cons hr hafter, Option.getD_some]

/-- Two overlapping ranges: bit 4 is written by the second, after four bits. -/
theorem applyRangeListToVal_getLsbD_overlap :
    ∃ config', applyRangeListToVal 0 0b110000 [⟨4, 7⟩, ⟨3, 5⟩] = some config' ∧
      config'.getLsbD 4 = true ∧ config'.getLsbD 8 = false := by
  have hinWord : ∀ r ∈ [(⟨4, 7⟩ : Range), ⟨3, 5⟩], r.InWord := by
    intro r hr
    simp only [List.mem_cons, List.not_mem_nil, or_false] at hr
    rcases hr with rfl | rfl
    · exact ⟨by decide, by decide, by decide⟩
    · exact ⟨by decide, by decide, by decide⟩
  obtain ⟨config', happly, hbits⟩ := applyRangeListToVal_getLsbD hinWord 0 0b110000
  refine ⟨config', happly, ?_, ?_⟩
  · exact (hbits 4 (by decide)).2 [⟨4, 7⟩] ⟨3, 5⟩ [] rfl (by decide) (by simp [Covers])
  · exact (hbits 8 (by decide)).1 (by simp [Covers, Range.Covers])

/-! ## Undefined shifts -/

/-- A range with `start <= end <= 63`. -/
structure Range.Inside (r : Range) : Prop where
  ordered : r.start.toNat ≤ r.end_.toNat
  inside : r.end_.toNat ≤ 63

/-- The range of all 64 bits. -/
def wholeWord : Range := ⟨0, 63⟩

/-- Only the whole word is too long for the last shift of the loop. -/
theorem Range.Inside.inWord_iff {r : Range} (h : r.Inside) : r.InWord ↔ r ≠ wholeWord := by
  obtain ⟨start, stop⟩ := r
  obtain ⟨hord, hin⟩ := h
  have hwhole : (⟨start, stop⟩ : Range) = wholeWord ↔ start.toNat = 0 ∧ stop.toNat = 63 := by
    rw [wholeWord, Range.mk.injEq, ← BitVec.toNat_inj, ← BitVec.toNat_inj]
    rfl
  rw [Ne, hwhole]
  constructor
  · rintro hword ⟨hstart, hstop⟩
    have hshort := hword.short
    simp only [hstart, hstop] at hshort
    omega
  · intro hne
    simp only at hord hin
    refine ⟨hord, hin, ?_⟩
    simp only
    omega

/-- After the whole word the value would be shifted by 64. -/
theorem applyRange_wholeWord (config to_apply : U64) :
    applyRange config to_apply wholeWord = none := by
  have hrest : shr to_apply (wholeWord.end_ - wholeWord.start + 1) = none := if_neg (by decide)
  simp only [applyRange, hrest, Option.bind_eq_bind, Option.bind_none, Option.bind_fun_none]

/-- On ranges inside the word, no shift of the loop is undefined exactly when no
range is the whole word. -/
theorem applyRangeListToVal_isSome_iff {list : RangeList} (h : ∀ r ∈ list, r.Inside)
    (config to_apply : U64) :
    (applyRangeListToVal config to_apply list).isSome ↔ wholeWord ∉ list := by
  induction list generalizing config to_apply with
  | nil => simp [applyRangeListToVal]
  | cons r list ih =>
    simp only [List.mem_cons, forall_eq_or_imp] at h
    rw [applyRangeListToVal, List.mem_cons, not_or]
    by_cases hwhole : r = wholeWord
    · rw [hwhole, applyRange_wholeWord]
      simp
    · have hword : r.InWord := h.1.inWord_iff.mpr hwhole
      rw [applyRange_eq hword]
      simp only [ih h.2, Ne.symm hwhole, not_false_eq_true, true_and]

theorem applyRangeListToVal_isSome_iff_lowByte :
    (applyRangeListToVal 0 1 [⟨0, 7⟩]).isSome ↔ wholeWord ∉ [(⟨0, 7⟩ : Range)] :=
  applyRangeListToVal_isSome_iff
    (by
      intro r hr
      obtain rfl := List.mem_singleton.mp hr
      exact ⟨by decide, by decide⟩)
    0 1

/-- For the format `config1:0-63` the loop shifts by 64. -/
theorem not_isSome_applyRangeListToVal_wholeWord :
    wholeWord.Inside ∧ ¬ (applyRangeListToVal 0 1 [wholeWord]).isSome :=
  ⟨⟨by decide, by decide⟩, by decide⟩

end PmuEvents.Lib
