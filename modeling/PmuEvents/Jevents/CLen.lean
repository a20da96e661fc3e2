import PmuEvents.Jevents.BigCString
import PmuEvents.Foundation.UnitSuffix
set_option autoImplicit false

/-!
# `c_len` and the compiled bytes

On a text made of plain characters, the four simple escapes and `\000`, `c_len`
counts the compiled bytes, unless an escaped backslash stands directly before
three plain zeros: it then takes them for a further `\000`.  Other texts may be
counted right or wrong; where both are counted right, the bytes of a text that ends
another one do not reach in front of those of the other.
-/

namespace PmuEvents.Jevents

open PmuEvents.Foundation

/-- Where the first byte of the needle does not occur, nothing is counted. -/
theorem countBytes_of_not_mem {b : UInt8} {needle s : List UInt8} (h : b ∉ s) (r : List UInt8) :
    countBytes (b :: needle) 0 (s ++ r) = countBytes (b :: needle) 0 r := by
  induction s with
  | nil => rfl
  | cons c s ih =>
    rw [List.mem_cons, not_or] at h
    have hne : (b == c) = false := by simpa using h.1
    rw [List.cons_append, countBytes, ← ih h.2]
    simp [List.isPrefixOf, hne]

theorem backslash_not_mem_plain (c : PlainChar) : (0x5c : UInt8) ∉ String.utf8EncodeChar c.val := by
  intro hmem
  have hc := (toNat_of_mem_utf8EncodeChar hmem (by decide)).1
  exact c.property.1 (Char.toNat_inj.mp hc)

/-- A backslash and one more byte, neither a backslash nor a zero, count as one byte. -/
theorem cLen_pair {u : CUnit} {b : UInt8} (htext : utf8 u.text = [0x5c, b])
    (hbackslash : 0x5c ≠ b) (hzero : 0x30 ≠ b) (hbytes : u.bytes.length = 1) (t : Text) :
    cLen (u.text ++ t) = u.bytes.length + cLen t := by
  unfold cLen
  simp only [utf8_append, htext, hbytes]
  simp [countBytes, hbackslash, hzero]
  omega

/-- The first unit's share in the three counts and in the length. -/
theorem cLen_unit (u : CUnit) {t : Text}
    (h : u = .backslash → ¬ [0x30, 0x30, 0x30] <+: utf8 t) :
    cLen (u.text ++ t) = u.bytes.length + cLen t := by
  cases u with
  | plain c =>
    have hc : utf8 (CUnit.plain c).text = String.utf8EncodeChar c.val := by simp [CUnit.text]
    unfold cLen
    simp only [utf8_append, hc, countBytes_of_not_mem (backslash_not_mem_plain c),
      List.length_append, CUnit.bytes]
    push_cast
    omega
  | newline => exact cLen_pair (b := 0x6e) (by decide) (by decide) (by decide) rfl t
  | carriageReturn => exact cLen_pair (b := 0x72) (by decide) (by decide) (by decide) rfl t
  | quote => exact cLen_pair (b := 0x22) (by decide) (by decide) (by decide) rfl t
  | backslash =>
    have hn : utf8 CUnit.backslash.text = [0x5c, 0x5c] := by decide
    have hnul := h rfl
    rw [← List.isPrefixOf_iff_prefix, Bool.not_eq_true] at hnul
    unfold cLen
    rw [utf8_append, hn]
    simp [countBytes, CUnit.bytes, hnul]
    omega
  | nul =>
    have hn : utf8 CUnit.nul.text = [0x5c, 0x30, 0x30, 0x30] := by decide
    unfold cLen
    rw [utf8_append, hn]
    simp [countBytes, CUnit.bytes]
    omega

/-- A byte `0` at the start of a spelling is the plain character. -/
theorem eq_zero_cons {us : List CUnit} {r : List UInt8} (h : utf8 (unitsText us) = 0x30 :: r) :
    ∃ vs, us = CUnit.zero :: vs ∧ utf8 (unitsText vs) = r := by
  obtain ⟨c, t, ht, hc, hr⟩ := utf8_eq_cons h (by decide)
  obtain rfl : c = '0' := Char.toNat_inj.mp hc
  cases us with
  | nil => simp at ht
  | cons u us =>
    cases u with
    | plain c =>
      obtain ⟨hc, rfl⟩ := List.cons.inj ht
      obtain rfl : c = ⟨'0', by decide⟩ := Subtype.ext hc
      exact ⟨us, rfl, hr⟩
    | newline | carriageReturn | quote | backslash | nul => simp [CUnit.text] at ht

theorem zeros_of_isPrefix {us : List CUnit}
    (h : [0x30, 0x30, 0x30] <+: utf8 (unitsText us)) :
    ∃ vs, us = CUnit.zero :: CUnit.zero :: CUnit.zero :: vs := by
  obtain ⟨r, hr⟩ := h
  obtain ⟨us₁, rfl, h₁⟩ := eq_zero_cons hr.symm
  obtain ⟨us₂, rfl, h₂⟩ := eq_zero_cons h₁
  obtain ⟨us₃, rfl, -⟩ := eq_zero_cons h₂
  exact ⟨us₃, rfl⟩

/-- `c_len` counts the bytes of the units. -/
theorem cLen_units {us : List CUnit} (h : NoFalseNul us) :
    cLen (unitsText us) = (unitsBytes us).length := by
  induction us with
  | nil => decide
  | cons u us ih =>
    rw [unitsText_cons, cLen_unit, ih h.tail, unitsBytes_cons, List.length_append]
    · push_cast
      rfl
    · rintro rfl hzeros
      obtain ⟨vs, hvs⟩ := zeros_of_isPrefix hzeros
      exact h.not_zeros vs hvs

/-! ## Texts of any kind -/

/-- A character that is no backslash counts with its bytes. -/
theorem cLen_cons_of_ne {c : Char} (h : c ≠ '\\') (t : Text) :
    cLen (c :: t) = c.utf8Size + cLen t := by
  have hmem : (0x5c : UInt8) ∉ String.utf8EncodeChar c := by
    intro hmem
    exact h (Char.toNat_inj.mp (toNat_of_mem_utf8EncodeChar hmem (by decide)).1)
  unfold cLen
  simp only [utf8_cons, countBytes_of_not_mem hmem, List.length_append,
    String.length_utf8EncodeChar]
  push_cast
  omega

/-- A byte in front changes the number of occurrences of a pair by one at most. -/
theorem countBytes_pair_cons (x y : UInt8) (s : List UInt8) :
    (∀ b, countBytes [x, y] 0 s ≤ countBytes [x, y] 0 (b :: s)) ∧
      ∀ b, countBytes [x, y] 0 (b :: s) ≤ countBytes [x, y] 0 s + 1 := by
  induction s with
  | nil => exact ⟨fun b => Nat.zero_le _, fun b => by simp [countBytes, List.isPrefixOf]⟩
  | cons c s ih =>
    have hskip : countBytes [x, y] 1 (c :: s) = countBytes [x, y] 0 s := by
      rw [countBytes]
    constructor <;> intro b <;> rw [countBytes.eq_3 _ b]
    · split
      · have hone := ih.2 c
        rw [List.length_cons, List.length_singleton, hskip]
        exact hone
      · exact Nat.le_refl _
    · split
      · have hmore := ih.1 c
        rw [List.length_cons, List.length_singleton, hskip]
        exact Nat.add_le_add_right hmore 1
      · exact Nat.le_succ _

/-- A backslash in front counts for nothing or for one more, unless it makes a `\000`. -/
theorem cLen_le_backslash {t : Text} (h : ¬ ['0', '0', '0'] <+: t) :
    cLen t ≤ cLen ('\\' :: t) := by
  have hbytes : utf8 ('\\' :: t) = 0x5c :: utf8 t := rfl
  have hzeros : ¬ [0x30, 0x30, 0x30] <+: utf8 t := by
    rintro ⟨r, hr⟩
    obtain ⟨a, t₁, rfl, ha, h₁⟩ := utf8_eq_cons hr.symm (by decide)
    obtain ⟨b, t₂, rfl, hb, h₂⟩ := utf8_eq_cons h₁ (by decide)
    obtain ⟨c, t₃, rfl, hc, -⟩ := utf8_eq_cons h₂ (by decide)
    refine h ⟨t₃, ?_⟩
    rw [show a = '0' from Char.toNat_inj.mp ha, show b = '0' from Char.toNat_inj.mp hb,
      show c = '0' from Char.toNat_inj.mp hc]
    rfl
  rw [← List.isPrefixOf_iff_prefix, Bool.not_eq_true] at hzeros
  have hone : countBytes [0x5c] 0 (0x5c :: utf8 t) = countBytes [0x5c] 0 (utf8 t) + 1 := by
    simp [countBytes, List.isPrefixOf]
  have hnul : countBytes [0x5c, 0x30, 0x30, 0x30] 0 (0x5c :: utf8 t) =
      countBytes [0x5c, 0x30, 0x30, 0x30] 0 (utf8 t) := by
    rw [countBytes, List.isPrefixOf, hzeros]
    simp
  have hpair := (countBytes_pair_cons 0x5c 0x5c (utf8 t)).1 0x5c
  unfold cLen
  simp only [hbytes, hone, hnul, List.length_cons]
  push_cast
  omega

/-- The beginning `a` of a text is cut off inside a backslash with three zeros. -/
def CutsNul (a s : Text) : Prop :=
  ∃ p q q' r, q ++ q' = ['0', '0', '0'] ∧ q' ≠ [] ∧ a = p ++ '\\' :: q ∧ s = q' ++ r

/-- The end of a text counts for no more than the whole text, unless it begins inside a
backslash with three zeros. -/
theorem cLen_le_append {a s : Text} (h : ¬ CutsNul a s) : cLen s ≤ cLen (a ++ s) := by
  induction hlength : a.length using Nat.strong_induction_on generalizing a with
  | _ n ih =>
    cases a with
    | nil => exact Int.le_refl _
    | cons c a =>
      have htail {p b : Text} (hb : c :: a = p ++ b) : ¬ CutsNul b s := by
        rintro ⟨p', q, q', r, hzeros, hq', rfl, hs⟩
        exact h ⟨p ++ p', q, q', r, hzeros, hq', by rw [hb, List.append_assoc], hs⟩
      have hrest := ih a.length (by rw [← hlength, List.length_cons]; omega)
        (htail (p := [c]) rfl) rfl
      rw [List.cons_append]
      rcases Classical.em (c = '\\') with rfl | hc
      · rcases Classical.em (['0', '0', '0'] <+: a ++ s) with ⟨r, hr⟩ | hzeros
        · rcases List.append_eq_append_iff.mp hr with ⟨u, rfl, hu⟩ | ⟨u, hu, rfl⟩
          · -- the zeros are all cut off
            have hrest' := ih u.length
              (by rw [← hlength]; simp only [List.length_cons, List.length_append]; omega)
              (htail (p := "\\000".toList) rfl) rfl
            have hnul := cLen_unit .nul (t := u ++ s) (fun h => by cases h)
            have hsplit : '\\' :: (['0', '0', '0'] ++ u ++ s) = CUnit.nul.text ++ (u ++ s) := by
              simp [CUnit.text]
            rw [hsplit, hnul]
            exact hrest'.trans (Int.le_add_of_nonneg_left (Int.natCast_nonneg _))
          · cases u with
            | nil =>
              rw [List.append_nil] at hu
              subst hu
              have hnul := cLen_unit .nul (t := r) (fun h => by cases h)
              exact hnul ▸ Int.le_add_of_nonneg_left (Int.natCast_nonneg _)
            | cons d u => exact absurd ⟨[], a, d :: u, r, hu.symm, by simp, rfl, rfl⟩ h
        · exact hrest.trans (cLen_le_backslash hzeros)
      · rw [cLen_cons_of_ne hc]
        exact hrest.trans (Int.le_add_of_nonneg_left (Int.natCast_nonneg _))

/-! ## The ends of literals -/

/-- A text that is a string literal between its quotes, of which `c_len` counts the bytes. -/
def Counted (s : Text) : Prop := ∃ bytes, wholeLiteral s = some bytes ∧ cLen s = bytes.length

instance (s : Text) : Decidable (Counted s) :=
  decidable_of_iff ((wholeLiteral s).any fun bytes => decide (cLen s = bytes.length))
    (by simp only [Counted, Option.any_eq_true, decide_eq_true_eq])

/-- Units without a false terminator are counted. -/
theorem counted_units {us : List CUnit} (h : NoFalseNul us) : Counted (unitsText us) :=
  ⟨unitsBytes us, wholeLiteral_units us, cLen_units h⟩

/-- Zeros at the beginning of a literal. -/
theorem readLiteral_zeros (k : Nat) (t : Text) :
    readLiteral .chars (List.replicate k '0' ++ t) =
      (readLiteral .chars t).map fun r =>
        (unitsBytes (List.replicate k CUnit.zero) ++ r.1, r.2) := by
  have htext : unitsText (List.replicate k CUnit.zero) = List.replicate k '0' := by
    induction k with
    | zero => rfl
    | succ k ih =>
      rw [List.replicate_succ, unitsText_cons, ih]
      rfl
  rw [← htext, readLiteral_units]

/-- Where a text is cut inside a backslash with three zeros, the bytes of its end end
with a zero character where those of the whole have the terminator, or the backslash
is escaped and the cut is between two characters. -/
theorem suffix_of_cutsNul {a s : Text} {bytes bytes' : List UInt8} (h : CutsNul a s)
    (hs : wholeLiteral s = some bytes) (ht : wholeLiteral (a ++ s) = some bytes')
    (P : List UInt8) (hsuffix : bytes <:+ P ++ bytes') : bytes <:+ bytes' := by
  obtain ⟨p, q, q', r, hzeros, hq', rfl, rfl⟩ := h
  obtain ⟨hlength, hq, hzeros'⟩ := List.append_eq_replicate_iff (n := 3).mp hzeros
  generalize hk : q'.length = k at hlength hzeros'
  have hpos : 0 < k := hk ▸ List.length_pos_iff.mpr hq'
  rw [wholeLiteral_eq_some_iff, hzeros', List.append_assoc, readLiteral_zeros] at hs
  obtain ⟨⟨R, rest⟩, hR, heq⟩ := Option.map_eq_some_iff.mp hs
  obtain ⟨rfl, rfl⟩ := Prod.mk.inj heq
  have hsplit : p ++ '\\' :: q ++ (q' ++ r) ++ ['"'] =
      p ++ '\\' :: (List.replicate 3 '0' ++ (r ++ ['"'])) := by
    rw [show List.replicate 3 '0' = q ++ q' from hzeros.symm]
    simp
  rw [wholeLiteral_eq_some_iff, hsplit] at ht
  rcases readLiteral_append_cases ht with ⟨u, hu⟩ | ⟨s', out, bytes₁, hread, rfl⟩
  · exact absurd hu.symm (by simp)
  obtain ⟨s'', out', bytes₂, hstate, hread', rfl⟩ := readLiteral_backslash hread
  rcases hstate with rfl | rfl
  · have hnul : readLiteral .escape (List.replicate 3 '0' ++ (r ++ ['"'])) =
        (readLiteral .chars (r ++ ['"'])).map fun x => ([0] ++ x.1, x.2) :=
      (readLiteral_skip rfl _).trans ((readLiteral_skip rfl _).trans (readLiteral_cons rfl _))
    rw [hnul, hR] at hread'
    obtain ⟨rfl, -⟩ := Prod.mk.inj (Option.some.inj hread')
    obtain ⟨k, rfl⟩ := Nat.exists_eq_succ_of_ne_zero (Nat.ne_of_gt hpos)
    have hlast : unitsBytes (List.replicate (k + 1) CUnit.zero) =
        unitsBytes (List.replicate k CUnit.zero) ++ [48] := by
      rw [List.replicate_succ', unitsBytes_append]
      rfl
    rw [hlast, ← List.append_assoc out, ← List.append_assoc P, ← List.append_assoc (P ++ _)]
      at hsuffix
    exact absurd hsuffix (not_suffix_of_ne (by decide) _ _ _)
  · rw [readLiteral_zeros, hR] at hread'
    obtain ⟨rfl, -⟩ := Prod.mk.inj (Option.some.inj hread')
    have hthree : List.replicate 3 CUnit.zero =
        List.replicate q.length CUnit.zero ++ List.replicate k CUnit.zero := by
      rw [List.replicate_append_replicate, hlength]
    rw [hthree, unitsBytes_append]
    exact ⟨out ++ (out' ++ unitsBytes (List.replicate q.length CUnit.zero)), by simp⟩

/-- For counted literals it makes no difference what stands before: the bytes of one that
ends another one end those of the other or do not end there at all. -/
theorem suffix_append_iff {s t : Text} (hs : Counted s) (ht : Counted t) (hends : s <:+ t)
    {bytes bytes' : List UInt8} (hbytes : wholeLiteral s = some bytes)
    (hbytes' : wholeLiteral t = some bytes') (P : List UInt8) :
    bytes <:+ P ++ bytes' ↔ bytes <:+ bytes' := by
  refine ⟨fun hsuffix => ?_, fun hsuffix => hsuffix.trans (List.suffix_append _ _)⟩
  obtain ⟨a, rfl⟩ := hends
  rcases Classical.em (CutsNul a s) with hcut | hcut
  · exact suffix_of_cutsNul hcut hbytes hbytes' P hsuffix
  · obtain ⟨b, hb, hcount⟩ := hs
    obtain ⟨b', hb', hcount'⟩ := ht
    obtain rfl := Option.some.inj (hbytes.symm.trans hb)
    obtain rfl := Option.some.inj (hbytes'.symm.trans hb')
    have hle := cLen_le_append hcut
    rw [hcount, hcount'] at hle
    exact List.suffix_of_suffix_length_le hsuffix (List.suffix_append _ _) (by omega)

end PmuEvents.Jevents
