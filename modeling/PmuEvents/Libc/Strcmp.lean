import PmuEvents.Foundation.BinarySearch
import PmuEvents.Libc.CString
import Mathlib.Data.Char
import Mathlib.Data.List.Lex
set_option autoImplicit false

/-!
# `strcmp` on UTF-8

UTF-8 keeps the order of code points, so `strcmp` compares encoded texts as Python
compares the texts themselves.
-/

namespace PmuEvents.Libc

open PmuEvents.Foundation

theorem strcmp_swap (s t : CStr) : strcmp t s = (strcmp s t).swap := by
  induction s generalizing t with
  | nil => cases t <;> rfl
  | cons a s ih =>
    cases t with
    | nil => rfl
    | cons b t =>
      simp only [strcmp, eq_comm (a := b)]
      split
      · exact ih t
      · rename_i hne
        rcases Nat.lt_trichotomy a.toNat b.toNat with hlt | heq | hgt
        · have hab := UInt8.lt_iff_toNat_lt.mpr hlt
          rw [if_neg (UInt8.not_lt.mpr (UInt8.le_of_lt hab)), if_pos hab]
          rfl
        · exact absurd (UInt8.toNat_inj.mp heq) hne
        · have hba := UInt8.lt_iff_toNat_lt.mpr hgt
          rw [if_pos hba, if_neg (UInt8.not_lt.mpr (UInt8.le_of_lt hba))]
          rfl

theorem strcmp_cons_self (b : UInt8) (s t : CStr) : strcmp (b :: s) (b :: t) = strcmp s t := by
  rw [strcmp, if_pos rfl]

theorem strcmp_ofNat_of_lt {m n : Nat} (h : m < n) (hn : n < 256) (s t : CStr) :
    strcmp (UInt8.ofNat m :: s) (UInt8.ofNat n :: t) = .lt := by
  have hlt : UInt8.ofNat m < UInt8.ofNat n := by
    rw [UInt8.lt_iff_toNat_lt, UInt8.toNat_ofNat', UInt8.toNat_ofNat']
    omega
  rw [strcmp, if_neg (UInt8.ne_of_lt hlt), if_pos hlt]

theorem strcmp_ofNat_of_le {m n : Nat} {s t : CStr} (h : m ≤ n) (hn : n < 256)
    (heq : m = n → strcmp s t = .lt) :
    strcmp (UInt8.ofNat m :: s) (UInt8.ofNat n :: t) = .lt := by
  rcases Nat.lt_or_eq_of_le h with hlt | rfl
  · exact strcmp_ofNat_of_lt hlt hn s t
  · rw [strcmp_cons_self]
    exact heq rfl

theorem strcmp_append_self (r s t : CStr) : strcmp (r ++ s) (r ++ t) = strcmp s t := by
  induction r with
  | nil => rfl
  | cons b r ih => rw [List.cons_append, List.cons_append, strcmp_cons_self, ih]

/-- A lower code point has the lower encoding, and neither begins the other. -/
theorem strcmp_utf8EncodeChar {c d : Char} (h : c < d) (s t : CStr) :
    strcmp (String.utf8EncodeChar c ++ s) (String.utf8EncodeChar d ++ t) = .lt := by
  have hlt : c.val.toNat < d.val.toNat := h
  have hmax : d.val.toNat < 0x110000 := by
    rcases d.valid with hsmall | hbig
    · exact Nat.lt_trans hsmall (by decide)
    · exact hbig.2
  unfold String.utf8EncodeChar
  generalize c.val.toNat = v at hlt
  generalize d.val.toNat = w at hlt hmax
  dsimp only
  by_cases hv₁ : v ≤ 0x7f
  · rw [if_pos hv₁]
    by_cases hw₁ : w ≤ 0x7f
    · rw [if_pos hw₁]
      exact strcmp_ofNat_of_lt hlt (by omega) s t
    rw [if_neg hw₁]
    split
    · exact strcmp_ofNat_of_lt (by omega) (by omega) _ _
    split
    · exact strcmp_ofNat_of_lt (by omega) (by omega) _ _
    · exact strcmp_ofNat_of_lt (by omega) (by omega) _ _
  rw [if_neg hv₁, if_neg (show ¬ w ≤ 0x7f by omega)]
  by_cases hv₂ : v ≤ 0x7ff
  · rw [if_pos hv₂]
    split
    · refine strcmp_ofNat_of_le (by omega) (by omega) fun h₁ => ?_
      exact strcmp_ofNat_of_lt (by omega) (by omega) s t
    split
    · exact strcmp_ofNat_of_lt (by omega) (by omega) _ _
    · exact strcmp_ofNat_of_lt (by omega) (by omega) _ _
  rw [if_neg hv₂, if_neg (show ¬ w ≤ 0x7ff by omega)]
  by_cases hv₃ : v ≤ 0xffff
  · rw [if_pos hv₃]
    split
    · refine strcmp_ofNat_of_le (by omega) (by omega) fun h₁ => ?_
      refine strcmp_ofNat_of_le (by omega) (by omega) fun h₂ => ?_
      exact strcmp_ofNat_of_lt (by omega) (by omega) s t
    · exact strcmp_ofNat_of_lt (by omega) (by omega) _ _
  rw [if_neg hv₃, if_neg (show ¬ w ≤ 0xffff by omega)]
  refine strcmp_ofNat_of_le (by omega) (by omega) fun h₁ => ?_
  refine strcmp_ofNat_of_le (by omega) (by omega) fun h₂ => ?_
  refine strcmp_ofNat_of_le (by omega) (by omega) fun h₃ => ?_
  exact strcmp_ofNat_of_lt (by omega) (by omega) s t

theorem strcmp_utf8_of_lt {s t : Text} (h : s < t) : strcmp (utf8 s) (utf8 t) = .lt := by
  induction s generalizing t with
  | nil =>
    cases t with
    | nil => exact absurd h (lt_irrefl _)
    | cons d t =>
      cases hd : utf8 (d :: t) with
      | nil => exact absurd hd (utf8_ne_nil (List.cons_ne_nil d t))
      | cons b r => rfl
  | cons c s ih =>
    cases t with
    | nil => exact absurd h (not_lt.mpr (le_of_lt List.Lex.nil))
    | cons d t =>
      rw [utf8_cons, utf8_cons]
      rcases List.cons_lt_cons_iff.mp h with hcd | ⟨rfl, hst⟩
      · exact strcmp_utf8EncodeChar hcd _ _
      · rw [strcmp_append_self]
        exact ih hst

/-- `strcmp` on encoded texts goes by the order of the texts. -/
theorem compares_strcmp : Compares fun s t : Text => strcmp (utf8 s) (utf8 t) := by
  constructor
  · intro s t
    refine ⟨fun h => ?_, strcmp_utf8_of_lt⟩
    rcases lt_trichotomy s t with hlt | rfl | hgt
    · exact hlt
    · rw [strcmp_eq_iff.mpr rfl] at h
      cases h
    · rw [strcmp_swap, strcmp_utf8_of_lt hgt] at h
      cases h
  · intro s t
    refine ⟨fun h => ?_, fun h => by rw [strcmp_swap, strcmp_utf8_of_lt h]; rfl⟩
    rcases lt_trichotomy s t with hlt | rfl | hgt
    · rw [strcmp_utf8_of_lt hlt] at h
      cases h
    · rw [strcmp_eq_iff.mpr rfl] at h
      cases h
    · exact hgt

theorem utf8_injective : Function.Injective utf8 := by
  intro s t h
  have heq : strcmp (utf8 s) (utf8 t) = .eq := strcmp_eq_iff.mpr h
  rcases lt_trichotomy s t with hlt | rfl | hgt
  · rw [strcmp_utf8_of_lt hlt] at heq
    cases heq
  · rfl
  · rw [(compares_strcmp.gt_iff s t).mpr hgt] at heq
    cases heq

end PmuEvents.Libc
