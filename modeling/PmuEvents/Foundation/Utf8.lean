import Mathlib.Data.List.Basic
import Mathlib.Data.List.Infix
set_option autoImplicit false

/-!
# Foundation: texts and their UTF-8 bytes

A text is a list of Unicode scalar values, as a Python `str` without lone
surrogates is; `utf8` is the byte sequence it is written as.  The encoding of a
single character is Lean's own `String.utf8EncodeChar`.
-/

namespace PmuEvents.Foundation

/-- A Python `str`. -/
abbrev Text := List Char

/-- Equality of texts is decided by their characters. -/
instance : LawfulBEq Text := inferInstance

/-- The UTF-8 bytes of a text. -/
def utf8 (t : Text) : List UInt8 := t.flatMap String.utf8EncodeChar

@[simp] theorem utf8_nil : utf8 [] = [] := rfl

@[simp] theorem utf8_cons (c : Char) (t : Text) :
    utf8 (c :: t) = String.utf8EncodeChar c ++ utf8 t := by
  simp [utf8]

@[simp] theorem utf8_append (s t : Text) : utf8 (s ++ t) = utf8 s ++ utf8 t := by
  simp [utf8]

/-! ## ASCII characters -/

theorem utf8EncodeChar_of_ascii {c : Char} (h : c.toNat < 128) :
    String.utf8EncodeChar c = [UInt8.ofNat c.toNat] := by
  have hv : c.val.toNat ≤ 127 := Nat.le_of_lt_succ h
  unfold String.utf8EncodeChar
  exact if_pos hv

/-- An ASCII text has one byte a character. -/
theorem utf8_of_ascii {t : Text} (h : ∀ c ∈ t, c.toNat < 128) :
    utf8 t = t.map fun c => UInt8.ofNat c.toNat := by
  induction t with
  | nil => rfl
  | cons c t ih =>
    simp only [List.mem_cons, forall_eq_or_imp] at h
    rw [utf8_cons, utf8EncodeChar_of_ascii h.1, ih h.2]
    rfl

/-! ## Single bytes below 128 -/

theorem le_of_mem_utf8EncodeChar {c : Char} (hc : 128 ≤ c.toNat) {b : UInt8}
    (hb : b ∈ String.utf8EncodeChar c) : 128 ≤ b.toNat := by
  have hv : ¬ c.val.toNat ≤ 0x7f := Nat.not_le.mpr hc
  unfold String.utf8EncodeChar at hb
  simp only [if_neg hv] at hb
  split at hb
  · simp only [List.mem_cons, List.not_mem_nil, or_false] at hb
    rcases hb with rfl | rfl <;> simp only [UInt8.toNat_ofNat'] <;> omega
  · split at hb
    · simp only [List.mem_cons, List.not_mem_nil, or_false] at hb
      rcases hb with rfl | rfl | rfl <;> simp only [UInt8.toNat_ofNat'] <;> omega
    · simp only [List.mem_cons, List.not_mem_nil, or_false] at hb
      rcases hb with rfl | rfl | rfl | rfl <;> simp only [UInt8.toNat_ofNat'] <;> omega

/-- A byte below 128 encodes the character of that number. -/
theorem toNat_of_mem_utf8EncodeChar {c : Char} {b : UInt8} (hb : b ∈ String.utf8EncodeChar c)
    (h : b.toNat < 128) : c.toNat = b.toNat ∧ String.utf8EncodeChar c = [b] := by
  by_cases hc : c.toNat < 128
  · rw [utf8EncodeChar_of_ascii hc] at hb ⊢
    obtain rfl := List.mem_singleton.mp hb
    refine ⟨?_, rfl⟩
    rw [UInt8.toNat_ofNat']
    omega
  · exact absurd (le_of_mem_utf8EncodeChar (Nat.not_lt.mp hc) hb) (Nat.not_le.mpr h)

theorem utf8_ne_nil {t : Text} (h : t ≠ []) : utf8 t ≠ [] := by
  cases t with
  | nil => exact absurd rfl h
  | cons c t =>
    rw [utf8_cons]
    exact List.append_ne_nil_of_left_ne_nil String.utf8EncodeChar_ne_nil _

/-- Bytes that begin with one below 128 are those of a text that begins with its character. -/
theorem utf8_eq_cons {t : Text} {b : UInt8} {r : List UInt8} (h : utf8 t = b :: r)
    (hb : b.toNat < 128) : ∃ c t', t = c :: t' ∧ c.toNat = b.toNat ∧ utf8 t' = r := by
  cases t with
  | nil => simp at h
  | cons c t =>
    rw [utf8_cons] at h
    have hmem : b ∈ String.utf8EncodeChar c := by
      cases hc : String.utf8EncodeChar c with
      | nil => exact absurd hc String.utf8EncodeChar_ne_nil
      | cons b' s =>
        rw [hc, List.cons_append] at h
        exact (List.cons.inj h).1 ▸ List.mem_cons_self
    obtain ⟨hnat, hbytes⟩ := toNat_of_mem_utf8EncodeChar hmem hb
    rw [hbytes] at h
    exact ⟨c, t, rfl, hnat, (List.cons.inj h).2⟩

end PmuEvents.Foundation
