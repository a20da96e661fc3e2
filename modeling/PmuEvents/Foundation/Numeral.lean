import Mathlib.Algebra.Group.Nat.Defs
import Mathlib.Data.Nat.Basic
set_option autoImplicit false

/-!
# Foundation: positional numerals

The value of a digit sequence, most significant digit first, in any base, and
the digit sequence `Nat.toDigits` writes.  Nothing here knows how a digit is
spelled in a particular character set; the C and Python layers supply that.
-/

namespace PmuEvents.Foundation.Numeral

/-- The number a digit sequence denotes, most significant digit first. -/
def value (base : Nat) (digits : List Nat) : Nat :=
  digits.foldl (fun v d => base * v + d) 0

@[simp] theorem value_nil (base : Nat) : value base [] = 0 := rfl

@[simp] theorem value_singleton (base d : Nat) : value base [d] = d := by
  simp [value]

theorem value_snoc (base : Nat) (digits : List Nat) (d : Nat) :
    value base (digits ++ [d]) = base * value base digits + d := by
  simp [value, List.foldl_append]

/-- Zeros in front of a numeral do not count. -/
theorem value_zeros_append (base k : Nat) (digits : List Nat) :
    value base (List.replicate k 0 ++ digits) = value base digits := by
  induction k with
  | zero => rfl
  | succ k ih =>
    rw [List.replicate_succ, List.cons_append]
    exact ih

/-- The digits of `n`, most significant first; zero has the one digit `0`. -/
def digits (base n : Nat) : List Nat :=
  if n < base then [n]
  else if 1 < base then digits base (n / base) ++ [n % base] else [n]
termination_by n
decreasing_by exact Nat.div_lt_self (by omega) (by omega)

theorem digits_of_lt {base n : Nat} (h : n < base) : digits base n = [n] := by
  rw [digits, if_pos h]

theorem digits_of_le {base n : Nat} (hb : 1 < base) (h : base ≤ n) :
    digits base n = digits base (n / base) ++ [n % base] := by
  rw [digits, if_neg (by omega), if_pos hb]

/-- A further least significant digit is written at the end. -/
theorem digits_mul_add {base m k : Nat} (hb : 1 < base) (hm : 0 < m) (hk : k < base) :
    digits base (base * m + k) = digits base m ++ [k] := by
  have hle : base ≤ base * m + k :=
    calc base = base * 1 := (Nat.mul_one base).symm
      _ ≤ base * m := Nat.mul_le_mul_left base hm
      _ ≤ base * m + k := Nat.le_add_right _ _
  rw [digits_of_le hb hle, Nat.mul_add_div (by omega), Nat.div_eq_of_lt hk,
    Nat.add_zero, Nat.mul_add_mod, Nat.mod_eq_of_lt hk]

/-- Reading back the digits of `n` in their own base gives `n`. -/
theorem value_digits {base : Nat} (hb : 1 < base) (n : Nat) :
    value base (digits base n) = n := by
  induction n using Nat.base_induction base hb with
  | single m hm => rw [digits_of_lt hm, value_singleton]
  | digit m k hk hm ih => rw [digits_mul_add hb hm hk, value_snoc, ih]

theorem digits_ne_nil {base : Nat} (hb : 1 < base) (n : Nat) : digits base n ≠ [] := by
  by_cases h : n < base
  · simp [digits_of_lt h]
  · simp [digits_of_le hb (Nat.le_of_not_lt h)]

theorem digits_lt {base : Nat} (hb : 1 < base) (n : Nat) :
    ∀ d ∈ digits base n, d < base := by
  induction n using Nat.base_induction base hb with
  | single m hm => simpa [digits_of_lt hm] using hm
  | digit m k hk hm ih =>
    intro d hd
    rw [digits_mul_add hb hm hk, List.mem_append, List.mem_singleton] at hd
    rcases hd with hd | rfl
    · exact ih d hd
    · exact hk

theorem head_digits_ne_zero {base n : Nat} (hb : 1 < base) (hn : 0 < n) :
    ∀ d ∈ (digits base n).head?, d ≠ 0 := by
  induction n using Nat.base_induction base hb with
  | single m hm =>
    intro d hd
    rw [digits_of_lt hm] at hd
    obtain rfl := Option.some.inj hd
    omega
  | digit m k hk hm ih =>
    intro d hd
    obtain ⟨e, rest, hcons⟩ := List.exists_cons_of_ne_nil (digits_ne_nil hb m)
    rw [digits_mul_add hb hm hk, hcons] at hd
    exact ih hm d (by rw [hcons]; exact hd)

/-- The first digit of a positive number is not zero. -/
theorem pow_le_of_pos {base n : Nat} (hb : 1 < base) (hn : 0 < n) :
    base ^ ((digits base n).length - 1) ≤ n := by
  induction n using Nat.base_induction base hb with
  | single m hm =>
    rw [digits_of_lt hm]
    exact hn
  | digit m k hk hm ih =>
    have hlen : (digits base m).length - 1 + 1 = (digits base m).length :=
      Nat.sub_add_cancel (List.length_pos_iff.mpr (digits_ne_nil hb m))
    rw [digits_mul_add hb hm hk, List.length_append, List.length_singleton, Nat.add_sub_cancel,
      ← hlen, Nat.pow_succ, Nat.mul_comm]
    exact Nat.le_trans (Nat.mul_le_mul_left base (ih hm)) (Nat.le_add_right _ _)

/-- A number below `base ^ k` has at most `k` digits. -/
theorem length_digits_le {base k n : Nat} (hb : 1 < base) (hk : 0 < k) (h : n < base ^ k) :
    (digits base n).length ≤ k := by
  rcases Nat.eq_zero_or_pos n with hzero | hpos
  · rw [hzero, digits_of_lt (by omega)]
    exact hk
  · have hpow := pow_le_of_pos hb hpos
    by_contra hlong
    have hle : base ^ k ≤ base ^ ((digits base n).length - 1) :=
      Nat.pow_le_pow_right (by omega) (by omega)
    omega

/-- `Nat.toDigits` spells exactly these digits. -/
theorem toDigits_eq_map_digits {base : Nat} (hb : 1 < base) (n : Nat) :
    Nat.toDigits base n = (digits base n).map Nat.digitChar := by
  induction n using Nat.base_induction base hb with
  | single m hm => simp [digits_of_lt hm, Nat.toDigits_of_lt_base hm]
  | digit m k hk hm ih =>
    rw [digits_mul_add hb hm hk, ← Nat.toDigits_append_toDigits hb hm hk,
      Nat.toDigits_of_lt_base hk, ih, List.map_append, List.map_singleton]

/-! ## Reading a numeral in a larger base -/

/-- A numeral read in a base at least as large never shrinks. -/
theorem le_value_digits {base wide : Nat} (hb : 1 < base) (hw : base ≤ wide) (n : Nat) :
    n ≤ value wide (digits base n) := by
  induction n using Nat.base_induction base hb with
  | single m hm => simp [digits_of_lt hm]
  | digit m k hk hm ih =>
    rw [digits_mul_add hb hm hk, value_snoc]
    exact Nat.add_le_add_right (Nat.mul_le_mul hw ih) k

/-- Read in a strictly larger base, a numeral of two or more digits grows, so
only the one-digit numerals keep their value. -/
theorem value_digits_eq_iff {base wide : Nat} (hb : 1 < base) (hw : base < wide) (n : Nat) :
    value wide (digits base n) = n ↔ n < base := by
  constructor
  · intro h
    by_contra hn
    have hle : base ≤ n := Nat.le_of_not_lt hn
    rw [digits_of_le hb hle, value_snoc] at h
    have hq : 0 < n / base := Nat.div_pos hle (by omega)
    have hsplit := Nat.div_add_mod n base
    have hgrow : base * (n / base) < wide * value wide (digits base (n / base)) :=
      calc base * (n / base) < wide * (n / base) := Nat.mul_lt_mul_of_pos_right hw hq
        _ ≤ wide * value wide (digits base (n / base)) :=
          Nat.mul_le_mul_left _ (le_value_digits hb (Nat.le_of_lt hw) _)
    omega
  · intro h
    rw [digits_of_lt h, value_singleton]

end PmuEvents.Foundation.Numeral
