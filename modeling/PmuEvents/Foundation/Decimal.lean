import PmuEvents.Foundation.Numeral
import PmuEvents.Foundation.Utf8
import Mathlib.Data.Rat.Defs
import Mathlib.Tactic.Ring
import Mathlib.Tactic.FieldSimp
import Mathlib.Tactic.Linarith
set_option autoImplicit false

/-!
# Decimal numbers

Decimal numbers as a sign, a coefficient and an exponent of ten, with rounding to
a number of digits, removal of trailing zeros, and the engineering notation, whose
exponents are multiples of three.  The main result: the digits of the engineering
notation denote the number.
-/

namespace PmuEvents.Foundation

/-- A decimal number. -/
structure Decimal where
  neg : Bool
  coeff : Nat
  exp : Int
  deriving DecidableEq, Repr

namespace Decimal

/-- The number denoted. -/
def value (d : Decimal) : ℚ := (if d.neg then -1 else 1) * d.coeff * (10 : ℚ) ^ d.exp

theorem value_eq_zero_iff (d : Decimal) : d.value = 0 ↔ d.coeff = 0 := by
  have hsign : (if d.neg then -1 else 1 : ℚ) ≠ 0 := by
    split
    · norm_num
    · norm_num
  have hpow : (10 : ℚ) ^ d.exp ≠ 0 := zpow_ne_zero _ (by norm_num)
  rw [value, mul_eq_zero, mul_eq_zero, or_iff_left hpow, or_iff_right hsign, Nat.cast_eq_zero]

/-! ## Rounding and normal form -/

/-- The quotient by `10 ^ k`, to the nearest, halves to the even one. -/
def roundHalfEven (coeff k : Nat) : Nat :=
  let q := coeff / 10 ^ k
  let r := coeff % 10 ^ k
  if 10 ^ k < 2 * r ∨ (2 * r = 10 ^ k ∧ q % 2 = 1) then q + 1 else q

/-- Rounding to at most `prec` digits; a carry to one digit more drops the last one. -/
def round (prec : Nat) (d : Decimal) : Decimal :=
  let len := (Numeral.digits 10 d.coeff).length
  if len ≤ prec then d
  else
    let coeff := roundHalfEven d.coeff (len - prec)
    if coeff = 10 ^ prec then
      { d with coeff := coeff / 10, exp := d.exp + (len - prec : Nat) + 1 }
    else { d with coeff, exp := d.exp + (len - prec : Nat) }

/-- The coefficient without its trailing zeros, and their number. -/
def stripZeros (coeff : Nat) : Nat × Nat :=
  if h : coeff ≠ 0 ∧ coeff % 10 = 0 then
    let rest := stripZeros (coeff / 10)
    (rest.1, rest.2 + 1)
  else (coeff, 0)
termination_by coeff
decreasing_by exact Nat.div_lt_self (Nat.pos_of_ne_zero h.1) (by omega)

/-- The normal form: no trailing zeros, and exponent zero for a zero. -/
def normalize (d : Decimal) : Decimal :=
  if d.coeff = 0 then { d with exp := 0 }
  else
    { d with coeff := (stripZeros d.coeff).1, exp := d.exp + (stripZeros d.coeff).2 }

/-! ## Spelling -/

/-- A spelled number: sign, digits before and after the point, exponent. -/
structure Spelling where
  neg : Bool
  int : List Nat
  frac : List Nat
  exp : Option Int
  deriving DecidableEq, Repr

/-- The number a spelling denotes. -/
def Spelling.decimal (s : Spelling) : Decimal where
  neg := s.neg
  coeff := Numeral.value 10 (s.int ++ s.frac)
  exp := s.exp.getD 0 - s.frac.length

/-- The engineering notation of a number. -/
def engSpelling (d : Decimal) : Spelling :=
  let int := Numeral.digits 10 d.coeff
  let leftdigits : Int := d.exp + int.length
  -- the number of digits before the point
  let dotplace : Int :=
    if d.exp ≤ 0 ∧ -6 < leftdigits then leftdigits
    else if d.coeff = 0 then (leftdigits + 1) % 3 - 1
    else (leftdigits - 1) % 3 + 1
  let exp := if leftdigits = dotplace then none else some (leftdigits - dotplace)
  if dotplace ≤ 0 then
    { neg := d.neg, int := [0], frac := List.replicate (-dotplace).toNat 0 ++ int, exp }
  else if int.length ≤ dotplace then
    { neg := d.neg, int := int ++ List.replicate (dotplace - int.length).toNat 0, frac := [], exp }
  else { neg := d.neg, int := int.take dotplace.toNat, frac := int.drop dotplace.toNat, exp }

/-- Zeros in front of a numeral do not count. -/
theorem numeral_zeros_append (k : Nat) (digits : List Nat) :
    Numeral.value 10 (List.replicate k 0 ++ digits) = Numeral.value 10 digits :=
  Numeral.value_zeros_append 10 k digits

/-- Zeros after a numeral multiply it by powers of ten. -/
theorem numeral_append_zeros (digits : List Nat) (k : Nat) :
    Numeral.value 10 (digits ++ List.replicate k 0) = Numeral.value 10 digits * 10 ^ k := by
  induction k with
  | zero => simp
  | succ k ih =>
    rw [List.replicate_succ', ← List.append_assoc, Numeral.value_snoc, ih]
    ring

/-- The spelling of a number denotes it. -/
theorem value_engSpelling (d : Decimal) : (engSpelling d).decimal.value = d.value := by
  have hten : (10 : ℚ) ≠ 0 := by norm_num
  unfold engSpelling
  extract_lets int leftdigits dotplace exp
  have hint : Numeral.value 10 int = d.coeff := Numeral.value_digits (by decide) d.coeff
  have hexp : exp.getD 0 = leftdigits - dotplace := by
    simp only [exp]
    split
    · rename_i heq
      rw [heq, sub_self]
      rfl
    · rfl
  have hleft : leftdigits = d.exp + int.length := rfl
  split
  · rename_i hneg
    have hpad : ((-dotplace).toNat : Int) = -dotplace := Int.toNat_of_nonneg (by omega)
    have hval :
        Numeral.value 10 ([0] ++ (List.replicate (-dotplace).toNat 0 ++ int)) = d.coeff := by
      rw [← List.append_assoc, ← List.replicate_one, List.replicate_append_replicate,
        numeral_zeros_append, hint]
    have hpow :
        exp.getD 0 - ((List.replicate (-dotplace).toNat 0 ++ int).length : Int) = d.exp := by
      rw [hexp, List.length_append, List.length_replicate, Nat.cast_add, hpad, hleft]
      ring
    simp only [Spelling.decimal, value, hval, hpow]
  · split
    · rename_i hge
      have hpad : ((dotplace - int.length).toNat : Int) = dotplace - int.length :=
        Int.toNat_of_nonneg (by omega)
      have hpow : (10 : ℚ) ^ ((dotplace - int.length).toNat) * (10 : ℚ) ^ (exp.getD 0) =
          (10 : ℚ) ^ d.exp := by
        rw [← zpow_natCast, ← zpow_add₀ hten, hpad, hexp, hleft]
        congr 1
        ring
      simp only [Spelling.decimal, value, List.append_nil, numeral_append_zeros, hint, ← hpow,
        List.length_nil, Nat.cast_zero, sub_zero]
      push_cast
      ring
    · rename_i hpos hlt
      have htake : (dotplace.toNat : Int) = dotplace := Int.toNat_of_nonneg (by omega)
      have hpow : exp.getD 0 - ((int.drop dotplace.toNat).length : Int) = d.exp := by
        rw [hexp, List.length_drop, Nat.cast_sub (by omega), htake, hleft]
        ring
      simp only [Spelling.decimal, value, List.take_append_drop, hint, hpow]

@[simp] theorem neg_round (prec : Nat) (d : Decimal) : (d.round prec).neg = d.neg := by
  unfold round
  extract_lets len coeff
  split_ifs <;> rfl

@[simp] theorem neg_normalize (d : Decimal) : d.normalize.neg = d.neg := by
  unfold normalize
  split <;> rfl

@[simp] theorem neg_engSpelling (d : Decimal) : d.engSpelling.neg = d.neg := by
  unfold engSpelling
  extract_lets int leftdigits dotplace exp
  split_ifs <;> rfl

/-- The integer part of the engineering notation has a digit. -/
theorem engSpelling_int_ne_nil (d : Decimal) : d.engSpelling.int ≠ [] := by
  have hdigits : 0 < (Numeral.digits 10 d.coeff).length :=
    List.length_pos_iff.mpr (Numeral.digits_ne_nil (by decide) d.coeff)
  unfold engSpelling
  extract_lets int leftdigits dotplace exp
  split
  · simp
  · rename_i hpos
    split
    · exact List.append_ne_nil_of_left_ne_nil (List.length_pos_iff.mp hdigits) _
    · have hlen : (int.take dotplace.toNat).length ≠ 0 := by
        rw [List.length_take]
        omega
      exact fun hnil => hlen (List.length_eq_zero_iff.mpr hnil)

/-- The engineering notation is spelled with decimal digits. -/
theorem engSpelling_digits (d : Decimal) :
    (∀ k ∈ d.engSpelling.int, k < 10) ∧ ∀ k ∈ d.engSpelling.frac, k < 10 := by
  have hdigits := Numeral.digits_lt (by decide : 1 < 10) d.coeff
  have hzeros : ∀ n, ∀ k ∈ List.replicate n 0, k < 10 := by
    intro n k hk
    rw [List.eq_of_mem_replicate hk]
    decide
  unfold engSpelling
  extract_lets int leftdigits dotplace exp
  split
  · refine ⟨by simp, ?_⟩
    intro k hk
    rcases List.mem_append.mp hk with hk | hk
    · exact hzeros _ k hk
    · exact hdigits k hk
  · split
    · refine ⟨?_, by simp⟩
      intro k hk
      rcases List.mem_append.mp hk with hk | hk
      · exact hdigits k hk
      · exact hzeros _ k hk
    · exact ⟨fun k hk => hdigits k (List.mem_of_mem_take hk),
        fun k hk => hdigits k (List.mem_of_mem_drop hk)⟩

/-! ## Rounding keeps zero and non-zero numbers apart -/

theorem stripZeros_mul (coeff : Nat) :
    (stripZeros coeff).1 * 10 ^ (stripZeros coeff).2 = coeff := by
  fun_induction stripZeros coeff with
  | case1 coeff h rest ih =>
    have hten : coeff / 10 * 10 = coeff := Nat.div_mul_cancel (Nat.dvd_of_mod_eq_zero h.2)
    calc rest.1 * 10 ^ (rest.2 + 1) = rest.1 * 10 ^ rest.2 * 10 := by ring
      _ = coeff := by rw [ih, hten]
  | case2 coeff h => simp

/-- The normal form denotes the same number. -/
theorem value_normalize (d : Decimal) : d.normalize.value = d.value := by
  have hten : (10 : ℚ) ≠ 0 := by norm_num
  unfold normalize
  split
  · rename_i hzero
    simp [value, hzero]
  · have hcoeff : (d.coeff : ℚ) = (stripZeros d.coeff).1 * (10 : ℚ) ^ (stripZeros d.coeff).2 := by
      exact_mod_cast (stripZeros_mul d.coeff).symm
    simp only [value, hcoeff]
    rw [zpow_add₀ hten, zpow_natCast]
    ring

theorem roundHalfEven_pos {coeff k : Nat} (h : 10 ^ k ≤ coeff) : 0 < roundHalfEven coeff k := by
  have hq : 0 < coeff / 10 ^ k := Nat.div_pos h (Nat.pow_pos (by decide))
  unfold roundHalfEven
  extract_lets q r
  split
  · omega
  · exact hq

/-- Rounding to some digits makes a number zero only if it was. -/
theorem coeff_round_eq_zero_iff {prec : Nat} (hprec : 0 < prec) (d : Decimal) :
    (d.round prec).coeff = 0 ↔ d.coeff = 0 := by
  unfold round
  extract_lets len coeff
  split
  · rfl
  · rename_i hlen
    have hpos : 0 < d.coeff := by
      by_contra hzero
      have hone : len = 1 := by
        simp only [len, Nat.eq_zero_of_not_pos hzero, Numeral.digits_of_lt (by decide : 0 < 10),
          List.length_singleton]
      omega
    have hround : 0 < coeff := by
      apply roundHalfEven_pos
      exact Nat.le_trans (Nat.pow_le_pow_right (by decide) (by omega))
        (Numeral.pow_le_of_pos (by decide) hpos)
    split
    · rename_i hcarry
      have hdiv : 0 < 10 ^ prec / 10 := by
        apply Nat.div_pos _ (by decide)
        calc 10 = 10 ^ 1 := rfl
          _ ≤ 10 ^ prec := Nat.pow_le_pow_right (by decide) hprec
      simp only [hcarry]
      omega
    · simp only
      omega

end Decimal

end PmuEvents.Foundation
