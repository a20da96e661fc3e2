import PmuEvents.Foundation.Decimal
import PmuEvents.Metric.Expr
set_option autoImplicit false

/-!
# Constants

`Constant.__init__`: the text of a constant is the engineering notation of its
number, rounded to 20 digits and normalised, without plus signs and with a small
`e`.  The text of every finite number reads back as that rounded number.
-/

namespace PmuEvents.Metric

open PmuEvents.Foundation

/-- A Python number as `decimal` reads it: the digits of an `int`, or of the `repr`
of a `float`. -/
inductive PyNumber where
  | finite (d : Decimal)
  | infinity (neg : Bool)
  | nan
  deriving DecidableEq, Repr

/-- A Python `int`. -/
def PyNumber.ofInt (n : Int) : PyNumber :=
  .finite { neg := n < 0, coeff := n.natAbs, exp := 0 }

/-- `'%+d' % n`. -/
def signedText (n : Int) : Text :=
  (if n < 0 then '-' else '+') :: (Numeral.digits 10 n.natAbs).map Nat.digitChar

/-- The fractional part of a number. -/
def pointText (frac : List Nat) : Text :=
  if frac = [] then [] else '.' :: frac.map Nat.digitChar

/-- The text of a spelled number. -/
def spellingText (s : Decimal.Spelling) : Text :=
  (if s.neg then ['-'] else []) ++ s.int.map Nat.digitChar ++ pointText s.frac ++
    (match s.exp with
      | none => []
      | some e => 'E' :: signedText e)

/-- `to_eng_string` of the normalised number, read with 20 digits of precision. -/
def toEngString : PyNumber → Text
  | .finite d => spellingText (d.round 20).normalize.engSpelling
  | .infinity neg => (if neg then ['-'] else []) ++ "Infinity".toList
  | .nan => "NaN".toList

/-- The two replacements of `Constant.__init__`: no `+`, and `e` for `E`. -/
def constantChars (t : Text) : Text :=
  (t.filter fun c => c ≠ '+').map fun c => if c = 'E' then 'e' else c

/-- The value `Constant.__init__` stores. -/
def constantText (value : PyNumber) : Text := constantChars (toEngString value)

/-- The constructor of `Constant`. -/
def Expr.mkConstant (value : PyNumber) : Expr := .constant (constantText value)

/-! ## Reading a constant -/

/-- The digit a character spells. -/
def digitValue (c : Char) : Nat := c.toNat - '0'.toNat

/-- A run of digits. -/
def readDigits (t : Text) : Option (List Nat) :=
  if t.all Char.isDigit then some (t.map digitValue) else none

/-- The exponent: digits with or without a minus sign. -/
def readExponent : Text → Option Int
  | '-' :: t => (readDigits t).map fun digits => -(Numeral.value 10 digits : Int)
  | t => (readDigits t).map fun digits => (Numeral.value 10 digits : Int)

/-- The part of a text after the first occurrence of a character. -/
def afterChar (c : Char) (t : Text) : Text := (t.dropWhile fun x => x ≠ c).tail

/-- Digits, a point and digits, an exponent. -/
def readUnsigned (neg : Bool) (t : Text) : Option Decimal := do
  let mantissa := t.takeWhile fun c => c ≠ 'e'
  let int ← readDigits (mantissa.takeWhile fun c => c ≠ '.')
  let frac ← readDigits (afterChar '.' mantissa)
  let exp ← readExponent (afterChar 'e' t)
  return { neg, coeff := Numeral.value 10 (int ++ frac), exp := exp - frac.length }

/-- The decimal number a constant's text spells; `none` for the infinities and NaN. -/
def readDecimal : Text → Option Decimal
  | '-' :: t => readUnsigned true t
  | t => readUnsigned false t

/-- The number a constant's text denotes. -/
def constantValue (t : Text) : Option ℚ := (readDecimal t).map Decimal.value

/-! ## The text of a spelling reads back -/

/-- The exponent as a constant's text has it. -/
def exponentText : Option Int → Text
  | none => []
  | some e => 'e' :: ((if e < 0 then ['-'] else []) ++
      (Numeral.digits 10 e.natAbs).map Nat.digitChar)

/-- The text after the sign. -/
def unsignedText (s : Decimal.Spelling) : Text :=
  s.int.map Nat.digitChar ++ (pointText s.frac ++ exponentText s.exp)

/-- A digit is none of the other characters of a number and keeps its value. -/
theorem digitChar_spec {d : Nat} (h : d < 10) :
    (Nat.digitChar d).isDigit ∧ digitValue (Nat.digitChar d) = d ∧
      ∀ c ∈ ['+', '-', '.', 'e', 'E'], Nat.digitChar d ≠ c := by
  have hall : ∀ k : Fin 10, (Nat.digitChar k.val).isDigit ∧
      digitValue (Nat.digitChar k.val) = k.val ∧
      (['+', '-', '.', 'e', 'E'].all fun c => Nat.digitChar k.val ≠ c) = true := by decide
  obtain ⟨hdigit, hvalue, hother⟩ := hall ⟨d, h⟩
  refine ⟨hdigit, hvalue, ?_⟩
  intro c hc
  exact of_decide_eq_true (List.all_eq_true.mp hother c hc)

theorem readDigits_map {ds : List Nat} (h : ∀ d ∈ ds, d < 10) :
    readDigits (ds.map Nat.digitChar) = some ds := by
  have hall : (ds.map Nat.digitChar).all Char.isDigit = true := by
    rw [List.all_map, List.all_eq_true]
    intro d hd
    exact (digitChar_spec (h d hd)).1
  have hmap : (ds.map Nat.digitChar).map digitValue = ds := by
    rw [List.map_map]
    calc ds.map (digitValue ∘ Nat.digitChar) = ds.map id :=
          List.map_congr_left fun d hd => (digitChar_spec (h d hd)).2.1
      _ = ds := List.map_id ds
  rw [readDigits, if_pos hall, hmap]

theorem not_mem_digits {ds : List Nat} (h : ∀ d ∈ ds, d < 10) {c : Char}
    (hc : c ∈ ['+', '-', '.', 'e', 'E']) : c ∉ ds.map Nat.digitChar := by
  intro hmem
  obtain ⟨d, hd, hdc⟩ := List.mem_map.mp hmem
  exact (digitChar_spec (h d hd)).2.2 c hc hdc

theorem constantChars_append (s t : Text) :
    constantChars (s ++ t) = constantChars s ++ constantChars t := by
  simp [constantChars]

/-- The replacements leave digits alone. -/
theorem constantChars_digits {ds : List Nat} (h : ∀ d ∈ ds, d < 10) :
    constantChars (ds.map Nat.digitChar) = ds.map Nat.digitChar := by
  have hplus := not_mem_digits h (c := '+') (by simp)
  have hbig := not_mem_digits h (c := 'E') (by simp)
  have hfilter : (ds.map Nat.digitChar).filter (fun c => c ≠ '+') = ds.map Nat.digitChar := by
    apply List.filter_eq_self.mpr
    intro c hc
    simpa using fun heq : c = '+' => hplus (heq ▸ hc)
  rw [constantChars, hfilter]
  calc (ds.map Nat.digitChar).map (fun c => if c = 'E' then 'e' else c)
      = (ds.map Nat.digitChar).map id := by
        apply List.map_congr_left
        intro c hc
        exact if_neg fun heq : c = 'E' => hbig (heq ▸ hc)
    _ = ds.map Nat.digitChar := List.map_id _

theorem constantChars_exponent (e : Int) :
    constantChars ('E' :: signedText e) = exponentText (some e) := by
  have hdigits := constantChars_digits (Numeral.digits_lt (by decide : 1 < 10) e.natAbs)
  rw [signedText, exponentText, ← List.cons_append]
  by_cases hneg : e < 0
  · rw [if_pos hneg, if_pos hneg]
    calc constantChars (['E', '-'] ++ (Numeral.digits 10 e.natAbs).map Nat.digitChar)
        = ['e', '-'] ++ constantChars ((Numeral.digits 10 e.natAbs).map Nat.digitChar) :=
          constantChars_append _ _
      _ = _ := by rw [hdigits]
  · rw [if_neg hneg, if_neg hneg]
    calc constantChars (['E', '+'] ++ (Numeral.digits 10 e.natAbs).map Nat.digitChar)
        = ['e'] ++ constantChars ((Numeral.digits 10 e.natAbs).map Nat.digitChar) :=
          constantChars_append _ _
      _ = _ := by rw [hdigits]

/-- The text of a finite constant: the spelling without plus signs and with a small `e`. -/
theorem constantText_finite (d : Decimal) :
    constantText (.finite d) =
      (if d.neg then ['-'] else []) ++ unsignedText (d.round 20).normalize.engSpelling := by
  have hneg : (d.round 20).normalize.engSpelling.neg = d.neg := by simp
  obtain ⟨hint, hfrac⟩ := (d.round 20).normalize.engSpelling_digits
  rw [constantText, toEngString, ← hneg]
  generalize (d.round 20).normalize.engSpelling = s at hint hfrac
  have hsign : constantChars (if s.neg then ['-'] else []) = if s.neg then ['-'] else [] := by
    split <;> rfl
  have hpoint : constantChars (pointText s.frac) = pointText s.frac := by
    unfold pointText
    split
    · rfl
    · rw [← List.singleton_append, constantChars_append, constantChars_digits hfrac]
      rfl
  rw [spellingText, constantChars_append, constantChars_append, constantChars_append, hsign,
    constantChars_digits hint, hpoint, unsignedText, List.append_assoc, List.append_assoc]
  congr 3
  cases s.exp with
  | none => rfl
  | some e => exact constantChars_exponent e

/-! ## The text reads back -/

theorem takeWhile_append_sep {c : Char} {s t : Text} (hs : c ∉ s)
    (ht : t = [] ∨ t.head? = some c) : (s ++ t).takeWhile (fun x => x ≠ c) = s := by
  have hall : ∀ x ∈ s, decide (x ≠ c) = true := by
    intro x hx
    simpa using fun heq : x = c => hs (heq ▸ hx)
  rw [List.takeWhile_append_of_pos hall]
  rcases ht with rfl | ht
  · simp
  · cases t with
    | nil => simp at ht
    | cons x t =>
      obtain rfl := Option.some.inj ht
      simp

theorem afterChar_append {c : Char} {s : Text} (hs : c ∉ s) (t : Text) :
    afterChar c (s ++ t) = afterChar c t := by
  have hall : ∀ x ∈ s, decide (x ≠ c) = true := by
    intro x hx
    simpa using fun heq : x = c => hs (heq ▸ hx)
  rw [afterChar, List.dropWhile_append_of_pos hall, afterChar]

theorem afterChar_cons (c : Char) (t : Text) : afterChar c (c :: t) = t := by
  simp [afterChar]

/-- The exponent reads back, and zero without one. -/
theorem readExponent_exponentText (exp : Option Int) :
    readExponent (afterChar 'e' (exponentText exp)) = some (exp.getD 0) := by
  cases exp with
  | none => rfl
  | some e =>
    have hdigits := Numeral.digits_lt (by decide : 1 < 10) e.natAbs
    have hread := readDigits_map hdigits
    have hvalue : Numeral.value 10 (Numeral.digits 10 e.natAbs) = e.natAbs :=
      Numeral.value_digits (by decide) e.natAbs
    rw [exponentText, afterChar_cons]
    by_cases hneg : e < 0
    · rw [if_pos hneg, List.singleton_append, readExponent, hread, Option.map_some, hvalue]
      simp only [Option.getD_some, Option.some.injEq]
      omega
    · rw [if_neg hneg, List.nil_append, readExponent, hread, Option.map_some, hvalue]
      · simp only [Option.getD_some, Option.some.injEq]
        omega
      · intro t ht
        exact not_mem_digits hdigits (c := '-') (by simp) (ht ▸ List.mem_cons_self)

theorem not_mem_pointText {frac : List Nat} (h : ∀ k ∈ frac, k < 10) : 'e' ∉ pointText frac := by
  unfold pointText
  split
  · simp
  · simp only [List.mem_cons, not_or]
    exact ⟨by decide, not_mem_digits h (by simp)⟩

/-- Reading the text of a spelling gives the number it spells. -/
theorem readUnsigned_unsignedText (neg : Bool) {s : Decimal.Spelling}
    (hint : ∀ k ∈ s.int, k < 10) (hfrac : ∀ k ∈ s.frac, k < 10) :
    readUnsigned neg (unsignedText s) =
      some { neg, coeff := Numeral.value 10 (s.int ++ s.frac)
             exp := s.exp.getD 0 - s.frac.length } := by
  have hmantissa : (unsignedText s).takeWhile (fun c => c ≠ 'e') =
      s.int.map Nat.digitChar ++ pointText s.frac := by
    rw [unsignedText, ← List.append_assoc]
    apply takeWhile_append_sep
    · simp only [List.mem_append, not_or]
      exact ⟨not_mem_digits hint (by simp), not_mem_pointText hfrac⟩
    · cases s.exp with
      | none => exact .inl rfl
      | some e => exact .inr rfl
  have hpoint : (s.int.map Nat.digitChar ++ pointText s.frac).takeWhile (fun c => c ≠ '.') =
      s.int.map Nat.digitChar := by
    apply takeWhile_append_sep (not_mem_digits hint (by simp))
    unfold pointText
    split
    · exact .inl rfl
    · exact .inr rfl
  have hafter : afterChar '.' (s.int.map Nat.digitChar ++ pointText s.frac) =
      s.frac.map Nat.digitChar := by
    rw [afterChar_append (not_mem_digits hint (by simp)), pointText]
    split
    · rename_i hnil
      rw [hnil]
      rfl
    · exact afterChar_cons _ _
  have hexp : afterChar 'e' (unsignedText s) = afterChar 'e' (exponentText s.exp) := by
    rw [unsignedText, afterChar_append (not_mem_digits hint (by simp)),
      afterChar_append (not_mem_pointText hfrac)]
  rw [readUnsigned]
  simp only [hmantissa, hpoint, hafter, hexp, readDigits_map hint, readDigits_map hfrac,
    readExponent_exponentText, Option.bind_eq_bind, Option.bind_some, Option.pure_def]

/-- The text of a finite constant denotes its number rounded to 20 digits. -/
theorem constantValue_finite (d : Decimal) :
    constantValue (constantText (.finite d)) = some (d.round 20).value := by
  have hneg : (d.round 20).normalize.engSpelling.neg = d.neg := by simp
  have hvalue : (d.round 20).normalize.engSpelling.decimal.value = (d.round 20).value := by
    rw [Decimal.value_engSpelling, Decimal.value_normalize]
  obtain ⟨hint, hfrac⟩ := (d.round 20).normalize.engSpelling_digits
  have hne := (d.round 20).normalize.engSpelling_int_ne_nil
  rw [constantText_finite, ← hvalue, ← hneg, constantValue]
  generalize (d.round 20).normalize.engSpelling = s at hint hfrac hne
  have hread := readUnsigned_unsignedText s.neg hint hfrac
  cases hsneg : s.neg with
  | true =>
    rw [hsneg] at hread
    rw [if_pos rfl, List.singleton_append, readDecimal, hread, Option.map_some,
      Decimal.Spelling.decimal, hsneg]
  | false =>
    rw [hsneg] at hread
    rw [if_neg Bool.false_ne_true, List.nil_append, readDecimal, hread, Option.map_some,
      Decimal.Spelling.decimal, hsneg]
    intro t ht
    obtain ⟨k, int, hcons⟩ := List.exists_cons_of_ne_nil hne
    rw [unsignedText, hcons, List.map_cons, List.cons_append] at ht
    have hhead : Nat.digitChar k = '-' := (List.cons.inj ht).1
    exact (digitChar_spec (hint k (hcons ▸ List.mem_cons_self))).2.2 '-' (by simp) hhead

/-- Zero is spelled `0`. -/
theorem constantText_zero (exp : Int) : constantText (.finite ⟨false, 0, exp⟩) = ['0'] := by
  have hdigits : Numeral.digits 10 0 = [0] := Numeral.digits_of_lt (by decide)
  have hnormal : ((⟨false, 0, exp⟩ : Decimal).round 20).normalize = ⟨false, 0, 0⟩ := by
    simp [Decimal.round, hdigits, Decimal.normalize]
  have hspelling : (⟨false, 0, 0⟩ : Decimal).engSpelling = ⟨false, [0], [], none⟩ := by
    simp [Decimal.engSpelling, hdigits]
  rw [constantText_finite, hnormal, hspelling]
  rfl

/-- The `float` -0.0. -/
def PyNumber.IsNegZero (value : PyNumber) : Prop :=
  match value with
  | .finite d => d.neg = true ∧ d.coeff = 0
  | _ => False

/-- A constant that denotes zero is spelled `0`, unless it was made from -0.0. -/
theorem constantText_of_value_zero {value : PyNumber} (hvalue : ¬ value.IsNegZero)
    (h : constantValue (constantText value) = some 0) : constantText value = ['0'] := by
  cases value with
  | infinity neg =>
    have hnone : constantValue (constantText (.infinity neg)) = none := by cases neg <;> rfl
    rw [hnone] at h
    cases h
  | nan =>
    have hnone : constantValue (constantText .nan) = none := rfl
    rw [hnone] at h
    cases h
  | finite d =>
    rw [constantValue_finite, Option.some.injEq, Decimal.value_eq_zero_iff,
      Decimal.coeff_round_eq_zero_iff (by decide)] at h
    obtain ⟨neg, coeff, exp⟩ := d
    simp only at h
    subst h
    cases neg with
    | true => exact absurd ⟨rfl, rfl⟩ hvalue
    | false => exact constantText_zero exp

end PmuEvents.Metric
