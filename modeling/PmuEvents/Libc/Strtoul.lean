import PmuEvents.Libc.Strtoull
set_option autoImplicit false

/-!
# C library: `strtoul` with the base taken from the number

With base 0 a number that starts with `0x` is hexadecimal, one that starts with `0` is
octal, and every other one is decimal.  `unsigned long` has 64 bits.
-/

namespace PmuEvents.Libc

open PmuEvents.Foundation

/-- The base a number is written in, and its digits. -/
def detectBase (s : CStr) : Nat × CStr :=
  if skipHexPrefix s ≠ s then (16, skipHexPrefix s)
  else if s.head? = some (chr '0') then (8, s)
  else (10, s)

/-- `strtoul(nptr, &endptr, 0)`. -/
def strtoul (nptr : CStr) : Strto :=
  let signed := takeSign (nptr.dropWhile isSpace)
  let number := detectBase signed.2
  let run := takeDigits number.1 number.2
  if run.1 = [] then { value := 0, endptr := nptr, erange := false }
  else
    let n := Numeral.value number.1 run.1
    if 2 ^ 64 ≤ n then { value := BitVec.allOnes 64, endptr := run.2, erange := true }
    else
      { value := if signed.1 then -BitVec.ofNat 64 n else BitVec.ofNat 64 n
        endptr := run.2
        erange := false }

/-- Nothing that could continue a number in any base. -/
def NoAlnum (rest : CStr) : Prop := ∀ b ∈ rest.head?, digitIn 36 b = none

theorem digitIn_eq_none_of_le {base wide : Nat} (h : base ≤ wide) {b : UInt8}
    (hb : digitIn wide b = none) : digitIn base b = none := by
  unfold digitIn at hb ⊢
  by_cases hdigit : 0x30 ≤ b ∧ b ≤ 0x39
  · simp only [hdigit, and_self, if_true, ite_eq_right_iff, reduceCtorEq, imp_false] at hb ⊢
    omega
  · by_cases hlower : 0x61 ≤ b ∧ b ≤ 0x7a
    · simp only [hdigit, hlower, and_self, if_true, if_false, ite_eq_right_iff, reduceCtorEq,
        imp_false] at hb ⊢
      omega
    · by_cases hupper : 0x41 ≤ b ∧ b ≤ 0x5a
      · simp only [hdigit, hlower, hupper, and_self, if_true, if_false, ite_eq_right_iff,
          reduceCtorEq, imp_false] at hb ⊢
        omega
      · simp [hdigit, hlower, hupper]

/-! ## Where a number ends -/

theorem length_takeDigits_le (base : Nat) (s : CStr) : (takeDigits base s).2.length ≤ s.length := by
  induction s with
  | nil => exact Nat.le_refl _
  | cons b s ih =>
    unfold takeDigits
    cases digitIn base b with
    | none => exact Nat.le_refl _
    | some d => exact Nat.le_succ_of_le ih

theorem length_skipHexPrefix_le (s : CStr) : (skipHexPrefix s).length ≤ s.length := by
  unfold skipHexPrefix
  split
  · split
    · simp only [List.length_cons]
      omega
    · exact Nat.le_refl _
  · exact Nat.le_refl _

theorem length_takeSign_le (s : CStr) : (takeSign s).2.length ≤ s.length := by
  cases s with
  | nil => exact Nat.le_refl _
  | cons b s =>
    simp only [takeSign]
    split_ifs <;> simp

theorem length_endptr_le (s : CStr) : (strtoul s).endptr.length ≤ s.length := by
  have hsign := length_takeSign_le (s.dropWhile isSpace)
  have hspace := (List.dropWhile_suffix isSpace (l := s)).length_le
  have hbase : (detectBase (takeSign (s.dropWhile isSpace)).2).2.length ≤
      (takeSign (s.dropWhile isSpace)).2.length := by
    unfold detectBase
    split_ifs
    · exact length_skipHexPrefix_le _
    · exact Nat.le_refl _
    · exact Nat.le_refl _
  have hdigits := length_takeDigits_le (detectBase (takeSign (s.dropWhile isSpace)).2).1
    (detectBase (takeSign (s.dropWhile isSpace)).2).2
  unfold strtoul
  dsimp only
  split_ifs <;> dsimp only <;> omega

/-! ## Numbers without a prefix -/

/-- A number of two characters or more has a prefix only if it starts with a zero. -/
theorem skipHexPrefix_of_ne {b : UInt8} {s : CStr} (h : b ≠ chr '0') :
    skipHexPrefix (b :: s) = b :: s := by
  unfold skipHexPrefix
  split
  · rename_i z x c t heq
    obtain ⟨rfl, rfl⟩ := List.cons.inj heq
    rw [if_neg fun hz => h hz.1]
  · rfl

/-- A number that starts with a digit other than zero is decimal. -/
theorem strtoul_eq_strtoull {b : UInt8} {s : CStr} (hb : (digitIn 10 b).isSome)
    (hzero : b ≠ chr '0') : strtoul (b :: s) = strtoull 10 (b :: s) := by
  have hbase : detectBase (b :: s) = (10, b :: s) := by
    rw [detectBase, skipHexPrefix_of_ne hzero, if_neg (not_not_intro rfl),
      List.head?_cons,
      if_neg fun h => hzero (Option.some.inj h)]
  have hnot : ¬ (10 = 16) := by decide
  unfold strtoul strtoull
  simp only [takeSign_of_digit hb, hbase, if_neg hnot]

/-- A zero that no digit and no `x` follows. -/
theorem strtoul_zero {rest : CStr} (hrest : NoAlnum rest) :
    strtoul (chr '0' :: rest) = clamped 0 rest := by
  have hdigit : (digitIn 10 (chr '0')).isSome := by decide
  have hskip : skipHexPrefix (chr '0' :: rest) = chr '0' :: rest := by
    unfold skipHexPrefix
    split
    · rename_i z x b t heq
      obtain ⟨rfl, rfl⟩ := List.cons.inj heq
      have hx : digitIn 36 x = none := hrest x rfl
      rw [if_neg]
      rintro ⟨-, rfl | rfl, -⟩ <;> exact absurd hx (by decide)
    · rfl
  have hbase : detectBase (chr '0' :: rest) = (8, chr '0' :: rest) := by
    rw [detectBase, hskip, if_neg (not_not_intro rfl), List.head?_cons, if_pos rfl]
  have hrun : takeDigits 8 (chr '0' :: rest) = ([0], rest) :=
    takeDigits_append (s := [chr '0']) (by decide +kernel) fun b hb =>
      digitIn_eq_none_of_le (by decide) (hrest b hb)
  unfold strtoul
  simp only [takeSign_of_digit hdigit, hbase, hrun]
  rfl

theorem digitChar_ne_zero : ∀ d : Fin 10, d.val ≠ 0 → chr (Nat.digitChar d.val) ≠ chr '0' := by
  decide

/-- A decimal numeral reads as its value, and stops before what follows it. -/
theorem strtoul_toDigits (n : Nat) {rest : CStr} (hrest : NoAlnum rest) :
    strtoul (utf8 (Nat.toDigits 10 n) ++ rest) = clamped n rest := by
  have hten : 1 < 10 := by decide
  rcases Nat.eq_zero_or_pos n with rfl | hpos
  · exact strtoul_zero hrest
  · obtain ⟨b, s, hcons⟩ :=
      List.exists_cons_of_ne_nil (utf8_toDigits_ne_nil hten (by decide) n)
    have hdigits := digitIn_toDigits hten (Nat.le_refl 10) (by decide) n
    have hread := strtoull_digits (List.cons_ne_nil b s) (by rwa [hcons] at hdigits)
      (fun b hb => digitIn_eq_none_of_le (by decide) (hrest b hb)) (fun h => by cases h)
    have hzero : b ≠ chr '0' := by
      obtain ⟨d, digits, hd⟩ := List.exists_cons_of_ne_nil (Numeral.digits_ne_nil hten n)
      have hlead := Numeral.head_digits_ne_zero hten hpos d (by rw [hd]; rfl)
      have hlt := Numeral.digits_lt hten n d (by rw [hd]; exact List.mem_cons_self)
      rw [utf8_toDigits hten (by decide), hd] at hcons
      rw [← (List.cons.inj hcons).1]
      exact digitChar_ne_zero ⟨d, hlt⟩ hlead
    rw [hcons, List.cons_append,
      strtoul_eq_strtoull (hdigits b (by rw [hcons]; exact List.mem_cons_self)) hzero,
      ← List.cons_append, hread, ← hcons,
      filterMap_digitIn_toDigits hten (Nat.le_refl 10) (by decide), Numeral.value_digits hten]

end PmuEvents.Libc
