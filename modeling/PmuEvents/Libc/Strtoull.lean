import PmuEvents.Foundation.Numeral
import PmuEvents.Libc.CString
set_option autoImplicit false

/-!
# C library: `strtoull`

The documented behaviour of `strtoull` and, on a platform with 64-bit `long`, of
`strtoul`: leading white space, an optional sign, an optional `0x` in base 16,
then the longest run of digits.  A number of `2^64` or more is clamped to
`ULLONG_MAX` and reported in `errno`; a minus sign negates in the unsigned type;
when there is no digit at all the end pointer is the start of the string.
-/

namespace PmuEvents.Libc

open PmuEvents.Foundation

/-- `isspace` in the C locale. -/
def isSpace (b : UInt8) : Bool := b = 0x20 || (0x09 ≤ b && b ≤ 0x0d)

/-- The value of an alphanumeric byte as a digit, if it is below `base`. -/
def digitIn (base : Nat) (b : UInt8) : Option Nat :=
  let d :=
    if 0x30 ≤ b ∧ b ≤ 0x39 then b.toNat - 0x30
    else if 0x61 ≤ b ∧ b ≤ 0x7a then b.toNat - 0x57
    else if 0x41 ≤ b ∧ b ≤ 0x5a then b.toNat - 0x37
    else base
  if d < base then some d else none

/-- The longest run of digits at the start of a string, and what follows it. -/
def takeDigits (base : Nat) : CStr → List Nat × CStr
  | [] => ([], [])
  | b :: s =>
    match digitIn base b with
    | none => ([], b :: s)
    | some d => (d :: (takeDigits base s).1, (takeDigits base s).2)

/-- The `0x` or `0X` that base 16 allows; it is taken only before a hexadecimal digit. -/
def skipHexPrefix : CStr → CStr
  | z :: x :: b :: s =>
    if z = chr '0' ∧ (x = chr 'x' ∨ x = chr 'X') ∧ (digitIn 16 b).isSome then b :: s
    else z :: x :: b :: s
  | s => s

/-- The optional sign: whether it is a minus, and what follows it. -/
def takeSign : CStr → Bool × CStr
  | [] => (false, [])
  | b :: s =>
    if b = chr '-' then (true, s) else if b = chr '+' then (false, s) else (false, b :: s)

/-- What `strtoull` leaves behind: its value, `*endptr`, and whether it set `errno`. -/
structure Strto where
  value : U64
  endptr : CStr
  erange : Bool
  deriving DecidableEq, Repr

/-- `strtoull(nptr, &endptr, base)` for `base` 10 or 16. -/
def strtoull (base : Nat) (nptr : CStr) : Strto :=
  let signed := takeSign (nptr.dropWhile isSpace)
  let run := takeDigits base (if base = 16 then skipHexPrefix signed.2 else signed.2)
  if run.1 = [] then { value := 0, endptr := nptr, erange := false }
  else
    let n := Numeral.value base run.1
    if 2 ^ 64 ≤ n then { value := BitVec.allOnes 64, endptr := run.2, erange := true }
    else
      { value := if signed.1 then -BitVec.ofNat 64 n else BitVec.ofNat 64 n
        endptr := run.2
        erange := false }

/-! ## Digits -/

/-- The byte of `Nat.digitChar d` is a digit of every base above `d`, and denotes `d`. -/
theorem digitIn_digitChar {base d : Nat} (hd : d < base) (hb : base ≤ 16) :
    digitIn base (chr (Nat.digitChar d)) = some d := by
  have h : ∀ k : Fin 16, ∀ b : Fin 17, k.val < b.val →
      digitIn b.val (chr (Nat.digitChar k.val)) = some k.val := by decide
  exact h ⟨d, by omega⟩ ⟨base, by omega⟩ hd

/-- No byte below `'0'` is a digit; white space and the signs are there. -/
theorem le_of_digitIn {base : Nat} {b : UInt8} (h : (digitIn base b).isSome) :
    0x30 ≤ b.toNat := by
  by_contra hb
  have h1 : ¬ (0x30 ≤ b) := by rw [UInt8.le_iff_toNat_le]; exact hb
  have h2 : ¬ (0x61 ≤ b) := by rw [UInt8.le_iff_toNat_le]; simp; omega
  have h3 : ¬ (0x41 ≤ b) := by rw [UInt8.le_iff_toNat_le]; simp; omega
  simp [digitIn, h1, h2, h3] at h

theorem isSpace_lt {b : UInt8} (h : isSpace b) : b.toNat < 0x30 := by
  simp only [isSpace, Bool.or_eq_true, Bool.and_eq_true, decide_eq_true_eq,
    UInt8.le_iff_toNat_le] at h
  rcases h with rfl | ⟨_, h⟩
  · decide
  · exact Nat.lt_of_le_of_lt h (by decide)

/-- A run of digits that no further digit follows is taken whole. -/
theorem takeDigits_append {base : Nat} {s r : CStr}
    (hs : ∀ b ∈ s, (digitIn base b).isSome) (hr : ∀ b ∈ r.head?, digitIn base b = none) :
    takeDigits base (s ++ r) = (s.filterMap (digitIn base), r) := by
  induction s with
  | nil =>
    cases r with
    | nil => rfl
    | cons b r =>
      have hb : digitIn base b = none := hr b (by simp)
      simp [takeDigits, hb]
  | cons b s ih =>
    simp only [List.mem_cons, forall_eq_or_imp] at hs
    obtain ⟨d, hd⟩ := Option.isSome_iff_exists.mp hs.1
    simp [takeDigits, hd, ih hs.2]

/-! ## Numerals -/

/-- The result of `strtoull` on a plain numeral of value `n`. -/
def clamped (n : Nat) (rest : CStr) : Strto :=
  if 2 ^ 64 ≤ n then { value := BitVec.allOnes 64, endptr := rest, erange := true }
  else { value := BitVec.ofNat 64 n, endptr := rest, erange := false }

@[simp] theorem clamped_endptr (n : Nat) (rest : CStr) : (clamped n rest).endptr = rest := by
  unfold clamped
  split <;> rfl

/-- The value is `n` itself below `2^64`, and `2^64 - 1` from there on. -/
theorem clamped_toNat (n : Nat) (rest : CStr) :
    (clamped n rest).value.toNat = min n (2 ^ 64 - 1) := by
  unfold clamped
  split
  · rename_i h
    have : (BitVec.allOnes 64).toNat = 2 ^ 64 - 1 := by simp
    simp only [this]
    omega
  · rename_i h
    have : n % 2 ^ 64 = n := Nat.mod_eq_of_lt (by omega)
    simp only [BitVec.toNat_ofNat, this]
    omega

/-- A string that starts with a digit has neither white space nor a sign to skip. -/
theorem takeSign_of_digit {base : Nat} {b : UInt8} {s : CStr}
    (h : (digitIn base b).isSome) :
    takeSign ((b :: s).dropWhile isSpace) = (false, b :: s) := by
  have hle := le_of_digitIn h
  have hsp : isSpace b = false := by
    by_contra hs
    have := isSpace_lt (by simpa using hs)
    omega
  have hminus : b ≠ chr '-' := by
    rintro rfl
    exact absurd hle (by decide)
  have hplus : b ≠ chr '+' := by
    rintro rfl
    exact absurd hle (by decide)
  simp [List.dropWhile, hsp, takeSign, hminus, hplus]

/-- A run of digits reads as its value, and stops before what follows it. -/
theorem strtoull_digits {base : Nat} {s r : CStr} (hne : s ≠ [])
    (hs : ∀ b ∈ s, (digitIn base b).isSome) (hr : ∀ b ∈ r.head?, digitIn base b = none)
    (hx : base = 16 → skipHexPrefix (s ++ r) = s ++ r) :
    strtoull base (s ++ r) =
      clamped (Numeral.value base (s.filterMap (digitIn base))) r := by
  obtain ⟨b, t, rfl⟩ := List.exists_cons_of_ne_nil hne
  have hb : (digitIn base b).isSome := hs b List.mem_cons_self
  obtain ⟨d, hd⟩ := Option.isSome_iff_exists.mp hb
  have hskip : (if base = 16 then skipHexPrefix (b :: t ++ r) else b :: t ++ r) =
      b :: t ++ r := by
    split
    · rename_i h
      exact hx h
    · rfl
  have hsign := takeSign_of_digit (s := t ++ r) hb
  unfold strtoull
  simp only [List.cons_append] at hsign hskip ⊢
  simp only [hsign, hskip]
  rw [← List.cons_append, takeDigits_append hs hr]
  simp [clamped, hd]

/-! ## The numerals of `Nat.toDigits` -/

theorem digitChar_ascii {d : Nat} (h : d < 16) : (Nat.digitChar d).toNat < 128 := by
  have hall : ∀ k : Fin 16, (Nat.digitChar k.val).toNat < 128 := by decide
  exact hall ⟨d, h⟩

theorem utf8_toDigits {base : Nat} (hb : 1 < base) (hb' : base ≤ 16) (n : Nat) :
    utf8 (Nat.toDigits base n) =
      (Numeral.digits base n).map fun d => chr (Nat.digitChar d) := by
  rw [Numeral.toDigits_eq_map_digits hb, utf8_of_ascii, List.map_map]
  · rfl
  · intro c hc
    obtain ⟨d, hd, rfl⟩ := List.mem_map.mp hc
    exact digitChar_ascii (Nat.lt_of_lt_of_le (Numeral.digits_lt hb n d hd) hb')

/-- The spelled digits of a smaller base are digits of a wider one, with the same values. -/
theorem filterMap_digitIn_toDigits {base wide : Nat} (hb : 1 < base) (hw : base ≤ wide)
    (hw' : wide ≤ 16) (n : Nat) :
    (utf8 (Nat.toDigits base n)).filterMap (digitIn wide) = Numeral.digits base n := by
  rw [utf8_toDigits hb (Nat.le_trans hw hw'), List.filterMap_map]
  conv_rhs => rw [← List.filterMap_some (l := Numeral.digits base n)]
  apply List.filterMap_congr
  intro d hd
  exact digitIn_digitChar (Nat.lt_of_lt_of_le (Numeral.digits_lt hb n d hd) hw) hw'

theorem digitIn_toDigits {base wide : Nat} (hb : 1 < base) (hw : base ≤ wide)
    (hw' : wide ≤ 16) (n : Nat) :
    ∀ b ∈ utf8 (Nat.toDigits base n), (digitIn wide b).isSome := by
  intro b hmem
  rw [utf8_toDigits hb (Nat.le_trans hw hw')] at hmem
  obtain ⟨d, hd, rfl⟩ := List.mem_map.mp hmem
  rw [digitIn_digitChar (Nat.lt_of_lt_of_le (Numeral.digits_lt hb n d hd) hw) hw']
  rfl

theorem utf8_toDigits_ne_nil {base : Nat} (hb : 1 < base) (hb' : base ≤ 16) (n : Nat) :
    utf8 (Nat.toDigits base n) ≠ [] := by
  simp [utf8_toDigits hb hb', Numeral.digits_ne_nil hb n]

theorem skipHexPrefix_of_digits {s : CStr} (hs : ∀ b ∈ s, (digitIn 16 b).isSome) :
    skipHexPrefix s = s := by
  unfold skipHexPrefix
  split
  · rename_i z x b t
    have hx : (digitIn 16 x).isSome := hs x (by simp)
    split
    · rename_i h
      rcases h.2.1 with rfl | rfl <;> exact absurd hx (by decide)
    · rfl
  · rfl

/-- A numeral of base at most `wide` read by `strtoull` in base `wide`. -/
theorem strtoull_toDigits {base wide : Nat} (hb : 1 < base) (hw : base ≤ wide)
    (hw' : wide ≤ 16) (n : Nat) :
    strtoull wide (utf8 (Nat.toDigits base n)) =
      clamped (Numeral.value wide (Numeral.digits base n)) [] := by
  have h := strtoull_digits (r := []) (utf8_toDigits_ne_nil hb (Nat.le_trans hw hw') n)
    (digitIn_toDigits hb hw hw' n) (by simp)
    (fun h16 => by
      subst h16
      rw [List.append_nil]
      exact skipHexPrefix_of_digits (digitIn_toDigits hb hw hw' n))
  rw [List.append_nil, filterMap_digitIn_toDigits hb hw hw' n] at h
  exact h

/-- Hexadecimal digits read as their value. -/
theorem strtoull_hexDigits {s : CStr} (hne : s ≠ []) (hs : ∀ b ∈ s, (digitIn 16 b).isSome) :
    strtoull 16 s = clamped (Numeral.value 16 (s.filterMap (digitIn 16))) [] := by
  have h := strtoull_digits (r := []) hne hs (by simp)
    (fun _ => by rw [List.append_nil]; exact skipHexPrefix_of_digits hs)
  rwa [List.append_nil] at h

/-- In base 16 a `0x` or `0X` in front of hexadecimal digits is skipped. -/
theorem strtoull_prefixedDigits {x : UInt8} (hx : x = chr 'x' ∨ x = chr 'X') {s : CStr}
    (hne : s ≠ []) (hs : ∀ b ∈ s, (digitIn 16 b).isSome) :
    strtoull 16 (chr '0' :: x :: s) =
      clamped (Numeral.value 16 (s.filterMap (digitIn 16))) [] := by
  rw [← strtoull_hexDigits hne hs]
  obtain ⟨b, t, rfl⟩ := List.exists_cons_of_ne_nil hne
  have hb : (digitIn 16 b).isSome := hs b List.mem_cons_self
  have hzero : (digitIn 16 (chr '0')).isSome := by decide
  have hsign := takeSign_of_digit (s := x :: b :: t) hzero
  have hskip : skipHexPrefix (chr '0' :: x :: b :: t) = skipHexPrefix (b :: t) := by
    rw [skipHexPrefix_of_digits hs]
    simp [skipHexPrefix, hb, hx]
  -- both runs strip the same digits; only `nptr` differs, and a digit is always found
  have hfound : (takeDigits 16 (skipHexPrefix (b :: t))).1 ≠ [] := by
    rw [skipHexPrefix_of_digits hs]
    obtain ⟨d, hd⟩ := Option.isSome_iff_exists.mp hb
    simp [takeDigits, hd]
  unfold strtoull
  simp only [hsign, takeSign_of_digit (s := t) hb, hskip, if_true, hfound, if_false]

/-- In base 16 a `0x` in front of a hexadecimal numeral is skipped. -/
theorem strtoull_hexPrefix (n : Nat) :
    strtoull 16 (cs "0x" ++ utf8 (Nat.toDigits 16 n)) = clamped n [] := by
  have hbase : 1 < 16 := by decide
  have hread := strtoull_prefixedDigits (.inl rfl) (utf8_toDigits_ne_nil hbase (Nat.le_refl 16) n)
    (digitIn_toDigits hbase (Nat.le_refl 16) (Nat.le_refl 16) n)
  rwa [filterMap_digitIn_toDigits hbase (Nat.le_refl 16) (Nat.le_refl 16),
    Numeral.value_digits hbase] at hread

end PmuEvents.Libc
