import PmuEvents.Foundation.Utf8
set_option autoImplicit false

/-!
# C library: strings

A C string is the list of its bytes up to, and without, the terminating NUL.  A
pointer into a string is the suffix it points at, so `strchr` answers with the
suffix that starts at the byte it found and a pointer difference is a difference
of lengths.
-/

namespace PmuEvents.Libc

open PmuEvents.Foundation

/-- A C string: the bytes before its terminating NUL. -/
abbrev CStr := List UInt8

/-- `uint64_t` and `unsigned long long`. -/
abbrev U64 := BitVec 64

/-- A string literal of the C source. -/
def cs (literal : String) : CStr := utf8 literal.toList

/-- A character constant of the C source. -/
def chr (c : Char) : UInt8 := UInt8.ofNat c.toNat

/-- `strchr(s, c)` for a character `c` other than NUL. -/
def strchr : CStr → UInt8 → Option CStr
  | [], _ => none
  | b :: s, c => if b = c then some (b :: s) else strchr s c

/-- `strrchr(s, c)` for a character `c` other than NUL. -/
def strrchr : CStr → UInt8 → Option CStr
  | [], _ => none
  | b :: s, c =>
    match strrchr s c with
    | some t => some t
    | none => if b = c then some (b :: s) else none

/-- `strcmp(s, t)`, by its sign: the order of the first differing bytes as
`unsigned char`, with the terminating NUL below every other byte. -/
def strcmp : CStr → CStr → Ordering
  | [], [] => .eq
  | [], _ :: _ => .lt
  | _ :: _, [] => .gt
  | a :: s, b :: t => if a = b then strcmp s t else if a < b then .lt else .gt

theorem strchr_append {c : UInt8} {k : CStr} (r : CStr) (h : c ∉ k) :
    strchr (k ++ c :: r) c = some (c :: r) := by
  induction k with
  | nil => simp [strchr]
  | cons b k ih =>
    simp only [List.mem_cons, not_or] at h
    simp [strchr, Ne.symm h.1, ih h.2]

theorem strrchr_of_not_mem {c : UInt8} {s : CStr} (h : c ∉ s) : strrchr s c = none := by
  induction s with
  | nil => rfl
  | cons b s ih =>
    simp only [List.mem_cons, not_or] at h
    simp [strrchr, ih h.2, Ne.symm h.1]

theorem strrchr_append {c : UInt8} {t : CStr} (s : CStr) (h : c ∉ t) :
    strrchr (s ++ c :: t) c = some (c :: t) := by
  induction s with
  | nil => simp [strrchr, strrchr_of_not_mem h]
  | cons b s ih => simp [strrchr, ih]

theorem strcmp_eq_iff {s t : CStr} : strcmp s t = .eq ↔ s = t := by
  induction s generalizing t with
  | nil => cases t <;> simp [strcmp]
  | cons a s ih =>
    cases t with
    | nil => simp [strcmp]
    | cons b t =>
      by_cases h : a = b
      · simp [strcmp, h, ih]
      · by_cases hlt : a < b <;> simp [strcmp, h, hlt]

end PmuEvents.Libc
