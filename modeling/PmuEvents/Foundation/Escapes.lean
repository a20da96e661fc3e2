import Mathlib.Data.List.Basic
set_option autoImplicit false

/-!
# Sequences with an escape symbol

Sequences of plain symbols and of pairs: the escape symbol and one symbol after it.
The span takes the longest such beginning of a sequence; together with a delimiter
after it, that is how names and string literals are scanned.
-/

namespace PmuEvents.Foundation

variable {σ : Type} [DecidableEq σ]

section Escapes

variable (esc : σ) (plain escaped : σ → Bool)

/-- Plain symbols, and escaped symbols after the escape symbol. -/
def escapes : List σ → Bool
  | c :: d :: t =>
    if c = esc then escaped d && escapes t else plain c && escapes (d :: t)
  | [c] => c ≠ esc && plain c
  | [] => true

/-- The longest beginning of plain symbols and pairs, and what follows it. -/
def spanEscapes : List σ → List σ × List σ
  | c :: d :: t =>
    if c = esc then
      if escaped d then (c :: d :: (spanEscapes t).1, (spanEscapes t).2) else ([], c :: d :: t)
    else if plain c then (c :: (spanEscapes (d :: t)).1, (spanEscapes (d :: t)).2)
    else ([], c :: d :: t)
  | [c] => if c ≠ esc ∧ plain c then ([c], []) else ([], [c])
  | [] => ([], [])

end Escapes

section Rules

variable {esc : σ} {plain escaped : σ → Bool}

theorem escapes_pair (d : σ) (t : List σ) :
    escapes esc plain escaped (esc :: d :: t) = (escaped d && escapes esc plain escaped t) := by
  rw [escapes, if_pos rfl]

theorem escapes_cons {c : σ} (hc : c ≠ esc) (t : List σ) :
    escapes esc plain escaped (c :: t) = (plain c && escapes esc plain escaped t) := by
  cases t with
  | nil => simp [escapes, hc]
  | cons d t => rw [escapes, if_neg hc]

theorem spanEscapes_pair {d : σ} (hd : escaped d = true) (t : List σ) :
    spanEscapes esc plain escaped (esc :: d :: t) =
      (esc :: d :: (spanEscapes esc plain escaped t).1, (spanEscapes esc plain escaped t).2) := by
  rw [spanEscapes, if_pos rfl, if_pos hd]

theorem spanEscapes_cons {c : σ} (hc : c ≠ esc) (hplain : plain c = true) (t : List σ) :
    spanEscapes esc plain escaped (c :: t) =
      (c :: (spanEscapes esc plain escaped t).1, (spanEscapes esc plain escaped t).2) := by
  cases t with
  | nil => simp [spanEscapes, hc, hplain]
  | cons d t => rw [spanEscapes, if_neg hc, if_pos hplain]

theorem spanEscapes_stop {c : σ} (hc : c ≠ esc) (hplain : plain c = false) (t : List σ) :
    spanEscapes esc plain escaped (c :: t) = ([], c :: t) := by
  cases t with
  | nil => simp [spanEscapes, hplain]
  | cons d t => rw [spanEscapes, if_neg hc, hplain, if_neg Bool.false_ne_true]

/-- Unit by unit. -/
theorem escapes_induction {motive : (s : List σ) → escapes esc plain escaped s = true → Prop}
    (nil : motive [] rfl)
    (pair : ∀ d t (hd : escaped d = true) (ht : escapes esc plain escaped t = true), motive t ht →
      motive (esc :: d :: t) (by rw [escapes_pair, hd, ht, Bool.true_and]))
    (cons : ∀ c t (hc : c ≠ esc) (hplain : plain c = true)
      (ht : escapes esc plain escaped t = true), motive t ht →
      motive (c :: t) (by rw [escapes_cons hc, hplain, ht, Bool.true_and]))
    {s : List σ} (h : escapes esc plain escaped s = true) : motive s h := by
  fun_induction escapes esc plain escaped s with
  | case1 d t ih =>
    have hunit := h
    rw [escapes_pair, Bool.and_eq_true] at hunit
    exact pair d t hunit.1 hunit.2 (ih hunit.2)
  | case2 c d t hc ih =>
    have hunit := h
    rw [escapes_cons hc, Bool.and_eq_true] at hunit
    exact cons c (d :: t) hc hunit.1 hunit.2 (ih hunit.2)
  | case3 c =>
    have hunit := h
    rw [escapes, Bool.and_eq_true] at hunit
    exact cons c [] (of_decide_eq_true hunit.1) hunit.2 rfl nil
  | case4 => exact nil

/-- Where whole units end, they end for every kind of plain and escaped symbols. -/
theorem escapes_of_append {plain' escaped' : σ → Bool} {s t : List σ}
    (hs : escapes esc plain escaped s = true)
    (h : escapes esc plain' escaped' (s ++ t) = true) : escapes esc plain' escaped' t = true := by
  induction hs using escapes_induction with
  | nil => exact h
  | pair d s hd hs ih =>
    rw [List.cons_append, List.cons_append, escapes_pair, Bool.and_eq_true] at h
    exact ih h.2
  | cons c s hc hplain hs ih =>
    rw [List.cons_append, escapes_cons hc, Bool.and_eq_true] at h
    exact ih h.2

/-- Plain symbols alone. -/
theorem escapes_of_all {s : List σ} (h : ∀ c ∈ s, c ≠ esc ∧ plain c = true) :
    escapes esc plain escaped s = true := by
  induction s with
  | nil => rfl
  | cons c s ih =>
    obtain ⟨hc, hplain⟩ := h c List.mem_cons_self
    rw [escapes_cons hc, hplain, ih fun d hd => h d (List.mem_cons_of_mem c hd), Bool.true_and]

/-- A change of symbols that keeps every kind of symbol. -/
theorem escapes_map {f : σ → σ} (hesc : f esc = esc)
    (hplain : ∀ c, c ≠ esc → plain c = true → f c ≠ esc ∧ plain (f c) = true)
    (hescaped : ∀ d, escaped d = true → escaped (f d) = true) {s : List σ}
    (h : escapes esc plain escaped s = true) : escapes esc plain escaped (s.map f) = true := by
  induction h using escapes_induction with
  | nil => rfl
  | pair d s hd hs ih =>
    rw [List.map_cons, List.map_cons, hesc, escapes_pair, hescaped d hd, ih, Bool.true_and]
  | cons c s hc hp hs ih =>
    obtain ⟨hfc, hfp⟩ := hplain c hc hp
    rw [List.map_cons, escapes_cons hfc, hfp, ih, Bool.true_and]

/-- A symbol that is not plain comes after the escape symbol only. -/
theorem eq_esc_of_not_plain {s pre suf : List σ} {c d : σ}
    (h : escapes esc plain escaped s = true) (hs : s = pre ++ c :: d :: suf)
    (hd : d ≠ esc) (hplain : plain d = false) : c = esc := by
  have hhead : ∀ {t u : List σ}, escapes esc plain escaped t = true → t ≠ d :: u := by
    rintro t u ht rfl
    rw [escapes_cons hd, hplain, Bool.false_and] at ht
    cases ht
  induction h using escapes_induction generalizing pre with
  | nil => simp at hs
  | pair d' s hd' hs' ih =>
    match pre with
    | [] => exact (List.cons.inj hs).1.symm
    | [_] =>
      simp only [List.cons_append, List.nil_append, List.cons.injEq] at hs
      exact absurd hs.2.2 (hhead hs')
    | _ :: _ :: pre =>
      simp only [List.cons_append, List.cons.injEq] at hs
      exact ih hs.2.2
  | cons c' s hc' hp' hs' ih =>
    match pre with
    | [] =>
      simp only [List.nil_append, List.cons.injEq] at hs
      exact absurd hs.2 (hhead hs')
    | _ :: pre =>
      simp only [List.cons_append, List.cons.injEq] at hs
      exact ih hs.2

/-! ## The span -/

/-- The span is such a sequence, and none goes on after it. -/
theorem spanEscapes_spec (t : List σ) :
    t = (spanEscapes esc plain escaped t).1 ++ (spanEscapes esc plain escaped t).2 ∧
      escapes esc plain escaped (spanEscapes esc plain escaped t).1 = true ∧
      spanEscapes esc plain escaped (spanEscapes esc plain escaped t).2 =
        ([], (spanEscapes esc plain escaped t).2) := by
  fun_induction spanEscapes esc plain escaped t with
  | case1 d t hd ih =>
    obtain ⟨hsplit, hall, hstop⟩ := ih
    refine ⟨?_, ?_, hstop⟩
    · rw [List.cons_append, List.cons_append, ← hsplit]
    · rw [escapes_pair, hd, hall, Bool.true_and]
  | case2 d t hd => exact ⟨rfl, rfl, by rw [spanEscapes, if_pos rfl, if_neg hd]⟩
  | case3 c d t hc hplain ih =>
    obtain ⟨hsplit, hall, hstop⟩ := ih
    refine ⟨?_, ?_, hstop⟩
    · rw [List.cons_append, ← hsplit]
    · rw [escapes_cons hc, hplain, hall, Bool.true_and]
  | case4 c d t hc hplain => exact ⟨rfl, rfl, spanEscapes_stop hc (by simpa using hplain) _⟩
  | case5 c hc => exact ⟨rfl, by simp [escapes, hc.1, hc.2], rfl⟩
  | case6 c hc => exact ⟨rfl, rfl, by rw [spanEscapes, if_neg hc]⟩
  | case7 => exact ⟨rfl, rfl, rfl⟩

theorem spanEscapes_append {s rest : List σ} (hs : escapes esc plain escaped s = true) :
    spanEscapes esc plain escaped (s ++ rest) =
      (s ++ (spanEscapes esc plain escaped rest).1, (spanEscapes esc plain escaped rest).2) := by
  induction hs using escapes_induction with
  | nil => rfl
  | pair d s hd hs ih => rw [List.cons_append, List.cons_append, spanEscapes_pair hd, ih]; rfl
  | cons c s hc hplain hs ih => rw [List.cons_append, spanEscapes_cons hc hplain, ih]; rfl

end Rules

/-! ## Up to a delimiter -/

section Delimited

variable (esc : σ) (plain escaped : σ → Bool) (delimiter : σ)

/-- The sequence before a delimiter, and what follows the delimiter. -/
def readDelimited (t : List σ) : Option (List σ × List σ) :=
  match (spanEscapes esc plain escaped t).2 with
  | c :: rest => if c = delimiter then some ((spanEscapes esc plain escaped t).1, rest) else none
  | [] => none

variable {esc plain escaped delimiter}

/-- A delimiter that is neither the escape symbol nor plain ends every such sequence. -/
theorem readDelimited_eq_some (hesc : delimiter ≠ esc) (hplain : plain delimiter = false)
    {t s rest : List σ} :
    readDelimited esc plain escaped delimiter t = some (s, rest) ↔
      t = s ++ delimiter :: rest ∧ escapes esc plain escaped s = true := by
  constructor
  · intro h
    obtain ⟨hsplit, hall, -⟩ := @spanEscapes_spec σ _ esc plain escaped t
    rw [readDelimited] at h
    split at h
    · rename_i c rest' hrest
      split at h
      · rename_i hc
        simp only [Option.some.injEq, Prod.mk.injEq] at h
        obtain ⟨rfl, rfl⟩ := h
        rw [hrest, hc] at hsplit
        exact ⟨hsplit, hall⟩
      · cases h
    · cases h
  · rintro ⟨rfl, hs⟩
    rw [readDelimited, spanEscapes_append hs, spanEscapes_stop hesc hplain]
    simp

end Delimited

end PmuEvents.Foundation
