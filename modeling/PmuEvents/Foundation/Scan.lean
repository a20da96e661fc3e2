import Mathlib.Data.List.Basic
set_option autoImplicit false

/-!
# Scanning from left to right

Two ways to go over a sequence of symbols.  A substitution replaces the matches of
a pattern, taken from the left without overlaps, and copies the symbols between
them; a tokenizer has to make something of every symbol.  Both work through a
sequence piece by piece: what happens to a piece depends on it and on what follows.
A symbol that does not occur in a piece marks where the piece ends.
-/

namespace PmuEvents.Foundation

variable {σ β : Type}

/-! ## Separators -/

/-- The first occurrence of a symbol splits a sequence in one way only. -/
theorem split_unique {c : σ} {before before' after after' : List σ} (hbefore : c ∉ before)
    (hbefore' : c ∉ before') (h : before ++ c :: after = before' ++ c :: after') :
    before = before' ∧ after = after' := by
  induction before generalizing before' with
  | nil =>
    cases before' with
    | nil => exact ⟨rfl, (List.cons.inj h).2⟩
    | cons d before' =>
      obtain rfl := (List.cons.inj h).1
      exact absurd List.mem_cons_self hbefore'
  | cons b before ih =>
    cases before' with
    | nil =>
      obtain rfl := (List.cons.inj h).1
      exact absurd List.mem_cons_self hbefore
    | cons d before' =>
      obtain ⟨rfl, hrest⟩ := List.cons.inj h
      rw [List.mem_cons, not_or] at hbefore hbefore'
      obtain ⟨rfl, hafter⟩ := ih hbefore.2 hbefore'.2 hrest
      exact ⟨rfl, hafter⟩

/-- The last occurrence of a symbol splits a sequence in one way only. -/
theorem split_unique_last {c : σ} {before before' after after' : List σ} (hafter : c ∉ after)
    (hafter' : c ∉ after') (h : before ++ c :: after = before' ++ c :: after') :
    before = before' ∧ after = after' := by
  have hreverse := congrArg List.reverse h
  simp only [List.reverse_append, List.reverse_cons, List.append_assoc, List.singleton_append]
    at hreverse
  obtain ⟨hafters, hbefores⟩ := split_unique (mt List.mem_reverse.mp hafter)
    (mt List.mem_reverse.mp hafter') hreverse
  exact ⟨List.reverse_injective hbefores, List.reverse_injective hafters⟩

/-! ## Substitution and tokens -/

/-- What is left of a sequence after a given beginning. -/
def afterWord [DecidableEq σ] : List σ → List σ → Option (List σ)
  | [], t => some t
  | _ :: _, [] => none
  | w :: ws, c :: t => if w = c then afterWord ws t else none

theorem afterWord_eq_some [DecidableEq σ] {w t rest : List σ} :
    afterWord w t = some rest ↔ t = w ++ rest := by
  induction w generalizing t with
  | nil => simp [afterWord]
  | cons w ws ih =>
    cases t with
    | nil => simp [afterWord]
    | cons c t =>
      rw [afterWord, List.cons_append, List.cons.injEq]
      split
      · rename_i heq
        rw [ih]
        exact ⟨fun h => ⟨heq.symm, h⟩, fun h => h.2⟩
      · rename_i hne
        simp only [reduceCtorEq, false_iff, not_and]
        exact fun heq => absurd heq.symm hne

theorem afterWord_append [DecidableEq σ] (w rest : List σ) :
    afterWord w (w ++ rest) = some rest := afterWord_eq_some.mpr rfl

/-! ## Substitution -/

/-- A pattern at the front of a sequence: what replaces the match, and what follows it. -/
abbrev Pattern (σ : Type) := List σ → Option (List σ × List σ)

/-- The substitution, when the given number of symbols belongs to the last match still. -/
def substituteFrom (pattern : Pattern σ) : Nat → List σ → List σ
  | _, [] => []
  | skip + 1, _ :: t => substituteFrom pattern skip t
  | 0, c :: t =>
    match pattern (c :: t) with
    | none => c :: substituteFrom pattern 0 t
    | some (replacement, rest) =>
      replacement ++ substituteFrom pattern (t.length - rest.length) t

/-- All matches replaced. -/
def substituteAll (pattern : Pattern σ) (t : List σ) : List σ := substituteFrom pattern 0 t

section Substitute

variable {pattern : Pattern σ}

theorem substituteFrom_append (s rest : List σ) :
    substituteFrom pattern s.length (s ++ rest) = substituteFrom pattern 0 rest := by
  induction s with
  | nil => rfl
  | cons c s ih => exact ih

@[simp] theorem substituteAll_nil : substituteAll pattern [] = [] := rfl

/-- A match in front is replaced. -/
theorem substituteAll_match {c : σ} {s rest replacement : List σ}
    (h : pattern (c :: (s ++ rest)) = some (replacement, rest)) :
    substituteAll pattern (c :: (s ++ rest)) = replacement ++ substituteAll pattern rest := by
  have hlen : (s ++ rest).length - rest.length = s.length := by
    rw [List.length_append, Nat.add_sub_cancel]
  rw [substituteAll, substituteFrom, h]
  simp only [hlen, substituteFrom_append]
  rfl

/-- A symbol at which no match begins is copied. -/
theorem substituteAll_cons {c : σ} {t : List σ} (h : pattern (c :: t) = none) :
    substituteAll pattern (c :: t) = c :: substituteAll pattern t := by
  rw [substituteAll, substituteFrom, h]
  rfl

/-- A piece in which no match begins is copied. -/
theorem substituteAll_append {s rest : List σ}
    (h : ∀ pre c suf, s = pre ++ c :: suf → pattern (c :: (suf ++ rest)) = none) :
    substituteAll pattern (s ++ rest) = s ++ substituteAll pattern rest := by
  induction s with
  | nil => rfl
  | cons c s ih =>
    rw [List.cons_append, substituteAll_cons (h [] c s rfl), List.cons_append]
    congr 1
    apply ih
    intro pre c' suf hsplit
    exact h (c :: pre) c' suf (by rw [hsplit, List.cons_append])

end Substitute

/-! ## Tokens -/

/-- The first tokens of a sequence and what follows them; `none` is an error. -/
abbrev Lexer (σ β : Type) := List σ → Option (List β × List σ)

/-- The tokens, when the given number of symbols belongs to the last one still. -/
def tokenizeFrom (lexer : Lexer σ β) : Nat → List σ → Option (List β)
  | _, [] => some []
  | skip + 1, _ :: t => tokenizeFrom lexer skip t
  | 0, c :: t =>
    match lexer (c :: t) with
    | none => none
    | some (toks, rest) =>
      (tokenizeFrom lexer (t.length - rest.length) t).map fun toks' => toks ++ toks'

/-- The tokens of a sequence. -/
def tokenize (lexer : Lexer σ β) (t : List σ) : Option (List β) := tokenizeFrom lexer 0 t

section Tokenize

variable {lexer : Lexer σ β}

theorem tokenizeFrom_append (s rest : List σ) :
    tokenizeFrom lexer s.length (s ++ rest) = tokenizeFrom lexer 0 rest := by
  induction s with
  | nil => rfl
  | cons c s ih => exact ih

@[simp] theorem tokenize_nil : tokenize lexer [] = some [] := rfl

/-- The tokens of a piece come before those of the rest. -/
theorem tokenize_piece {c : σ} {s rest : List σ} {toks : List β}
    (h : lexer (c :: (s ++ rest)) = some (toks, rest)) :
    tokenize lexer (c :: (s ++ rest)) = (tokenize lexer rest).map fun toks' => toks ++ toks' := by
  have hlen : (s ++ rest).length - rest.length = s.length := by
    rw [List.length_append, Nat.add_sub_cancel]
  rw [tokenize, tokenizeFrom, h]
  simp only [hlen, tokenizeFrom_append]
  rfl

theorem tokenize_error {c : σ} {t : List σ} (h : lexer (c :: t) = none) :
    tokenize lexer (c :: t) = none := by
  rw [tokenize, tokenizeFrom, h]

/-- A lexer whose tokens are followed by an end of the sequence it was given. -/
def Advances (lexer : Lexer σ β) : Prop :=
  ∀ c t toks rest, lexer (c :: t) = some (toks, rest) → ∃ s, t = s ++ rest

/-- What holds of the empty sequence and is kept by every token in front holds of every
sequence and its tokens. -/
theorem tokenize_induction (hadvances : Advances lexer) {motive : List σ → List β → Prop}
    (nil : motive [] [])
    (step : ∀ c t toks rest toks', lexer (c :: t) = some (toks, rest) →
      motive rest toks' → motive (c :: t) (toks ++ toks'))
    {t : List σ} {toks : List β} (h : tokenize lexer t = some toks) : motive t toks := by
  induction hn : t.length using Nat.strongRecOn generalizing t toks with
  | _ n ih =>
    cases t with
    | nil =>
      obtain rfl := Option.some.inj h
      exact nil
    | cons c t =>
      cases hlex : lexer (c :: t) with
      | none =>
        rw [tokenize_error hlex] at h
        cases h
      | some r =>
        obtain ⟨s, hs⟩ := hadvances c t r.1 r.2 hlex
        subst hs
        rw [tokenize_piece hlex, Option.map_eq_some_iff] at h
        obtain ⟨toks', htoks', rfl⟩ := h
        have hlen : r.2.length < n := by
          rw [← hn, List.length_cons, List.length_append]
          omega
        exact step c _ r.1 r.2 toks' hlex (ih _ hlen htoks' rfl)

end Tokenize

end PmuEvents.Foundation
