import PmuEvents.Foundation.OperatorGrammar
import Mathlib.Data.List.Count
set_option autoImplicit false

/-!
# Expressions with their brackets

A grammar of left-associative binary operators on levels, calls, brackets, and
conditionals that need no brackets and bind weaker than all operators.  Its trees
keep the brackets that were written.  The reader returns a tree exactly where the
grammar has one, and the tokens and the tree without its brackets determine where
the brackets are.
-/

namespace PmuEvents.Foundation

variable {Op α β γ : Type}

/-- Expression trees with brackets. -/
inductive Cst (Op α : Type) where
  | atom (a : α)
  | brackets (t : Cst Op α)
  | binary (op : Op) (lhs rhs : Cst Op α)
  | cond (true_val test false_val : Cst Op α)
  | call1 (fn : α) (lhs : Cst Op α)
  | call2 (fn : α) (lhs rhs : Cst Op α)
  deriving DecidableEq, Repr

/-- A tree with its atoms and function names replaced. -/
def OpTree.map (f : α → β) : OpTree Op α → OpTree Op β
  | .atom a => .atom (f a)
  | .binary op lhs rhs => .binary op (lhs.map f) (rhs.map f)
  | .cond true_val test false_val => .cond (true_val.map f) (test.map f) (false_val.map f)
  | .call1 fn lhs => .call1 (f fn) (lhs.map f)
  | .call2 fn lhs rhs => .call2 (f fn) (lhs.map f) (rhs.map f)

namespace Cst

/-- The tokens of a tree. -/
def tokens : Cst Op α → List (OpToken Op α)
  | atom a => [.atom a]
  | brackets t => .lpar :: (t.tokens ++ [.rpar])
  | binary op lhs rhs => lhs.tokens ++ .op op :: rhs.tokens
  | cond true_val test false_val =>
    true_val.tokens ++ .if_ :: (test.tokens ++ .else_ :: false_val.tokens)
  | call1 fn lhs => .atom fn :: .lpar :: (lhs.tokens ++ [.rpar])
  | call2 fn lhs rhs => .atom fn :: .lpar :: (lhs.tokens ++ .comma :: (rhs.tokens ++ [.rpar]))

/-- The tree without its brackets. -/
def erase : Cst Op α → OpTree Op α
  | atom a => .atom a
  | brackets t => t.erase
  | binary op lhs rhs => .binary op lhs.erase rhs.erase
  | cond true_val test false_val => .cond true_val.erase test.erase false_val.erase
  | call1 fn lhs => .call1 fn lhs.erase
  | call2 fn lhs rhs => .call2 fn lhs.erase rhs.erase

section Grammar

variable (level : Op → Nat)

/-- The tree follows the grammar, and outside brackets it has operators of the
given level or above only; conditionals are on level zero. -/
def Fits : Nat → Cst Op α → Prop
  | _, atom _ => True
  | _, brackets t => Fits 0 t
  | k, binary op lhs rhs => k ≤ level op ∧ Fits (level op) lhs ∧ Fits (level op + 1) rhs
  | k, cond true_val test false_val =>
    k = 0 ∧ Fits 1 true_val ∧ Fits 1 test ∧ Fits 0 false_val
  | _, call1 _ lhs => Fits 0 lhs
  | _, call2 _ lhs rhs => Fits 0 lhs ∧ Fits 0 rhs

theorem Fits.mono {k k' : Nat} {t : Cst Op α} (h : t.Fits level k) (hk : k' ≤ k) :
    t.Fits level k' := by
  cases t with
  | binary op lhs rhs => exact ⟨Nat.le_trans hk h.1, h.2⟩
  | cond t c f => exact ⟨Nat.le_zero.mp (h.1 ▸ hk), h.2⟩
  | _ => exact h

/-! ## The reader -/

mutual

/-- An expression of a level.  On level zero a conditional may follow the operators. -/
def readExpr : Nat → Nat → List (OpToken Op α) → Option (Cst Op α × List (OpToken Op α))
  | 0, _, _ => none
  | n + 1, 0, toks =>
    match readExpr n 1 toks with
    | some (t, .if_ :: rest) =>
      match readExpr n 1 rest with
      | some (c, .else_ :: rest) =>
        match readExpr n 0 rest with
        | some (f, rest) => some (.cond t c f, rest)
        | none => none
      | _ => none
    | other => other
  | n + 1, k + 1, toks =>
    match readOperand n toks with
    | none => none
    | some (lhs, rest) => readOps n (k + 1) lhs rest

/-- An atom, a call, or an expression in brackets. -/
def readOperand : Nat → List (OpToken Op α) → Option (Cst Op α × List (OpToken Op α))
  | n + 1, .atom fn :: .lpar :: toks =>
    match readExpr n 0 toks with
    | some (x, .rpar :: rest) => some (.call1 fn x, rest)
    | some (x, .comma :: rest) =>
      match readExpr n 0 rest with
      | some (y, .rpar :: rest) => some (.call2 fn x y, rest)
      | _ => none
    | _ => none
  | _ + 1, .atom a :: toks => some (.atom a, toks)
  | n + 1, .lpar :: toks =>
    match readExpr n 0 toks with
    | some (x, .rpar :: rest) => some (.brackets x, rest)
    | _ => none
  | _, _ => none

/-- The operators after a left operand, as far as they are on the level or above. -/
def readOps : Nat → Nat → Cst Op α → List (OpToken Op α) →
    Option (Cst Op α × List (OpToken Op α))
  | n, k, lhs, .op op :: toks =>
    if k ≤ level op then
      match n with
      | 0 => none
      | n + 1 =>
        match readExpr n (level op + 1) toks with
        | none => none
        | some (rhs, rest) => readOps n k (.binary op lhs rhs) rest
    else some (lhs, .op op :: toks)
  | _, _, lhs, toks => some (lhs, toks)

end

/-- The tree of a token list: an expression and nothing after it. -/
def readTokens (toks : List (OpToken Op α)) : Option (Cst Op α) :=
  match readExpr level (3 * toks.length + 1) 0 toks with
  | some (t, []) => some t
  | _ => none

end Grammar

/-! ## The reader finds every tree of the grammar -/

section Complete

variable (level : Op → Nat)

/-- The tokens after an expression of a level: no bracket, and no operator of a
higher level. -/
def Follows (k : Nat) (rest : List (OpToken Op α)) : Prop :=
  match rest with
  | .lpar :: _ => False
  | .op op :: _ => level op ≤ k
  | _ => True

/-- The tokens after an expression of level zero. -/
def Closes : List (OpToken Op α) → Prop
  | [] | .rpar :: _ | .comma :: _ => True
  | _ => False

/-- The tokens after an expression that is part of a conditional. -/
def Stops : List (OpToken Op α) → Prop
  | [] | .rpar :: _ | .comma :: _ | .if_ :: _ | .else_ :: _ => True
  | _ => False

theorem Closes.stops {rest : List (OpToken Op α)} (h : Closes rest) : Stops rest := by
  unfold Closes at h
  unfold Stops
  split at h <;> trivial

theorem Stops.follows {rest : List (OpToken Op α)} (h : Stops rest) (k : Nat) :
    Follows level k rest := by
  unfold Stops at h
  unfold Follows
  split at h <;> trivial

theorem Follows.mono {k k' : Nat} {rest : List (OpToken Op α)} (h : Follows level k rest)
    (hk : k ≤ k') : Follows level k' rest := by
  unfold Follows at h ⊢
  split
  · exact h
  · exact Nat.le_trans h hk
  · trivial

variable {level}

/-- The operator loop stops where no operator of its level follows. -/
theorem readOps_of_follows {k k' : Nat} {rest : List (OpToken Op α)}
    (h : Follows level k rest) (hk : k < k') (n : Nat) (lhs : Cst Op α) :
    readOps level n k' lhs rest = some (lhs, rest) := by
  unfold readOps
  split
  · have hlevel : ¬ k' ≤ level _ := Nat.not_le.mpr (Nat.lt_of_le_of_lt h hk)
    rw [if_neg hlevel]
  · rfl

theorem readOps_of_stops {rest : List (OpToken Op α)} (h : Stops rest) (n k : Nat)
    (lhs : Cst Op α) : readOps level n k lhs rest = some (lhs, rest) := by
  unfold Stops at h
  split at h
  iterate 5
    rw [readOps]
    simp
  exact h.elim

/-- The reader gets through the tokens of a tree: what is left to do is the operator
loop with the tree as left operand. -/
def Reads (level : Op → Nat) (k : Nat) (t : Cst Op α) : Prop :=
  ∀ n k' rest, 3 * t.tokens.length ≤ n → k' + 1 ≤ k → Follows level k rest →
    ∃ m, m < n ∧ n ≤ m + t.tokens.length ∧
      readExpr level n (k' + 1) (t.tokens ++ rest) = readOps level m (k' + 1) t rest

/-- The reader returns the tree where an expression of level zero may end. -/
def ReadsAll (level : Op → Nat) (t : Cst Op α) : Prop :=
  ∀ n rest, 3 * t.tokens.length + 1 ≤ n → Closes rest →
    readExpr level n 0 (t.tokens ++ rest) = some (t, rest)

theorem Reads.stopped {t : Cst Op α} (h : Reads level 1 t) {n : Nat}
    (rest : List (OpToken Op α)) (hn : 3 * t.tokens.length ≤ n) (hrest : Stops rest) :
    readExpr level n 1 (t.tokens ++ rest) = some (t, rest) := by
  obtain ⟨m, -, -, hread⟩ := h n 0 rest hn (Nat.le_refl 1) (hrest.follows level 1)
  rw [hread, readOps_of_stops hrest]

/-- Without a conditional, level zero is level one. -/
theorem Reads.all {t : Cst Op α} (h : Reads level 1 t) : ReadsAll level t := by
  intro n rest hn hrest
  obtain ⟨m, rfl⟩ : ∃ m, n = m + 1 := ⟨n - 1, by omega⟩
  rw [readExpr, h.stopped rest (by omega) hrest.stops]
  unfold Closes at hrest
  split at hrest
  · rfl
  · rfl
  · rfl
  · exact hrest.elim

/-- An operand read in one go. -/
theorem Reads.of_operand {k : Nat} {t : Cst Op α} (hne : t.tokens ≠ [])
    (h : ∀ n rest, 3 * t.tokens.length ≤ n + 1 → Follows level k rest →
      readOperand level n (t.tokens ++ rest) = some (t, rest)) : Reads level k t := by
  intro n k' rest hn hk hrest
  have hpos : 0 < t.tokens.length := List.length_pos_iff.mpr hne
  obtain ⟨m, rfl⟩ : ∃ m, n = m + 1 := ⟨n - 1, by omega⟩
  refine ⟨m, by omega, by omega, ?_⟩
  rw [readExpr, h m rest hn hrest]

theorem Reads.binary {k : Nat} {op : Op} {l r : Cst Op α} (hk : k ≤ level op)
    (hl : Reads level (level op) l) (hr : Reads level (level op + 1) r) :
    Reads level k (.binary op l r) := by
  intro n k' rest hn hk' hrest
  simp only [tokens, List.length_append, List.length_cons] at hn
  have hop : Follows level (level op) (.op op :: (r.tokens ++ rest)) := Nat.le_refl (level op)
  obtain ⟨m, hm, hmn, hleft⟩ :=
    hl n k' (.op op :: (r.tokens ++ rest)) (by omega) (Nat.le_trans hk' hk) hop
  obtain ⟨m', rfl⟩ : ∃ m', m = m' + 1 := ⟨m - 1, by omega⟩
  obtain ⟨m'', -, -, hright⟩ :=
    hr m' (level op) rest (by omega) (Nat.le_refl _) (hrest.mono level (Nat.le_succ_of_le hk))
  refine ⟨m', by omega, ?_, ?_⟩
  · simp only [tokens, List.length_append, List.length_cons]
    omega
  · rw [tokens, List.append_assoc, List.cons_append, hleft, readOps,
      if_pos (Nat.le_trans hk' hk)]
    simp only [hright, readOps_of_follows hrest (Nat.lt_succ_of_le hk)]

/-- The reader gets through whatever the grammar has. -/
theorem Fits.reads (hlevel : ∀ op, 0 < level op) (t : Cst Op α) :
    (∀ k, 0 < k → t.Fits level k → Reads level k t) ∧ (t.Fits level 0 → ReadsAll level t) := by
  induction t with
  | atom a =>
    have hreads : ∀ k, Reads level k (.atom a) := by
      intro k
      apply Reads.of_operand (by simp [tokens])
      intro n rest hn hrest
      obtain ⟨m, rfl⟩ : ∃ m, n = m + 1 := ⟨n - 1, by simp [tokens] at hn; omega⟩
      rw [tokens, List.singleton_append]
      cases rest with
      | nil => rw [readOperand]; simp
      | cons tok rest =>
        cases tok with
        | lpar => exact hrest.elim
        | _ => rw [readOperand]; simp
    exact ⟨fun k _ _ => hreads k, fun _ => (hreads 1).all⟩
  | brackets t ih =>
    have hreads : ∀ k, t.Fits level 0 → Reads level k (.brackets t) := by
      intro k hfits
      apply Reads.of_operand (by simp [tokens])
      intro n rest hn hrest
      simp only [tokens, List.length_cons, List.length_append, List.length_nil] at hn
      obtain ⟨m, rfl⟩ : ∃ m, n = m + 1 := ⟨n - 1, by omega⟩
      have hin := ih.2 hfits m (.rpar :: rest) (by omega) trivial
      simp only [tokens, List.cons_append, List.append_assoc, List.nil_append, readOperand, hin]
    exact ⟨fun k _ hfits => hreads k hfits, fun hfits => (hreads 1 hfits).all⟩
  | binary op l r ihl ihr =>
    have hreads : ∀ k, Fits level k (.binary op l r) → Reads level k (.binary op l r) :=
      fun k hfits =>
        Reads.binary hfits.1 (ihl.1 _ (hlevel op) hfits.2.1)
          (ihr.1 _ (Nat.succ_pos _) hfits.2.2)
    refine ⟨fun k _ hfits => hreads k hfits, fun hfits => ?_⟩
    exact (hreads 1 ⟨hlevel op, hfits.2⟩).all
  | cond t c f iht ihc ihf =>
    refine ⟨fun k hk hfits => absurd hfits.1 (Nat.ne_of_gt hk), ?_⟩
    rintro ⟨-, ht, hc, hf⟩ n rest hn hrest
    simp only [tokens, List.length_append, List.length_cons] at hn
    obtain ⟨m, rfl⟩ : ∃ m, n = m + 1 := ⟨n - 1, by omega⟩
    have htrue := (iht.1 1 Nat.one_pos ht).stopped (n := m)
      (.if_ :: (c.tokens ++ .else_ :: (f.tokens ++ rest))) (by omega) trivial
    have hcond := (ihc.1 1 Nat.one_pos hc).stopped (n := m)
      (.else_ :: (f.tokens ++ rest)) (by omega) trivial
    have hfalse := ihf.2 hf m rest (by omega) hrest
    simp only [tokens, List.append_assoc, List.cons_append, readExpr, htrue, hcond, hfalse]
  | call1 fn x ih =>
    have hreads : ∀ k, x.Fits level 0 → Reads level k (.call1 fn x) := by
      intro k hfits
      apply Reads.of_operand (by simp [tokens])
      intro n rest hn hrest
      simp only [tokens, List.length_cons, List.length_append, List.length_nil] at hn
      obtain ⟨m, rfl⟩ : ∃ m, n = m + 1 := ⟨n - 1, by omega⟩
      have hin := ih.2 hfits m (.rpar :: rest) (by omega) trivial
      simp only [tokens, List.cons_append, List.append_assoc, List.nil_append, readOperand, hin]
    exact ⟨fun k _ hfits => hreads k hfits, fun hfits => (hreads 1 hfits).all⟩
  | call2 fn x y ihx ihy =>
    have hreads : ∀ k, x.Fits level 0 → y.Fits level 0 → Reads level k (.call2 fn x y) := by
      intro k hx hy
      apply Reads.of_operand (by simp [tokens])
      intro n rest hn hrest
      simp only [tokens, List.length_cons, List.length_append, List.length_nil] at hn
      obtain ⟨m, rfl⟩ : ∃ m, n = m + 1 := ⟨n - 1, by omega⟩
      have hsecond := ihy.2 hy m (.rpar :: rest) (by omega) trivial
      have hfirst := ihx.2 hx m (.comma :: (y.tokens ++ .rpar :: rest)) (by omega) trivial
      simp only [tokens, List.cons_append, List.append_assoc, List.nil_append, readOperand,
        hfirst, hsecond]
    exact ⟨fun k _ hfits => hreads k hfits.1 hfits.2,
      fun hfits => (hreads 1 hfits.1 hfits.2).all⟩

/-- The reader returns every tree of the grammar. -/
theorem Fits.readTokens (hlevel : ∀ op, 0 < level op) {t : Cst Op α} (h : t.Fits level 0) :
    readTokens level t.tokens = some t := by
  have hread := (Fits.reads hlevel t).2 h (3 * t.tokens.length + 1) [] (Nat.le_refl _) trivial
  rw [List.append_nil] at hread
  rw [Cst.readTokens, hread]

end Complete

/-! ## The reader returns trees of the grammar -/

section Sound

variable (level : Op → Nat)

/-- An operator that comes next is below the level. -/
def Below (k : Nat) (rest : List (OpToken Op α)) : Prop :=
  ∀ op rest', rest = .op op :: rest' → level op < k

/-- The tree can be the left operand of an operator that comes next. -/
def Extends (t : Cst Op α) (rest : List (OpToken Op α)) : Prop :=
  ∀ op rest', rest = .op op :: rest' → t.Fits level (level op)

variable {level}

theorem below_or_op (level : Op → Nat) (k : Nat) (toks : List (OpToken Op α)) :
    Below level k toks ∨ ∃ op toks', toks = .op op :: toks' ∧ k ≤ level op := by
  by_cases hstop : Below level k toks
  · exact .inl hstop
  · unfold Below at hstop
    push Not at hstop
    obtain ⟨op, toks', rfl, hk⟩ := hstop
    exact .inr ⟨op, toks', rfl, by omega⟩

/-- What the three readers return with so much fuel follows the grammar and has the
tokens that were read. -/
structure SoundUpTo (level : Op → Nat) (α : Type) (n : Nat) : Prop where
  expr : ∀ {k : Nat} {toks rest : List (OpToken Op α)} {t : Cst Op α},
    readExpr level n k toks = some (t, rest) →
      toks = t.tokens ++ rest ∧ t.Fits level k ∧ (0 < k → Below level k rest)
  operand : ∀ {toks rest : List (OpToken Op α)} {t : Cst Op α},
    readOperand level n toks = some (t, rest) →
      toks = t.tokens ++ rest ∧ ∀ k, t.Fits level k
  ops : ∀ {k : Nat} {lhs : Cst Op α} {toks rest : List (OpToken Op α)} {t : Cst Op α},
    lhs.Fits level k → Extends level lhs toks → readOps level n k lhs toks = some (t, rest) →
      lhs.tokens ++ toks = t.tokens ++ rest ∧ t.Fits level k ∧ Below level k rest

/-- The operator loop ends where no operator of the level comes next. -/
theorem readOps_none {k : Nat} {lhs t : Cst Op α} {toks rest : List (OpToken Op α)} {n : Nat}
    (hfits : lhs.Fits level k) (hstop : Below level k toks)
    (h : readOps level n k lhs toks = some (t, rest)) :
    lhs.tokens ++ toks = t.tokens ++ rest ∧ t.Fits level k ∧ Below level k rest := by
  have hstay : readOps level n k lhs toks = some (lhs, toks) := by
    unfold readOps
    split
    · rename_i op toks'
      rw [if_neg (Nat.not_le.mpr (hstop op toks' rfl))]
    · rfl
  rw [hstay] at h
  obtain ⟨rfl, rfl⟩ := Prod.mk.inj (Option.some.inj h)
  exact ⟨rfl, hfits, hstop⟩

theorem SoundUpTo.zero : SoundUpTo level α 0 where
  expr h := by
    simp [readExpr] at h
  operand h := by
    simp [readOperand] at h
  ops hfits hext h := by
    rename_i k lhs toks rest t
    rcases below_or_op level k toks with hstop | ⟨op, toks', rfl, hk⟩
    · exact readOps_none hfits hstop h
    · rw [readOps, if_pos hk] at h
      cases h

theorem SoundUpTo.expr_succ {n : Nat} (ih : SoundUpTo level α n) {k : Nat}
    {toks rest : List (OpToken Op α)} {t : Cst Op α}
    (h : readExpr level (n + 1) k toks = some (t, rest)) :
    toks = t.tokens ++ rest ∧ t.Fits level k ∧ (0 < k → Below level k rest) := by
  cases k with
  | zero =>
    rw [readExpr] at h
    split at h
    · rename_i tt rest₁ htrue
      split at h
      · rename_i tc rest₂ hcond
        split at h
        · rename_i tf rest₃ hfalse
          obtain ⟨rfl, rfl⟩ := Prod.mk.inj (Option.some.inj h)
          obtain ⟨rfl, hfitst, -⟩ := ih.expr htrue
          obtain ⟨rfl, hfitsc, -⟩ := ih.expr hcond
          obtain ⟨rfl, hfitsf, -⟩ := ih.expr hfalse
          refine ⟨?_, ⟨rfl, hfitst, hfitsc, hfitsf⟩, fun hk => absurd hk (Nat.lt_irrefl 0)⟩
          simp only [tokens, List.append_assoc, List.cons_append]
        · cases h
      · cases h
    · obtain ⟨hsplit, hfits, -⟩ := ih.expr h
      exact ⟨hsplit, hfits.mono level (Nat.zero_le 1), fun hk => absurd hk (Nat.lt_irrefl 0)⟩
  | succ k =>
    rw [readExpr] at h
    split at h
    · cases h
    · rename_i lhs rest₁ hlhs
      obtain ⟨rfl, hfits⟩ := ih.operand hlhs
      obtain ⟨hsplit, hfits', hbelow⟩ :=
        ih.ops (hfits (k + 1)) (fun op rest' _ => hfits (level op)) h
      exact ⟨hsplit, hfits', fun _ => hbelow⟩

theorem SoundUpTo.operand_succ {n : Nat} (ih : SoundUpTo level α n)
    {toks rest : List (OpToken Op α)} {t : Cst Op α}
    (h : readOperand level (n + 1) toks = some (t, rest)) :
    toks = t.tokens ++ rest ∧ ∀ k, t.Fits level k := by
  unfold readOperand at h
  split at h
  · rename_i n' fn toks' hn
    obtain rfl := Nat.succ.inj hn
    split at h
    · rename_i x rest₁ hx
      obtain ⟨rfl, rfl⟩ := Prod.mk.inj (Option.some.inj h)
      obtain ⟨rfl, hfits, -⟩ := ih.expr hx
      exact ⟨by simp [tokens], fun _ => hfits⟩
    · rename_i x rest₁ hx
      split at h
      · rename_i y rest₂ hy
        obtain ⟨rfl, rfl⟩ := Prod.mk.inj (Option.some.inj h)
        obtain ⟨rfl, hfitsx, -⟩ := ih.expr hx
        obtain ⟨rfl, hfitsy, -⟩ := ih.expr hy
        exact ⟨by simp [tokens], fun _ => ⟨hfitsx, hfitsy⟩⟩
      · cases h
    · cases h
  · obtain ⟨rfl, rfl⟩ := Prod.mk.inj (Option.some.inj h)
    exact ⟨rfl, fun _ => trivial⟩
  · rename_i n' toks' hn
    obtain rfl := Nat.succ.inj hn
    split at h
    · rename_i x rest₁ hx
      obtain ⟨rfl, rfl⟩ := Prod.mk.inj (Option.some.inj h)
      obtain ⟨rfl, hfits, -⟩ := ih.expr hx
      exact ⟨by simp [tokens], fun _ => hfits⟩
    · cases h
  · cases h

theorem SoundUpTo.ops_succ {n : Nat} (ih : SoundUpTo level α n) {k : Nat} {lhs : Cst Op α}
    {toks rest : List (OpToken Op α)} {t : Cst Op α} (hfits : lhs.Fits level k)
    (hext : Extends level lhs toks)
    (h : readOps level (n + 1) k lhs toks = some (t, rest)) :
    lhs.tokens ++ toks = t.tokens ++ rest ∧ t.Fits level k ∧ Below level k rest := by
  rcases below_or_op level k toks with hstop | ⟨op, toks', rfl, hk⟩
  · exact readOps_none hfits hstop h
  · rw [readOps, if_pos hk] at h
    split at h
    · cases h
    · rename_i rhs rest₁ hrhs
      obtain ⟨rfl, hfitsr, hbelow⟩ := ih.expr hrhs
      have hbinary : Fits level (level op) (.binary op lhs rhs) :=
        ⟨Nat.le_refl _, hext op _ rfl, hfitsr⟩
      -- the operator that comes next is on the level of this one or below
      have hext' : Extends level (.binary op lhs rhs) rest₁ := by
        intro op' rest' heq
        exact hbinary.mono level (Nat.le_of_lt_succ (hbelow (Nat.succ_pos _) op' rest' heq))
      obtain ⟨hsplit, hfits', hbelow'⟩ := ih.ops (hbinary.mono level hk) hext' h
      refine ⟨?_, hfits', hbelow'⟩
      rw [← hsplit]
      simp only [tokens, List.append_assoc, List.cons_append]

theorem soundUpTo (n : Nat) : SoundUpTo level α n := by
  induction n with
  | zero => exact SoundUpTo.zero
  | succ n ih => exact ⟨ih.expr_succ, ih.operand_succ, ih.ops_succ⟩

/-- The reader returns a tree of the grammar that has the tokens. -/
theorem readTokens_sound {toks : List (OpToken Op α)} {t : Cst Op α}
    (h : readTokens level toks = some t) : t.tokens = toks ∧ t.Fits level 0 := by
  unfold readTokens at h
  split at h
  · rename_i t' hread
    obtain rfl := Option.some.inj h
    obtain ⟨hsplit, hfits, -⟩ := (soundUpTo _).expr hread
    exact ⟨by rw [hsplit, List.append_nil], hfits⟩
  · cases h

end Sound

end Cst

end PmuEvents.Foundation
