import PmuEvents.Metric.Expr
import PmuEvents.Foundation.Acyclic
set_option autoImplicit false

/-!
# Definitions that refer to each other

What a set of named metric definitions means: every reference to a defined name
stands for the full expansion of that name.  A rewriting step replaces, inside one
definition, the nodes equal to another name's definition by a reference to it.
The step keeps every expansion, and it closes no cycle: the node it replaces
properly contains whatever its own expansion was made from, so a path back would
make an expression larger than itself.
-/

namespace PmuEvents.Metric

open PmuEvents.Foundation Relation

/-- The definitions of the metrics of one PMU. -/
abbrev Definitions := Text → Option Expr

/-- `name` is defined by an expression in which the defined name `other` occurs. -/
def Refers (defs : Definitions) (name other : Text) : Prop :=
  ∃ e, defs name = some e ∧ other ∈ e.events ∧ (defs other).isSome

/-- `Expands defs e t`: replacing all defined names in `e`, again and again, gives `t`. -/
inductive Expands (defs : Definitions) : Expr → Expr → Prop
  | defined {name : Text} {e t : Expr} (h : defs name = some e) (he : Expands defs e t) :
      Expands defs (.event name) t
  | event {name : Text} (h : defs name = none) : Expands defs (.event name) (.event name)
  | operator {l r l' r' : Expr} (op : BinOp) (hl : Expands defs l l') (hr : Expands defs r r') :
      Expands defs (.operator op l r) (.operator op l' r')
  | select {t c f t' c' f' : Expr} (ht : Expands defs t t') (hc : Expands defs c c')
      (hf : Expands defs f f') : Expands defs (.select t c f) (.select t' c' f')
  | function1 {l l' : Expr} (fn : Fn1) (hl : Expands defs l l') :
      Expands defs (.function1 fn l) (.function1 fn l')
  | function2 {l r l' r' : Expr} (fn : Fn2) (hl : Expands defs l l') (hr : Expands defs r r') :
      Expands defs (.function2 fn l r) (.function2 fn l' r')
  | constant (value : Text) : Expands defs (.constant value) (.constant value)
  | literal (value : Text) : Expands defs (.literal value) (.literal value)

namespace Expr

theorem mem_nodes_self {e w : Expr} (h : w ∈ e.nodes) : w ∈ w.nodes := by
  induction e with
  | operator op l r ihl ihr => grind [nodes]
  | select t c f iht ihc ihf => grind [nodes]
  | function1 fn l ih => grind [nodes]
  | function2 fn l r ihl ihr => grind [nodes]
  | event name' => simp [nodes] at h
  | constant value => simp [nodes] at h
  | literal value => simp [nodes] at h

/-- Every event replaced by what `full` gives for its name. -/
def expandWith (full : Text → Expr) : Expr → Expr
  | operator op lhs rhs => operator op (lhs.expandWith full) (rhs.expandWith full)
  | select true_val cond false_val =>
    select (true_val.expandWith full) (cond.expandWith full) (false_val.expandWith full)
  | function1 fn lhs => function1 fn (lhs.expandWith full)
  | function2 fn lhs rhs => function2 fn (lhs.expandWith full) (rhs.expandWith full)
  | event name => full name
  | constant value => constant value
  | literal value => literal value

/-- The number of nodes and leaves. -/
def size : Expr → Nat
  | operator _ lhs rhs => lhs.size + rhs.size + 1
  | select true_val cond false_val => true_val.size + cond.size + false_val.size + 1
  | function1 _ lhs => lhs.size + 1
  | function2 _ lhs rhs => lhs.size + rhs.size + 1
  | _ => 1

section Size

variable (full : Text → Expr)

/-- The expansion of a name that occurs is no larger than that of the expression. -/
theorem size_le_of_mem_events {e : Expr} {name : Text} (h : name ∈ e.events) :
    (full name).size ≤ (e.expandWith full).size := by
  induction e with
  | operator op l r ihl ihr => grind [events, expandWith, size]
  | select t c f iht ihc ihf => grind [events, expandWith, size]
  | function1 fn l ih => grind [events, expandWith, size]
  | function2 fn l r ihl ihr => grind [events, expandWith, size]
  | event name' => rw [List.mem_singleton.mp h, expandWith]
  | constant value => simp [events] at h
  | literal value => simp [events] at h

/-- A node is larger than the expansion of any name that occurs in it. -/
theorem size_lt_of_mem_events {w : Expr} {name : Text} (hw : w ∈ w.nodes)
    (h : name ∈ w.events) : (full name).size < (w.expandWith full).size := by
  cases w with
  | operator op l r => grind [events, expandWith, size, size_le_of_mem_events]
  | select t c f =>
    simp only [events, List.mem_append] at h
    simp only [expandWith, size]
    rcases h with (h | h) | h
    · have := size_le_of_mem_events full h
      omega
    · have := size_le_of_mem_events full h
      omega
    · have := size_le_of_mem_events full h
      omega
  | function1 fn l => exact Nat.lt_succ_of_le (size_le_of_mem_events (e := l) full h)
  | function2 fn l r => grind [events, expandWith, size, size_le_of_mem_events]
  | event name' => simp [nodes] at hw
  | constant value => simp [nodes] at hw
  | literal value => simp [nodes] at hw

/-- A node is no larger than the expression it is a node of. -/
theorem size_le_of_mem_nodes {e w : Expr} (hw : w ∈ e.nodes) :
    (w.expandWith full).size ≤ (e.expandWith full).size := by
  induction e with
  | operator op l r ihl ihr => grind [nodes, expandWith, size]
  | select t c f iht ihc ihf => grind [nodes, expandWith, size]
  | function1 fn l ih => grind [nodes, expandWith, size]
  | function2 fn l r ihl ihr => grind [nodes, expandWith, size]
  | event name' => simp [nodes] at hw
  | constant value => simp [nodes] at hw
  | literal value => simp [nodes] at hw

end Size

/-- A substitution of a name's own definition keeps the expansion. -/
theorem expandWith_substitute {full : Text → Expr} {name : Text} {w : Expr}
    (hname : fixEscapes name = name) (hw : full name = w.expandWith full) (e : Expr) :
    (e.substitute name w).expandWith full = e.expandWith full := by
  fun_induction substitute e name w with
  | case1 op l r h => rw [(equals_iff _ _).mp h, mkEvent, hname, expandWith, hw]
  | case2 op l r h ihl ihr => simp only [expandWith, ihl, ihr]
  | case3 t c f h => rw [(equals_iff _ _).mp h, mkEvent, hname, expandWith, hw]
  | case4 t c f h iht ihc ihf => simp only [expandWith, iht, ihc, ihf]
  | case5 fn l h => rw [(equals_iff _ _).mp h, mkEvent, hname, expandWith, hw]
  | case6 fn l h ih => simp only [expandWith, ih]
  | case7 fn l r h => rw [(equals_iff _ _).mp h, mkEvent, hname, expandWith, hw]
  | case8 fn l r h ihl ihr => simp only [expandWith, ihl, ihr]
  | case9 name' => rfl
  | case10 value => rfl
  | case11 value => rfl

/-- A substitution adds no event but the name, and that only for a node replaced. -/
theorem mem_events_substitute {name other : Text} {w e : Expr}
    (hname : fixEscapes name = name) (h : other ∈ (e.substitute name w).events) :
    other ∈ e.events ∨ (other = name ∧ w ∈ e.nodes) := by
  fun_induction substitute e name w with
  | case1 op l r heq => simp_all [equals_iff, mkEvent, events, nodes]
  | case2 op l r heq ihl ihr => grind [events, nodes]
  | case3 t c f heq => simp_all [equals_iff, mkEvent, events, nodes]
  | case4 t c f heq iht ihc ihf => grind [events, nodes]
  | case5 fn l heq => simp_all [equals_iff, mkEvent, events, nodes]
  | case6 fn l heq ih => grind [events, nodes]
  | case7 fn l r heq => simp_all [equals_iff, mkEvent, events, nodes]
  | case8 fn l r heq ihl ihr => grind [events, nodes]
  | case9 name' => exact .inl h
  | case10 value => exact .inl h
  | case11 value => exact .inl h

end Expr

/-! ## Full expansions -/

/-- `full` gives every name its full expansion. -/
def Solves (defs : Definitions) (full : Text → Expr) : Prop :=
  ∀ name, full name = ((defs name).map (Expr.expandWith full)).getD (.event name)

section Solutions

variable {defs : Definitions} {full : Text → Expr}

theorem Solves.of_some (h : Solves defs full) {name : Text} {e : Expr} (he : defs name = some e) :
    full name = e.expandWith full := by
  rw [h name, he]
  rfl

/-- An expansion is what the solution gives. -/
theorem Expands.eq_expandWith (hfull : Solves defs full) {e t : Expr} (h : Expands defs e t) :
    t = e.expandWith full := by
  induction h with
  | defined h he ih => rw [ih, Expr.expandWith, hfull.of_some h]
  | event h => rw [Expr.expandWith, hfull, h]; rfl
  | operator op hl hr ihl ihr => rw [ihl, ihr]; rfl
  | select ht hc hf iht ihc ihf => rw [iht, ihc, ihf]; rfl
  | function1 fn hl ih => rw [ih]; rfl
  | function2 fn hl hr ihl ihr => rw [ihl, ihr]; rfl
  | constant value => rfl
  | literal value => rfl

/-- An expression expands as soon as its events do. -/
theorem expands_of_events {e : Expr}
    (h : ∀ name ∈ e.events, Expands defs (.event name) (full name)) :
    Expands defs e (e.expandWith full) := by
  induction e with
  | operator op l r ihl ihr =>
    exact .operator op (ihl fun n hn => h n (List.mem_append_left _ hn))
      (ihr fun n hn => h n (List.mem_append_right _ hn))
  | select t c f iht ihc ihf =>
    simp only [Expr.events, List.mem_append] at h
    exact .select (iht fun n hn => h n (.inl (.inl hn))) (ihc fun n hn => h n (.inl (.inr hn)))
      (ihf fun n hn => h n (.inr hn))
  | function1 fn l ih => exact .function1 fn (ih h)
  | function2 fn l r ihl ihr =>
    exact .function2 fn (ihl fun n hn => h n (List.mem_append_left _ hn))
      (ihr fun n hn => h n (List.mem_append_right _ hn))
  | event name => exact h name (List.mem_singleton.mpr rfl)
  | constant value => exact .constant value
  | literal value => exact .literal value

/-- Without circular definitions every name has an expansion. -/
theorem exists_expansion (hwf : WellFounded fun other name => Refers defs name other)
    (name : Text) : ∃ t, Expands defs (.event name) t := by
  induction name using hwf.induction with
  | _ name ih =>
    cases hdef : defs name with
    | none => exact ⟨_, .event hdef⟩
    | some e =>
      have hevents : ∀ other ∈ e.events, ∃ t, Expands defs (.event other) t := by
        intro other hother
        cases hdef' : defs other with
        | none => exact ⟨_, .event hdef'⟩
        | some e' => exact ih other ⟨e, hdef, hother, by rw [hdef']; rfl⟩
      choose! full hfull using hevents
      exact ⟨_, .defined hdef (expands_of_events hfull)⟩

/-- An expression has one expansion at most. -/
theorem Expands.unique {e t t' : Expr} (h : Expands defs e t) (h' : Expands defs e t') :
    t = t' := by
  induction h generalizing t' with
  | defined h he ih =>
    cases h' with
    | defined h' he' => exact ih (Option.some.inj (h.symm.trans h') ▸ he')
    | event h' => exact absurd (h.symm.trans h') (by simp)
  | event h =>
    cases h' with
    | defined h' he' => exact absurd (h.symm.trans h') (by simp)
    | event h' => rfl
  | operator op hl hr ihl ihr =>
    cases h' with
    | operator _ hl' hr' => rw [ihl hl', ihr hr']
  | select ht hc hf iht ihc ihf =>
    cases h' with
    | select ht' hc' hf' => rw [iht ht', ihc hc', ihf hf']
  | function1 fn hl ih =>
    cases h' with
    | function1 _ hl' => rw [ih hl']
  | function2 fn hl hr ihl ihr =>
    cases h' with
    | function2 _ hl' hr' => rw [ihl hl', ihr hr']
  | constant value => cases h' with | constant _ => rfl
  | literal value => cases h' with | literal _ => rfl

/-- Without circular definitions there is a solution, and every name expands to it. -/
theorem exists_solves (hwf : WellFounded fun other name => Refers defs name other) :
    ∃ full, Solves defs full ∧ ∀ name, Expands defs (.event name) (full name) := by
  choose full hfull using exists_expansion hwf
  refine ⟨full, ?_, hfull⟩
  intro name
  cases hdef : defs name with
  | none => exact (hfull name).unique (.event hdef)
  | some e => exact (hfull name).unique (.defined hdef (expands_of_events fun n _ => hfull n))

/-- Without circular definitions the expansion of an expression is what any solution gives. -/
theorem Solves.expands_iff (hfull : Solves defs full)
    (hwf : WellFounded fun other name => Refers defs name other) {e t : Expr} :
    Expands defs e t ↔ t = e.expandWith full := by
  constructor
  · exact fun h => h.eq_expandWith hfull
  · obtain ⟨full', -, hexp⟩ := exists_solves hwf
    have hsame : full' = full := funext fun name => (hexp name).eq_expandWith hfull
    rintro rfl
    exact expands_of_events fun name _ => hsame ▸ hexp name

/-- Along references, expansions do not grow. -/
theorem Solves.size_le (hfull : Solves defs full) {name other : Text}
    (h : ReflTransGen (Refers defs) name other) : (full other).size ≤ (full name).size := by
  induction h with
  | refl => exact Nat.le_refl _
  | tail _ hrefers ih =>
    obtain ⟨e, he, hmem, -⟩ := hrefers
    rw [hfull.of_some he] at ih
    exact Nat.le_trans (Expr.size_le_of_mem_events full hmem) ih

end Solutions

/-! ## Rewriting one definition by another -/

/-- One substitution: in the definition of `x`, the nodes equal to the definition
of another name `y` become references to `y`. -/
inductive RewriteStep (defs : Definitions) : Definitions → Prop
  | substitute {x y : Text} {u w : Expr} (hne : x ≠ y) (hplain : fixEscapes y = y)
      (hx : defs x = some u) (hy : defs y = some w) :
      RewriteStep defs (Function.update defs x (some (u.substitute y w)))

section Step

variable {defs defs' : Definitions} {full : Text → Expr}

/-- The step keeps every full expansion. -/
theorem RewriteStep.solves (hstep : RewriteStep defs defs') (hfull : Solves defs full) :
    Solves defs' full := by
  obtain ⟨hne, hplain, hx, hy⟩ := hstep
  rename_i x y u w
  intro name
  by_cases hname : name = x
  · rw [hname, Function.update_self, Option.map_some,
      Expr.expandWith_substitute hplain (hfull.of_some hy), ← hfull.of_some hx]
    rfl
  · rw [Function.update_of_ne hname]
    exact hfull name

/-- The step adds at most the reference from `x` to `y`, and that only for a node
of the definition of `x`. -/
theorem refers_update {x y : Text} {u w : Expr} (hplain : fixEscapes y = y)
    (hx : defs x = some u) {name other : Text}
    (h : Refers (Function.update defs x (some (u.substitute y w))) name other) :
    Refers defs name other ∨ ((name = x ∧ other = y) ∧ w ∈ u.nodes) := by
  obtain ⟨e, he, hmem, hsome⟩ := h
  have hsome' : (defs other).isSome := by
    by_cases hother : other = x
    · rw [hother, hx]
      rfl
    · rwa [Function.update_of_ne hother] at hsome
  by_cases hname : name = x
  · subst hname
    rw [Function.update_self, Option.some.injEq] at he
    rw [← he] at hmem
    rcases Expr.mem_events_substitute hplain hmem with hold | ⟨rfl, hw⟩
    · exact .inl ⟨u, hx, hold, hsome'⟩
    · exact .inr ⟨⟨rfl, rfl⟩, hw⟩
  · rw [Function.update_of_ne hname] at he
    exact .inl ⟨e, he, hmem, hsome'⟩

/-- The step closes no cycle. -/
theorem RewriteStep.acyclic (hstep : RewriteStep defs defs') (hfull : Solves defs full)
    (hacyclic : Acyclic (Refers defs)) : Acyclic (Refers defs') := by
  obtain ⟨hne, hplain, hx, hy⟩ := hstep
  rename_i x y u w
  by_cases hw : w ∈ u.nodes
  · refine hacyclic.addEdge (x := x) (y := y) ?_ ?_
    · intro a b h
      exact (refers_update hplain hx h).imp_right And.left
    · -- a path back from `y` starts inside its definition `w`, a node of the definition of `x`
      intro hback
      rcases hback.cases_head with heq | ⟨z, ⟨e, he, hmem, -⟩, hpath⟩
      · exact hne heq.symm
      · obtain rfl : w = e := Option.some.inj (hy.symm.trans he)
        have hxz : (full x).size ≤ (full z).size := hfull.size_le hpath
        have hzw := Expr.size_lt_of_mem_events full (Expr.mem_nodes_self hw) hmem
        have hwu := Expr.size_le_of_mem_nodes full hw
        rw [← hfull.of_some hx] at hwu
        omega
  · refine hacyclic.mono ?_
    intro a b h
    rcases refers_update hplain hx h with hold | ⟨-, hnode⟩
    · exact hold
    · exact absurd hnode hw

/-- Any number of steps keep the expansions and close no cycle. -/
theorem rewriteSteps_sound (hsteps : ReflTransGen RewriteStep defs defs')
    (hfull : Solves defs full) (hacyclic : Acyclic (Refers defs)) :
    Solves defs' full ∧ Acyclic (Refers defs') := by
  induction hsteps with
  | refl => exact ⟨hfull, hacyclic⟩
  | tail _ hstep ih => exact ⟨hstep.solves ih.1, hstep.acyclic ih.1 ih.2⟩

end Step

end PmuEvents.Metric
