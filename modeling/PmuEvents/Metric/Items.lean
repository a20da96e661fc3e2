import PmuEvents.Metric.Evaluates
set_option autoImplicit false

/-!
# An expression and the tokens it came from

The items of an expression from left to right, against those of the tokens it was
evaluated from.  Evaluation never makes more of them: it computes with numbers and
ends chains of comparisons, which takes items away, and it turns comparisons around.
Where no item is gone the expression has the shape of the tree it came from.
-/

namespace PmuEvents.Metric

open PmuEvents.Foundation

/-! ## Items -/

/-- The items of expressions and tokens other than brackets. -/
inductive Item where
  | number
  | text (name : Text)
  | op (op : BinOp)
  | mark
  deriving DecidableEq, Repr

/-- The items of a token. -/
def tokenItems : PyToken → List Item
  | .atom (.number _) => [.number]
  | .atom (.event name) => [.text name]
  | .atom (.literal value) => [.text value]
  | .op op => [.op op]
  | .lpar | .rpar => []
  | _ => [.mark]

/-- The items of a tree. -/
def treeItems (t : Cst BinOp PyAtom) : List Item := t.tokens.flatMap tokenItems

/-- The items of an expression; a constant that is spelled with letters is a text. -/
def Expr.items : Expr → List Item
  | operator op lhs rhs => lhs.items ++ .op op :: rhs.items
  | select true_val cond false_val =>
    true_val.items ++ .mark :: (cond.items ++ .mark :: false_val.items)
  | function1 _ lhs => .mark :: lhs.items
  | function2 _ lhs rhs => .mark :: (lhs.items ++ .mark :: rhs.items)
  | event name => [.text name]
  | constant value => [if isName value then .text [] else .number]
  | literal value => [.text value]

section TreeItems

variable (op : BinOp) (l r t c f x y : Cst BinOp PyAtom)

theorem treeItems_brackets : treeItems (.brackets t) = treeItems t := by
  simp [treeItems, Cst.tokens, tokenItems]

theorem treeItems_binary : treeItems (.binary op l r) = treeItems l ++ .op op :: treeItems r := by
  simp [treeItems, Cst.tokens, tokenItems]

theorem treeItems_cond :
    treeItems (.cond t c f) =
      treeItems t ++ .mark :: (treeItems c ++ .mark :: treeItems f) := by
  simp [treeItems, Cst.tokens, tokenItems]

theorem treeItems_call1 (fn : Fn1) : treeItems (.call1 (.fn1 fn) x) = .mark :: treeItems x := by
  simp [treeItems, Cst.tokens, tokenItems]

theorem treeItems_call2 (fn : Fn2) :
    treeItems (.call2 (.fn2 fn) x y) = .mark :: (treeItems x ++ .mark :: treeItems y) := by
  simp [treeItems, Cst.tokens, tokenItems]

end TreeItems

/-! ## Evaluation takes items away -/

/-- The weights of items added up. -/
def weight (w : Item → Nat) (items : List Item) : Nat := (items.map w).sum

@[simp] theorem weight_nil (w : Item → Nat) : weight w [] = 0 := rfl

@[simp] theorem weight_cons (w : Item → Nat) (i : Item) (items : List Item) :
    weight w (i :: items) = w i + weight w items := rfl

@[simp] theorem weight_append (w : Item → Nat) (items items' : List Item) :
    weight w (items ++ items') = weight w items + weight w items' := by
  simp [weight]

/-- Weights that evaluation does not add to. -/
structure Measures (w : Item → Nat) : Prop where
  turned : w (.op .lt) = w (.op .gt)
  letters : w (.text []) = w .number
  escapes : ∀ name, w (.text (fixEscapes name)) ≤ w (.text name)

section Weight

variable {py : PyFloat} {w : Item → Nat}

theorem Measures.constant (hw : Measures w) (value : Text) :
    weight w (Expr.constant value).items = w .number := by
  rw [Expr.items]
  split
  · simp [hw.letters]
  · simp

theorem Measures.apply (hw : Measures w) {op : BinOp} {l r v : Value}
    (h : l.apply py op r = some v) :
    weight w v.constify.items ≤
      weight w l.constify.items + w (.op op) + weight w r.constify.items := by
  cases l with
  | expr e =>
    obtain rfl := Option.some.inj h
    simp only [Value.constify, Expr.items, weight_append, weight_cons]
    omega
  | number x =>
    cases r with
    | number y =>
      obtain ⟨z, -, rfl⟩ := Option.map_eq_some_iff.mp h
      simp only [Value.constify, Expr.mkConstant, hw.constant]
      omega
    | expr e =>
      have hturned := hw.turned
      cases op with
      | xor => cases h
      | mod => cases h
      | _ =>
        obtain rfl := Option.some.inj h
        simp only [Value.constify, Expr.items, weight_append, weight_cons]
        omega

theorem Measures.value (hw : Measures w) {a : PyAtom} {v : Value} (h : a.value = some v) :
    weight w v.constify.items ≤ weight w (treeItems (.atom a)) := by
  cases a with
  | number x =>
    obtain rfl := Option.some.inj h
    rw [Value.constify, Expr.mkConstant, hw.constant]
    simp [treeItems, Cst.tokens, tokenItems]
  | event name =>
    obtain rfl := Option.some.inj h
    simpa [treeItems, Cst.tokens, tokenItems, Value.constify, Expr.mkEvent, Expr.items] using
      hw.escapes name
  | literal value =>
    obtain rfl := Option.some.inj h
    simp [treeItems, Cst.tokens, tokenItems, Value.constify, Expr.items]
  | _ => cases h

/-- A value weighs no more than the tree it came from, the last operand of a comparison
less by the comparison. -/
theorem Evaluates.weight_le (hw : Measures w) {t : Cst BinOp PyAtom} {v : Value}
    {last : Option Value} (h : Evaluates py t v last) :
    weight w v.constify.items ≤ weight w (treeItems t) ∧
      ∀ m, last = some m → weight w m.constify.items + w (.op .lt) ≤ weight w (treeItems t) := by
  have hcompare : ∀ op : BinOp, op.isComparison = true → w (.op op) = w (.op .lt) := by
    intro op hop
    cases op with
    | lt => rfl
    | gt => exact hw.turned.symm
    | _ => cases hop
  induction h with
  | atom ha => exact ⟨hw.value ha, by simp⟩
  | brackets _ ih =>
    rw [treeItems_brackets]
    exact ⟨ih.1, by simp⟩
  | skipped _ hop ih =>
    rw [treeItems_binary, weight_append]
    refine ⟨by omega, ?_⟩
    intro m hm
    have hmiddle := ih.2 m hm
    omega
  | chained _ hop _ hv ihl ihr =>
    have hmiddle := ihl.2 _ rfl
    have happly := hw.apply hv
    have hsame := hcompare _ hop
    rw [treeItems_binary, weight_append, weight_cons]
    refine ⟨by omega, ?_⟩
    rintro _ ⟨⟩
    omega
  | @binary op _ _ _ _ _ _ _ _ _ _ hv ihl ihr =>
    have happly := hw.apply hv
    rw [treeItems_binary, weight_append, weight_cons]
    refine ⟨by omega, ?_⟩
    intro m hm
    split at hm
    · rename_i hop
      have hsame := hcompare op hop
      obtain rfl := Option.some.inj hm
      omega
    · cases hm
  | cond _ _ _ iht ihc ihf =>
    simp only [treeItems_cond, Value.constify_expr, Expr.items, weight_append, weight_cons]
    exact ⟨by omega, by simp⟩
  | call1 _ ih =>
    simp only [treeItems_call1, Value.constify_expr, Expr.items, weight_cons]
    exact ⟨by omega, by simp⟩
  | call2 _ _ ihx ihy =>
    simp only [treeItems_call2, Value.constify_expr, Expr.items, weight_append, weight_cons]
    exact ⟨by omega, by simp⟩

theorem weight_one (items : List Item) : weight (fun _ => 1) items = items.length := by
  simp [weight]

theorem measures_size : Measures fun _ => 1 := ⟨rfl, rfl, fun _ => Nat.le_refl 1⟩

/-- No value has more items than the tree it came from. -/
theorem Evaluates.length_le {t : Cst BinOp PyAtom} {v : Value} {last : Option Value}
    (h : Evaluates py t v last) : v.constify.items.length ≤ (treeItems t).length ∧
      ∀ m, last = some m → m.constify.items.length + 1 ≤ (treeItems t).length := by
  have hle := h.weight_le measures_size
  simpa only [weight_one] using hle

theorem Value.length_apply {op : BinOp} {l r v : Value} (h : l.apply py op r = some v) :
    v.constify.items.length ≤ l.constify.items.length + 1 + r.constify.items.length := by
  have hle := measures_size.apply h
  simpa only [weight_one] using hle

end Weight

/-! ## Shapes -/

theorem Expr.items_length_pos (e : Expr) : 0 < e.items.length := by
  cases e <;> simp [items]

/-- An item without the name in it. -/
def Item.shape : Item → Item
  | text _ => text []
  | i => i

/-- Two lists of the same shape around items, when neither part of the first is longer. -/
theorem split_shapes {items rest items' rest' : List Item} {i i' : Item}
    (h : (items ++ i :: rest).map Item.shape = (items' ++ i' :: rest').map Item.shape)
    (hle : items.length ≤ items'.length) (hrest : rest.length ≤ rest'.length) :
    items.map Item.shape = items'.map Item.shape ∧ i.shape = i'.shape ∧
      rest.map Item.shape = rest'.map Item.shape := by
  have htotal := congrArg List.length h
  simp only [List.length_map, List.length_append, List.length_cons] at htotal
  simp only [List.map_append, List.map_cons] at h
  obtain ⟨hitems, htail⟩ := List.append_inj h (by simp only [List.length_map]; omega)
  obtain ⟨hi, htail⟩ := List.cons.inj htail
  exact ⟨hitems, hi, htail⟩

/-- A number alone is a constant. -/
theorem Expr.isConstant_of_items {e : Expr} (h : e.items = [.number]) : e.isConstant = true := by
  cases e with
  | constant value => rfl
  | operator op l r =>
    have hlength := congrArg List.length h
    have hpos := l.items_length_pos
    simp only [items, List.length_append, List.length_cons, List.length_nil] at hlength
    omega
  | select t c f =>
    have hlength := congrArg List.length h
    simp only [items, List.length_append, List.length_cons, List.length_nil] at hlength
    omega
  | _ => simp [items] at h

/-- No expression that evaluation gives begins with a number and an operator that does
not reach it. -/
theorem Expr.Evaluated.items_ne {e : Expr} (h : e.Evaluated) {op : BinOp} (hop : op.swaps = true)
    (rest : List Item) : e.items ≠ .number :: .op op :: rest := by
  -- the first item is that of the leftmost leaf, the second that of the node it hangs on
  have hfirst : ∀ {items items' rest : List Item} {i : Item}, 0 < items.length →
      items ++ i :: items' = .number :: .op op :: rest →
      (items = [.number] ∧ i = .op op) ∨ ∃ rest', items = .number :: .op op :: rest' := by
    intro items items' rest i hpos heq
    match items with
    | [] => cases hpos
    | [j] =>
      simp only [List.cons_append, List.nil_append, List.cons.injEq] at heq
      obtain ⟨rfl, rfl, -⟩ := heq
      exact .inl ⟨rfl, rfl⟩
    | j :: k :: items =>
      simp only [List.cons_append, List.cons.injEq] at heq
      obtain ⟨rfl, rfl, -⟩ := heq
      exact .inr ⟨items, rfl⟩
  induction e generalizing rest with
  | operator inner l r ihl ihr =>
    intro heq
    rcases hfirst l.items_length_pos heq with ⟨hl, hinner⟩ | ⟨rest', hl⟩
    · obtain rfl := Item.op.inj hinner
      rw [(h.1 (isConstant_of_items hl)).2] at hop
      cases hop
    · exact ihl h.2.1 rest' hl
  | select t c f iht ihc ihf =>
    intro heq
    rcases hfirst t.items_length_pos heq with ⟨-, hmark⟩ | ⟨rest', ht⟩
    · cases hmark
    · exact iht h.1 rest' ht
  | _ => simp [items]

/-! ## Expressions of the shape of a tree -/

/-- Whether the tree is a comparison without brackets. -/
def compares : Cst BinOp PyAtom → Bool
  | .binary op _ _ => op.isComparison
  | _ => false

/-- The expression is that of the tree, leaf by leaf and operator by operator, and no
comparison of the tree goes on with another one. -/
def Mirrors : Cst BinOp PyAtom → Expr → Prop
  | .atom a, e => ∃ v, a.value = some v ∧ v.constify = e
  | .brackets t, e => Mirrors t e
  | .binary op l r, .operator op' lhs rhs =>
    op = op' ∧ (op.isComparison = true → compares l = false) ∧ Mirrors l lhs ∧ Mirrors r rhs
  | .cond t c f, .select true_val cond false_val =>
    Mirrors t true_val ∧ Mirrors c cond ∧ Mirrors f false_val
  | .call1 fn x, .function1 fn' lhs => fn = .fn1 fn' ∧ Mirrors x lhs
  | .call2 fn x y, .function2 fn' lhs rhs => fn = .fn2 fn' ∧ Mirrors x lhs ∧ Mirrors y rhs
  | _, _ => False

section Mirrors

variable {py : PyFloat}

theorem Evaluates.compares_eq_false {t : Cst BinOp PyAtom} {v : Value} {last : Option Value}
    (h : Evaluates py t v last) (hlast : last = none) : compares t = false := by
  cases h with
  | skipped _ _ => cases hlast
  | chained _ _ _ _ => cases hlast
  | binary _ _ _ _ =>
    split at hlast
    · cases hlast
    · rename_i hop
      exact Bool.eq_false_iff.mpr hop
  | _ => rfl

/-- What evaluates to a number and has one item only is a number. -/
theorem Evaluates.items_number {t : Cst BinOp PyAtom} {v : Value} {last : Option Value}
    (h : Evaluates py t v last) {x : PyValue} (hv : v = .number x)
    (hlength : (treeItems t).length = 1) : treeItems t = [.number] := by
  have hbinary : ∀ {op l r vl lastl}, Evaluates py l vl lastl →
      (treeItems (.binary op l r)).length ≠ 1 := by
    intro op l r vl lastl hl
    have hle := hl.length_le.1
    have hpos := vl.constify.items_length_pos
    rw [treeItems_binary, List.length_append, List.length_cons]
    omega
  induction h with
  | @atom a _ ha =>
    subst hv
    cases a with
    | number y => rfl
    | _ => cases ha
  | brackets _ ih =>
    rw [treeItems_brackets] at hlength ⊢
    exact ih hv hlength
  | skipped hl _ _ => exact absurd hlength (hbinary hl)
  | chained hl _ _ _ _ _ => exact absurd hlength (hbinary hl)
  | binary hl _ _ _ _ _ => exact absurd hlength (hbinary hl)
  | cond _ _ _ _ _ _ => cases hv
  | call1 _ _ => cases hv
  | call2 _ _ _ _ => cases hv

/-- A comparison that was turned around comes with other items. -/
theorem not_turned {e : Expr} (he : e.Evaluated) {op op' : BinOp} (hne : op' ≠ op)
    (hop : op.swaps = true) (items rest : List Item) :
    (e.items ++ .op op' :: items).map Item.shape ≠
      (.number :: .op op :: rest).map Item.shape := by
  intro heq
  have hnumber : ∀ {i : Item}, i.shape = .number → i = .number := by
    intro i hi
    cases i <;> first | rfl | cases hi
  have hoperator : ∀ {i : Item}, i.shape = .op op → i = .op op := by
    intro i hi
    cases i <;> first | exact hi | cases hi
  have hitems : ∀ rest, e.items ≠ .number :: .op op :: rest := he.items_ne hop
  have hpos := e.items_length_pos
  match he : e.items with
  | [] => simp [he] at hpos
  | [i] =>
    simp only [he, List.cons_append, List.nil_append, List.map_cons, List.cons.injEq] at heq
    exact hne (Item.op.inj heq.2.1)
  | i :: j :: tail =>
    simp only [he, List.cons_append, List.map_cons, List.cons.injEq] at heq
    rw [hnumber heq.1, hoperator heq.2.1] at he
    exact hitems tail he

/-- Where evaluation leaves the shape of the items, it leaves the tree. -/
theorem Evaluates.mirrors {t : Cst BinOp PyAtom} {v : Value} {last : Option Value}
    (h : Evaluates py t v last) (hok : TokensOk t)
    (hshape : v.constify.items.map Item.shape = (treeItems t).map Item.shape) :
    Mirrors t v.constify := by
  induction h with
  | atom ha => exact ⟨_, ha, rfl⟩
  | brackets _ ih =>
    rw [treeItems_brackets] at hshape
    exact ih hok.brackets hshape
  | skipped hl _ _ =>
    have hlength := congrArg List.length hshape
    have hle := hl.length_le.1
    simp only [treeItems_binary, List.length_map, List.length_append, List.length_cons] at hlength
    omega
  | chained hl _ hr hv _ _ =>
    have hlength := congrArg List.length hshape
    have hmiddle := hl.length_le.2 _ rfl
    have hle := hr.length_le.1
    have happly := Value.length_apply hv
    simp only [treeItems_binary, List.length_map, List.length_append, List.length_cons] at hlength
    omega
  | @binary op l r vl vr v lastl lastr hl hlast hr hv ihl ihr =>
    obtain ⟨hokl, hokr⟩ := hok.binary
    have hlel := hl.length_le.1
    have hler := hr.length_le.1
    rw [treeItems_binary] at hshape
    have hkept : v.constify = .operator op vl.constify vr.constify →
        Mirrors (.binary op l r) v.constify := by
      intro hv
      rw [hv] at hshape ⊢
      obtain ⟨hshapel, -, hshaper⟩ := split_shapes hshape hlel hler
      exact ⟨rfl, fun hop => hl.compares_eq_false (hlast hop), ihl hokl hshapel,
        ihr hokr hshaper⟩
    cases vl with
    | expr e =>
      obtain rfl := Option.some.inj hv
      exact hkept rfl
    | number x =>
      have hone : (Value.number x).constify.items.length = 1 := rfl
      have hposl : 0 < (treeItems l).length := by omega
      cases vr with
      | number y =>
        obtain ⟨z, -, rfl⟩ := Option.map_eq_some_iff.mp hv
        have hlength := congrArg List.length hshape
        have hz : (Value.number z).constify.items.length = 1 := rfl
        simp only [List.length_map, List.length_append, List.length_cons, hz] at hlength
        omega
      | expr e =>
        have hturned : ∀ op' : BinOp, op' ≠ op → op.swaps = true →
            v.constify = .operator op' e (Value.number x).constify → False := by
          intro op' hne hop hv
          rw [hv, Expr.items] at hshape
          have hlength := congrArg List.length hshape
          simp only [List.length_map, List.length_append, List.length_cons, hone,
            Value.constify_expr] at hlength hler
          have hnumber := hl.items_number rfl (by omega)
          rw [hnumber] at hshape
          exact not_turned (hr.made hokr).1.2.1 hne hop _ _ hshape
        cases op with
        | lt =>
          obtain rfl := Option.some.inj hv
          exact (hturned .gt (by decide) rfl rfl).elim
        | gt =>
          obtain rfl := Option.some.inj hv
          exact (hturned .lt (by decide) rfl rfl).elim
        | xor => cases hv
        | mod => cases hv
        | _ =>
          obtain rfl := Option.some.inj hv
          exact hkept rfl
  | cond ht hc hf iht ihc ihf =>
    have hlet := ht.length_le.1
    have hlec := hc.length_le.1
    have hlef := hf.length_le.1
    simp only [treeItems_cond, Value.constify_expr, Expr.items] at hshape ⊢
    obtain ⟨hshapet, -, hrest⟩ := split_shapes hshape hlet (by
      simp only [List.length_append, List.length_cons]
      omega)
    obtain ⟨hshapec, -, hshapef⟩ := split_shapes hrest hlec hlef
    obtain ⟨hokt, hokc, hokf⟩ := hok.cond
    exact ⟨iht hokt hshapet, ihc hokc hshapec, ihf hokf hshapef⟩
  | call1 hx ih =>
    simp only [treeItems_call1, Value.constify_expr, Expr.items, List.map_cons, List.cons.injEq,
      true_and] at hshape
    exact ⟨rfl, ih hok.call1 hshape⟩
  | call2 hx hy ihx ihy =>
    simp only [treeItems_call2, Value.constify_expr, Expr.items, List.map_cons, List.cons.injEq,
      true_and] at hshape
    obtain ⟨hshapex, -, hshapey⟩ := split_shapes hshape hx.length_le.1 hy.length_le.1
    exact ⟨rfl, ihx hok.call2.1 hshapex, ihy hok.call2.2 hshapey⟩

end Mirrors

end PmuEvents.Metric
