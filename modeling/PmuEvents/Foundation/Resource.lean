import Mathlib.Algebra.BigOperators.Group.Multiset.Basic
set_option autoImplicit false

/-!
# Foundation: programs that hold resources

A program acquires resources, uses them and hands them back, or asks for one that the
system may refuse.  A program that touches a resource it does not hold has no outcome.
A triple says what becomes of the resources a program is given, whatever else is held
around it, so triples compose along the program.
-/

namespace PmuEvents.Foundation

variable {κ α β : Type}

/-- A resource: its kind, and a number no other resource has. -/
structure Resource (κ : Type) where
  kind : κ
  id : Nat
  deriving DecidableEq, Repr

/-- The resource a pointer points to; NULL points to none. -/
def pointee (p : Option (Resource κ)) : Multiset (Resource κ) := p.elim 0 fun r => {r}

@[simp] theorem pointee_none : pointee (none : Option (Resource κ)) = 0 := rfl

@[simp] theorem pointee_some (r : Resource κ) : pointee (some r) = {r} := rfl

/-- A program over resources of the kinds `κ`. -/
inductive Program (κ α : Type) : Type where
  | pure (value : α)
  | acquire (kind : κ) (next : Resource κ → Program κ α)
  | release (r : Resource κ) (next : Program κ α)
  | use (r : Resource κ) (next : Program κ α)
  /-- ask for a resource in place of one that is held, or of none -/
  | grow (kind : κ) (old : Option (Resource κ)) (next : Option (Resource κ) → Program κ α)
  | fault

namespace Program

/-- Run one program and then the next. -/
def bind : Program κ α → (α → Program κ β) → Program κ β
  | .pure value, f => f value
  | .acquire kind next, f => .acquire kind fun r => (next r).bind f
  | .release r next, f => .release r (next.bind f)
  | .use r next, f => .use r (next.bind f)
  | .grow kind old next, f => .grow kind old fun r => (next r).bind f
  | .fault, _ => .fault

instance : Monad (Program κ) where
  pure := .pure
  bind := .bind

theorem bind_pure (program : Program κ α) : program.bind .pure = program := by
  induction program with
  | pure value => rfl
  | acquire kind next ih => simp only [bind, ih]
  | release r next ih => rw [bind, ih]
  | use r next ih => rw [bind, ih]
  | grow kind old next ih => simp only [bind, ih]
  | fault => rfl

theorem bind_assoc {γ : Type} (program : Program κ α) (f : α → Program κ β)
    (g : β → Program κ γ) : (program.bind f).bind g = program.bind fun a => (f a).bind g := by
  induction program with
  | pure value => rfl
  | acquire kind next ih => simp only [bind, ih]
  | release r next ih => rw [bind, bind, bind, ih]
  | use r next ih => rw [bind, bind, bind, ih]
  | grow kind old next ih => simp only [bind, ih]
  | fault => rfl

instance : LawfulMonad (Program κ) :=
  LawfulMonad.mk' (Program κ) bind_pure (fun _ _ => rfl) bind_assoc

end Program

/-- Take a resource that is not refused. -/
def acquire (kind : κ) : Program κ (Resource κ) := .acquire kind .pure

/-- Hand a resource back. -/
def release (r : Resource κ) : Program κ Unit := .release r (.pure ())

/-- Read or write through a resource. -/
def use (r : Resource κ) : Program κ Unit := .use r (.pure ())

/-- Exchange a resource for another one, or ask for a first one; `none` when the system
refuses, and then the old one is kept. -/
def grow (kind : κ) (old : Option (Resource κ)) : Program κ (Option (Resource κ)) :=
  .grow kind old .pure

/-- The resources that are held, and how many requests the system has answered. -/
structure Store (κ : Type) where
  live : Multiset (Resource κ)
  next : Nat
  below : ∀ r ∈ live, r.id < next
  nodup : live.Nodup
  requests : Nat

namespace Store

/-- Nothing is held. -/
def empty : Store κ where
  live := 0
  next := 0
  below := by simp
  nodup := Multiset.nodup_zero
  requests := 0

/-- The resource that is acquired next. -/
def fresh (s : Store κ) (kind : κ) : Resource κ := { kind, id := s.next }

def acquired (s : Store κ) (kind : κ) : Store κ where
  live := s.fresh kind ::ₘ s.live
  next := s.next + 1
  below := by
    intro r hr
    rcases Multiset.mem_cons.mp hr with rfl | hr
    · exact Nat.lt_succ_self _
    · exact Nat.lt_succ_of_lt (s.below r hr)
  nodup := Multiset.nodup_cons.mpr ⟨fun hr => Nat.lt_irrefl _ (s.below _ hr), s.nodup⟩
  requests := s.requests

variable [DecidableEq κ]

def released (s : Store κ) (r : Resource κ) : Store κ where
  live := s.live.erase r
  next := s.next
  below := fun r' hr' => s.below r' (Multiset.mem_of_mem_erase hr')
  nodup := s.nodup.erase r
  requests := s.requests

/-- The store after a request has been answered. -/
def answered (s : Store κ) : Store κ := { s with requests := s.requests + 1 }

/-- The store in which an old resource, if any, is exchanged for a new one. -/
def exchanged (s : Store κ) (kind : κ) : Option (Resource κ) → Store κ
  | none => s.answered.acquired kind
  | some old => (s.answered.released old).acquired kind

end Store

section Run

variable [DecidableEq κ] (grants : Nat → Bool)

/-- The outcome of a program; `none` when it touches a resource that is not held.
`grants` says which requests the system grants. -/
def run : Program κ α → Store κ → Option (α × Store κ)
  | .pure value, s => some (value, s)
  | .acquire kind next, s => run (next (s.fresh kind)) (s.acquired kind)
  | .release r next, s => if r ∈ s.live then run next (s.released r) else none
  | .use r next, s => if r ∈ s.live then run next s else none
  | .grow kind old next, s =>
    if ∀ r ∈ old, r ∈ s.live then
      if grants s.requests then run (next (some (s.fresh kind))) (s.exchanged kind old)
      else run (next none) s.answered
    else none
  | .fault, _ => none

/-- Some request is refused. -/
def Refuses : Prop := ∃ n, grants n = false

end Run

section Triple

variable [DecidableEq κ] {grants : Nat → Bool}

/-- Given the resources `pre` beside any others, the program has an outcome, and what it
returns and holds in their place satisfies `post`. -/
def Triple (grants : Nat → Bool) (pre : Multiset (Resource κ)) (program : Program κ α)
    (post : α → Multiset (Resource κ) → Prop) : Prop :=
  ∀ s frame, s.live = pre + frame →
    ∃ value s' held, run grants program s = some (value, s') ∧ s'.live = held + frame ∧
      post value held

theorem run_bind (program : Program κ α) (next : α → Program κ β) (s : Store κ) :
    run grants (program >>= next) s =
      (run grants program s).bind fun r => run grants (next r.1) r.2 := by
  induction program generalizing s with
  | pure value => rfl
  | acquire kind rest ih => exact ih (s.fresh kind) (s.acquired kind)
  | release r rest ih =>
    change (if _ then run grants (rest >>= next) (s.released r) else none) = _
    rw [ih, run]
    split <;> rfl
  | use r rest ih =>
    change (if _ then run grants (rest >>= next) s else none) = _
    rw [ih, run]
    split <;> rfl
  | grow kind old rest ih =>
    change (if _ then (if _ then run grants (rest (some (s.fresh kind)) >>= next)
      (s.exchanged kind old) else run grants (rest none >>= next) s.answered) else none) = _
    rw [ih, ih, run]
    split
    · split <;> rfl
    · rfl
  | fault => rfl

theorem run_use {r : Resource κ} {next : Unit → Program κ α} {s : Store κ} (h : r ∈ s.live) :
    run grants (use r >>= next) s = run grants (next ()) s := by
  rw [run_bind, use, run, if_pos h]
  rfl

section Grow

variable {kind : κ} {old : Option (Resource κ)} {next : Option (Resource κ) → Program κ α}
  {s : Store κ} (h : ∀ r ∈ old, r ∈ s.live)

include h

theorem run_grow_granted (hgrant : grants s.requests = true) :
    run grants (grow kind old >>= next) s =
      run grants (next (some (s.fresh kind))) (s.exchanged kind old) := by
  rw [run_bind, grow, run, if_pos h, if_pos hgrant]
  rfl

theorem run_grow_refused (hgrant : grants s.requests = false) :
    run grants (grow kind old >>= next) s = run grants (next none) s.answered := by
  rw [run_bind, grow, run, if_pos h, if_neg (by simp [hgrant])]
  rfl

end Grow

namespace Triple

variable {pre own rest : Multiset (Resource κ)} {post mid : α → Multiset (Resource κ) → Prop}

theorem pure {value : α} (h : post value pre) :
    Triple grants pre (Pure.pure value) post :=
  fun s _ hs => ⟨value, s, pre, rfl, hs, h⟩

theorem conseq {post' : α → Multiset (Resource κ) → Prop} {program : Program κ α}
    (h : Triple grants pre program post)
    (hpost : ∀ value held, post value held → post' value held) :
    Triple grants pre program post' := by
  intro s frame hs
  obtain ⟨value, s', held, hrun, hheld, hvalue⟩ := h s frame hs
  exact ⟨value, s', held, hrun, hheld, hpost value held hvalue⟩

/-- A triple about all that a store holds. -/
theorem outcome {program : Program κ α} {s : Store κ} (h : Triple grants s.live program post) :
    ∃ value s', run grants program s = some (value, s') ∧ post value s'.live := by
  obtain ⟨value, s', held, hrun, hheld, hvalue⟩ := h s 0 (add_zero _).symm
  rw [add_zero] at hheld
  exact ⟨value, s', hrun, hheld ▸ hvalue⟩

/-- A call that is given some of the resources; the others are there afterwards. -/
theorem call {program : Program κ α} {next : α → Program κ β}
    {post : β → Multiset (Resource κ) → Prop} (h : Triple grants own program mid)
    (hpre : pre = own + rest)
    (hnext : ∀ value held, mid value held → Triple grants (held + rest) (next value) post) :
    Triple grants pre (program >>= next) post := by
  intro s frame hs
  rw [hpre, add_assoc] at hs
  obtain ⟨value, s', held, hrun, hheld, hvalue⟩ := h s (rest + frame) hs
  rw [← add_assoc] at hheld
  obtain ⟨result, s'', held', hrun', hheld', hresult⟩ := hnext value held hvalue s' frame hheld
  refine ⟨result, s'', held', ?_, hheld', hresult⟩
  rw [run_bind, hrun]
  exact hrun'

theorem bind {program : Program κ α} {next : α → Program κ β}
    {post : β → Multiset (Resource κ) → Prop} (h : Triple grants pre program mid)
    (hnext : ∀ value held, mid value held → Triple grants held (next value) post) :
    Triple grants pre (program >>= next) post := by
  refine h.call (add_zero pre).symm fun value held hvalue => ?_
  rw [add_zero]
  exact hnext value held hvalue

/-- A last call that is given some of the resources. -/
theorem frame {program : Program κ α} (h : Triple grants own program mid) (hpre : pre = own + rest)
    (hpost : ∀ value held, mid value held → post value (held + rest)) :
    Triple grants pre program post := by
  have hcall : Triple grants pre (program >>= Pure.pure) post :=
    h.call hpre fun value held hvalue => .pure (hpost value held hvalue)
  rwa [bind_pure] at hcall

/-- A call that hands back what it is given. -/
theorem dispose {program : Program κ Unit} {next : Unit → Program κ α}
    (h : Triple grants own program fun _ held => held = 0) (hpre : pre = own + rest)
    (hnext : Triple grants rest (next ()) post) : Triple grants pre (program >>= next) post := by
  refine h.call hpre fun _ held hheld => ?_
  rw [hheld, zero_add]
  exact hnext

/-- A program that hands back what it is given restores the store. -/
theorem restores {program : Program κ Unit} {s : Store κ} {held : Multiset (Resource κ)}
    (h : Triple grants own program fun _ held => held = 0) (hs : s.live = own + held) :
    ∃ s', run grants program s = some ((), s') ∧ s'.live = held := by
  obtain ⟨_, s', rest, hrun, hlive, rfl⟩ := h s held hs
  rw [zero_add] at hlive
  exact ⟨s', hrun, hlive⟩

theorem acquire {kind : κ} {next : Resource κ → Program κ α}
    (h : ∀ r, r.kind = kind → Triple grants ({r} + pre) (next r) post) :
    Triple grants pre (Foundation.acquire kind >>= next) post := by
  intro s frame hs
  refine h (s.fresh kind) rfl (s.acquired kind) frame ?_
  change s.fresh kind ::ₘ s.live = _
  rw [hs, Multiset.singleton_add, Multiset.cons_add]

theorem release {r : Resource κ} {next : Unit → Program κ α} (hpre : pre = {r} + rest)
    (h : Triple grants rest (next ()) post) :
    Triple grants pre (Foundation.release r >>= next) post := by
  intro s frame hs
  rw [hpre, Multiset.singleton_add, Multiset.cons_add] at hs
  have hmem : r ∈ s.live := by
    rw [hs]
    exact Multiset.mem_cons_self r _
  have hlive : (s.released r).live = rest + frame := by
    change s.live.erase r = _
    rw [hs, Multiset.erase_cons_head]
  obtain ⟨value, s', held, hrun, hheld, hvalue⟩ := h (s.released r) frame hlive
  refine ⟨value, s', held, ?_, hheld, hvalue⟩
  rw [run_bind, Foundation.release, run, if_pos hmem]
  exact hrun

theorem use {r : Resource κ} {next : Unit → Program κ α} (hmem : r ∈ pre)
    (h : Triple grants pre (next ()) post) :
    Triple grants pre (Foundation.use r >>= next) post := by
  intro s frame hs
  have hlive : r ∈ s.live := by
    rw [hs]
    exact Multiset.mem_add.mpr (.inl hmem)
  obtain ⟨value, s', held, hrun, hheld, hvalue⟩ := h s frame hs
  refine ⟨value, s', held, ?_, hheld, hvalue⟩
  rwa [run_use hlive]

/-- A request is answered with a new resource in place of the old one, or refused. -/
theorem grow {kind : κ} {old : Option (Resource κ)} {next : Option (Resource κ) → Program κ α}
    (hpre : pre = pointee old + rest)
    (hgranted : ∀ r, Triple grants ({r} + rest) (next (some r)) post)
    (hrefused : Refuses grants → Triple grants pre (next none) post) :
    Triple grants pre (Foundation.grow kind old >>= next) post := by
  intro s frame hs
  have hold : ∀ r ∈ old, r ∈ s.live := by
    intro r hr
    rw [hs, hpre, Option.mem_def.mp hr]
    simp
  by_cases hgrant : grants s.requests = true
  · have hlive : (s.exchanged kind old).live = ({s.fresh kind} + rest) + frame := by
      rw [hpre] at hs
      cases old with
      | none =>
        change s.fresh kind ::ₘ s.live = _
        rw [hs, pointee_none, zero_add, Multiset.singleton_add, Multiset.cons_add]
      | some old =>
        change s.fresh kind ::ₘ s.live.erase old = _
        rw [hs, pointee_some, add_assoc, Multiset.singleton_add, Multiset.erase_cons_head,
          Multiset.singleton_add, Multiset.cons_add]
    rw [run_grow_granted hold hgrant]
    exact hgranted (s.fresh kind) (s.exchanged kind old) frame hlive
  · rw [Bool.not_eq_true] at hgrant
    rw [run_grow_refused hold hgrant]
    exact hrefused ⟨s.requests, hgrant⟩ s.answered frame hs

end Triple

/-- The outcome of a program does not depend on how requests beyond its own are answered. -/
theorem run_congr {program : Program κ α} {s s' : Store κ} {value : α}
    (h : run grants program s = some (value, s')) :
    s.requests ≤ s'.requests ∧ ∀ grants', (∀ n < s'.requests, grants n = grants' n) →
      run grants' program s = some (value, s') := by
  induction program generalizing s with
  | pure result =>
    rw [run, Option.some.injEq, Prod.mk.injEq] at h
    obtain ⟨rfl, rfl⟩ := h
    exact ⟨Nat.le_refl _, fun _ _ => rfl⟩
  | acquire kind rest ih => exact ih _ h
  | release r rest ih =>
    rw [run] at h
    split at h
    · rename_i hmem
      obtain ⟨hle, hsame⟩ := ih h
      refine ⟨hle, fun grants' hagree => ?_⟩
      rw [run, if_pos hmem]
      exact hsame grants' hagree
    · cases h
  | use r rest ih =>
    rw [run] at h
    split at h
    · rename_i hmem
      obtain ⟨hle, hsame⟩ := ih h
      refine ⟨hle, fun grants' hagree => ?_⟩
      rw [run, if_pos hmem]
      exact hsame grants' hagree
    · cases h
  | grow kind old rest ih =>
    rw [run] at h
    split at h
    · rename_i hold
      split at h
      · rename_i hgrant
        obtain ⟨hle, hsame⟩ := ih _ h
        have hless : s.requests < s'.requests := by
          cases old with
          | none => exact hle
          | some old => exact hle
        refine ⟨Nat.le_of_lt hless, fun grants' hagree => ?_⟩
        rw [run, if_pos hold, ← hagree _ hless, if_pos hgrant]
        exact hsame grants' hagree
      · rename_i hgrant
        obtain ⟨hle, hsame⟩ := ih _ h
        refine ⟨Nat.le_of_lt hle, fun grants' hagree => ?_⟩
        rw [run, if_pos hold, ← hagree _ hle, if_neg hgrant]
        exact hsame grants' hagree
    · cases h
  | fault => cases h

end Triple

end PmuEvents.Foundation
