import Mathlib.Data.List.Basic
import Mathlib.Data.List.Forall2
set_option autoImplicit false

/-!
# Runs of steps that can fail

Rules for folds of a step over a list, in two settings: steps that return a state
or an exception, and steps that also leave a trace, of which the part before a
failure counts.
-/

namespace PmuEvents.Foundation

/-! ## Steps with exceptions -/

section Exceptions

variable {ε α β σ : Type}

theorem except_bind_eq_ok {x : Except ε α} {f : α → Except ε β} {b : β} :
    (x >>= f) = .ok b ↔ ∃ a, x = .ok a ∧ f a = .ok b := by
  cases x <;> simp [bind, Except.bind]

/-- A computation that returns `a` where the condition holds, and fails elsewhere. -/
structure Settles (x : Except ε α) (P : Prop) (a : α) : Prop where
  returns : P → x = .ok a
  fails : ¬ P → ∃ err, x = .error err

theorem Settles.ok (a : α) : Settles (.ok a : Except ε α) True a :=
  ⟨fun _ => rfl, fun h => absurd trivial h⟩

/-- One computation after another returns where both do. -/
theorem Settles.bind {x : Except ε α} {f : α → Except ε β} {P Q : Prop} {a : α} {b : β}
    (hx : Settles x P a) (hf : P → Settles (f a) Q b) : Settles (x >>= f) (P ∧ Q) b := by
  constructor
  · rintro ⟨hP, hQ⟩
    rw [hx.returns hP]
    exact (hf hP).returns hQ
  · intro hnot
    by_cases hP : P
    · obtain ⟨err, herr⟩ := (hf hP).fails fun hQ => hnot ⟨hP, hQ⟩
      exact ⟨err, by rw [hx.returns hP]; exact herr⟩
    · obtain ⟨err, herr⟩ := hx.fails hP
      exact ⟨err, by rw [herr]; rfl⟩

theorem Settles.map {x : Except ε α} {f : α → β} {P : Prop} {a : α} (hx : Settles x P a) :
    Settles (x >>= fun a => .ok (f a)) P (f a) := by
  constructor
  · intro hP
    rw [hx.returns hP]
    rfl
  · intro hP
    obtain ⟨err, herr⟩ := hx.fails hP
    exact ⟨err, by rw [herr]; rfl⟩

theorem Settles.congr {x : Except ε α} {P Q : Prop} {a : α} (hx : Settles x P a) (h : Q ↔ P) :
    Settles x Q a :=
  ⟨fun hQ => hx.returns (h.mp hQ), fun hQ => hx.fails fun hP => hQ (h.mpr hP)⟩

/-- What each step keeps, a run keeps. -/
theorem foldlM_keeps {step : σ → α → Except ε σ} {P : σ → Prop} {l : List α}
    (hstep : ∀ s a s', a ∈ l → step s a = .ok s' → P s → P s') {s s' : σ}
    (hrun : l.foldlM step s = .ok s') (h : P s) : P s' := by
  induction l generalizing s with
  | nil =>
    obtain rfl := Except.ok.inj hrun
    exact h
  | cons a l ih =>
    rw [List.foldlM_cons, except_bind_eq_ok] at hrun
    obtain ⟨s₁, hfirst, hrest⟩ := hrun
    exact ih (fun s a s' ha => hstep s a s' (List.mem_cons_of_mem _ ha)) hrest
      (hstep s a s₁ List.mem_cons_self hfirst h)

/-- What the step on an element establishes and every step keeps, holds after a run
for each of its elements. -/
theorem foldlM_establishes {step : σ → α → Except ε σ} {Q : α → σ → Prop} {l : List α}
    (hstep : ∀ s a s', a ∈ l → step s a = .ok s' → Q a s')
    (hkeep : ∀ s a s' b, a ∈ l → step s a = .ok s' → Q b s → Q b s') {s s' : σ}
    (hrun : l.foldlM step s = .ok s') : ∀ a ∈ l, Q a s' := by
  induction l generalizing s with
  | nil => simp
  | cons a l ih =>
    rw [List.foldlM_cons, except_bind_eq_ok] at hrun
    obtain ⟨s₁, hfirst, hrest⟩ := hrun
    intro b hb
    rcases List.mem_cons.mp hb with rfl | hb
    · exact foldlM_keeps (fun s a s' ha => hkeep s a s' b (List.mem_cons_of_mem _ ha)) hrest
        (hstep s b s₁ List.mem_cons_self hfirst)
    · exact ih (fun s a s' ha => hstep s a s' (List.mem_cons_of_mem _ ha))
        (fun s a s' b ha => hkeep s a s' b (List.mem_cons_of_mem _ ha)) hrest b hb

theorem exceptMapM_cons_eq_ok {f : α → Except ε β} {x : α} {xs : List α} {ys : List β} :
    (x :: xs).mapM f = .ok ys ↔
      ∃ y ys', f x = .ok y ∧ xs.mapM f = .ok ys' ∧ ys = y :: ys' := by
  rw [List.mapM_cons, except_bind_eq_ok]
  constructor
  · rintro ⟨y, hy, hrest⟩
    obtain ⟨ys', hys', hpure⟩ := except_bind_eq_ok.mp hrest
    exact ⟨y, ys', hy, hys', (Except.ok.inj hpure).symm⟩
  · rintro ⟨y, ys', hy, hys', rfl⟩
    exact ⟨y, hy, except_bind_eq_ok.mpr ⟨ys', hys', rfl⟩⟩

/-- `mapM` succeeds exactly when every element does, and the results match the elements. -/
theorem exceptMapM_eq_ok_iff {f : α → Except ε β} {xs : List α} {ys : List β} :
    xs.mapM f = .ok ys ↔ List.Forall₂ (fun x y => f x = .ok y) xs ys := by
  induction xs generalizing ys with
  | nil =>
    rw [List.mapM_nil, List.forall₂_nil_left_iff]
    exact ⟨fun h => (Except.ok.inj h).symm, fun h => h ▸ rfl⟩
  | cons x xs ih =>
    rw [exceptMapM_cons_eq_ok, List.forall₂_cons_left_iff]
    constructor
    · rintro ⟨y, ys', hy, hys', rfl⟩
      exact ⟨y, ys', hy, ih.mp hys', rfl⟩
    · rintro ⟨y, ys', hy, hys', rfl⟩
      exact ⟨y, ys', hy, ih.mpr hys', rfl⟩

/-- A result of `mapM` is that of an element. -/
theorem exists_of_mem_exceptMapM {f : α → Except ε β} {xs : List α} {ys : List β}
    (h : xs.mapM f = .ok ys) : ∀ y ∈ ys, ∃ x ∈ xs, f x = .ok y := by
  have hrel := exceptMapM_eq_ok_iff.mp h
  clear h
  induction hrel with
  | nil => simp
  | cons hx _ ih =>
    refine List.forall_mem_cons.mpr ⟨⟨_, List.mem_cons_self, hx⟩, fun y hy => ?_⟩
    obtain ⟨x, hmem, hfx⟩ := ih y hy
    exact ⟨x, List.mem_cons_of_mem _ hmem, hfx⟩

/-- An error of `mapM` is that of an element. -/
theorem exists_of_exceptMapM_eq_error {f : α → Except ε β} {xs : List α} {e : ε}
    (h : xs.mapM f = .error e) : ∃ x ∈ xs, f x = .error e := by
  induction xs with
  | nil => cases h
  | cons x xs ih =>
    rw [List.mapM_cons] at h
    cases hx : f x with
    | error e' =>
      rw [hx] at h
      obtain rfl := Except.error.inj h
      exact ⟨x, List.mem_cons_self, hx⟩
    | ok y =>
      cases hxs : xs.mapM f with
      | error e' =>
        rw [hx, hxs] at h
        obtain rfl := Except.error.inj h
        obtain ⟨z, hz, hfz⟩ := ih hxs
        exact ⟨z, List.mem_cons_of_mem _ hz, hfz⟩
      | ok ys =>
        rw [hx, hxs] at h
        cases h

/-- Where two functions differ only on elements that are bad errors of the first one,
their runs differ only if that of the first one ends in a bad error. -/
theorem exceptMapM_eq_or {f g : α → Except ε β} {B : ε → Prop} {l : List α}
    (h : ∀ x ∈ l, g x = f x ∨ ∃ e, B e ∧ f x = .error e) :
    l.mapM g = l.mapM f ∨ ∃ e, B e ∧ l.mapM f = .error e := by
  induction l with
  | nil => exact .inl rfl
  | cons x xs ih =>
    rw [List.mapM_cons, List.mapM_cons]
    rcases h x List.mem_cons_self with hx | ⟨e, hbad, hx⟩
    · rw [hx]
      cases hf : f x with
      | error e => exact .inl rfl
      | ok y =>
        rcases ih fun z hz => h z (List.mem_cons_of_mem _ hz) with hrest | ⟨e, hbad, hrest⟩
        · exact .inl (by rw [hrest])
        · exact .inr ⟨e, hbad, by rw [hrest]; rfl⟩
    · exact .inr ⟨e, hbad, by rw [hx]; rfl⟩

end Exceptions

/-- Relations that hold between the same two lists have common values on each element. -/
theorem exists_forall_of_forall₂ {ι α β : Type} {K : ι → Prop} {R : ι → α → β → Prop} {l : List α}
    {ys : List β} {i₀ : ι} (hi₀ : K i₀) (h : ∀ i, K i → List.Forall₂ (R i) l ys) :
    ∀ x ∈ l, ∃ y, ∀ i, K i → R i x y := by
  induction l generalizing ys with
  | nil => simp
  | cons x l ih =>
    cases ys with
    | nil => cases h i₀ hi₀
    | cons y ys =>
      have hcons : ∀ i, K i → R i x y ∧ List.Forall₂ (R i) l ys :=
        fun i hi => List.forall₂_cons.mp (h i hi)
      exact List.forall_mem_cons.mpr ⟨⟨y, fun i hi => (hcons i hi).1⟩,
        ih fun i hi => (hcons i hi).2⟩

/-- Functions that agree on every element of a list, and succeed there, agree on the list. -/
theorem exists_mapM_eq_pure {m : Type → Type} [Monad m] [LawfulMonad m] {ι α β : Type}
    {K : ι → Prop} {f : ι → α → m β} {l : List α}
    (h : ∀ x ∈ l, ∃ y, ∀ i, K i → f i x = pure y) : ∃ ys, ∀ i, K i → l.mapM (f i) = pure ys := by
  induction l with
  | nil => exact ⟨[], fun i _ => List.mapM_nil⟩
  | cons x l ih =>
    obtain ⟨⟨y, hy⟩, hrest⟩ := List.forall_mem_cons.mp h
    obtain ⟨ys, hys⟩ := ih hrest
    refine ⟨y :: ys, fun i hi => ?_⟩
    rw [List.mapM_cons, hy i hi, hys i hi]
    simp only [pure_bind]

/-! ## Steps that leave a trace -/

/-- What a computation recorded, and its result if it did not fail. -/
structure Traced (ω α : Type) where
  trace : List ω
  result : Option α

namespace Traced

variable {ω α β σ : Type}

/-- Nothing recorded. -/
def return_ (a : α) : Traced ω α := ⟨[], some a⟩

/-- The second computation runs on the result of the first, if there is one. -/
def andThen (x : Traced ω α) (f : α → Traced ω β) : Traced ω β :=
  match x.result with
  | none => ⟨x.trace, none⟩
  | some a => ⟨x.trace ++ (f a).trace, (f a).result⟩

instance : Monad (Traced ω) where
  pure := return_
  bind := andThen

/-- A failure. -/
def fail : Traced ω α := ⟨[], none⟩

/-- A result that may be missing. -/
def ofOption (a : Option α) : Traced ω α := ⟨[], a⟩

/-- Everything recorded meets the first condition, and the result the second. -/
structure Sat (P : ω → Prop) (Q : α → Prop) (x : Traced ω α) : Prop where
  trace : ∀ w ∈ x.trace, P w
  result : ∀ a, x.result = some a → Q a

variable {P : ω → Prop} {Q : α → Prop} {R : β → Prop}

theorem Sat.pure {a : α} (h : Q a) : Sat P Q (pure a : Traced ω α) := by
  refine ⟨by simp [Pure.pure, return_], ?_⟩
  intro b hb
  obtain rfl := Option.some.inj hb
  exact h

theorem Sat.fail : Sat P Q (fail : Traced ω α) :=
  ⟨by simp [Traced.fail], by simp [Traced.fail]⟩

theorem Sat.ofOption {a : Option α} (h : ∀ b, a = some b → Q b) :
    Sat P Q (ofOption a : Traced ω α) :=
  ⟨by simp [Traced.ofOption], h⟩

theorem Sat.bind {x : Traced ω α} {f : α → Traced ω β} (hx : Sat P Q x)
    (hf : ∀ a, Q a → Sat P R (f a)) : Sat P R (x >>= f) := by
  change Sat P R (andThen x f)
  unfold andThen
  split
  · exact ⟨hx.trace, by simp⟩
  · rename_i a hresult
    have hnext := hf a (hx.result a hresult)
    refine ⟨?_, hnext.result⟩
    intro w hw
    rcases List.mem_append.mp hw with hw | hw
    · exact hx.trace w hw
    · exact hnext.trace w hw

/-- A fold keeps what each of its steps keeps. -/
theorem Sat.foldlM {step : σ → α → Traced ω σ} {Inv : σ → Prop} {l : List α}
    (hstep : ∀ s, ∀ a ∈ l, Inv s → Sat P Inv (step s a)) {s : σ} (h : Inv s) :
    Sat P Inv (l.foldlM step s) := by
  induction l generalizing s with
  | nil => exact Sat.pure h
  | cons a l ih =>
    rw [List.foldlM_cons]
    refine Sat.bind (hstep s a List.mem_cons_self h) ?_
    intro s' hs'
    exact ih (fun s a ha => hstep s a (List.mem_cons_of_mem _ ha)) hs'

/-- A loop keeps the condition on what is recorded. -/
theorem Sat.forM {step : σ → Traced ω PUnit} {l : List σ}
    (hstep : ∀ a ∈ l, Sat P (fun _ => True) (step a)) :
    Sat P (fun _ => True) (l.forM step) := by
  induction l with
  | nil => exact Sat.pure trivial
  | cons a l ih =>
    have hrest := ih fun b hb => hstep b (List.mem_cons_of_mem _ hb)
    exact (hstep a List.mem_cons_self).bind fun _ _ => hrest

end Traced

end PmuEvents.Foundation
