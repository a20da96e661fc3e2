import Mathlib.Order.WellFoundedSet
set_option autoImplicit false

/-!
# Acyclic relations

A relation that leads no element back to itself: what adding one edge does to it,
and induction along it when only finitely many elements are led to.
-/

namespace PmuEvents.Foundation

open Relation

variable {α : Type} {r r' : α → α → Prop}

/-- No element is reached from itself. -/
def Acyclic (r : α → α → Prop) : Prop := ∀ a, ¬ TransGen r a a

theorem Acyclic.mono (h : Acyclic r) (hsub : ∀ a b, r' a b → r a b) : Acyclic r' :=
  fun a hcycle => h a (TransGen.mono hsub _ _ hcycle)

/-- A path of `r'` either avoids the edge `x → y` or passes through it. -/
theorem transGen_addEdge {x y a b : α} (hsub : ∀ a b, r' a b → r a b ∨ (a = x ∧ b = y))
    (h : TransGen r' a b) : TransGen r a b ∨ (ReflTransGen r a x ∧ ReflTransGen r y b) := by
  induction h with
  | single hab =>
    rcases hsub _ _ hab with hab | ⟨rfl, rfl⟩
    · exact .inl (.single hab)
    · exact .inr ⟨.refl, .refl⟩
  | tail _ hbc ih =>
    rcases hsub _ _ hbc with hbc | ⟨rfl, rfl⟩
    · rcases ih with hab | ⟨hax, hyb⟩
      · exact .inl (hab.tail hbc)
      · exact .inr ⟨hax, hyb.tail hbc⟩
    · rcases ih with hab | ⟨hax, -⟩
      · exact .inr ⟨hab.to_reflTransGen, .refl⟩
      · exact .inr ⟨hax, .refl⟩

/-- An edge `x → y` closes no cycle when `y` does not lead to `x`. -/
theorem Acyclic.addEdge {x y : α} (h : Acyclic r)
    (hsub : ∀ a b, r' a b → r a b ∨ (a = x ∧ b = y)) (hback : ¬ ReflTransGen r y x) :
    Acyclic r' := by
  intro a hcycle
  rcases transGen_addEdge hsub hcycle with hold | ⟨hax, hya⟩
  · exact h a hold
  · exact hback (hya.trans hax)

/-- With finitely many targets, an acyclic relation can be followed only finitely often. -/
theorem Acyclic.wellFounded {s : Set α} (h : Acyclic r) (hs : s.Finite)
    (htarget : ∀ a b, r a b → b ∈ s) : WellFounded fun b a => r a b := by
  have horder : IsStrictOrder α fun b a => TransGen r a b :=
    { irrefl := h, trans := fun _ _ _ hba hcb => hcb.trans hba }
  have hacc : ∀ b ∈ s, Acc (fun b a => r a b) b := by
    intro b hb
    refine hs.wellFoundedOn.induction (r := fun b a => TransGen r a b) hb ?_
    intro b _ ih
    exact Acc.intro b fun c hbc => ih c (htarget _ _ hbc) (.single hbc)
  exact ⟨fun a => Acc.intro a fun b hab => hacc b (htarget _ _ hab)⟩

end PmuEvents.Foundation
