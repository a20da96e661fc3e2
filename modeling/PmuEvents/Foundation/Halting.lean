import Mathlib.Order.OrderIsoNat
set_option autoImplicit false

/-!
# Step functions whose runs end

A step function gives the next state, or nothing where the run is over.  A measure
that every step lowers bounds every run, from whatever state it starts.
-/

namespace PmuEvents.Foundation

section Halting

variable {σ : Type} {step : σ → Option σ}

/-- No run of the step function goes on for ever. -/
def Terminates (step : σ → Option σ) : Prop :=
  WellFounded fun next s => step s = some next

theorem Terminates.of_measure {α : Type} {r : α → α → Prop} (hr : WellFounded r) (m : σ → α)
    (h : ∀ s next, step s = some next → r (m next) (m s)) : Terminates step :=
  Subrelation.wf (fun {_ _} => h _ _) (InvImage.wf m hr)

/-- A sequence of states stops following the steps somewhere. -/
theorem Terminates.exists_stop (h : Terminates step) (run : ℕ → σ) :
    ∃ n, step (run n) ≠ some (run (n + 1)) := by
  by_contra hall
  simp only [ne_eq, not_exists, not_not] at hall
  exact (wellFounded_iff_isEmpty_descending_chain.mp h).false ⟨run, hall⟩

end Halting

end PmuEvents.Foundation
