import Mathlib.Data.List.Induction
set_option autoImplicit false

/-!
# Dictionaries laid over each other

A dictionary is a function with optional values.  The entries of the later ones in
a list replace those of the earlier ones; what is below is seen only where none of
them has an entry.
-/

namespace PmuEvents.Foundation

variable {κ α : Type}

/-- The entries of `e` over those of `d`. -/
def overlay (d e : κ → Option α) : κ → Option α := fun k => (e k).or (d k)

/-- A list of dictionaries over `d`, the last one on top. -/
def overlayAll (d : κ → Option α) (es : List (κ → Option α)) : κ → Option α := es.foldl overlay d

/-- Every entry of the first dictionary is one of the second. -/
def Below (d d' : κ → Option α) : Prop := ∀ k v, d k = some v → d' k = some v

theorem Below.of_none (d : κ → Option α) : Below (fun _ => none) d := by
  intro k v h
  cases h

theorem Below.overlay {d d' : κ → Option α} (h : Below d d') (e : κ → Option α) :
    Below (overlay d e) (overlay d' e) := by
  intro k v hv
  rcases Option.or_eq_some_iff.mp hv with he | ⟨he, hd⟩
  · exact Option.or_eq_some_iff.mpr (.inl he)
  · exact Option.or_eq_some_iff.mpr (.inr ⟨he, h k v hd⟩)

theorem overlayAll_append (d : κ → Option α) (es es' : List (κ → Option α)) :
    overlayAll d (es ++ es') = overlayAll (overlayAll d es) es' :=
  List.foldl_append

/-- The last dictionary of a list is on top. -/
theorem overlayAll_concat {d e : κ → Option α} (es : List (κ → Option α)) {k : κ}
    (h : (e k).isSome) : overlayAll d (es ++ [e]) k = e k := by
  obtain ⟨v, hv⟩ := Option.isSome_iff_exists.mp h
  rw [overlayAll_append]
  simp [overlayAll, overlay, hv]

/-- The value of a list over `d`: that of the list on its own, else that of `d`. -/
theorem overlayAll_eq (d : κ → Option α) (es : List (κ → Option α)) (k : κ) :
    overlayAll d es k = (overlayAll (fun _ => none) es k).or (d k) := by
  induction es using List.reverseRecOn with
  | nil => rfl
  | append_singleton es e ih =>
    rw [overlayAll_append, overlayAll_append]
    change (e k).or (overlayAll d es k) = ((e k).or (overlayAll (fun _ => none) es k)).or (d k)
    rw [ih, Option.or_assoc]

/-- An entry of a list comes from one of its members. -/
theorem exists_of_overlayAll {es : List (κ → Option α)} {k : κ} {v : α}
    (h : overlayAll (fun _ => none) es k = some v) : ∃ e ∈ es, e k = some v := by
  induction es using List.reverseRecOn with
  | nil => cases h
  | append_singleton es e ih =>
    rw [overlayAll_append] at h
    change (e k).or (overlayAll (fun _ => none) es k) = some v at h
    rcases Option.or_eq_some_iff.mp h with he | ⟨-, hes⟩
    · exact ⟨e, by simp, he⟩
    · obtain ⟨e', he', hv⟩ := ih hes
      exact ⟨e', List.mem_append_left _ he', hv⟩

/-- A list has an entry exactly where one of its members does. -/
theorem overlayAll_isSome_iff (es : List (κ → Option α)) (k : κ) :
    (overlayAll (fun _ => none) es k).isSome ↔ ∃ e ∈ es, (e k).isSome := by
  constructor
  · intro h
    obtain ⟨v, hv⟩ := Option.isSome_iff_exists.mp h
    obtain ⟨e, he, hek⟩ := exists_of_overlayAll hv
    exact ⟨e, he, by rw [hek]; rfl⟩
  · rintro ⟨e, he, hek⟩
    obtain ⟨pre, post, rfl⟩ := List.append_of_mem he
    have hpre : (overlayAll (fun _ => none) (pre ++ [e]) k).isSome := by
      rw [overlayAll_concat pre hek]
      exact hek
    rw [← List.singleton_append, ← List.append_assoc, overlayAll_append, overlayAll_eq,
      Option.isSome_or, hpre, Bool.or_true]

/-- Where a list has an entry, nothing below it is seen. -/
theorem overlayAll_eq_of_isSome {d : κ → Option α} {es : List (κ → Option α)} {k : κ}
    (h : (overlayAll (fun _ => none) es k).isSome) :
    overlayAll d es k = overlayAll (fun _ => none) es k := by
  obtain ⟨v, hv⟩ := Option.isSome_iff_exists.mp h
  rw [overlayAll_eq, hv]
  rfl

end PmuEvents.Foundation
