import PmuEvents.Foundation.CLiteral
set_option autoImplicit false

/-!
# Suffixes of spelled literals

A spelling determines its units.  A suffix of the spelling that is a spelling
itself need not consist of the last units: it may begin inside an escape.  Then
its bytes are not the last bytes, except where an escaped backslash stands before
three plain zeros.
-/

namespace PmuEvents.Foundation

namespace CUnit

/-- The plain character `0`. -/
def zero : CUnit := plain ⟨'0', by decide⟩

/-- The plain character `n`. -/
def letterN : CUnit := plain ⟨'n', by decide⟩

/-- The plain character `r`. -/
def letterR : CUnit := plain ⟨'r', by decide⟩

/-- No unit's spelling begins another's. -/
theorem text_append_inj {u v : CUnit} {s t : Text} (h : u.text ++ s = v.text ++ t) :
    u = v ∧ s = t := by
  cases u with
  | plain c =>
    cases v with
    | plain d =>
      obtain ⟨hc, hs⟩ := List.cons.inj h
      exact ⟨by rw [Subtype.ext hc], hs⟩
    | newline | carriageReturn | quote | backslash | nul =>
      exact absurd (List.cons.inj h).1 c.property.1
  | newline | carriageReturn | quote | backslash | nul =>
    cases v with
    | plain d => exact absurd (List.cons.inj h).1.symm d.property.1
    | newline | carriageReturn | quote | backslash | nul => simp_all [text]

theorem text_ne_nil (u : CUnit) : u.text ≠ [] := by
  cases u <;> simp [text]

end CUnit

theorem unitsText_injective {us vs : List CUnit} (h : unitsText us = unitsText vs) : us = vs := by
  induction us generalizing vs with
  | nil =>
    cases vs with
    | nil => rfl
    | cons v vs => exact absurd (List.append_eq_nil_iff.mp h.symm).1 v.text_ne_nil
  | cons u us ih =>
    cases vs with
    | nil => exact absurd (List.append_eq_nil_iff.mp h).1 u.text_ne_nil
    | cons v vs =>
      obtain ⟨rfl, hrest⟩ := CUnit.text_append_inj h
      rw [ih hrest]

/-- A spelling that begins as a unit's spelling begins with that unit. -/
theorem eq_cons_of_unitsText {u : CUnit} {us vs : List CUnit}
    (h : unitsText vs = u.text ++ unitsText us) : vs = u :: us :=
  unitsText_injective h

/-- No spelling begins with a quote. -/
theorem unitsText_ne_quote {vs : List CUnit} {t : Text} : unitsText vs ≠ '"' :: t := by
  cases vs with
  | nil => simp
  | cons v vs =>
    cases v with
    | plain c => exact fun h => c.property.2.1 (List.cons.inj h).1
    | newline | carriageReturn | quote | backslash | nul => simp [CUnit.text]

/-- An escaped backslash stands nowhere before three plain zeros. -/
def NoFalseNul (us : List CUnit) : Prop :=
  ¬ [.backslash, CUnit.zero, CUnit.zero, CUnit.zero] <:+: us

instance (us : List CUnit) : Decidable (NoFalseNul us) := inferInstanceAs (Decidable (¬ _))

theorem NoFalseNul.tail {u : CUnit} {us : List CUnit} (h : NoFalseNul (u :: us)) :
    NoFalseNul us := fun hus => h (List.infix_cons hus)

theorem noFalseNul_cons_iff {u : CUnit} {us : List CUnit} :
    NoFalseNul (u :: us) ↔
      ¬ (u = .backslash ∧ [CUnit.zero, CUnit.zero, CUnit.zero] <+: us) ∧ NoFalseNul us := by
  rw [NoFalseNul, NoFalseNul, List.infix_cons_iff, List.cons_prefix_cons, not_or,
    eq_comm (a := CUnit.backslash)]

/-- A prefix without `x` ends before the first `x`. -/
theorem prefix_of_not_mem {α : Type} {p s t : List α} {x : α} (h : p <+: s ++ x :: t)
    (hx : x ∉ p) : p <+: s := by
  rcases List.prefix_or_prefix_of_prefix h (List.prefix_append s (x :: t)) with hp | ⟨r, rfl⟩
  · exact hp
  · rw [List.prefix_append_right_inj] at h
    cases r with
    | nil => simp
    | cons y r =>
      obtain ⟨rfl, -⟩ := List.cons_prefix_cons.mp h
      exact absurd (List.mem_append_right s List.mem_cons_self) hx

/-- A terminator breaks the zeros. -/
theorem NoFalseNul.append_nul {us vs : List CUnit} (hus : NoFalseNul us) (hvs : NoFalseNul vs) :
    NoFalseNul (us ++ .nul :: vs) := by
  induction us with
  | nil =>
    refine noFalseNul_cons_iff.mpr ⟨?_, hvs⟩
    rintro ⟨h, -⟩
    exact absurd h (by decide)
  | cons u us ih =>
    obtain ⟨hhead, htail⟩ := noFalseNul_cons_iff.mp hus
    refine noFalseNul_cons_iff.mpr ⟨?_, ih htail⟩
    rintro ⟨hu, hzeros⟩
    exact hhead ⟨hu, prefix_of_not_mem hzeros (by decide)⟩

theorem NoFalseNul.append_of_not_mem {us vs : List CUnit} (hus : CUnit.backslash ∉ us)
    (hvs : NoFalseNul vs) : NoFalseNul (us ++ vs) := by
  induction us with
  | nil => exact hvs
  | cons u us ih =>
    rw [List.mem_cons, not_or] at hus
    exact noFalseNul_cons_iff.mpr ⟨fun h => hus.1 h.1.symm, ih hus.2⟩

/-- What ends in another byte before the same bytes is no suffix. -/
theorem not_suffix_of_ne {x y : UInt8} (hne : x ≠ y) (s P B : List UInt8) :
    ¬ s ++ [x] ++ B <:+ P ++ [y] ++ B := by
  rw [List.suffix_append_self_iff]
  rintro ⟨r, hr⟩
  rw [← List.append_assoc] at hr
  exact hne (List.cons.inj (List.append_inj_right' hr rfl)).1

theorem NoFalseNul.not_zeros {us : List CUnit} (h : NoFalseNul (.backslash :: us))
    (vs : List CUnit) : us ≠ CUnit.zero :: CUnit.zero :: CUnit.zero :: vs := by
  rintro rfl
  exact h ⟨[], vs, rfl⟩

/-- A spelling that begins with the second half of an escaped backslash: its first
unit takes characters from the unit after the backslash, and the bytes differ
there, or the first unit is an escaped backslash too and the next one is halved. -/
theorem not_suffix_of_halfBackslash {us vs : List CUnit} (P : List UInt8)
    (htext : unitsText vs = '\\' :: unitsText us) (hus : NoFalseNul (.backslash :: us))
    (hvs : NoFalseNul vs) : ¬ unitsBytes vs <:+ P ++ [92] ++ unitsBytes us := by
  induction us generalizing vs P with
  | nil =>
    cases vs with
    | nil => simp at htext
    | cons v vs =>
      cases v with
      | plain c => exact absurd (List.cons.inj htext).1 c.property.1
      | newline | carriageReturn | quote | backslash | nul => simp [CUnit.text] at htext
  | cons u us ih =>
    cases vs with
    | nil => simp at htext
    | cons v vs =>
      cases v with
      | plain c => exact absurd (List.cons.inj htext).1 c.property.1
      | newline =>
        have hu : u :: us = CUnit.letterN :: vs :=
          eq_cons_of_unitsText (List.cons.inj htext).2.symm
        rw [hu]
        exact List.append_assoc (P ++ [92]) [110] _ ▸ not_suffix_of_ne (by decide) [] _ _
      | carriageReturn =>
        have hu : u :: us = CUnit.letterR :: vs :=
          eq_cons_of_unitsText (List.cons.inj htext).2.symm
        rw [hu]
        exact List.append_assoc (P ++ [92]) [114] _ ▸ not_suffix_of_ne (by decide) [] _ _
      | quote => exact absurd (List.cons.inj htext).2.symm unitsText_ne_quote
      | nul =>
        have hu : u :: us = CUnit.zero :: CUnit.zero :: CUnit.zero :: vs :=
          unitsText_injective (List.cons.inj htext).2.symm
        exact absurd hu (hus.not_zeros vs)
      | backslash =>
        have htail : '\\' :: unitsText vs = u.text ++ unitsText us := (List.cons.inj htext).2
        cases u with
        | plain c => exact absurd (List.cons.inj htail).1.symm c.property.1
        | newline =>
          have hv : vs = CUnit.letterN :: us := eq_cons_of_unitsText (List.cons.inj htail).2
          rw [hv]
          exact List.append_assoc (P ++ [92]) [10] _ ▸ not_suffix_of_ne (by decide) [92] _ _
        | carriageReturn =>
          have hv : vs = CUnit.letterR :: us := eq_cons_of_unitsText (List.cons.inj htail).2
          rw [hv]
          exact List.append_assoc (P ++ [92]) [13] _ ▸ not_suffix_of_ne (by decide) [92] _ _
        | quote => exact absurd (List.cons.inj htail).2 unitsText_ne_quote
        | nul =>
          have hv : vs = CUnit.zero :: CUnit.zero :: CUnit.zero :: us :=
            unitsText_injective (List.cons.inj htail).2
          exact absurd hv (hvs.not_zeros us)
        | backslash =>
          have hrest := ih (P ++ [92]) (List.cons.inj htail).2 hus.tail hvs.tail
          intro hsuffix
          have hbytes : P ++ [92] ++ unitsBytes (CUnit.backslash :: us) =
              P ++ [92] ++ [92] ++ unitsBytes us := by simp [CUnit.bytes]
          rw [hbytes] at hsuffix
          exact hrest (List.IsSuffix.trans (List.suffix_cons _ _) hsuffix)

/-- Where a text is cut that units spell: between two units or inside one. -/
theorem unitsText_cut {us : List CUnit} {s t : Text} (h : unitsText us = s ++ t) :
    (∃ vs, vs <:+ us ∧ t = unitsText vs) ∨
      ∃ u vs q q', u :: vs <:+ us ∧ q ≠ [] ∧ q' ≠ [] ∧ u.text = q ++ q' ∧
        t = q' ++ unitsText vs := by
  induction us generalizing s with
  | nil =>
    obtain ⟨rfl, rfl⟩ := List.append_eq_nil_iff.mp h.symm
    exact .inl ⟨[], List.suffix_refl _, rfl⟩
  | cons u us ih =>
    rw [unitsText_cons, List.append_eq_append_iff] at h
    rcases h with ⟨s', rfl, hrest⟩ | ⟨q', hu, rfl⟩
    · rcases ih hrest with ⟨vs, hvs, ht⟩ | ⟨v, vs, q, q', hvs, hcut⟩
      · exact .inl ⟨vs, hvs.trans (List.suffix_cons u us), ht⟩
      · exact .inr ⟨v, vs, q, q', hvs.trans (List.suffix_cons u us), hcut⟩
    · by_cases hs : s = []
      · subst hs
        rw [List.nil_append] at hu
        exact .inl ⟨u :: us, List.suffix_refl _, by rw [unitsText_cons, hu]⟩
      · by_cases hq : q' = []
        · subst hq
          exact .inl ⟨us, List.suffix_cons u us, rfl⟩
        · exact .inr ⟨u, us, s, q', List.suffix_refl _, hs, hq, hu, rfl⟩

/-- There is no cut inside a plain character. -/
theorem cut_plain {c : PlainChar} {q q' : Text} (h : (CUnit.plain c).text = q ++ q')
    (hq : q ≠ []) : q' = [] := by
  rcases List.append_eq_singleton_iff.mp h.symm with ⟨hnil, -⟩ | ⟨-, hnil⟩
  · exact absurd hnil hq
  · exact hnil

/-- A cut inside an escape of two characters. -/
theorem cut_pair {a b : Char} {q q' : Text} (h : [a, b] = q ++ q') (hq : q ≠ []) (hq' : q' ≠ []) :
    q' = [b] := by
  cases q with
  | nil => exact absurd rfl hq
  | cons c q =>
    cases q with
    | nil => exact (List.cons.inj h).2.symm
    | cons d q =>
      have hnil := (List.append_eq_nil_iff.mp (List.cons.inj (List.cons.inj h).2).2.symm).2
      exact absurd hnil hq'

/-- A cut inside a terminator leaves zeros. -/
theorem eq_zeros_of_cut_nul {us vs : List CUnit} {q q' : Text} (hq : q ≠ []) (hq' : q' ≠ [])
    (hu : CUnit.nul.text = q ++ q') (htext : unitsText vs = q' ++ unitsText us) :
    ∃ k, vs = List.replicate (k + 1) CUnit.zero ++ us := by
  rcases q with _ | ⟨c, _ | ⟨d, _ | ⟨e, q⟩⟩⟩
  · exact absurd rfl hq
  · obtain ⟨-, rfl⟩ := List.cons.inj hu
    exact ⟨2, unitsText_injective htext⟩
  · obtain ⟨-, rfl⟩ := List.cons.inj (List.cons.inj hu).2
    exact ⟨1, unitsText_injective htext⟩
  · have hlast : ['0'] = q ++ q' := (List.cons.inj (List.cons.inj (List.cons.inj hu).2).2).2
    obtain ⟨rfl, rfl⟩ := (List.append_eq_singleton_iff.mp hlast.symm).resolve_right
      fun h => hq' h.2
    exact ⟨0, unitsText_injective htext⟩

/-- A spelling that begins inside a unit has bytes that do not end there. -/
theorem not_suffix_of_cut {u : CUnit} {us vs : List CUnit} {q q' : Text} (P : List UInt8)
    (hq : q ≠ []) (hq' : q' ≠ []) (hu : u.text = q ++ q')
    (htext : unitsText vs = q' ++ unitsText us) (hus : NoFalseNul (u :: us))
    (hvs : NoFalseNul vs) : ¬ unitsBytes vs <:+ P ++ unitsBytes (u :: us) := by
  cases u with
  | plain c => exact absurd (cut_plain hu hq) hq'
  | newline =>
    rw [cut_pair hu hq hq'] at htext
    rw [eq_cons_of_unitsText (u := CUnit.letterN) htext]
    exact List.append_assoc P [10] _ ▸ not_suffix_of_ne (by decide) [] _ _
  | carriageReturn =>
    rw [cut_pair hu hq hq'] at htext
    rw [eq_cons_of_unitsText (u := CUnit.letterR) htext]
    exact List.append_assoc P [13] _ ▸ not_suffix_of_ne (by decide) [] _ _
  | quote =>
    rw [cut_pair hu hq hq'] at htext
    exact absurd htext unitsText_ne_quote
  | backslash =>
    rw [cut_pair hu hq hq'] at htext
    exact List.append_assoc P [92] _ ▸ not_suffix_of_halfBackslash P htext hus hvs
  | nul =>
    obtain ⟨k, rfl⟩ := eq_zeros_of_cut_nul hq hq' hu htext
    have hzeros : unitsBytes (List.replicate (k + 1) CUnit.zero ++ us) =
        unitsBytes (List.replicate k CUnit.zero) ++ [48] ++ unitsBytes us := by
      rw [List.replicate_succ', unitsBytes_append, unitsBytes_append]
      rfl
    rw [hzeros]
    exact List.append_assoc P [0] _ ▸ not_suffix_of_ne (by decide) _ _ _

/-- A spelling that ends another one consists of its last units exactly when its
bytes are the last bytes. -/
theorem suffix_bytes_iff {us vs : List CUnit} (P : List UInt8)
    (htext : unitsText vs <:+ unitsText us) (hus : NoFalseNul us) (hvs : NoFalseNul vs) :
    unitsBytes vs <:+ P ++ unitsBytes us ↔ vs <:+ us := by
  constructor
  · intro hbytes
    obtain ⟨s, hs⟩ := htext
    rcases unitsText_cut hs.symm with ⟨ws, hws, heq⟩ | ⟨u, ws, q, q', hsuffix, hq, hq', hu, heq⟩
    · rw [unitsText_injective heq]
      exact hws
    · obtain ⟨pre, rfl⟩ := hsuffix
      rw [unitsBytes_append, ← List.append_assoc] at hbytes
      exact absurd hbytes (not_suffix_of_cut _ hq hq' hu heq
        (fun h => hus (h.trans (List.suffix_append _ _).isInfix)) hvs)
  · rintro ⟨pre, rfl⟩
    rw [unitsBytes_append, ← List.append_assoc]
    exact List.suffix_append _ _

end PmuEvents.Foundation
