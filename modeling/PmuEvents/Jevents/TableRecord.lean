import PmuEvents.Foundation.UnitSuffix
import PmuEvents.Jevents.Record
set_option autoImplicit false

/-!
# Records that can be decoded

An event or metric whose texts fit into a record: no terminator inside a field, no
character a C literal would read differently.  Its descriptions are escaped as a whole,
which leaves out the events whose `Errata`, appended behind the escaping, needs escaping
itself.  A record is made of units.  Where it ends another one it consists of the last
units, as all records of one kind have the same number of terminators and no escapes in
their first field.
-/

namespace PmuEvents.Jevents

open PmuEvents.Foundation

/-! ## Escaped texts as units -/

theorem replaceChar_append (c : Char) (r s t : Text) :
    replaceChar c r (s ++ t) = replaceChar c r s ++ replaceChar c r t := List.flatMap_append

theorem replaceChar_of_not_mem {c : Char} {s : Text} (h : c ∉ s) (r : Text) :
    replaceChar c r s = s := by
  induction s with
  | nil => rfl
  | cons d s ih =>
    rw [List.mem_cons, not_or] at h
    rw [replaceChar, List.flatMap_cons, if_neg (Ne.symm h.1)]
    exact congrArg (d :: ·) (ih h.2)

theorem escapeDesc_append (s t : Text) : escapeDesc (s ++ t) = escapeDesc s ++ escapeDesc t := by
  simp only [escapeDesc, replaceChar_append]

/-- Doubled backslashes. -/
theorem unitsText_map_charUnit {t : Text} (hquote : '"' ∉ t) (hnewline : '\n' ∉ t)
    (hreturn : '\r' ∉ t) : unitsText (t.map charUnit) = replaceChar '\\' ['\\', '\\'] t := by
  induction t with
  | nil => rfl
  | cons c t ih =>
    rw [List.mem_cons, not_or] at hquote hnewline hreturn
    rw [List.map_cons, unitsText_cons, ih hquote.2 hnewline.2 hreturn.2, replaceChar, replaceChar,
      List.flatMap_cons]
    split
    · rename_i h
      rw [charUnit_eq_backslash_iff.mpr h]
      rfl
    · rename_i h
      rw [charUnit_eq_plain ⟨h, Ne.symm hquote.1, Ne.symm hnewline.1, Ne.symm hreturn.1⟩]
      rfl

theorem text_charUnit {c : Char} (h : c ≠ '\\') : (charUnit c).text = escapeDesc [c] := by
  rcases Classical.em (c = '\r') with rfl | hreturn
  · decide
  rcases Classical.em (c = '"') with rfl | hquote
  · decide
  rcases Classical.em (c = '\n') with rfl | hnewline
  · decide
  · rw [charUnit_eq_plain ⟨h, hquote, hnewline, hreturn⟩, escapeDesc]
    simp [replaceChar, CUnit.text, hreturn, hquote, hnewline]

/-- Escaped quotes and line breaks. -/
theorem unitsText_map_eq_escapeDesc {t : Text} (h : '\\' ∉ t) :
    unitsText (t.map charUnit) = escapeDesc t := by
  induction t with
  | nil => rfl
  | cons c t ih =>
    rw [List.mem_cons, not_or] at h
    rw [List.map_cons, unitsText_cons, ih h.2, text_charUnit (Ne.symm h.1), ← escapeDesc_append]
    rfl

theorem plain_of_isDigit {d : Char} (h : d.isDigit) :
    d ≠ '\\' ∧ d ≠ '"' ∧ d ≠ '\n' ∧ d ≠ '\r' := by
  refine ⟨?_, ?_, ?_, ?_⟩ <;> rintro rfl <;> exact absurd h (by decide)

theorem charUnit_eq_zero {c : Char} (h : charUnit c = CUnit.zero) : c = '0' := by
  unfold charUnit at h
  split_ifs at h
  · exact absurd h (by decide)
  · exact absurd h (by decide)
  · exact absurd h (by decide)
  · exact absurd h (by decide)
  · exact congrArg Subtype.val (CUnit.plain.inj h)

/-- No backslash of a text is followed by three zeros. -/
theorem noFalseNul_map_charUnit {t : Text} (h : ¬ "\\000".toList <:+: t) :
    NoFalseNul (t.map charUnit) := by
  rintro ⟨s, r, heq⟩
  obtain ⟨s', r', rfl, hs, -⟩ := List.map_eq_append_iff.mp heq.symm
  obtain ⟨s'', p, rfl, -, hp⟩ := List.map_eq_append_iff.mp hs
  refine h ⟨s'', r', ?_⟩
  have hp' : p = "\\000".toList := by
    rcases p with _ | ⟨a, _ | ⟨b, _ | ⟨c, _ | ⟨d, _ | ⟨e, p⟩⟩⟩⟩⟩ <;> simp at hp
    rw [charUnit_eq_backslash_iff.mp hp.1, charUnit_eq_zero hp.2.1, charUnit_eq_zero hp.2.2.1,
      charUnit_eq_zero hp.2.2.2]
    rfl
  rw [hp']

/-! ## Suffixes of one shape -/

/-- Units that begin with a field of plain characters. -/
def PlainStart (us : List CUnit) : Prop :=
  ∃ name rest, us = name ++ .nul :: rest ∧ ∀ u ∈ name, ∃ c, u = .plain c

/-- Before the first terminator there are plain characters only. -/
theorem PlainStart.plain {us pre ws : List CUnit} {u : CUnit} (h : PlainStart us)
    (hsplit : us = pre ++ u :: ws) (hpre : CUnit.nul ∉ pre) (hu : u ≠ .nul) :
    ∃ c, u = .plain c := by
  obtain ⟨name, rest, rfl, hname⟩ := h
  have hbegins : pre ++ [u] <+: name ++ .nul :: rest := by
    rw [hsplit]
    exact ⟨ws, by rw [List.append_assoc, List.singleton_append]⟩
  have hmem : CUnit.nul ∉ pre ++ [u] := by
    rw [List.mem_append, List.mem_singleton, not_or]
    exact ⟨hpre, Ne.symm hu⟩
  exact hname u ((prefix_of_not_mem hbegins hmem).subset
    (List.mem_append_right pre (List.mem_singleton_self u)))

/-- Of two sequences with as many terminators, each with a plain start, one can end
the other only with its own units. -/
theorem suffix_of_text_suffix {us vs : List CUnit} (hus : NoFalseNul us)
    (hstart : PlainStart us) (hstart' : PlainStart vs)
    (hcount : us.count .nul = vs.count .nul) (h : unitsText vs <:+ unitsText us) :
    vs <:+ us := by
  obtain ⟨s, hs⟩ := h
  rcases unitsText_cut hs.symm with
    ⟨ws, hws, heq⟩ | ⟨u, ws, q, q', ⟨pre, hsplit⟩, hq, hq', hu, htext⟩
  · rw [unitsText_injective heq]
    exact hws
  · -- the cut is inside `u`: there are fewer terminators after it, or it is in the first field
    have hcount' : pre.count .nul + [u].count .nul + ws.count .nul = vs.count .nul := by
      rw [← hcount, ← hsplit, List.count_append, Nat.add_assoc, ← List.count_append]
      rfl
    have hfirst (hu : u ≠ .nul) (hvs : vs.count .nul = ws.count .nul) : ∃ c, u = .plain c := by
      refine hstart.plain hsplit.symm (List.count_eq_zero.mp ?_) hu
      omega
    cases u with
    | plain c => exact absurd (cut_plain hu hq) hq'
    | newline =>
      rw [cut_pair hu hq hq'] at htext
      have hvs := eq_cons_of_unitsText (u := CUnit.letterN) htext
      obtain ⟨c, hc⟩ := hfirst (by decide) (by rw [hvs]; exact List.count_cons_of_ne (by decide))
      exact absurd hc (by simp)
    | carriageReturn =>
      rw [cut_pair hu hq hq'] at htext
      have hvs := eq_cons_of_unitsText (u := CUnit.letterR) htext
      obtain ⟨c, hc⟩ := hfirst (by decide) (by rw [hvs]; exact List.count_cons_of_ne (by decide))
      exact absurd hc (by simp)
    | quote =>
      rw [cut_pair hu hq hq'] at htext
      exact absurd htext unitsText_ne_quote
    | backslash =>
      rw [cut_pair hu hq hq'] at htext
      obtain ⟨name, rest, rfl, hname⟩ := hstart'
      cases name with
      | nil =>
        have hzeros : ws = CUnit.zero :: CUnit.zero :: CUnit.zero :: rest :=
          unitsText_injective (List.cons.inj htext).2.symm
        have hws : NoFalseNul (.backslash :: ws) := fun hin =>
          hus (hin.trans ⟨pre, [], by rw [List.append_nil, hsplit]⟩)
        exact absurd hzeros (hws.not_zeros rest)
      | cons v name =>
        obtain ⟨c, rfl⟩ := hname v List.mem_cons_self
        exact absurd (List.cons.inj htext).1 c.property.1
    | nul =>
      obtain ⟨k, rfl⟩ := eq_zeros_of_cut_nul hq hq' hu htext
      have hzeros : (List.replicate (k + 1) CUnit.zero).count .nul = 0 := by
        rw [List.count_replicate]
        rfl
      rw [List.count_append, hzeros] at hcount'
      simp only [List.count_singleton_self] at hcount'
      omega

/-! ## The records -/

/-- Whether an attribute is a description, escaped by the constructor. -/
def isDescription (attr : Attr) : Bool := attr = .desc || attr = .long_desc

/-- Whether the backslashes of an attribute are doubled. -/
def isSlashed (attr : Attr) : Bool := attr = .metric_expr || attr = .metric_threshold

/-- The text of an attribute, a description as it was before its escaping. -/
def fieldText (event : JsonEvent) (desc long_desc : Option Text) : Attr → Text
  | .desc => desc.getD []
  | .long_desc => long_desc.getD []
  | attr => (event.getattr attr).getD []

/-- What the text of an attribute may hold. -/
structure FieldFits (attr : Attr) (value : Text) : Prop where
  noNul : '\x00' ∉ value
  noBackslash : isSlashed attr = false → '\\' ∉ value
  noFalseNul : ¬ "\\000".toList <:+: value
  noQuote : isDescription attr = false → '"' ∉ value
  noNewline : isDescription attr = false → '\n' ∉ value
  noReturn : isDescription attr = false → '\r' ∉ value
  digit : attr ∈ jsonEnumAttributes → value.length ≤ 1 ∧ ∀ d ∈ value, d.isDigit

instance (attr : Attr) (value : Text) : Decidable (FieldFits attr value) :=
  decidable_of_iff
    ('\x00' ∉ value ∧ (isSlashed attr = false → '\\' ∉ value) ∧ ¬ "\\000".toList <:+: value ∧
      (isDescription attr = false → '"' ∉ value) ∧ (isDescription attr = false → '\n' ∉ value) ∧
      (isDescription attr = false → '\r' ∉ value) ∧
      (attr ∈ jsonEnumAttributes → value.length ≤ 1 ∧ value.all Char.isDigit))
    ⟨fun ⟨h₁, h₂, h₃, h₄, h₅, h₆, h₇⟩ =>
      ⟨h₁, h₂, h₃, h₄, h₅, h₆, fun h => ⟨(h₇ h).1, List.all_eq_true.mp (h₇ h).2⟩⟩,
      fun h => ⟨h.noNul, h.noBackslash, h.noFalseNul, h.noQuote, h.noNewline, h.noReturn,
        fun henum => ⟨(h.digit henum).1, List.all_eq_true.mpr (h.digit henum).2⟩⟩⟩

/-- An event, or a metric, with its descriptions before their escaping.  An `Errata` is part
of them where the escaping would change nothing in it. -/
structure TableRecord where
  event : JsonEvent
  metric : Bool
  desc : Option Text
  long_desc : Option Text
  desc_eq : event.desc = desc.map escapeDesc
  long_desc_eq : event.long_desc = long_desc.map escapeDesc
  fits : ∀ attr ∈ recordAttributes metric, FieldFits attr (fieldText event desc long_desc attr)

namespace TableRecord

variable (r : TableRecord)

/-- The value of an attribute. -/
def value (attr : Attr) : Text := fieldText r.event r.desc r.long_desc attr

/-- The record's text in the file. -/
def text : Text := r.event.buildCString r.metric

/-- The text of an enum attribute that is not set is a zero. -/
def enumText (attr : Attr) : Text := if (r.value attr).isEmpty then ['0'] else r.value attr

/-- The units of an attribute. -/
def attrUnits (attr : Attr) : List CUnit :=
  if attr ∈ jsonEnumAttributes then (r.enumText attr).map charUnit
  else (r.value attr).map charUnit ++ [.nul]

/-- The units of a record. -/
def units : List CUnit := (recordAttributes r.metric).flatMap r.attrUnits

theorem value_fits {attr : Attr} (h : attr ∈ recordAttributes r.metric) :
    FieldFits attr (r.value attr) := r.fits attr h

theorem enumText_eq {attr : Attr} (h : attr ∈ recordAttributes r.metric)
    (henum : attr ∈ jsonEnumAttributes) : ∃ d, r.enumText attr = [d] ∧ d.isDigit := by
  obtain ⟨hlength, hdigits⟩ := (r.value_fits h).digit henum
  unfold enumText
  match hvalue : r.value attr with
  | [] => exact ⟨'0', rfl, by decide⟩
  | [d] => exact ⟨d, rfl, hdigits d (hvalue ▸ List.mem_singleton_self d)⟩
  | c :: d :: s =>
    rw [hvalue, List.length_cons, List.length_cons] at hlength
    omega

theorem attrText_description {attr : Attr} (h : isDescription attr = true) :
    r.event.attrText r.metric attr = escapeDesc (r.value attr) := by
  have hescape (o : Option Text) : (o.map escapeDesc).getD [] = escapeDesc (o.getD []) := by
    cases o <;> rfl
  cases attr <;> simp [isDescription] at h
  · simp only [JsonEvent.attrText, JsonEvent.getattr, r.desc_eq, hescape]
    simp [value, fieldText]
  · simp only [JsonEvent.attrText, JsonEvent.getattr, r.long_desc_eq, hescape]
    simp [value, fieldText]

theorem value_of_not_description {attr : Attr} (h : isDescription attr = false) :
    r.value attr = (r.event.getattr attr).getD [] := by
  cases attr <;> simp [isDescription] at h <;> rfl

/-- Only the record of a metric has slashed attributes. -/
theorem metric_of_isSlashed {attr : Attr} {metric : Bool} (h : attr ∈ recordAttributes metric)
    (hslashed : isSlashed attr = true) : metric = true := by
  cases metric
  · cases attr <;> simp [isSlashed] at hslashed <;>
      simp [recordAttributes, jsonEventAttributes] at h
  · rfl

theorem attrText_of_not_description {attr : Attr} (h : attr ∈ recordAttributes r.metric)
    (hdesc : isDescription attr = false) :
    r.event.attrText r.metric attr = replaceChar '\\' ['\\', '\\'] (r.value attr) := by
  unfold JsonEvent.attrText
  rw [← r.value_of_not_description hdesc]
  cases hslashed : isSlashed attr with
  | true =>
    have hmetric := metric_of_isSlashed h hslashed
    simp only [isSlashed, Bool.or_eq_true, decide_eq_true_eq] at hslashed
    exact if_pos ⟨hmetric, hslashed⟩
  | false =>
    rw [replaceChar_of_not_mem ((r.value_fits h).noBackslash hslashed)]
    simp only [isSlashed, Bool.or_eq_false_iff, decide_eq_false_iff_not] at hslashed
    exact if_neg fun hand => hand.2.elim hslashed.1 hslashed.2

theorem isSlashed_of_isDescription {attr : Attr} (h : isDescription attr = true) :
    isSlashed attr = false := by
  revert h
  cases attr <;> decide

theorem isDescription_of_enum {attr : Attr} (h : attr ∈ jsonEnumAttributes) :
    isDescription attr = false ∧ isSlashed attr = false := by
  revert h
  cases attr <;> decide

/-- The units spell what `build_c_string` writes. -/
theorem unitsText_attrUnits {attr : Attr} (h : attr ∈ recordAttributes r.metric) :
    unitsText (r.attrUnits attr) = r.event.attrString r.metric attr := by
  have hfits := r.value_fits h
  unfold attrUnits JsonEvent.attrString
  split
  · rename_i henum
    obtain ⟨hdesc, hslashed⟩ := isDescription_of_enum henum
    rw [r.attrText_of_not_description h hdesc,
      replaceChar_of_not_mem (hfits.noBackslash hslashed)]
    obtain ⟨d, hd, hdigit⟩ := r.enumText_eq h henum
    rw [hd, List.map_singleton, charUnit_eq_plain (plain_of_isDigit hdigit)]
    exact hd.symm
  · have hnul (x : Text) : (if x.isEmpty then "\\000".toList else x ++ "\\000".toList) =
        x ++ "\\000".toList := by
      cases x <;> rfl
    simp only [hnul, unitsText_append]
    congr 1
    cases hdesc : isDescription attr with
    | true =>
      have hslashed := isSlashed_of_isDescription hdesc
      rw [r.attrText_description hdesc]
      exact unitsText_map_eq_escapeDesc (hfits.noBackslash hslashed)
    | false =>
      rw [r.attrText_of_not_description h hdesc]
      exact unitsText_map_charUnit (hfits.noQuote hdesc) (hfits.noNewline hdesc)
        (hfits.noReturn hdesc)

theorem unitsText_units : unitsText r.units = r.text := by
  rw [unitsText, units, List.flatMap_assoc, text, JsonEvent.buildCString]
  exact List.flatMap_congr fun attr hattr => r.unitsText_attrUnits hattr

/-! ## The shape of a record -/

/-- An enum attribute is one plain character. -/
theorem attrUnits_of_enum {attr : Attr} (h : attr ∈ recordAttributes r.metric)
    (henum : attr ∈ jsonEnumAttributes) :
    ∃ c : PlainChar, r.attrUnits attr = [.plain c] := by
  obtain ⟨d, hd, hdigit⟩ := r.enumText_eq h henum
  have hplain := plain_of_isDigit hdigit
  refine ⟨⟨d, hplain⟩, ?_⟩
  rw [attrUnits, if_pos henum, hd, List.map_singleton, charUnit_eq_plain hplain]

theorem nul_not_mem_map (t : Text) : CUnit.nul ∉ t.map charUnit := by
  intro hmem
  obtain ⟨c, -, hc⟩ := List.mem_map.mp hmem
  unfold charUnit at hc
  split_ifs at hc

/-- Any other attribute is a text and its terminator. -/
theorem attrUnits_of_text {attr : Attr} (h : attr ∈ recordAttributes r.metric)
    (htext : attr ∉ jsonEnumAttributes) :
    ∃ us, r.attrUnits attr = us ++ [.nul] ∧ NoFalseNul us ∧ CUnit.nul ∉ us := by
  have hfits := r.value_fits h
  exact ⟨_, by rw [attrUnits, if_neg htext], noFalseNul_map_charUnit hfits.noFalseNul,
    nul_not_mem_map _⟩

theorem noFalseNul_flatMap {attrs : List Attr}
    (h : ∀ attr ∈ attrs, attr ∈ recordAttributes r.metric) :
    NoFalseNul (attrs.flatMap r.attrUnits) := by
  induction attrs with
  | nil =>
    show NoFalseNul []
    decide
  | cons attr attrs ih =>
    rw [List.forall_mem_cons] at h
    rw [List.flatMap_cons]
    rcases Classical.em (attr ∈ jsonEnumAttributes) with henum | htext
    · obtain ⟨c, hc⟩ := r.attrUnits_of_enum h.1 henum
      rw [hc]
      exact NoFalseNul.append_of_not_mem (by simp) (ih h.2)
    · obtain ⟨us, hus, hfalse, -⟩ := r.attrUnits_of_text h.1 htext
      rw [hus, List.append_assoc]
      exact hfalse.append_nul (ih h.2)

theorem noFalseNul_units : NoFalseNul r.units := r.noFalseNul_flatMap fun _ h => h

/-- A record has as many terminators as there are texts among its attributes. -/
theorem count_flatMap {attrs : List Attr}
    (h : ∀ attr ∈ attrs, attr ∈ recordAttributes r.metric) :
    (attrs.flatMap r.attrUnits).count .nul =
      (attrs.filter fun attr => attr ∉ jsonEnumAttributes).length := by
  induction attrs with
  | nil => rfl
  | cons attr attrs ih =>
    rw [List.forall_mem_cons] at h
    rw [List.flatMap_cons, List.count_append, ih h.2]
    rcases Classical.em (attr ∈ jsonEnumAttributes) with henum | htext
    · obtain ⟨c, hc⟩ := r.attrUnits_of_enum h.1 henum
      rw [hc, List.filter_cons_of_neg (by simpa using henum)]
      simp
    · obtain ⟨us, hus, -, hnul⟩ := r.attrUnits_of_text h.1 htext
      rw [hus, List.filter_cons_of_pos (by simpa using htext), List.count_append,
        List.count_eq_zero.mpr hnul]
      simp [Nat.add_comm]

theorem count_units : r.units.count .nul = 10 := by
  rw [units, r.count_flatMap fun _ h => h]
  cases r.metric <;> decide

/-- The first attribute of a record is the name. -/
theorem plainStart_units : PlainStart r.units := by
  obtain ⟨attr, attrs, hattrs, henum, hdesc, hslashed⟩ : ∃ attr attrs,
      recordAttributes r.metric = attr :: attrs ∧ attr ∉ jsonEnumAttributes ∧
        isDescription attr = false ∧ isSlashed attr = false := by
    cases r.metric
    · exact ⟨.name, _, rfl, by decide, by decide, by decide⟩
    · exact ⟨.metric_name, _, rfl, by decide, by decide, by decide⟩
  have hmem : attr ∈ recordAttributes r.metric := by rw [hattrs]; exact List.mem_cons_self
  have hfits := r.value_fits hmem
  refine ⟨(r.value attr).map charUnit, attrs.flatMap r.attrUnits, ?_, ?_⟩
  · rw [units, hattrs, List.flatMap_cons, attrUnits, if_neg henum]
    simp
  · intro u hu
    obtain ⟨c, hc, rfl⟩ := List.mem_map.mp hu
    have hplain : c ≠ '\\' ∧ c ≠ '"' ∧ c ≠ '\n' ∧ c ≠ '\r' := by
      refine ⟨?_, ?_, ?_, ?_⟩ <;> rintro rfl
      · exact hfits.noBackslash hslashed hc
      · exact hfits.noQuote hdesc hc
      · exact hfits.noNewline hdesc hc
      · exact hfits.noReturn hdesc hc
    exact ⟨_, charUnit_eq_plain hplain⟩

/-- Where a record ends another one, it consists of its last units. -/
theorem units_suffix {r r' : TableRecord} (h : r.text <:+ r'.text) : r.units <:+ r'.units := by
  refine suffix_of_text_suffix r'.noFalseNul_units r'.plainStart_units r.plainStart_units
    (by rw [r.count_units, r'.count_units]) ?_
  rw [r.unitsText_units, r'.unitsText_units]
  exact h

end TableRecord

end PmuEvents.Jevents
