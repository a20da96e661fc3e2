import PmuEvents.Jevents.ReadBack
import PmuEvents.Jevents.TableRecord
import PmuEvents.Libc.CString
set_option autoImplicit false

/-!
# `decompress_event` and `decompress_metric`

The generated functions walk over a record with one pointer, attribute by
attribute.  The main result says that they undo `build_c_string` for every record
of a big string, with the members `perpkg` and `deprecated` of `struct pmu_event`
read as `bool`.
-/

namespace PmuEvents.Jevents

open PmuEvents.Foundation PmuEvents.Libc

/-! ## The generated code -/

/-- What a member of the decompressed struct holds: a pointer, as the string it points
at, or a number. -/
inductive Member where
  | ptr (s : Option CStr)
  | num (n : Int)
  deriving DecidableEq

/-- The members of type `bool`. -/
def boolAttributes : List Attr := [.deprecated, .perpkg]

/-- The number a member holds after an assignment of an `int`. -/
def assignInt (attr : Attr) (n : Int) : Int :=
  if attr ∈ boolAttributes then if n = 0 then 0 else 1 else n

/-- The string a pointer points at; `none` where no terminator follows. -/
def cStringAt : List UInt8 → Option CStr
  | [] => none
  | b :: p => if b = 0 then some [] else (cStringAt p).map (b :: ·)

/-- `while (*p++);`. -/
def skipString : List UInt8 → Option (List UInt8)
  | [] => none
  | b :: p => if b = 0 then some p else skipString p

/-- The member an attribute gets: `*p - '0'`, or `*p == '\0' ? NULL : p`. -/
def readMember (attr : Attr) : List UInt8 → Option Member
  | [] => none
  | b :: p =>
    if attr ∈ jsonEnumAttributes then some (.num (assignInt attr ((b.toNat : Int) - 48)))
    else if b = 0 then some (.ptr none)
    else (cStringAt (b :: p)).map fun s => .ptr (some s)

/-- The step to the next attribute. -/
def nextMember (attr : Attr) : List UInt8 → Option (List UInt8)
  | [] => none
  | b :: p => if attr ∈ jsonEnumAttributes then some p else skipString (b :: p)

/-- The body of the decompressing function for a list of attributes, from the position
of a pointer on; `none` where it leaves the array. -/
def decompress : List Attr → List UInt8 → Option (List (Attr × Member))
  | [], _ => some []
  | [attr], p => (readMember attr p).map fun member => [(attr, member)]
  | attr :: attrs, p => do
    let member ← readMember attr p
    let p ← nextMember attr p
    let members ← decompress attrs p
    return (attr, member) :: members

/-- `decompress_event`, or `decompress_metric`, at an offset of the big string; the
compiler ends the array with a NUL. -/
def decompressAt (metric : Bool) (big_c_string : List UInt8) (offset : Int) :
    Option (List (Attr × Member)) :=
  if offset < 0 then none
  else decompress (recordAttributes metric) ((big_c_string ++ [0]).drop offset.toNat)

/-! ## Strings -/

theorem cStringAt_append {s : CStr} (h : 0 ∉ s) (t : List UInt8) :
    cStringAt (s ++ 0 :: t) = some s := by
  induction s with
  | nil => rfl
  | cons b s ih =>
    rw [List.mem_cons, not_or] at h
    rw [List.cons_append, cStringAt, if_neg (Ne.symm h.1), ih h.2, Option.map_some]

theorem skipString_append {s : CStr} (h : 0 ∉ s) (t : List UInt8) :
    skipString (s ++ 0 :: t) = some t := by
  induction s with
  | nil => rfl
  | cons b s ih =>
    rw [List.mem_cons, not_or] at h
    rw [List.cons_append, skipString, if_neg (Ne.symm h.1), ih h.2]

theorem toNat_of_isDigit {d : Char} (h : d.isDigit) : 48 ≤ d.toNat ∧ d.toNat ≤ 57 :=
  Char.isDigit_iff_toNat.mp h

theorem zero_not_mem_utf8 {t : Text} (h : '\x00' ∉ t) : 0 ∉ utf8 t := by
  intro hmem
  obtain ⟨c, hc, hb⟩ := List.mem_flatMap.mp hmem
  obtain rfl : c = '\x00' :=
    Char.toNat_inj.mp (toNat_of_mem_utf8EncodeChar hb (by decide)).1
  exact h hc

namespace TableRecord

variable (r : TableRecord)

/-! ## One attribute -/

/-- The number of a digit, zero where there is none. -/
def digitNumber : Text → Nat
  | [] => 0
  | d :: _ => d.toNat - '0'.toNat

/-- The member an attribute stands for: its text, NULL where it is absent or empty, or
the number of its digit. -/
def attrMember (attr : Attr) : Member :=
  if attr ∈ jsonEnumAttributes then .num (digitNumber (r.value attr))
  else if r.value attr = [] then .ptr none
  else .ptr (some (utf8 (r.value attr)))

/-- The member as it is stored: a `bool` is one for every digit but zero. -/
def storedMember (attr : Attr) : Member :=
  match r.attrMember attr with
  | .num n => .num (assignInt attr n)
  | .ptr s => .ptr s

theorem bytes_of_enum {attr : Attr} (h : attr ∈ recordAttributes r.metric)
    (henum : attr ∈ jsonEnumAttributes) :
    ∃ d, r.enumText attr = [d] ∧ d.isDigit ∧
      unitsBytes (r.attrUnits attr) = [UInt8.ofNat d.toNat] := by
  obtain ⟨d, hd, hdigit⟩ := r.enumText_eq h henum
  refine ⟨d, hd, hdigit, ?_⟩
  have hascii : ∀ c ∈ [d], c.toNat < 128 := by
    intro c hc
    rw [List.mem_singleton.mp hc]
    have := (toNat_of_isDigit hdigit).2
    omega
  rw [attrUnits, if_pos henum, hd, unitsBytes_map bytes_charUnit, utf8_of_ascii hascii]
  rfl

theorem bytes_of_text {attr : Attr} (htext : attr ∉ jsonEnumAttributes) :
    unitsBytes (r.attrUnits attr) = utf8 (r.value attr) ++ [0] := by
  rw [attrUnits, if_neg htext, unitsBytes_append]
  congr 1
  exact unitsBytes_map bytes_charUnit _

theorem readMember_append {attr : Attr} (h : attr ∈ recordAttributes r.metric)
    (t : List UInt8) :
    readMember attr (unitsBytes (r.attrUnits attr) ++ t) = some (r.storedMember attr) := by
  rcases Classical.em (attr ∈ jsonEnumAttributes) with henum | htext
  · obtain ⟨d, hd, hdigit, hbytes⟩ := r.bytes_of_enum h henum
    have hrange := toNat_of_isDigit hdigit
    have hbyte : ((UInt8.ofNat d.toNat).toNat : Int) - 48 = digitNumber (r.value attr) := by
      have htoNat : (UInt8.ofNat d.toNat).toNat = d.toNat := by
        rw [UInt8.toNat_ofNat']
        omega
      rw [htoNat]
      unfold enumText at hd
      cases hvalue : r.value attr with
      | nil =>
        rw [hvalue] at hd
        obtain rfl : '0' = d := (List.cons.inj hd).1
        rfl
      | cons c s =>
        rw [hvalue] at hd
        obtain rfl : c = d := (List.cons.inj hd).1
        have hzero : '0'.toNat = 48 := rfl
        simp only [digitNumber, hzero]
        omega
    rw [hbytes, List.singleton_append, readMember, if_pos henum, hbyte, storedMember, attrMember,
      if_pos henum]
  · have hnul := zero_not_mem_utf8 (r.value_fits h).noNul
    rw [r.bytes_of_text htext, List.append_assoc, List.singleton_append]
    have hread := cStringAt_append hnul t
    rw [storedMember, attrMember, if_neg htext]
    cases hvalue : r.value attr with
    | nil => rw [if_pos rfl, utf8_nil, List.nil_append, readMember, if_neg htext, if_pos rfl]
    | cons c s =>
      rw [if_neg (List.cons_ne_nil c s)]
      rw [hvalue] at hnul hread
      cases hbytes : utf8 (c :: s) with
      | nil => exact absurd hbytes (utf8_ne_nil (List.cons_ne_nil c s))
      | cons b p =>
        rw [hbytes] at hnul hread
        rw [List.mem_cons, not_or] at hnul
        rw [List.cons_append] at hread
        rw [List.cons_append, readMember, if_neg htext, if_neg (Ne.symm hnul.1), hread,
          Option.map_some]

theorem nextMember_append {attr : Attr} (h : attr ∈ recordAttributes r.metric)
    (t : List UInt8) : nextMember attr (unitsBytes (r.attrUnits attr) ++ t) = some t := by
  rcases Classical.em (attr ∈ jsonEnumAttributes) with henum | htext
  · obtain ⟨d, -, -, hbytes⟩ := r.bytes_of_enum h henum
    rw [hbytes, List.singleton_append, nextMember, if_pos henum]
  · have hskip := skipString_append (zero_not_mem_utf8 (r.value_fits h).noNul) t
    rw [r.bytes_of_text htext, List.append_assoc, List.singleton_append]
    cases hbytes : utf8 (r.value attr) ++ 0 :: t with
    | nil => simp at hbytes
    | cons b p => rw [nextMember, if_neg htext, ← hbytes, hskip]

theorem length_units_pos : 0 < (unitsBytes r.units).length := by
  obtain ⟨name, rest, hunits, -⟩ := r.plainStart_units
  rw [hunits, unitsBytes_append, unitsBytes_cons, List.length_append, List.length_append]
  exact Nat.lt_add_left _ (Nat.lt_add_right _ Nat.zero_lt_one)

/-- The walk over the attributes of a record. -/
theorem decompress_append {attrs : List Attr} (h : ∀ attr ∈ attrs, attr ∈ recordAttributes r.metric)
    (t : List UInt8) :
    decompress attrs (unitsBytes (attrs.flatMap r.attrUnits) ++ t) =
      some (attrs.map fun attr => (attr, r.storedMember attr)) := by
  induction attrs with
  | nil => rfl
  | cons attr attrs ih =>
    rw [List.forall_mem_cons] at h
    rw [List.flatMap_cons, unitsBytes_append, List.append_assoc]
    cases attrs with
    | nil => rw [decompress, r.readMember_append h.1]; rfl
    | cons attr' attrs =>
      rw [decompress, r.readMember_append h.1, r.nextMember_append h.1]
      · simp only [Option.bind_eq_bind, Option.bind_some]
        rw [ih h.2]
        rfl
      · simp

end TableRecord

/-! ## The whole table -/

/-- The big string after all records are added. -/
def addRecords (records : List TableRecord) : BigCString :=
  BigCString.empty.addAll (records.map fun r => (r.text, r.metric))

/-- The big string compiles, and every record decompresses, at its offset, to the
members given for its attributes. -/
def DecompressesTo (member : TableRecord → Attr → Member) (setOrder : SetOrder)
    (records : List TableRecord) : Prop :=
  ∃ source offsets big_c_string, (addRecords records).compute setOrder = some (source, offsets) ∧
    cBytes source = some big_c_string ∧
    ∀ r ∈ records, ∃ offset, offsets.lookup r.text = some offset ∧
      decompressAt r.metric big_c_string offset =
        some ((recordAttributes r.metric).map fun attr => (attr, member r attr))

theorem texts_addRecords_calls (records : List TableRecord) :
    (records.map fun r => (r.text, r.metric)).map Prod.fst = records.map TableRecord.text := by
  rw [List.map_map]
  rfl

/-- `c_len` counts the bytes of every record. -/
theorem TableRecord.counted (r : TableRecord) : Counted r.text :=
  r.unitsText_units ▸ counted_units r.noFalseNul_units

/-- All records can be read back. -/
theorem readsBack_addRecords (setOrder : SetOrder) {records : List TableRecord}
    (hcomment : ∀ s t, FoldsInto (records.map TableRecord.text) s t → NoClose s) :
    (addRecords records).ReadsBack setOrder := by
  have hcount : ∀ s ∈ records.map TableRecord.text, Counted s := by
    intro s hs
    obtain ⟨r, -, rfl⟩ := List.mem_map.mp hs
    exact r.counted
  rw [← texts_addRecords_calls] at hcount hcomment
  rw [addRecords, (wellCounted_addAll hcount hcomment).readsBack_iff]
  intro s t hfold
  rw [foldsInto_addAll_iff, texts_addRecords_calls] at hfold
  obtain ⟨r, -, rfl⟩ := List.mem_map.mp hfold.mem
  obtain ⟨r', -, rfl⟩ := List.mem_map.mp hfold.into_mem
  have hends := hfold.ends
  have hunits := TableRecord.units_suffix hends
  rw [← r.unitsText_units, ← r'.unitsText_units] at hends ⊢
  exact (literalBytes_suffix_iff hends r'.noFalseNul_units r.noFalseNul_units).mpr hunits

/-- A record that can be read back decompresses to its members. -/
theorem decompressAt_of_readsAt (r : TableRecord) {big_c_string : List UInt8} {offset : Int}
    (h : BigCString.ReadsAt big_c_string offset r.text) :
    decompressAt r.metric big_c_string offset =
      some ((recordAttributes r.metric).map fun attr => (attr, r.storedMember attr)) := by
  obtain ⟨hpos, bytes, hquoted, t, ht⟩ := h
  rw [← r.unitsText_units, cBytes_quoted_units] at hquoted
  obtain rfl := Option.some.inj hquoted
  have hle : offset.toNat ≤ big_c_string.length := by
    have hlen := congrArg List.length ht
    rw [List.length_append, List.length_drop] at hlen
    have hunits := r.length_units_pos
    omega
  rw [decompressAt, if_neg (Int.not_lt.mpr hpos), List.drop_append_of_le_length hle, ← ht,
    List.append_assoc]
  exact r.decompress_append (fun _ h => h) (t ++ [0])

theorem mem_texts_addRecords {records : List TableRecord} {r : TableRecord} (h : r ∈ records) :
    r.text ∈ (addRecords records).texts := by
  rw [addRecords, BigCString.mem_texts_empty_addAll, texts_addRecords_calls]
  exact List.mem_map_of_mem h

/-- Decompression undoes the encoding for every record of a table. -/
theorem decompressesTo_storedMember (setOrder : SetOrder) (records : List TableRecord)
    (hcomment : ∀ s t, FoldsInto (records.map TableRecord.text) s t → NoClose s) :
    DecompressesTo TableRecord.storedMember setOrder records := by
  obtain ⟨source, offsets, B, hcompute, hbytes, hreads⟩ :=
    readsBack_addRecords setOrder hcomment
  refine ⟨source, offsets, B, hcompute, hbytes, fun r hr => ?_⟩
  obtain ⟨offset, hoffset, hat⟩ := hreads r.text (mem_texts_addRecords hr)
  exact ⟨offset, hoffset, decompressAt_of_readsAt r hat⟩

/-- What `JsonEvent` makes of a dictionary with a name, the code 0x3c, a description and
a `PerPkg`. -/
def namedEvent (name : String) (desc perpkg : Option Text) : JsonEvent :=
  { name := some name.toList, topic := "other".toList, compat := none, desc, long_desc := none
    pmu := "default_core".toList, unit := none, perpkg, aggr_mode := none, deprecated := none
    retirement_latency_mean := none, retirement_latency_min := none
    retirement_latency_max := none, metric_name := none, metric_group := none
    metricgroup_no_group := none, default_metricgroup_name := none, event_grouping := none
    metric_expr := none, metric_threshold := none, event := some "event=0x3c".toList }

/-- Two events that only differ in that the name of the first ends that of the second. -/
def nestedEvents : List TableRecord :=
  [{ event := namedEvent "stall" none (some ['1']), metric := false, desc := none
     long_desc := none, desc_eq := rfl, long_desc_eq := rfl, fits := by decide +kernel },
   { event := namedEvent "any_stall" none (some ['1']), metric := false, desc := none
     long_desc := none, desc_eq := rfl, long_desc_eq := rfl, fits := by decide +kernel }]

theorem decompressesTo_nestedEvents :
    DecompressesTo TableRecord.storedMember insertionOrder nestedEvents :=
  decompressesTo_storedMember insertionOrder nestedEvents fun s t h => by
    obtain ⟨r, hr, rfl⟩ := List.mem_map.mp h.mem
    exact (by decide +kernel : ∀ r ∈ nestedEvents, NoClose r.text) r hr

/-- An event whose `PerPkg` is 2. -/
def perpkgTwo : TableRecord :=
  { event := namedEvent "stall" none (some ['2']), metric := false, desc := none
    long_desc := none, desc_eq := rfl, long_desc_eq := rfl, fits := by decide +kernel }

/-- Two events with one description that closes a C comment. -/
def closingEvents : List TableRecord :=
  [{ event := namedEvent "stall" (some "a */ b".toList) none, metric := false
     desc := some "a */ b".toList, long_desc := none, desc_eq := by decide +kernel
     long_desc_eq := rfl, fits := by decide +kernel },
   { event := namedEvent "any_stall" (some "a */ b".toList) none, metric := false
     desc := some "a */ b".toList, long_desc := none, desc_eq := by decide +kernel
     long_desc_eq := rfl, fits := by decide +kernel }]

theorem cBytes_closingEvents :
    cBytes ((addRecords closingEvents).emitSource insertionOrder
      (addRecords closingEvents).emitted 0) = none := by
  decide +kernel

/-- The bytes of the source written for the event of a dictionary alone. -/
def compiledAlone (jd : JsonDict) : Except PyError (Option (Option (List UInt8))) :=
  (JsonEvent.init (List.map Char.toLower) (fun _ => .error .syntaxError) (fun _ => none) jd).map
    fun event =>
      let record := { event with topic := "other".toList }.buildCString false
      ((BigCString.empty.add record false).compute insertionOrder).map
        fun compiled => cBytes compiled.1

/-- A name with a carriage return. -/
def returnName : JsonDict :=
  JsonDict.ofList [("EventName", "a\rb".toList), ("EventCode", "0x3c".toList)]

/-- An `Errata` with a quote, which is appended to the description behind the escaping. -/
def quotedErrata : JsonDict :=
  JsonDict.ofList [("EventName", "foo".toList), ("EventCode", "0x3c".toList),
    ("BriefDescription", "d".toList), ("Errata", "a\"b".toList)]

/-- The digit 2 is read back as one from a `bool`.  A folded record that closes the comment it
is listed in leaves no C source, and neither does a carriage return in a name or a quote in an
`Errata`. -/
theorem not_decompressesTo_attrMember :
    ¬ DecompressesTo TableRecord.attrMember insertionOrder [perpkgTwo] ∧
      ¬ DecompressesTo TableRecord.attrMember insertionOrder closingEvents ∧
      compiledAlone returnName = .ok (some none) ∧
      compiledAlone quotedErrata = .ok (some none) := by
  refine ⟨?_, ?_, by decide +kernel, by decide +kernel⟩
  · rintro ⟨source, offsets, B, hcompute, hbytes, hmembers⟩
    have hcomment : ∀ s t, FoldsInto ([perpkgTwo].map TableRecord.text) s t → NoClose s := by
      intro s t h
      rw [List.mem_singleton.mp h.mem]
      decide +kernel
    obtain ⟨source', offsets', B', hcompute', hbytes', hreads⟩ :=
      readsBack_addRecords insertionOrder hcomment
    obtain ⟨rfl, rfl⟩ := Prod.mk.inj (Option.some.inj (hcompute.symm.trans hcompute'))
    obtain rfl := Option.some.inj (hbytes.symm.trans hbytes')
    have hr : perpkgTwo ∈ [perpkgTwo] := List.mem_singleton_self _
    obtain ⟨offset, hoffset, hmember⟩ := hmembers perpkgTwo hr
    obtain ⟨offset', hoffset', hat⟩ := hreads _ (mem_texts_addRecords hr)
    obtain rfl := Option.some.inj (hoffset.symm.trans hoffset')
    have heq := Option.some.inj (hmember.symm.trans (decompressAt_of_readsAt perpkgTwo hat))
    have hperpkg := List.map_inj_left.mp heq .perpkg (by decide)
    exact absurd hperpkg (by decide +kernel)
  · rintro ⟨source, offsets, B, hcompute, hbytes, -⟩
    obtain ⟨offsets', hcompute', -⟩ := (addRecords closingEvents).compute_spec insertionOrder
    have hsource := (Prod.mk.inj (Option.some.inj (hcompute.symm.trans hcompute'))).1
    rw [hsource, cBytes_closingEvents] at hbytes
    cases hbytes

end PmuEvents.Jevents
