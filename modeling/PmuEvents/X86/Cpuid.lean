import PmuEvents.Tables.StrcmpCpuid
import Mathlib.Data.BitVec
set_option autoImplicit false

/-!
# The cpuid string on x86

`get_cpuid_str` prints what the `cpuid` instruction tells of the processor that it runs
on.  The buffer is judged by an end marker that is printed last.  The main results: when
the marker is found, that the string is an id of four parts which determine what was
decoded, and which row of the table such a processor gets.
-/

namespace PmuEvents.X86

open PmuEvents.Foundation PmuEvents.Libc PmuEvents.Tables

/-- `unsigned int` and `int`. -/
abbrev U32 := BitVec 32

/-- What the instruction stores. -/
structure Registers where
  a : U32
  b : U32
  c : U32
  d : U32
  deriving DecidableEq, Repr

/-- The instruction `cpuid` on its two operands. -/
abbrev CpuidInstruction := U32 → U32 → Registers

/-- The bytes of a register as memory holds them. -/
def registerBytes (r : U32) : List UInt8 :=
  [0, 8, 16, 24].map fun low => UInt8.ofNat ((r >>> low) &&& 0xff).toNat

/-- What `strncpy(dst, src, n)` stores. -/
def strncpy (src : List UInt8) (n : Nat) : List UInt8 :=
  let s := (src.take n).takeWhile (· ≠ 0)
  s ++ List.replicate (n - s.length) 0

/-- `get_cpuid_0`: the vendor as a string, and the highest operand. -/
def getCpuid0 (cpuid : CpuidInstruction) : CStr × U32 :=
  let r := cpuid 0 0
  let vendor := strncpy (registerBytes r.b) 4 ++ strncpy (registerBytes r.d) 4 ++
    strncpy (registerBytes r.c) 4
  (vendor.takeWhile (· ≠ 0), r.a)

/-- Family, model and stepping. -/
structure Signature where
  family : U32
  model : U32
  step : U32
  deriving DecidableEq, Repr

/-- The decoding in `__get_cpuid`, of what the instruction stores in its first register. -/
def decodeSignature (a : U32) : Signature :=
  let family := (a >>> 8) &&& 0xf
  let model := (a >>> 4) &&& 0xf
  let step := a &&& 0xf
  let family := if family = 0xf then family + ((a >>> 20) &&& 0xff) else family
  let model := if 0x6 ≤ family then model + (((a >>> 16) &&& 0xf) <<< 4) else model
  { family, model, step }

/-- The signature that is printed; its parts are -1 where the operand 1 is not known. -/
def getSignature (cpuid : CpuidInstruction) : Signature :=
  if 1 ≤ (getCpuid0 cpuid).2 then decodeSignature (cpuid 1 0).a
  else { family := -1, model := -1, step := -1 }

/-- `%u` -/
def decimalText (v : U32) : CStr := utf8 (Nat.toDigits 10 v.toNat)

/-- `%X` -/
def upperHexText (v : U32) : CStr := utf8 ((Nat.toDigits 16 v.toNat).map Char.toUpper)

/-- `"%s-%u-%X-%X$"` -/
def formatCpuid (vendor : CStr) (signature : Signature) : CStr :=
  vendor ++ chr '-' :: (decimalText signature.family ++ chr '-' ::
    (upperHexText signature.model ++ chr '-' :: (upperHexText signature.step ++ [chr '$'])))

/-- `__get_cpuid` with this format and a buffer of `sz` bytes that holds the string `before`:
what it returns, and the string in the buffer. -/
def getCpuid (cpuid : CpuidInstruction) (before : CStr) (sz : Nat) : Int × CStr :=
  let text := formatCpuid (getCpuid0 cpuid).1 (getSignature cpuid)
  -- `snprintf` writes nothing where the size is 0
  let buffer := if sz = 0 then before else text.take (sz - 1)
  let nb := text.length
  match strchr buffer (chr '$') with
  | some _ => (0, buffer.take (nb - 1))
  | none => (105, buffer)

/-- `get_cpuid_str`, which does not look at the CPU it is asked for.  What the block holds
before is overwritten. -/
def getCpuidStr (malloc : Nat → Bool) (cpuid : CpuidInstruction) (_cpu : PerfCpu) :
    Option CStr :=
  if malloc 128 then
    if (getCpuid cpuid [] 128).1 < 0 then none else some (getCpuid cpuid [] 128).2
  else none

/-! ## Printed numbers -/

theorem upperHexText_eq (v : U32) :
    upperHexText v =
      (Numeral.digits 16 v.toNat).map fun d => chr (Nat.digitChar d).toUpper := by
  have hascii : ∀ d : Fin 16, (Nat.digitChar d.val).toUpper.toNat < 128 := by decide
  rw [upperHexText, Numeral.toDigits_eq_map_digits (by decide), List.map_map, utf8_of_ascii,
    List.map_map]
  · rfl
  · intro c hc
    obtain ⟨d, hd, rfl⟩ := List.mem_map.mp hc
    exact hascii ⟨d, Numeral.digits_lt (by decide) _ d hd⟩

theorem decimalText_eq (v : U32) :
    decimalText v = (Numeral.digits 10 v.toNat).map fun d => chr (Nat.digitChar d) :=
  utf8_toDigits (by decide) (by decide) _

/-- The digits of a printed number, in a spelling that tells them apart. -/
theorem digits_inj {base : Nat} (hb : 1 < base) {spell : Nat → UInt8}
    (hspell : ∀ d d', d < base → d' < base → spell d = spell d' → d = d') {n n' : Nat}
    (h : (Numeral.digits base n).map spell = (Numeral.digits base n').map spell) : n = n' := by
  have hinj : ∀ l l' : List Nat, (∀ d ∈ l, d < base) → (∀ d ∈ l', d < base) →
      l.map spell = l'.map spell → l = l' := by
    intro l
    induction l with
    | nil =>
      intro l' _ _ heq
      exact (List.map_eq_nil_iff.mp heq.symm).symm
    | cons d l ih =>
      intro l' hl hl' heq
      cases l' with
      | nil => cases heq
      | cons d' l' =>
        obtain ⟨hhead, htail⟩ := List.cons.inj heq
        rw [List.forall_mem_cons] at hl hl'
        rw [hspell d d' hl.1 hl'.1 hhead, ih l' hl.2 hl'.2 htail]
  rw [← Numeral.value_digits hb n, ← Numeral.value_digits hb n',
    hinj _ _ (Numeral.digits_lt hb n) (Numeral.digits_lt hb n') h]

theorem upperHexText_inj {v v' : U32} (h : upperHexText v = upperHexText v') : v = v' := by
  have hspell : ∀ d d' : Fin 16,
      chr (Nat.digitChar d.val).toUpper = chr (Nat.digitChar d'.val).toUpper → d = d' := by decide
  rw [upperHexText_eq, upperHexText_eq] at h
  exact BitVec.eq_of_toNat_eq (digits_inj (by decide)
    (fun d d' hd hd' heq => congrArg Fin.val (hspell ⟨d, hd⟩ ⟨d', hd'⟩ heq)) h)

theorem decimalText_inj {v v' : U32} (h : decimalText v = decimalText v') : v = v' := by
  have hspell : ∀ d d' : Fin 10, chr (Nat.digitChar d.val) = chr (Nat.digitChar d'.val) → d = d' :=
    by decide
  rw [decimalText_eq, decimalText_eq] at h
  exact BitVec.eq_of_toNat_eq (digits_inj (by decide)
    (fun d d' hd hd' heq => congrArg Fin.val (hspell ⟨d, hd⟩ ⟨d', hd'⟩ heq)) h)

theorem length_decimalText_le (v : U32) : (decimalText v).length ≤ 10 := by
  rw [decimalText_eq, List.length_map]
  exact Numeral.length_digits_le (by decide) (by decide) (Nat.lt_trans v.isLt (by decide))

theorem length_upperHexText_le (v : U32) : (upperHexText v).length ≤ 8 := by
  rw [upperHexText_eq, List.length_map]
  exact Numeral.length_digits_le (by decide) (by decide) (Nat.lt_of_lt_of_le v.isLt (by decide))

theorem digitIn_decimalText (v : U32) : ∀ b ∈ decimalText v, (digitIn 16 b).isSome :=
  digitIn_toDigits (by decide) (by decide) (Nat.le_refl 16) _

theorem digitIn_upperHexText (v : U32) : ∀ b ∈ upperHexText v, (digitIn 16 b).isSome := by
  have hspell : ∀ d : Fin 16, (digitIn 16 (chr (Nat.digitChar d.val).toUpper)).isSome := by decide
  rw [upperHexText_eq]
  intro b hb
  obtain ⟨d, hd, rfl⟩ := List.mem_map.mp hb
  exact hspell ⟨d, Numeral.digits_lt (by decide) _ d hd⟩

theorem not_mem_of_digits {s : CStr} (h : ∀ b ∈ s, (digitIn 16 b).isSome) {c : UInt8}
    (hc : digitIn 16 c = none) : c ∉ s := by
  intro hmem
  have hsome := h c hmem
  rw [hc] at hsome
  cases hsome

/-! ## The buffer -/

/-- Vendor, family and model with their dashes. -/
def platformText (vendor : CStr) (signature : Signature) : CStr :=
  vendor ++ chr '-' :: (decimalText signature.family ++ chr '-' :: upperHexText signature.model)

/-- The string without the end marker. -/
def idText (vendor : CStr) (signature : Signature) : CStr :=
  platformText vendor signature ++ chr '-' :: upperHexText signature.step

theorem formatCpuid_eq (vendor : CStr) (signature : Signature) :
    formatCpuid vendor signature = idText vendor signature ++ [chr '$'] := by
  simp [formatCpuid, idText, platformText]

theorem length_vendor_le (cpuid : CpuidInstruction) : (getCpuid0 cpuid).1.length ≤ 12 := by
  have hfour : ∀ r, (strncpy (registerBytes r) 4).length = 4 := by
    intro r
    have hle := (List.takeWhile_prefix (· ≠ (0 : UInt8)) (l := (registerBytes r).take 4)).length_le
    have hlen : ((registerBytes r).take 4).length ≤ 4 := List.length_take_le _ _
    simp only [strncpy, List.length_append, List.length_replicate]
    omega
  have hle := (List.takeWhile_prefix (· ≠ (0 : UInt8))
    (l := strncpy (registerBytes (cpuid 0 0).b) 4 ++ strncpy (registerBytes (cpuid 0 0).d) 4 ++
      strncpy (registerBytes (cpuid 0 0).c) 4)).length_le
  rw [List.length_append, List.length_append, hfour, hfour, hfour] at hle
  exact hle

theorem length_idText_lt {vendor : CStr} (h : vendor.length ≤ 12) (signature : Signature) :
    (idText vendor signature).length < 127 := by
  have hfamily := length_decimalText_le signature.family
  have hmodel := length_upperHexText_le signature.model
  have hstep := length_upperHexText_le signature.step
  simp only [idText, platformText, List.length_append, List.length_cons]
  omega

theorem strchr_isSome_iff {s : CStr} {c : UInt8} : (strchr s c).isSome ↔ c ∈ s := by
  induction s with
  | nil => simp [strchr]
  | cons b s ih =>
    by_cases h : b = c
    · simp [strchr, h]
    · simp [strchr, h, ih, Ne.symm h]

/-- The end marker is in a buffer exactly when the buffer holds all of the text. -/
theorem strchr_marker_iff {body : CStr} (h : chr '$' ∉ body) (sz : Nat) :
    (strchr ((body ++ [chr '$']).take (sz - 1)) (chr '$')).isSome ↔
      (body ++ [chr '$']).length < sz := by
  rw [strchr_isSome_iff, List.length_append, List.length_singleton]
  rcases Nat.lt_or_ge (body.length + 1) sz with hlong | hshort
  · rw [List.take_of_length_le (by rw [List.length_append, List.length_singleton]; omega)]
    simp [hlong]
  · rw [List.take_append_of_le_length (by omega)]
    exact iff_of_false (fun hmem => h (List.mem_of_mem_take hmem)) (by omega)

theorem marker_not_mem_idText {vendor : CStr} (h : chr '$' ∉ vendor) (signature : Signature) :
    chr '$' ∉ idText vendor signature := by
  have hmarker : digitIn 16 (chr '$') = none := by decide
  have hdash : chr '$' ≠ chr '-' := by decide
  simp [idText, platformText, h, hdash, not_mem_of_digits (digitIn_decimalText _) hmarker,
    not_mem_of_digits (digitIn_upperHexText _) hmarker]

/-- The string in the buffer once the marker was found, if the text fits. -/
theorem getCpuid_of_fits {cpuid : CpuidInstruction} {before : CStr} {sz : Nat}
    (h : (formatCpuid (getCpuid0 cpuid).1 (getSignature cpuid)).length < sz) :
    getCpuid cpuid before sz = (0, idText (getCpuid0 cpuid).1 (getSignature cpuid)) := by
  have hmem : chr '$' ∈ idText (getCpuid0 cpuid).1 (getSignature cpuid) ++ [chr '$'] := by simp
  obtain ⟨rest, hrest⟩ := Option.isSome_iff_exists.mp (strchr_isSome_iff.mpr hmem)
  unfold getCpuid
  dsimp only
  rw [if_neg (by omega), List.take_of_length_le (by omega), formatCpuid_eq, hrest]
  simp

/-- `__get_cpuid` succeeds exactly if the buffer has room for the text and its end, and
then the buffer holds the text without the marker. -/
theorem getCpuid_eq_zero_iff (cpuid : CpuidInstruction) (h : chr '$' ∉ (getCpuid0 cpuid).1)
    (before : CStr) {sz : Nat} (hsz : 0 < sz) :
    ((getCpuid cpuid before sz).1 = 0 ↔
        (formatCpuid (getCpuid0 cpuid).1 (getSignature cpuid)).length < sz) ∧
      ((getCpuid cpuid before sz).1 = 0 →
        (getCpuid cpuid before sz).2 = idText (getCpuid0 cpuid).1 (getSignature cpuid)) := by
  have hmarker := strchr_marker_iff (marker_not_mem_idText h (getSignature cpuid)) sz
  rw [← formatCpuid_eq] at hmarker
  have hiff : (getCpuid cpuid before sz).1 = 0 ↔
      (formatCpuid (getCpuid0 cpuid).1 (getSignature cpuid)).length < sz := by
    rw [← hmarker]
    unfold getCpuid
    dsimp only
    rw [if_neg (Nat.ne_of_gt hsz)]
    cases strchr ((formatCpuid (getCpuid0 cpuid).1 (getSignature cpuid)).take (sz - 1))
      (chr '$') with
    | none => simp
    | some rest => simp
  exact ⟨hiff, fun hzero => by rw [getCpuid_of_fits (hiff.mp hzero)]⟩

theorem getCpuid_short_buffer :
    (getCpuid (fun _ _ => ⟨0, 0x41, 0, 0⟩) [] 28).1 ≠ 0 ∧
      (getCpuid (fun _ _ => ⟨0, 0x41, 0, 0⟩) [] 32).1 = 0 := by
  have hiff := fun sz (hsz : 0 < sz) =>
    (getCpuid_eq_zero_iff (fun _ _ => ⟨0, 0x41, 0, 0⟩) (by decide +kernel) [] hsz).1
  rw [ne_eq, hiff 28 (by decide), hiff 32 (by decide)]
  decide +kernel

/-- With memory for its buffer `get_cpuid_str` returns the whole text. -/
theorem getCpuidStr_eq {malloc : Nat → Bool} (hmalloc : malloc 128 = true)
    (cpuid : CpuidInstruction) (cpu : PerfCpu) :
    getCpuidStr malloc cpuid cpu = some (idText (getCpuid0 cpuid).1 (getSignature cpuid)) := by
  have hlen := length_idText_lt (length_vendor_le cpuid) (getSignature cpuid)
  have hfits : (formatCpuid (getCpuid0 cpuid).1 (getSignature cpuid)).length < 128 := by
    rw [formatCpuid_eq, List.length_append, List.length_singleton]
    omega
  rw [getCpuidStr, if_pos hmalloc, getCpuid_of_fits hfits]
  rfl

/-! ## The id -/

/-- Two processors with one string agree on the vendor and on everything decoded. -/
theorem idText_inj {vendor vendor' : CStr} {signature signature' : Signature}
    (h : idText vendor signature = idText vendor' signature') :
    vendor = vendor' ∧ signature = signature' := by
  have hdash : digitIn 16 (chr '-') = none := by decide
  have hupper : ∀ v, chr '-' ∉ upperHexText v := fun v =>
    not_mem_of_digits (digitIn_upperHexText v) hdash
  have hdecimal : ∀ v, chr '-' ∉ decimalText v := fun v =>
    not_mem_of_digits (digitIn_decimalText v) hdash
  obtain ⟨hplatform, hstep⟩ := split_unique_last (hupper _) (hupper _) h
  rw [platformText, platformText, ← List.cons_append, ← List.append_assoc, ← List.cons_append,
    ← List.append_assoc] at hplatform
  obtain ⟨hfront, hmodel⟩ := split_unique_last (hupper _) (hupper _) hplatform
  obtain ⟨hvendor, hfamily⟩ := split_unique_last (hdecimal _) (hdecimal _) hfront
  obtain ⟨family, model, step⟩ := signature
  obtain ⟨family', model', step'⟩ := signature'
  obtain rfl := decimalText_inj hfamily
  obtain rfl := upperHexText_inj hmodel
  obtain rfl := upperHexText_inj hstep
  exact ⟨hvendor, rfl⟩

/-- With memory for the buffer the string is never NULL, and it tells processors apart by
vendor, family, model and stepping, and by nothing else. -/
theorem getCpuidStr_eq_iff {malloc : Nat → Bool} (hmalloc : malloc 128 = true)
    (cpuid cpuid' : CpuidInstruction) (cpu cpu' : PerfCpu) :
    (getCpuidStr malloc cpuid cpu).isSome ∧
      (getCpuidStr malloc cpuid cpu = getCpuidStr malloc cpuid' cpu' ↔
        (getCpuid0 cpuid).1 = (getCpuid0 cpuid').1 ∧ getSignature cpuid = getSignature cpuid') := by
  rw [getCpuidStr_eq hmalloc, getCpuidStr_eq hmalloc, Option.some.injEq]
  refine ⟨rfl, idText_inj, ?_⟩
  rintro ⟨hvendor, hsignature⟩
  rw [hvendor, hsignature]

/-- A processor of family 23 and model 1, by the value that holds its stepping. -/
def zen (signature : U32) : CpuidInstruction := fun op _ =>
  if op = 0 then ⟨1, 0x68747541, 0x444d4163, 0x69746e65⟩ else ⟨signature, 0, 0, 0⟩

theorem getCpuidStr_eq_iff_zen :
    getCpuidStr (fun _ => true) (zen 0x00800f12) 0 =
      getCpuidStr (fun _ => true) (zen 0x10800f12) 1 :=
  (getCpuidStr_eq_iff rfl (zen 0x00800f12) (zen 0x10800f12) 0 1).2.mpr (by decide +kernel)

/-- A processor that knows the operand 1 and whose vendor has at least two bytes, none of
them a dash. -/
structure Identifies (cpuid : CpuidInstruction) : Prop where
  level : 1 ≤ (getCpuid0 cpuid).2
  vendor_length : 2 ≤ (getCpuid0 cpuid).1.length
  vendor_dash : chr '-' ∉ (getCpuid0 cpuid).1

/-- The parts of its id. -/
def fullCpuid (cpuid : CpuidInstruction) (h : Identifies cpuid) : FullCpuid where
  vendor := (getCpuid0 cpuid).1
  family := decimalText (getSignature cpuid).family
  model := upperHexText (getSignature cpuid).model
  stepping := upperHexText (getSignature cpuid).step
  dashFree := by
    have hdash : digitIn 16 (chr '-') = none := by decide
    simp only [List.mem_cons, List.not_mem_nil, or_false, forall_eq_or_imp, forall_eq]
    exact ⟨h.vendor_dash, not_mem_of_digits (digitIn_decimalText _) hdash,
      not_mem_of_digits (digitIn_upperHexText _) hdash,
      not_mem_of_digits (digitIn_upperHexText _) hdash⟩

theorem length_stepping {cpuid : CpuidInstruction} (h : Identifies cpuid) :
    (fullCpuid cpuid h).stepping.length = 1 := by
  have hstep : (getSignature cpuid).step.toNat < 16 := by
    rw [getSignature, if_pos h.level, decodeSignature, BitVec.toNat_and]
    exact Nat.lt_of_le_of_lt Nat.and_le_right (by decide)
  show (upperHexText (getSignature cpuid).step).length = 1
  rw [upperHexText_eq, Numeral.digits_of_lt hstep]
  rfl

/-- In a table of rows without a stepping, whose expressions take no dash and do not pass
for full ids, every call answers with the first row that matches vendor, family and
model, whatever the stepping and the CPU asked for. -/
theorem mapForCpuCalls_platform {regcomp : Regcomp} {pmu_events_map : List PmuEventsMap}
    {row : PmuEventsMap → CpuidPattern}
    (hrows : ∀ map ∈ pmu_events_map, map.cpuid = (row map).text ∧
      Compiles regcomp (row map).ere ∧ (row map).model.Avoids (chr '-') ∧
        (row map).modelDashes ≠ 1)
    {malloc : Nat → Bool} (hmalloc : malloc 128 = true) {cpuid : CpuidInstruction}
    (h : Identifies cpuid) (calls : List PerfCpu) :
    mapForCpuCalls (strcmpCpuidStr regcomp) pmu_events_map (getCpuidStr malloc cpuid) .initial
        calls =
      calls.map fun _ => pmu_events_map.find? fun map =>
        (row map).Matches (platformText (getCpuid0 cpuid).1 (getSignature cpuid)) := by
  have hshort : (fullCpuid cpuid h).stepping.length < (fullCpuid cpuid h).vendor.length := by
    rw [length_stepping]
    exact h.vendor_length
  have hignored : ∀ map ∈ pmu_events_map, SteppingIgnored (row map) (fullCpuid cpuid h) :=
    fun map hmap => (steppingIgnored_iff_of_avoids (hrows map hmap).2.2.1 hshort).mpr
      fun hone => (hrows map hmap).2.2.2 hone.1
  have hsearch := searchMap_eq_find (fun map hmap => (hrows map hmap).1)
    (fun map hmap => (hrows map hmap).2.1) hignored
  rw [mapForCpuCalls_of_valid ReachableCache.initial.valid]
  apply List.map_congr_left
  intro cpu _
  rw [plainSearch, getCpuidStr_eq hmalloc, Option.bind_some]
  exact hsearch

theorem mapForCpuCalls_platform_zen :
    mapForCpuCalls (strcmpCpuidStr (regcompOf anyModel.ere)) [⟨cs "x86", anyModel.text, [], []⟩]
        (getCpuidStr (fun _ => true) (zen 0x00800f12)) .initial [0, 1] =
      [some ⟨cs "x86", anyModel.text, [], []⟩, some ⟨cs "x86", anyModel.text, [], []⟩] := by
  have hrows : ∀ map ∈ [(⟨cs "x86", anyModel.text, [], []⟩ : PmuEventsMap)],
      map.cpuid = ((fun _ => anyModel) map).text ∧
        Compiles (regcompOf anyModel.ere) ((fun _ => anyModel) map).ere ∧
        ((fun _ => anyModel) map).model.Avoids (chr '-') ∧
          ((fun _ => anyModel) map).modelDashes ≠ 1 := by
    intro map hmap
    rw [List.mem_singleton.mp hmap]
    refine ⟨rfl, compiles_regcompOf _, ?_, by decide +kernel⟩
    show Bracket.accepts _ _ = false
    decide +kernel
  have hid : Identifies (zen 0x00800f12) :=
    { level := by decide +kernel
      vendor_length := by decide +kernel
      vendor_dash := by decide +kernel }
  rw [mapForCpuCalls_platform hrows rfl hid]
  have hmatch : anyModel.Matches
      (platformText (getCpuid0 (zen 0x00800f12)).1 (getSignature (zen 0x00800f12))) := by
    decide +kernel
  have hfind : [(⟨cs "x86", anyModel.text, [], []⟩ : PmuEventsMap)].find? (fun _ =>
      anyModel.Matches (platformText (getCpuid0 (zen 0x00800f12)).1
        (getSignature (zen 0x00800f12)))) = some ⟨cs "x86", anyModel.text, [], []⟩ :=
    List.find?_cons_of_pos (decide_eq_true hmatch)
  rw [hfind]
  rfl

end PmuEvents.X86
