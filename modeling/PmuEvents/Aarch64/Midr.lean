import PmuEvents.Aarch64.Cpuid
import PmuEvents.Foundation.BitField
import PmuEvents.Foundation.FirstBelow
import Mathlib.Order.Lattice
set_option autoImplicit false

/-!
# `strcmp_cpuid_str` on AArch64

The value of the identification register has a field for the variant and one for the
revision; the other bits tell the part.  The main results: a row of the table matches a
CPU exactly if it is at most the CPU in an order of the values, and the order in which
the rows have to stand for the search to find the newest of those that match.
-/

namespace PmuEvents.Aarch64

open PmuEvents.Foundation PmuEvents.Libc PmuEvents.Lib PmuEvents.Tables

/-- `MIDR_REVISION_MASK` -/
def midrRevisionMask : U64 := BitField.genmask 64 3 0

/-- `MIDR_VARIANT_MASK` -/
def midrVariantMask : U64 := BitField.genmask 64 23 20

/-- `FIELD_GET` into a `char`. -/
def fieldGet (mask reg : U64) : BitVec 8 := (BitField.get mask reg).setWidth 8

/-- `strcmp_cpuid_str` -/
def strcmpCpuidStr (mapcpuid idstr : CStr) : Int :=
  let map_id := (strtoull 16 mapcpuid).value
  let map_id_variant := fieldGet midrVariantMask map_id
  let map_id_revision := fieldGet midrRevisionMask map_id
  let id := (strtoull 16 idstr).value
  let id_variant := fieldGet midrVariantMask id
  let id_revision := fieldGet midrRevisionMask id
  let id_fields := ~~~(midrVariantMask ||| midrRevisionMask)
  if map_id &&& id_fields ≠ id &&& id_fields then 1
  else if map_id_variant < id_variant then 0
  else if id_variant = map_id_variant ∧ map_id_revision ≤ id_revision then 0
  else 1

/-! ## The order of the register values -/

/-- A value of the register. -/
structure Midr where
  id : U64
  deriving DecidableEq, Repr

/-- The bits that tell the part. -/
def Midr.part (m : Midr) : U64 := m.id &&& ~~~(midrVariantMask ||| midrRevisionMask)

def Midr.variant (m : Midr) : Nat := (BitField.get midrVariantMask m.id).toNat

def Midr.revision (m : Midr) : Nat := (BitField.get midrRevisionMask m.id).toNat

/-- The part and the two fields make up the value. -/
theorem Midr.ext_fields {a b : Midr} (hpart : a.part = b.part) (hvariant : a.variant = b.variant)
    (hrevision : a.revision = b.revision) : a = b := by
  obtain ⟨a⟩ := a
  obtain ⟨b⟩ := b
  congr 1
  have hpart := (BitField.and_not_eq_iff _ _ _).mp hpart
  have hvariant := (BitField.get_eq_iff (by decide) (by decide) _ _).mp
    (BitVec.eq_of_toNat_eq hvariant)
  have hrevision := (BitField.get_eq_iff (by decide) (by decide) _ _).mp
    (BitVec.eq_of_toNat_eq hrevision)
  apply BitVec.eq_of_getLsbD_eq
  intro i _
  by_cases hv : 20 ≤ i ∧ i ≤ 23
  · exact hvariant i hv.1 hv.2
  · by_cases hr : i ≤ 3
    · exact hrevision i (Nat.zero_le i) hr
    · apply hpart
      rw [BitVec.getLsbD_or, midrVariantMask, midrRevisionMask,
        BitField.getLsbD_genmask (by decide), BitField.getLsbD_genmask (by decide)]
      simp [hv, hr]

/-- Values of one part are ordered by variant and then by revision; those of different
parts are not comparable. -/
instance : PartialOrder Midr where
  le a b := a.part = b.part ∧
    (a.variant < b.variant ∨ a.variant = b.variant ∧ a.revision ≤ b.revision)
  le_refl a := ⟨rfl, .inr ⟨rfl, Nat.le_refl _⟩⟩
  le_trans a b c := by
    rintro ⟨hab, hab'⟩ ⟨hbc, hbc'⟩
    exact ⟨hab.trans hbc, by omega⟩
  le_antisymm a b := by
    rintro ⟨hab, hab'⟩ ⟨-, hba'⟩
    exact Midr.ext_fields hab (by omega) (by omega)

theorem Midr.le_iff {a b : Midr} :
    a ≤ b ↔ a.part = b.part ∧
      (a.variant < b.variant ∨ a.variant = b.variant ∧ a.revision ≤ b.revision) := Iff.rfl

instance : DecidableLE Midr := fun _ _ => decidable_of_iff _ Midr.le_iff.symm

instance : DecidableLT Midr := fun _ _ => decidable_of_iff _ lt_iff_le_not_ge.symm

/-- Values below a common one are of its part, and so comparable. -/
theorem Midr.chain (bound a b : Midr) (ha : a ≤ bound) (hb : b ≤ bound) : a ≤ b ∨ b ≤ a := by
  rw [Midr.le_iff] at *
  have hpart := ha.1.trans hb.1.symm
  rcases Nat.lt_trichotomy a.variant b.variant with h | h | h
  · exact .inl ⟨hpart, .inl h⟩
  · rcases Nat.le_total a.revision b.revision with h' | h'
    · exact .inl ⟨hpart, .inr ⟨h, h'⟩⟩
    · exact .inr ⟨hpart.symm, .inr ⟨h.symm, h'⟩⟩
  · exact .inr ⟨hpart.symm, .inl h⟩

/-! ## The comparison -/

/-- The value a cpuid string denotes. -/
def midrOf (cpuid : CStr) : Midr := ⟨(strtoull 16 cpuid).value⟩

/-- The fields of four bits fit into a `char`. -/
theorem toNat_fieldGet (high low : Nat) (hlow : low ≤ high) (hhigh : high < 64)
    (hwidth : high - low + 1 ≤ 8) (reg : U64) :
    (fieldGet (BitField.genmask 64 high low) reg).toNat =
      (BitField.get (BitField.genmask 64 high low) reg).toNat := by
  have hlt := BitField.get_lt hlow hhigh reg
  have hle : 2 ^ (high - low + 1) ≤ 2 ^ 8 := Nat.pow_le_pow_right (by decide) hwidth
  rw [fieldGet, BitVec.toNat_setWidth]
  exact Nat.mod_eq_of_lt (Nat.lt_of_lt_of_le hlt hle)

/-- A row matches exactly if its value is at most that of the CPU. -/
theorem strcmpCpuidStr_eq_zero_iff (mapcpuid idstr : CStr) :
    strcmpCpuidStr mapcpuid idstr = 0 ↔ midrOf mapcpuid ≤ midrOf idstr := by
  have hvariant := toNat_fieldGet 23 20 (by decide) (by decide) (by decide)
  have hrevision := toNat_fieldGet 3 0 (by decide) (by decide) (by decide)
  have hone : ¬ (1 : Int) = 0 := by decide
  rw [Midr.le_iff]
  unfold strcmpCpuidStr
  dsimp only
  by_cases hpart : (midrOf mapcpuid).part = (midrOf idstr).part
  · have hfields : (strtoull 16 mapcpuid).value &&& ~~~(midrVariantMask ||| midrRevisionMask) =
        (strtoull 16 idstr).value &&& ~~~(midrVariantMask ||| midrRevisionMask) := hpart
    rw [if_neg (not_not_intro hfields), and_iff_right hpart]
    simp only [Midr.variant, Midr.revision, midrOf, BitVec.lt_def, BitVec.le_def,
      ← BitVec.toNat_inj, midrVariantMask, midrRevisionMask, hvariant, hrevision]
    split_ifs
    · simp only [true_iff]
      omega
    · simp only [true_iff]
      omega
    · simp only [hone, false_iff]
      omega
  · have hfields : (strtoull 16 mapcpuid).value &&& ~~~(midrVariantMask ||| midrRevisionMask) ≠
        (strtoull 16 idstr).value &&& ~~~(midrVariantMask ||| midrRevisionMask) := hpart
    rw [if_pos hfields]
    simp [hpart]

/-! ## The search of the table -/

/-- The value of a row. -/
def rowMidr (row : PmuEventsMap) : Midr := midrOf row.cpuid

/-- The search is one for the first value of the table that is at most that of the CPU. -/
theorem map_rowMidr_searchMap (rows : List PmuEventsMap) (idstr : CStr) :
    (searchMap strcmpCpuidStr rows idstr).map rowMidr =
      firstBelow (midrOf idstr) (rows.map rowMidr) := by
  rw [searchMap, firstBelow, List.find?_map]
  congr 2
  funext row
  exact decide_eq_decide.mpr (strcmpCpuidStr_eq_zero_iff row.cpuid idstr)

/-- Every value is that of a string. -/
theorem exists_midrOf (m : Midr) : ∃ cpuid, midrOf cpuid = m := by
  obtain ⟨id⟩ := m
  refine ⟨cs "0x" ++ utf8 (Nat.toDigits 16 id.toNat), ?_⟩
  have hlt : ¬ 2 ^ 64 ≤ id.toNat := Nat.not_le.mpr id.isLt
  rw [midrOf, strtoull_hexPrefix, clamped, if_neg hlt]
  simp

/-- The row that the search finds is the newest of those that match the CPU. -/
def FindsNewest (rows : List PmuEventsMap) : Prop :=
  ∀ idstr row, searchMap strcmpCpuidStr rows idstr = some row →
    ∀ row' ∈ rows, strcmpCpuidStr row'.cpuid idstr = 0 → rowMidr row' ≤ rowMidr row

theorem findsNewest_iff_findsGreatest (rows : List PmuEventsMap) :
    FindsNewest rows ↔ FindsGreatest (rows.map rowMidr) := by
  constructor
  · intro h bound m hm m' hm' hle
    obtain ⟨idstr, rfl⟩ := exists_midrOf bound
    obtain ⟨row', hrow', rfl⟩ := List.mem_map.mp hm'
    rw [← map_rowMidr_searchMap] at hm
    obtain ⟨row, hrow, rfl⟩ := Option.map_eq_some_iff.mp hm
    exact h idstr row hrow row' hrow' ((strcmpCpuidStr_eq_zero_iff _ _).mpr hle)
  · intro h idstr row hrow row' hrow' hmatch
    refine h (midrOf idstr) (rowMidr row) ?_ _ (List.mem_map_of_mem hrow')
      ((strcmpCpuidStr_eq_zero_iff _ _).mp hmatch)
    rw [← map_rowMidr_searchMap, hrow]
    rfl

/-- In a table without repeated values the search finds the newest row for every CPU
exactly if no row stands before a newer one of its part. -/
theorem findsNewest_iff {rows : List PmuEventsMap} (hnodup : (rows.map rowMidr).Nodup) :
    FindsNewest rows ↔ rows.Pairwise fun row row' => ¬ rowMidr row < rowMidr row' := by
  have hmap : (rows.map rowMidr).Pairwise (fun a b => ¬ a < b) ↔
      rows.Pairwise fun row row' => ¬ rowMidr row < rowMidr row' := List.pairwise_map
  rw [findsNewest_iff_findsGreatest, ← hmap]
  exact ⟨pairwise_of_findsGreatest hnodup, findsGreatest_of_pairwise Midr.chain⟩

def oldAndNew (first second : String) : List PmuEventsMap :=
  [⟨cs "arm64", cs first, [], []⟩, ⟨cs "arm64", cs second, [], []⟩]

theorem findsNewest_newest_first :
    FindsNewest (oldAndNew "0x00000000413fd0c1" "0x00000000410fd0c0") ∧
      ¬ FindsNewest (oldAndNew "0x00000000410fd0c0" "0x00000000413fd0c1") := by
  refine ⟨(findsNewest_iff (by decide +kernel)).mpr (by decide +kernel), fun h => ?_⟩
  exact absurd ((findsNewest_iff (by decide +kernel)).mp h) (by decide +kernel)

/-! ## From the register to the row -/

/-- A register value in sixteen hexadecimal digits. -/
def registerDigits (reg : U64) : CStr :=
  List.replicate (16 - (Numeral.digits 16 reg.toNat).length) (chr '0') ++
    utf8 (Nat.toDigits 16 reg.toNat)

/-- The file of the register. -/
def midrText (reg : U64) : List UInt8 := cs "0x" ++ registerDigits reg ++ [chr '\n']

theorem length_registerDigits (reg : U64) : (registerDigits reg).length = 16 := by
  have hlt : reg.toNat < 16 ^ 16 := Nat.lt_of_lt_of_le reg.isLt (by decide)
  have hle := Numeral.length_digits_le (by decide) (by decide) hlt
  rw [registerDigits, List.length_append, List.length_replicate,
    utf8_toDigits (by decide) (by decide), List.length_map]
  omega

theorem digitIn_registerDigits (reg : U64) :
    ∀ b ∈ registerDigits reg, (digitIn 16 b).isSome := by
  intro b hb
  rcases List.mem_append.mp hb with hzero | hdigit
  · rw [(List.mem_replicate.mp hzero).2]
    decide
  · exact digitIn_toDigits (by decide) (Nat.le_refl 16) (by decide) _ b hdigit

theorem filterMap_registerDigits (reg : U64) :
    (registerDigits reg).filterMap (digitIn 16) =
      List.replicate (16 - (Numeral.digits 16 reg.toNat).length) 0 ++
        Numeral.digits 16 reg.toNat := by
  have hzero : digitIn 16 (chr '0') = some 0 := by decide
  rw [registerDigits, List.filterMap_append,
    filterMap_digitIn_toDigits (by decide) (Nat.le_refl 16) (by decide),
    List.filterMap_replicate_of_some hzero]

/-- The string of a register reads as its value. -/
theorem midrOf_registerDigits (reg : U64) : midrOf (cs "0x" ++ registerDigits reg) = ⟨reg⟩ := by
  have hne : registerDigits reg ≠ [] := by
    intro hnil
    have hlen := length_registerDigits reg
    rw [hnil] at hlen
    cases hlen
  have hread := strtoull_prefixedDigits (x := chr 'x') (.inl rfl) hne (digitIn_registerDigits reg)
  have hprefix : cs "0x" ++ registerDigits reg = chr '0' :: chr 'x' :: registerDigits reg := rfl
  have hlt : ¬ 2 ^ 64 ≤ reg.toNat := Nat.not_le.mpr reg.isLt
  rw [midrOf, hprefix, hread, filterMap_registerDigits, Numeral.value_zeros_append,
    Numeral.value_digits (by decide), clamped, if_neg hlt]
  simp

/-- The buffer holds the file of a register up to its newline. -/
theorem fgets_midrText (reg : U64) :
    fgets 19 (midrText reg) = some (cs "0x" ++ registerDigits reg) := by
  have hlen : (cs "0x" ++ registerDigits reg).length = 18 := by
    rw [List.length_append, length_registerDigits]
    rfl
  have htake : (midrText reg).take (19 - 1) = cs "0x" ++ registerDigits reg := by
    rw [midrText, List.take_append_of_le_length (by rw [hlen]),
      List.take_of_length_le (by rw [hlen])]
  have hbyte : ∀ b ∈ cs "0x" ++ registerDigits reg, b ≠ chr '\n' ∧ b ≠ 0 := by
    intro b hb
    have hprefix : ∀ b ∈ cs "0x", b ≠ chr '\n' ∧ b ≠ 0 := by decide +kernel
    rcases List.mem_append.mp hb with hpre | hdigit
    · exact hprefix b hpre
    · have hsome := digitIn_registerDigits reg b hdigit
      constructor <;> rintro rfl <;> exact absurd hsome (by decide)
  have hne : midrText reg ≠ [] := by simp [midrText]
  rw [fgets, if_neg hne, htake, cut_of_none fun b hb => by simp [(hbyte b hb).1], cstr,
    List.takeWhile_eq_self_iff.mpr fun b hb => by simp [(hbyte b hb).2]]

/-- The cpuid string of a CPU, if the program is not aborted. -/
def cpuidText (sys : System) (cpu : PerfCpu) : Option CStr :=
  match getCpuidStr sys cpu with
  | some (.text buf) => some buf
  | _ => none

theorem cpuidText_of_register {sys : System} {cpu : PerfCpu} (hcpu : cpu ≠ -1) {reg : U64}
    (hfile : sys.fopen (midrPath cpu) = some (midrText reg)) :
    cpuidText sys cpu = some (cs "0x" ++ registerDigits reg) := by
  rw [cpuidText, getCpuidStr, getCpuid, if_pos hcpu, getCpuidOf, if_neg hcpu, readMidr, hfile,
    Option.bind_some, fgets_midrText]
  rfl

/-- The answer is the newest row that is at most a register value, or NULL if there is none. -/
def Newest (rows : List PmuEventsMap) (m : Midr) : Option PmuEventsMap → Prop
  | none => ∀ row ∈ rows, ¬ rowMidr row ≤ m
  | some row => row ∈ rows ∧ rowMidr row ≤ m ∧
      ∀ row' ∈ rows, rowMidr row' ≤ m → rowMidr row' ≤ rowMidr row

theorem newest_searchMap {rows : List PmuEventsMap}
    (hsorted : rows.Pairwise fun row row' => ¬ rowMidr row < rowMidr row') (idstr : CStr) :
    Newest rows (midrOf idstr) (searchMap strcmpCpuidStr rows idstr) := by
  cases hfound : searchMap strcmpCpuidStr rows idstr with
  | none =>
    intro row hrow hle
    have hno := List.find?_eq_none.mp hfound row hrow
    rw [decide_eq_true_eq] at hno
    exact hno ((strcmpCpuidStr_eq_zero_iff _ _).mpr hle)
  | some row =>
    have hmatch := List.find?_some hfound
    rw [decide_eq_true_eq, strcmpCpuidStr_eq_zero_iff] at hmatch
    refine ⟨List.mem_of_find?_eq_some hfound, hmatch, fun row' hrow' hle => ?_⟩
    have hfinds := (findsNewest_iff_findsGreatest rows).mpr
      (findsGreatest_of_pairwise Midr.chain (List.pairwise_map.mpr hsorted))
    exact hfinds idstr row hfound row' hrow' ((strcmpCpuidStr_eq_zero_iff _ _).mpr hle)

/-- With the rows of a part listed newest first, a call for a CPU whose register can be read
answers with the newest row that is not newer than the CPU, whatever calls were made before. -/
theorem newest_mapForCpuCalls (sys : System) {rows : List PmuEventsMap}
    (hsorted : rows.Pairwise fun row row' => ¬ rowMidr row < rowMidr row')
    (before after : List PerfCpu) {cpu : PerfCpu} {reg : U64} (hcpu : cpu ≠ -1)
    (hfile : sys.fopen (midrPath cpu) = some (midrText reg)) :
    ∃ answer, (mapForCpuCalls strcmpCpuidStr rows (cpuidText sys) .initial
        (before ++ cpu :: after))[before.length]? = some answer ∧ Newest rows ⟨reg⟩ answer := by
  refine ⟨plainSearch strcmpCpuidStr rows (cpuidText sys) cpu, ?_, ?_⟩
  · rw [mapForCpuCalls_of_valid ReachableCache.initial.valid, List.getElem?_map]
    simp
  · rw [plainSearch, cpuidText_of_register hcpu hfile, Option.bind_some, ← midrOf_registerDigits]
    exact newest_searchMap hsorted _

/-- A system in which every register holds one value. -/
def oneRegister (reg : U64) : System :=
  { online := none, nprocessors := 2, reallocLine := fun _ => true
    reallocCpus := fun _ => true, fopen := fun _ => some (midrText reg) }

/-- A call for CPU 1 behind one without a CPU and one for CPU 0. -/
theorem newest_mapForCpuCalls_third :
    ∃ answer, (mapForCpuCalls strcmpCpuidStr
        (oldAndNew "0x00000000413fd0c1" "0x00000000410fd0c0")
        (cpuidText (oneRegister 0x411fd0c1)) .initial [-1, 0, 1])[2]? = some answer ∧
      Newest (oldAndNew "0x00000000413fd0c1" "0x00000000410fd0c0") ⟨0x411fd0c1⟩ answer :=
  newest_mapForCpuCalls (oneRegister 0x411fd0c1) (by decide +kernel) [-1, 0] [] (by decide) rfl

end PmuEvents.Aarch64
