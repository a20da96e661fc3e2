import PmuEvents.Memory.Lists
import PmuEvents.Lib.FileContent
import PmuEvents.Lib.GenAttr
set_option autoImplicit false

/-!
# `gen_attr_for_event` and its memory

The files are opened, read into blocks and closed, and the paths are built in blocks of
their own.  The main result: where the value of a call is defined no call faults, whatever
is refused, and nothing is left behind with two exceptions: a type file that is no number
leaves its content and the open file, and a refused event string leaves the keys that
were accepted.
-/

namespace PmuEvents.Memory

open PmuEvents.Foundation PmuEvents.Libc PmuEvents.Lib

/-- What the library sees of the machine. -/
structure Device where
  /-- the names `readdir` returns for the base directory; `none` when `opendir` fails -/
  listing : Option (List CStr)
  /-- whether `access(path, F_OK)` answers `F_OK` -/
  accessible : CStr → Bool
  /-- `open(path, O_RDONLY)`; `none` for -1 -/
  file : CStr → Option File
  nprocessors : U64
  /-- what a block holds before it is written -/
  fresh : Nat → UInt8

/-- The device directory as the contents of its files. -/
def Device.sysfs (dev : Device) : Sysfs where
  listing := dev.listing
  accessible := dev.accessible
  content := fun path => Lib.getFileContent dev.fresh (dev.file path)
  nprocessors := dev.nprocessors

/-- `concat_path`. -/
def concatPath (base filename : Str) : C Str := do
  let path ← acquire .block
  let base ← base.read
  let filename ← filename.read
  pure { block := some path, text := Lib.concatPath base filename }

/-- The string in the block `content` after `bytes` of a file of size `end_` are read. -/
def lineIn (fresh : Nat → UInt8) (end_ : Nat) (bytes : List UInt8) : CStr :=
  let content := (store (malloc fresh (end_ + 1)) bytes).set end_ 0
  match strchr (cstr content) (chr '\n') with
  | none => cstr content
  | some newline => cstr (content.set ((cstr content).length - newline.length) 0)

/-- `get_file_content`. -/
def getFileContent (dev : Device) (path : Str) : C (Option Str) := do
  let path ← path.read
  match dev.file path with
  | none => pure none
  | some file =>
    let fd ← acquire .file
    use fd
    match file.seek_end with
    | none =>
      release fd
      pure none
    | some end_ =>
      let content ← acquire .block
      use fd
      match file.read end_ with
      | none =>
        release content
        release fd
        pure none
      | some bytes =>
        release fd
        use content
        pure (some { block := some content, text := lineIn dev.fresh end_ bytes })

/-- An instance of a pmu class, with the blocks of its name and its CPUs. -/
structure HeldInstance where
  name : Str
  cpus : HeldList Range
  entries : Option (List CompactPmuEvent × Nat) := none
  deriving DecidableEq, Repr

/-- The instance as the value it stands for. -/
def HeldInstance.erase (pmu : HeldInstance) : PmuInstance :=
  { name := pmu.name.text, cpus := pmu.cpus.items, entries := pmu.entries }

/-- `get_format_file_content`. -/
def getFormatFileContent (dev : Device) (fmt_file : Str) (pmu : HeldInstance) :
    C (Option Str) := do
  let full_path ← concatPath (lit pmuDevicesBase) pmu.name
  let format_path ← concatPath full_path (lit (cs "format/"))
  free full_path.block
  let path ← concatPath format_path fmt_file
  free format_path.block
  let content ← getFileContent dev path
  free path.block
  pure content

/-- `read_perf_type`. -/
def readPerfType (dev : Device) (pmu : HeldInstance) : C (BitVec 32) := do
  let full_path ← concatPath (lit pmuDevicesBase) pmu.name
  let type_path ← concatPath full_path (lit (cs "type"))
  free full_path.block
  let path ← type_path.read
  match dev.file path with
  | none =>
    free type_path.block
    pure minusOne
  | some file =>
    let fd ← acquire .file
    free type_path.block
    use fd
    match file.seek_end with
    | none =>
      release fd
      pure minusOne
    | some end_ =>
      let content ← acquire .block
      use fd
      match file.read end_ with
      | none =>
        release content
        release fd
        pure minusOne
      | some bytes =>
        use content
        let res := strtoull 10 (lineIn dev.fresh end_ bytes)
        -- neither the block nor the file is given back here
        if res.endptr ≠ [] then pure minusOne
        else
          release content
          release fd
          pure (res.value.setWidth 32)

variable {β : Type}

/-- `apply_config_def_to_attr`, which returns 0; a shift it does not define is a fault. -/
def applyConfigDefToAttr (attr : PerfEventAttr β) (val : U64) (d : HeldConfigDef) :
    C (Int × PerfEventAttr β) := do
  deref d.range.block
  match Lib.applyConfigDefToAttr attr val d.erase with
  | none => .fault
  | some attr => pure (0, attr)

/-- The loop of `gen_attr_for_event` over the assignments that are left. -/
def genAttrLoop (dev : Device) (pmu : HeldInstance) (asn_list : HeldList HeldAssignment) :
    Nat → List HeldAssignment → PerfEventAttr β → C (Int × PerfEventAttr β)
  | 0, _, attr => do
    freeAssignmentList asn_list
    pure (0, attr)
  | _ + 1, [], _ => .fault
  | left + 1, asn :: items, attr => do
    deref asn_list.block
    let key ← asn.str.read
    if key = cs "period" then genAttrLoop dev pmu asn_list left items attr
    else
      match ← getFormatFileContent dev asn.str pmu with
      | none =>
        freeAssignmentList asn_list
        pure (-1, attr)
      | some config_def_str =>
        match ← parseConfigDef config_def_str with
        | none =>
          freeAssignmentList asn_list
          free config_def_str.block
          pure (-1, attr)
        | some conf_def =>
          free config_def_str.block
          let applied ← applyConfigDefToAttr attr asn.value conf_def
          if applied.1 = -1 then
            freeConfigDef conf_def
            freeAssignmentList asn_list
            -- a second time, but `applied.1` is never -1
            free config_def_str.block
            pure (-1, applied.2)
          else
            freeConfigDef conf_def
            genAttrLoop dev pmu asn_list left items applied.2

/-- `gen_attr_for_event`. -/
def genAttrForEvent (dev : Device) (pmu : HeldInstance) (event : Str) (attr : PerfEventAttr β) :
    C (Int × PerfEventAttr β) := do
  let type ← readPerfType dev pmu
  let attr := { attr with type }
  if type = minusOne then pure (-1, attr)
  else
    let parsed ← parseAssignmentList event
    if parsed.1 = -1 then pure (-1, attr)
    else genAttrLoop dev pmu parsed.2 parsed.2.len parsed.2.items attr

/-! ## Files -/

section Files

variable {α : Type} {grants : Nat → Bool} {pre rest : Multiset Block}
  {post : α → Multiset Block → Prop} {dev : Device}

theorem readable_block (block : Block) (text : CStr) :
    Str.Readable { block := some block, text } ({block} + pre) :=
  Str.readable_owned { block := some block, text } pre

theorem triple_concatPath {base filename : Str} {next : Str → C α} (hbase : base.Readable pre)
    (hfilename : filename.Readable pre)
    (hnext : ∀ path, Triple grants ({path} + pre)
      (next { block := some path, text := Lib.concatPath base.text filename.text }) post) :
    Triple grants pre (concatPath base filename >>= next) post := by
  simp only [concatPath, bind_assoc, pure_bind]
  exact .acquire fun path _ =>
    triple_read (hbase.mono _) (triple_read (hfilename.mono _) (hnext path))

/-- A string is returned in a block of its own, or NULL. -/
def ReturnsStr (value : Option CStr) (r : Option Str) (own : Multiset Block) : Prop :=
  r.map Str.text = value ∧ own = r.elim 0 Str.owned

section Content

variable {path : CStr}

theorem content_of_open (h : dev.file path = none) : dev.sysfs.content path = none := by
  simp only [Device.sysfs, h]
  rfl

variable {file : File} (hfile : dev.file path = some file)

include hfile

theorem content_of_seek (h : file.seek_end = none) : dev.sysfs.content path = none := by
  simp only [Device.sysfs, hfile, Lib.getFileContent, h]

variable {end_ : Nat} (hend : file.seek_end = some end_)

include hend

theorem content_of_read_failed (h : file.read end_ = none) : dev.sysfs.content path = none := by
  simp only [Device.sysfs, hfile, Lib.getFileContent, hend, h]

theorem content_of_read {bytes : List UInt8} (h : file.read end_ = some bytes) :
    dev.sysfs.content path = some (lineIn dev.fresh end_ bytes) := by
  simp only [Device.sysfs, hfile, Lib.getFileContent, hend, h, lineIn]
  cases strchr (cstr ((store (malloc dev.fresh (end_ + 1)) bytes).set end_ 0)) (chr '\n') with
  | none => rfl
  | some newline => rfl

end Content

/-- `get_file_content` closes the file it opens. -/
theorem triple_getFileContent {path : Str} (h : path.Readable pre) :
    Triple grants pre (getFileContent dev path) fun r held =>
      ∃ own, ReturnsStr (dev.sysfs.content path.text) r own ∧ held = own + pre := by
  have hnull : dev.sysfs.content path.text = none →
      ∃ own, ReturnsStr (dev.sysfs.content path.text) none own ∧ pre = own + pre :=
    fun hnone => ⟨0, ⟨hnone.symm, rfl⟩, (zero_add _).symm⟩
  refine triple_read h ?_
  split
  · rename_i hfile
    exact .pure (hnull (content_of_open hfile))
  · rename_i file hfile
    refine .acquire fun fd _ => .use (by simp) ?_
    split
    · rename_i hend
      exact .release rfl (.pure (hnull (content_of_seek hfile hend)))
    · rename_i end_ hend
      refine .acquire fun content _ => .use (by simp) ?_
      split
      · rename_i hread
        exact .release rfl (.release rfl (.pure (hnull (content_of_read_failed hfile hend hread))))
      · rename_i bytes hread
        refine .release (add_left_comm _ _ _) (.use (by simp) (.pure ⟨_, ⟨?_, rfl⟩, rfl⟩))
        exact (content_of_read hfile hend hread).symm

theorem triple_getFormatFileContent {fmt_file : Str} {pmu : HeldInstance}
    (hname : pmu.name.Readable pre) (hfmt : fmt_file.Readable pre) :
    Triple grants pre (getFormatFileContent dev fmt_file pmu) fun r held =>
      ∃ own, ReturnsStr (Lib.getFormatFileContent dev.sysfs fmt_file.text pmu.erase) r own ∧
        held = own + pre := by
  refine triple_concatPath (readable_lit _) hname fun full_path => ?_
  refine triple_concatPath (readable_block _ _) (readable_lit _) fun format_path => ?_
  refine triple_free (add_left_comm _ _ _) ?_
  refine triple_concatPath (readable_block _ _) (hfmt.mono _) fun path => ?_
  refine triple_free (add_left_comm _ _ _) ?_
  refine (triple_getFileContent (readable_block _ _)).bind fun content held hcontent => ?_
  obtain ⟨own, hvalue, rfl⟩ := hcontent
  exact triple_free (add_left_comm _ _ _) (.pure ⟨own, hvalue, rfl⟩)

/-- What a call of `read_perf_type` leaves behind: the content of a type file that is no
number, and the open file. -/
def typeLeak (sys : Sysfs) (pmu : PmuInstance) : Multiset Kind :=
  match sys.content (Lib.concatPath (Lib.concatPath pmuDevicesBase pmu.name) (cs "type")) with
  | none => 0
  | some content => if (strtoull 10 content).endptr ≠ [] then {.block, .file} else 0

theorem triple_readPerfType {pmu : HeldInstance} (hname : pmu.name.Readable pre) :
    Triple grants pre (readPerfType dev pmu) fun type held =>
      type = Lib.readPerfType dev.sysfs pmu.erase ∧
        ∃ leak, leak.map Resource.kind = typeLeak dev.sysfs pmu.erase ∧ held = leak + pre := by
  have hnull : dev.sysfs.content (Lib.concatPath
        (Lib.concatPath pmuDevicesBase pmu.erase.name) (cs "type")) = none →
      minusOne = Lib.readPerfType dev.sysfs pmu.erase ∧
        ∃ leak, leak.map Resource.kind = typeLeak dev.sysfs pmu.erase ∧ pre = leak + pre := by
    intro hnone
    simp only [Lib.readPerfType, typeLeak, hnone]
    exact ⟨trivial, 0, rfl, (zero_add _).symm⟩
  refine triple_concatPath (readable_lit _) hname fun full_path => ?_
  refine triple_concatPath (readable_block _ _) (readable_lit _) fun type_path => ?_
  refine triple_free (add_left_comm _ _ _) (triple_read (readable_block _ _) ?_)
  split
  · rename_i hfile
    exact triple_free rfl (.pure (hnull (content_of_open hfile)))
  · rename_i file hfile
    refine .acquire fun fd hfd => triple_free (add_left_comm _ _ _) (.use (by simp) ?_)
    split
    · rename_i hend
      exact .release rfl (.pure (hnull (content_of_seek hfile hend)))
    · rename_i end_ hend
      refine .acquire fun content hcontent => .use (by simp) ?_
      split
      · rename_i hread
        exact .release rfl (.release rfl (.pure (hnull (content_of_read_failed hfile hend hread))))
      · rename_i bytes hread
        have hline : dev.sysfs.content (Lib.concatPath
            (Lib.concatPath pmuDevicesBase pmu.erase.name) (cs "type")) =
            some (lineIn dev.fresh end_ bytes) := content_of_read hfile hend hread
        refine .use (by simp) ?_
        simp only [Lib.readPerfType, typeLeak, hline]
        split
        · refine .pure ⟨rfl, {content} + {fd}, ?_, (add_assoc _ _ _).symm⟩
          rw [Multiset.map_add, Multiset.map_singleton, Multiset.map_singleton, hfd, hcontent]
          rfl
        · exact .release rfl (.release rfl (.pure ⟨rfl, 0, rfl, (zero_add _).symm⟩))

end Files

/-! ## The attribute -/

section Attribute

variable {grants : Nat → Bool} {pre rest : Multiset Block} {dev : Device} {pmu : HeldInstance}

theorem triple_applyConfigDefToAttr {attr attr' : PerfEventAttr β} {val : U64}
    {d : HeldConfigDef} (hvalue : Lib.applyConfigDefToAttr attr val d.erase = some attr')
    (hblock : d.range.block.isSome) (hpre : pre = pointee d.range.block + rest) :
    Triple grants pre (applyConfigDefToAttr attr val d) fun r held =>
      r = (0, attr') ∧ held = pre := by
  refine triple_deref hpre hblock ?_
  rw [hvalue]
  exact .pure ⟨rfl, rfl⟩

/-- The key of an assignment that the list holds can be read. -/
theorem readable_key {asn : HeldAssignment} {items : List HeldAssignment} (h : asn ∈ items) :
    asn.str.Readable ((items.map HeldAssignment.owned).sum) := by
  intro block hblock
  obtain rfl := Option.some.inj hblock
  obtain ⟨before, after, rfl⟩ := List.append_of_mem h
  simp [HeldAssignment.owned]

/-- The loop frees the list, and nothing that it has allocated is left.  Its result is that
of the values, or a request was refused. -/
theorem triple_genAttrLoop (hname : pmu.name.Readable rest) {asn_list : HeldList HeldAssignment}
    (hlen : asn_list.len = asn_list.items.length) (hblock : asn_list.block.isSome)
    {items : List HeldAssignment} (hitems : ∀ asn ∈ items, asn ∈ asn_list.items)
    {attr attr' : PerfEventAttr β} {code : Int}
    (hvalue : Lib.genAttrLoop dev.sysfs pmu.erase (items.map HeldAssignment.erase) attr =
      some (code, attr')) :
    Triple grants (asn_list.owned HeldAssignment.owned + rest)
      (genAttrLoop dev pmu asn_list items.length items attr) fun r held =>
        (r = (code, attr') ∨ Refuses grants ∧ r.1 = -1) ∧ held = rest := by
  have hfree : Triple grants (asn_list.owned HeldAssignment.owned) (freeAssignmentList asn_list)
      fun _ held => held = 0 := triple_freeAssignmentList hlen hblock
  induction items generalizing attr with
  | nil =>
    rw [List.map_nil, Lib.genAttrLoop, Option.some.injEq] at hvalue
    exact hfree.dispose rfl (.pure ⟨.inl hvalue, rfl⟩)
  | cons asn items ih =>
    rw [List.forall_mem_cons] at hitems
    rw [List.map_cons, Lib.genAttrLoop] at hvalue
    have hkey : asn.str.Readable (asn_list.owned HeldAssignment.owned + rest) := by
      intro block hmem
      exact Multiset.mem_add.mpr (.inl ((readable_key hitems.1).mono _ block hmem))
    refine triple_deref (add_assoc _ _ _) hblock (triple_read hkey ?_)
    split
    · rename_i hperiod
      have hperiod : asn.erase.key = cs "period" := hperiod
      rw [if_pos hperiod] at hvalue
      exact ih hitems.2 hvalue
    · rename_i hperiod
      have hperiod : asn.erase.key ≠ cs "period" := hperiod
      rw [if_neg hperiod] at hvalue
      refine (triple_getFormatFileContent (hname.mono _) hkey).bind fun content held hcontent => ?_
      obtain ⟨own, ⟨htext, rfl⟩, rfl⟩ := hcontent
      have hcontent' : Lib.getFormatFileContent dev.sysfs asn.erase.key pmu.erase =
          content.map Str.text := htext.symm
      rw [hcontent'] at hvalue
      cases content with
      | none =>
        simp only [Option.map_none, Option.some.injEq] at hvalue
        exact hfree.dispose (zero_add _) (.pure ⟨.inl hvalue, rfl⟩)
      | some config_def_str =>
        simp only [Option.map_some] at hvalue
        refine (triple_parseConfigDef (Str.readable_owned _ _)).bind fun conf held hconf => ?_
        obtain ⟨own, hdef, rfl⟩ := hconf
        cases conf with
        | none =>
          obtain ⟨hnone, rfl⟩ := hdef
          have hresult : (-1, attr) = (code, attr') ∨ Refuses grants ∧ (-1 : Int) = -1 := by
            rcases hnone with hnone | hrefuses
            · rw [hnone, Option.some.injEq] at hvalue
              exact .inl hvalue
            · exact .inr ⟨hrefuses, rfl⟩
          have hpre : 0 + (config_def_str.owned + (asn_list.owned HeldAssignment.owned + rest)) =
              asn_list.owned HeldAssignment.owned + (pointee config_def_str.block + rest) := by
            rw [zero_add]
            exact add_left_comm _ _ _
          exact hfree.dispose hpre (triple_free rfl (.pure ⟨hresult, rfl⟩))
        | some conf_def =>
          obtain ⟨hdef, hranges, rfl⟩ := hdef
          rw [hdef] at hvalue
          refine triple_free (add_left_comm _ _ _) ?_
          cases happly : Lib.applyConfigDefToAttr attr asn.value conf_def.erase with
          | none =>
            have happly : Lib.applyConfigDefToAttr attr asn.erase.value conf_def.erase = none :=
              happly
            simp only [happly] at hvalue
            cases hvalue
          | some next =>
            refine (triple_applyConfigDefToAttr happly hranges rfl).bind fun applied held h => ?_
            obtain ⟨rfl, rfl⟩ := h
            have happly : Lib.applyConfigDefToAttr attr asn.erase.value conf_def.erase =
                some next := happly
            simp only [happly] at hvalue
            exact triple_free rfl (ih hitems.2 hvalue)

/-- What a call of `gen_attr_for_event` leaves behind: what `read_perf_type` does, and, of an
event string that is refused, the keys of the assignments that were accepted. -/
def genAttrLeak (sys : Sysfs) (pmu : PmuInstance) (event : CStr) : Multiset Kind :=
  typeLeak sys pmu +
    if Lib.readPerfType sys pmu = minusOne then 0
    else if (Lib.parseAssignmentList event).1 = -1 then
      .replicate (acceptedInFront event).length .block
    else 0

/-- Where the value of a call is defined, the call does not fault, whatever is refused. -/
theorem triple_genAttrForEvent (hname : pmu.name.Readable pre) {event : Str}
    (hevent : event.Readable pre) {attr attr' : PerfEventAttr β} {code : Int}
    (hvalue : Lib.genAttrForEvent dev.sysfs pmu.erase event.text attr = some (code, attr')) :
    Triple grants pre (genAttrForEvent dev pmu event attr) fun r held =>
      ∃ leak, held = leak + pre ∧
        ((r = (code, attr') ∧
            leak.map Resource.kind = genAttrLeak dev.sysfs pmu.erase event.text) ∨
          (Refuses grants ∧ r.1 = -1 ∧ ∃ k ≤ (segments event.text).length,
            leak.map Resource.kind = typeLeak dev.sysfs pmu.erase + .replicate k .block)) := by
  refine (triple_readPerfType hname).bind fun type held htype => ?_
  obtain ⟨rfl, leak, hleak, rfl⟩ := htype
  unfold Lib.genAttrForEvent at hvalue
  simp only at hvalue
  split
  · rename_i hminus
    rw [if_pos hminus, Option.some.injEq] at hvalue
    refine .pure ⟨leak, rfl, .inl ⟨hvalue, ?_⟩⟩
    rw [genAttrLeak, if_pos hminus, hleak, add_zero]
  · rename_i hminus
    rw [if_neg hminus] at hvalue
    refine (triple_parseAssignmentList (hevent.mono _)).bind fun parsed held hparsed => ?_
    obtain ⟨own, ⟨hcode, new, hnew, hitems, hlen, hblock, rfl⟩ | ⟨hcode, hstops⟩, rfl⟩ := hparsed
    · have hlist : Lib.parseAssignmentList event.text =
          (0, parsed.2.items.map HeldAssignment.erase) := by
        rw [hitems, List.nil_append]
        exact parseAssignmentList_of_mapM hnew
      rw [hlist, if_neg (by simp)] at hvalue
      rw [if_neg (by rw [hcode]; decide), hlen]
      refine (triple_genAttrLoop (hname.mono _) hlen hblock (fun asn h => h) hvalue).conseq ?_
      rintro r held ⟨hr, rfl⟩
      refine ⟨leak, rfl, hr.imp (fun hr => ⟨hr, ?_⟩) fun hr => ⟨hr.1, hr.2, 0, Nat.zero_le _, ?_⟩⟩
      · rw [genAttrLeak, if_neg hminus, hlist, if_neg (by simp), hleak, add_zero]
      · rw [hleak, Multiset.replicate_zero, add_zero]
    · obtain ⟨k, hk, hkinds, hexact⟩ := keys_of_stops hstops
      rw [if_pos hcode]
      have hkind : (own + leak).map Resource.kind =
          typeLeak dev.sysfs pmu.erase + .replicate k .block := by
        rw [Multiset.map_add, hkinds, hleak, add_comm]
      refine .pure ⟨own + leak, (add_assoc _ _ _).symm, ?_⟩
      by_cases hrefuses : Refuses grants
      · exact .inr ⟨hrefuses, rfl, k, hk, hkind⟩
      · obtain ⟨hlist, rfl⟩ := hexact hrefuses
        rw [if_pos hlist, Option.some.injEq] at hvalue
        refine .inl ⟨hvalue, ?_⟩
        rw [genAttrLeak, if_neg hminus, if_pos hlist, hkind]

/-- Where the value of a call is defined, the call does not fault, whatever is refused.  Where
nothing is refused its result is that of the values, and it leaves exactly `genAttrLeak`;
else it leaves that, or what `read_perf_type` leaves and some keys. -/
theorem genAttrForEvent_memory (grants : Nat → Bool) {s : Store Kind}
    (hname : pmu.name.Readable s.live) {event : Str}
    (hevent : event.Readable s.live) {attr attr' : PerfEventAttr β} {code : Int}
    (hvalue : Lib.genAttrForEvent dev.sysfs pmu.erase event.text attr = some (code, attr')) :
    ∃ r s' leak, run grants (genAttrForEvent dev pmu event attr) s = some (r, s') ∧
      s'.live = leak + s.live ∧
        ((r = (code, attr') ∧
            leak.map Resource.kind = genAttrLeak dev.sysfs pmu.erase event.text) ∨
          (Refuses grants ∧ r.1 = -1 ∧ ∃ k ≤ (segments event.text).length,
            leak.map Resource.kind = typeLeak dev.sysfs pmu.erase + .replicate k .block)) := by
  obtain ⟨r, s', hrun, leak, hlive, hr⟩ := (triple_genAttrForEvent hname hevent hvalue).outcome
  exact ⟨r, s', leak, hrun, hlive, hr⟩

end Attribute

/-- A `cpu` device whose type file is no number. -/
def badTypeDevice : Device where
  listing := some [cs "cpu"]
  accessible := fun _ => true
  file := fun path =>
    if path = pmuDevicesBase ++ cs "/cpu/type" then some (.ofContent (cs "four") 4) else none
  nprocessors := 8
  fresh := fun _ => 0

/-- The instance of `badTypeDevice`. -/
def badTypePmu : HeldInstance := { name := lit (cs "cpu"), cpus := .empty }

/-- The content of the type file and the open file are left. -/
theorem genAttrForEvent_memory_badType :
    ∃ r s' leak, run (fun _ => true) (genAttrForEvent badTypeDevice badTypePmu
        (lit (cs "event=0x40")) (⟨0, 0, 0, 0, ()⟩ : PerfEventAttr Unit)) .empty = some (r, s') ∧
      s'.live = leak + (Store.empty : Store Kind).live ∧
        leak.map Resource.kind = {.block, .file} := by
  have hname : badTypePmu.name.Readable (Store.empty : Store Kind).live := readable_lit _
  have hevent : (lit (cs "event=0x40")).Readable (Store.empty : Store Kind).live :=
    readable_lit _
  have hvalue : Lib.genAttrForEvent badTypeDevice.sysfs badTypePmu.erase
      (lit (cs "event=0x40")).text (⟨0, 0, 0, 0, ()⟩ : PerfEventAttr Unit) =
        some (-1, ⟨minusOne, 0, 0, 0, ()⟩) := by decide
  obtain ⟨r, s', leak, hrun, hlive, ⟨-, hleak⟩ | ⟨⟨n, hn⟩, -⟩⟩ :=
    genAttrForEvent_memory (fun _ => true) hname hevent hvalue
  · exact ⟨r, s', leak, hrun, hlive, hleak.trans (by decide)⟩
  · cases hn

end PmuEvents.Memory
