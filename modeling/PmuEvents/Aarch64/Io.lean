import PmuEvents.Foundation.Delimited
import PmuEvents.Libc.CString
import Mathlib.Data.List.Basic
set_option autoImplicit false

/-!
# The buffered reader of the AArch64 utilities

`struct io` and its functions.  A line is collected in pieces of 128 bytes, and the file
arrives in whatever pieces `read` gives.  The main results: what a sequence of calls of
`io__getdelim` returns is cut out of the content of the file and does not depend on how
`read` divided it, and which requests for memory the calls depend on.

A character is a byte, or `none` for the -1 at the end: `char` is unsigned on this
architecture.
-/

namespace PmuEvents.Aarch64

open PmuEvents.Foundation

/-- `struct io`; the time-out stays 0, as `io__init` sets it. -/
structure Io where
  /-- The bytes of the read buffer from `data` to `end`. -/
  data : List UInt8
  eof : Bool
  /-- What the coming calls of `read` store, at most a buffer each; nothing stands for
  0 and -1, which every call returns once the list is used up. -/
  reads : List (List UInt8)

/-- `io__init` on a descriptor. -/
def ioInit (fd : List (List UInt8)) : Io := { data := [], eof := false, reads := fd }

/-- `io__fill_buffer`, which succeeds if it could read something. -/
def ioFillBuffer (io : Io) : Bool × Io :=
  if io.eof then (false, io)
  else
    match io.reads with
    | [] => (false, { io with eof := true })
    | [] :: reads => (false, { io with eof := true, reads })
    | (b :: bytes) :: reads => (true, { io with data := b :: bytes, reads })

/-- `io__get_char`. -/
def ioGetChar (io : Io) : Option UInt8 × Io :=
  match io.data with
  | b :: data => (some b, { io with data })
  | [] =>
    match ioFillBuffer io with
    | (false, io) => (none, io)
    | (true, io) => (io.data.head?, { io with data := io.data.tail })

/-- The bytes between here and the first `read` that gives nothing. -/
def Io.pending (io : Io) : List UInt8 :=
  io.data ++ if io.eof then [] else (io.reads.takeWhile (· ≠ [])).flatten

/-- The bytes that can still be read, before or behind a `read` that gives nothing. -/
def Io.unread (io : Io) : Nat := io.data.length + io.reads.flatten.length

theorem ioGetChar_spec (io : Io) :
    (ioGetChar io).1 = io.pending.head? ∧ (ioGetChar io).2.pending = io.pending.tail := by
  obtain ⟨data, eof, reads⟩ := io
  cases data with
  | cons b data => exact ⟨rfl, rfl⟩
  | nil =>
    cases eof with
    | true => exact ⟨rfl, rfl⟩
    | false =>
      cases reads with
      | nil => exact ⟨rfl, rfl⟩
      | cons bytes reads =>
        cases bytes with
        | nil => exact ⟨rfl, rfl⟩
        | cons b bytes => simp [ioGetChar, ioFillBuffer, Io.pending]

theorem unread_ioGetChar (io : Io) (h : (ioGetChar io).1.isSome) :
    (ioGetChar io).2.unread < io.unread := by
  obtain ⟨data, eof, reads⟩ := io
  cases data with
  | cons b data => simp [ioGetChar, Io.unread]
  | nil =>
    cases eof with
    | true => cases h
    | false =>
      cases reads with
      | nil => cases h
      | cons bytes reads =>
        cases bytes with
        | nil => cases h
        | cons b bytes =>
          simp [ioGetChar, ioFillBuffer, Io.unread]

/-! ## `io__getdelim` -/

/-- The locals of `io__getdelim`: the block `line` with its length, and `buf` up to
`buf_pos`. -/
structure LineBuf where
  line : List UInt8
  buf : List UInt8
  fits : buf.length ≤ 128
  aligned : 128 ∣ line.length
  started : buf = [] → line = []

/-- The bytes collected so far. -/
def LineBuf.text (acc : LineBuf) : List UInt8 := acc.line ++ acc.buf

def LineBuf.empty : LineBuf where
  line := []
  buf := []
  fits := Nat.zero_le _
  aligned := Nat.dvd_zero _
  started := fun _ => rfl

section Memory

-- whether `realloc` grants a request of so many bytes; the requests of one call grow, so
-- that the size tells which of them it is
variable (realloc : Nat → Bool)

/-- The body of the loop for a byte: a full `buf` is moved behind `line` first. -/
def LineBuf.push (acc : LineBuf) (ch : UInt8) : Option LineBuf :=
  if h : acc.buf.length = 128 then
    if realloc (acc.line.length + 128) then
      some
        { line := acc.line ++ acc.buf
          buf := [ch]
          fits := by simp
          aligned := by
            rw [List.length_append, h]
            exact Nat.dvd_add acc.aligned (Nat.dvd_refl 128)
          started := by simp }
    else none
  else
    some
      { line := acc.line
        buf := acc.buf ++ [ch]
        fits := by
          have := acc.fits
          rw [List.length_append, List.length_singleton]
          omega
        aligned := acc.aligned
        started := by simp }

/-- The loop of `io__getdelim`; `none` is the jump to `err_out`. -/
def getdelimLoop (delim ch : Option UInt8) (acc : LineBuf) (io : Io) : Option LineBuf × Io :=
  if ch = delim then (some acc, io)
  else
    match _h : ioGetChar io with
    | (none, io') => (some acc, io')
    | (some b, io') =>
      match acc.push realloc b with
      | none => (none, io')
      | some acc' => getdelimLoop delim (some b) acc' io'
termination_by io.unread
decreasing_by
  have := unread_ioGetChar io (by rw [_h]; rfl)
  rwa [_h] at this

/-- `io__getdelim`: the line (`none` for `-ENOMEM`) and the reader afterwards.  The
loop starts from the character 0. -/
def ioGetdelim (delim : Option UInt8) (io : Io) : Option (List UInt8) × Io :=
  match getdelimLoop realloc delim (some 0) LineBuf.empty io with
  | (none, io') => (none, io')
  | (some acc, io') =>
    if realloc (acc.line.length + acc.buf.length + 1) then (some acc.text, io') else (none, io')

/-- `filename__read_str` for the file it opens, if it can. -/
def filenameReadStr (file : Option (List (List UInt8))) : Option (List UInt8) :=
  match file with
  | none => none
  | some fd => (ioGetdelim realloc none (ioInit fd)).1

/-! ## Collecting -/

/-- Bytes collected one after another. -/
def LineBuf.pushAll (acc : LineBuf) (bytes : List UInt8) : Option LineBuf :=
  bytes.foldlM (LineBuf.push realloc) acc

theorem LineBuf.pushAll_cons (acc : LineBuf) (b : UInt8) (bytes : List UInt8) :
    acc.pushAll realloc (b :: bytes) =
      (acc.push realloc b).bind fun acc => acc.pushAll realloc bytes := by
  rw [LineBuf.pushAll, List.foldlM_cons]
  rfl

/-- `buf` is full where a positive multiple of its size has been collected. -/
theorem LineBuf.full_iff (acc : LineBuf) :
    acc.buf.length = 128 ↔ 0 < acc.text.length ∧ 128 ∣ acc.text.length := by
  have hfits := acc.fits
  have haligned := acc.aligned
  have hstarted := acc.started
  rw [LineBuf.text, List.length_append]
  constructor
  · intro h
    exact ⟨by omega, by omega⟩
  · rintro ⟨hpos, hdvd⟩
    have hne : acc.buf.length ≠ 0 := by
      intro h0
      have hnil := List.length_eq_zero_iff.mp h0
      rw [hstarted hnil, hnil] at hpos
      exact absurd hpos (by decide)
    omega

/-- A byte is collected unless `buf` is full and no memory is granted to empty it. -/
theorem LineBuf.push_spec (acc : LineBuf) (ch : UInt8) :
    ((0 < acc.text.length ∧ 128 ∣ acc.text.length → realloc acc.text.length) →
      ∃ acc', acc.push realloc ch = some acc' ∧ acc'.text = acc.text ++ [ch]) ∧
    (¬ (0 < acc.text.length ∧ 128 ∣ acc.text.length → realloc acc.text.length) →
      acc.push realloc ch = none) := by
  rw [← acc.full_iff]
  unfold LineBuf.push LineBuf.text
  by_cases hfull : acc.buf.length = 128
  · by_cases hmem : realloc (acc.line.length + 128) <;>
      simp [hfull, hmem]
  · simp [hfull]

/-- Which requests collecting `bytes` behind `acc` depends on. -/
def LineBuf.Granted (acc : LineBuf) (bytes : List UInt8) : Prop :=
  ∀ size, acc.text.length ≤ size → size < acc.text.length + bytes.length → 0 < size →
    128 ∣ size → realloc size

theorem LineBuf.pushAll_spec (acc : LineBuf) (bytes : List UInt8) :
    (acc.Granted realloc bytes →
      ∃ acc', acc.pushAll realloc bytes = some acc' ∧ acc'.text = acc.text ++ bytes) ∧
    (¬ acc.Granted realloc bytes → acc.pushAll realloc bytes = none) := by
  induction bytes generalizing acc with
  | nil =>
    refine ⟨fun _ => ⟨acc, rfl, by rw [List.append_nil]⟩, fun h => absurd ?_ h⟩
    intro size hle hlt
    rw [List.length_nil] at hlt
    omega
  | cons b bytes ih =>
    obtain ⟨hpush, hfull⟩ := acc.push_spec realloc b
    by_cases hmem : 0 < acc.text.length ∧ 128 ∣ acc.text.length → realloc acc.text.length
    · obtain ⟨acc', hacc', htext⟩ := hpush hmem
      have hlen : acc'.text.length = acc.text.length + 1 := by
        rw [htext, List.length_append, List.length_singleton]
      have hstep : acc.Granted realloc (b :: bytes) ↔ acc'.Granted realloc bytes := by
        unfold LineBuf.Granted
        rw [hlen, List.length_cons]
        constructor
        · intro h size hle hlt
          exact h size (by omega) (by omega)
        · intro h size hle hlt hpos hdvd
          rcases Nat.lt_or_eq_of_le hle with hgt | rfl
          · exact h size hgt (by omega) hpos hdvd
          · exact hmem ⟨hpos, hdvd⟩
      have hrun : acc.pushAll realloc (b :: bytes) = acc'.pushAll realloc bytes := by
        rw [LineBuf.pushAll_cons, hacc', Option.bind_some]
      rw [hstep, hrun]
      obtain ⟨hok, hfail⟩ := ih acc'
      refine ⟨fun h => ?_, hfail⟩
      obtain ⟨acc'', hrun', htext'⟩ := hok h
      exact ⟨acc'', hrun', by rw [htext', htext, List.append_assoc, List.singleton_append]⟩
    · have hrun : acc.pushAll realloc (b :: bytes) = none := by
        rw [LineBuf.pushAll_cons, hfull hmem, Option.bind_none]
      refine ⟨fun h => absurd (fun hblock => ?_) hmem, fun _ => hrun⟩
      exact h _ (Nat.le_refl _) (by rw [List.length_cons]; omega) hblock.1 hblock.2

/-! ## The loop -/

theorem getdelimLoop_done (delim : Option UInt8) (acc : LineBuf) (io : Io) :
    getdelimLoop realloc delim delim acc io = (some acc, io) := by
  rw [getdelimLoop, if_pos rfl]

theorem getdelimLoop_nil {delim ch : Option UInt8} (hch : ch ≠ delim) (acc : LineBuf) {io : Io}
    (h : io.pending = []) :
    getdelimLoop realloc delim ch acc io = (some acc, (ioGetChar io).2) := by
  have hchar := (ioGetChar_spec io).1
  rw [h, List.head?_nil] at hchar
  rw [getdelimLoop, if_neg hch]
  split
  · rename_i io' heq
    rw [heq]
  · rename_i b io' heq
    rw [heq] at hchar
    cases hchar

theorem getdelimLoop_cons {delim ch : Option UInt8} (hch : ch ≠ delim) (acc : LineBuf) {io : Io}
    {b : UInt8} {rest : List UInt8} (h : io.pending = b :: rest) :
    getdelimLoop realloc delim ch acc io =
      match acc.push realloc b with
      | none => (none, (ioGetChar io).2)
      | some acc' => getdelimLoop realloc delim (some b) acc' (ioGetChar io).2 := by
  have hchar := (ioGetChar_spec io).1
  rw [h, List.head?_cons] at hchar
  conv_lhs => rw [getdelimLoop, if_neg hch]
  split
  · rename_i io' heq
    rw [heq] at hchar
    cases hchar
  · rename_i b' io' heq
    rw [heq] at hchar ⊢
    obtain rfl := Option.some.inj hchar
    rfl

/-- The loop collects the content up to the delimiter, and leaves the rest of it. -/
theorem getdelimLoop_spec {delim ch : Option UInt8} (hch : ch ≠ delim) (acc : LineBuf) (io : Io) :
    (getdelimLoop realloc delim ch acc io).1 =
        acc.pushAll realloc (cut (fun b => delim = some b) io.pending).1 ∧
      ((getdelimLoop realloc delim ch acc io).1.isSome →
        (getdelimLoop realloc delim ch acc io).2.pending =
          (cut (fun b => delim = some b) io.pending).2) := by
  obtain ⟨-, hrest⟩ := ioGetChar_spec io
  induction hpending : io.pending generalizing ch acc io with
  | nil =>
    rw [getdelimLoop_nil realloc hch acc hpending]
    refine ⟨rfl, fun _ => ?_⟩
    rw [hrest, hpending]
    rfl
  | cons b rest ih =>
    rw [getdelimLoop_cons realloc hch acc hpending]
    rw [hpending, List.tail_cons] at hrest
    by_cases hdelim : delim = some b
    · have hcut : cut (fun b => delim = some b) (b :: rest) = ([b], rest) := by simp [cut, hdelim]
      rw [hcut, LineBuf.pushAll_cons]
      cases hpush : acc.push realloc b with
      | none => exact ⟨rfl, fun h => by cases h⟩
      | some acc' =>
        subst hdelim
        rw [Option.bind_some]
        dsimp only
        rw [getdelimLoop_done]
        exact ⟨rfl, fun _ => hrest⟩
    · have hcut : cut (fun b => delim = some b) (b :: rest) =
          (b :: (cut (fun b => delim = some b) rest).1,
            (cut (fun b => delim = some b) rest).2) := by
        simp [cut, hdelim]
      rw [hcut, LineBuf.pushAll_cons]
      cases hpush : acc.push realloc b with
      | none => exact ⟨rfl, fun h => by cases h⟩
      | some acc' =>
        rw [Option.bind_some]
        exact ih (Ne.symm hdelim) acc' (ioGetChar io).2 (ioGetChar_spec _).2 hrest

/-! ## Calls -/

/-- The requests for memory that a line of so many bytes depends on. -/
def Grants (length : Nat) : Prop :=
  (∀ size, 0 < size → size < length → 128 ∣ size → realloc size) ∧ realloc (length + 1)

/-- A call returns the content up to its delimiter, if the memory for it is granted. -/
theorem ioGetdelim_eq_some_iff {delim : Option UInt8} (hdelim : delim ≠ some 0) (io : Io)
    (line : List UInt8) :
    (ioGetdelim realloc delim io).1 = some line ↔
      line = (cut (fun b => delim = some b) io.pending).1 ∧ Grants realloc line.length := by
  obtain ⟨hrun, -⟩ := getdelimLoop_spec realloc (Ne.symm hdelim) LineBuf.empty io
  obtain ⟨hok, hfail⟩ :=
    LineBuf.empty.pushAll_spec realloc (cut (fun b => delim = some b) io.pending).1
  have hgranted : LineBuf.empty.Granted realloc (cut (fun b => delim = some b) io.pending).1 ↔
      ∀ size, 0 < size → size < (cut (fun b => delim = some b) io.pending).1.length →
        128 ∣ size → realloc size := by
    unfold LineBuf.Granted
    have hempty : LineBuf.empty.text.length = 0 := rfl
    rw [hempty, Nat.zero_add]
    exact ⟨fun h size hpos hlt => h size (Nat.zero_le _) hlt hpos,
      fun h size _ hlt hpos => h size hpos hlt⟩
  rw [← hrun] at hok hfail
  unfold ioGetdelim Grants
  by_cases hmem : LineBuf.empty.Granted realloc (cut (fun b => delim = some b) io.pending).1
  · obtain ⟨acc, hacc, htext⟩ := hok hmem
    have hlen : acc.line.length + acc.buf.length =
        (cut (fun b => delim = some b) io.pending).1.length := by
      rw [← List.length_append]
      exact congrArg List.length htext
    cases hloop : getdelimLoop realloc delim (some 0) LineBuf.empty io with
    | mk run io' =>
      rw [hloop] at hacc
      subst hacc
      have htext' : acc.text = (cut (fun b => delim = some b) io.pending).1 := htext
      dsimp only
      rw [hlen, htext']
      constructor
      · intro h
        split at h
        · rename_i hlast
          obtain rfl := Option.some.inj h
          exact ⟨rfl, hgranted.mp hmem, hlast⟩
        · cases h
      · rintro ⟨rfl, -, hlast⟩
        rw [if_pos hlast]
  · have hnone := hfail hmem
    cases hloop : getdelimLoop realloc delim (some 0) LineBuf.empty io with
    | mk run io' =>
      rw [hloop] at hnone
      subst hnone
      constructor
      · intro h
        cases h
      · rintro ⟨rfl, hall, -⟩
        exact absurd (hgranted.mpr hall) hmem

theorem pending_ioGetdelim {delim : Option UInt8} (hdelim : delim ≠ some 0) (io : Io)
    (h : (ioGetdelim realloc delim io).1.isSome) :
    (ioGetdelim realloc delim io).2.pending = (cut (fun b => delim = some b) io.pending).2 := by
  obtain ⟨-, hrest⟩ := getdelimLoop_spec realloc (Ne.symm hdelim) LineBuf.empty io
  unfold ioGetdelim at h ⊢
  cases hloop : getdelimLoop realloc delim (some 0) LineBuf.empty io with
  | mk run io' =>
    rw [hloop] at h hrest
    cases run with
    | none => cases h
    | some acc =>
      rw [← hrest rfl]
      dsimp only
      split <;> rfl

/-- `filename__read_str` returns the content up to the first `read` that gives nothing. -/
theorem filenameReadStr_eq_some_iff {file : Option (List (List UInt8))} {text : List UInt8} :
    filenameReadStr realloc file = some text ↔
      ∃ fd, file = some fd ∧ text = (fd.takeWhile (· ≠ [])).flatten ∧
        Grants realloc text.length := by
  cases file with
  | none => simp [filenameReadStr]
  | some fd =>
    have hpending : (ioInit fd).pending = (fd.takeWhile (· ≠ [])).flatten := rfl
    have hcut : cut (fun b => (none : Option UInt8) = some b) (ioInit fd).pending =
        ((ioInit fd).pending, []) := cut_of_none (by simp)
    rw [filenameReadStr, ioGetdelim_eq_some_iff realloc (by simp), hcut, hpending]
    simp

end Memory

/-! ## Sequences of calls -/

/-- A call of `io__getdelim`: its delimiter, and whether each of its requests for memory is
granted. -/
structure GetdelimCall where
  delim : Option UInt8
  realloc : Nat → Bool

/-- Calls of `io__getdelim` one after another. -/
def getdelims : List GetdelimCall → Io → List (Option (List UInt8)) × Io
  | [], io => ([], io)
  | call :: calls, io =>
    let answer := ioGetdelim call.realloc call.delim io
    let rest := getdelims calls answer.2
    (answer.1 :: rest.1, rest.2)

/-- The delimiters of calls, as tests on bytes. -/
def delimTests (calls : List GetdelimCall) : List (UInt8 → Bool) :=
  calls.map fun call b => call.delim = some b

theorem getdelims_cons (call : GetdelimCall) (calls : List GetdelimCall) (io : Io) :
    getdelims (call :: calls) io =
      ((ioGetdelim call.realloc call.delim io).1 ::
          (getdelims calls (ioGetdelim call.realloc call.delim io).2).1,
        (getdelims calls (ioGetdelim call.realloc call.delim io).2).2) := rfl

/-- The lines that calls return are cut out of the content one behind the other, however
`read` divides it, and each needs memory for itself only; what the lines leave of the
content is what later calls read. -/
theorem getdelims_eq_iff {calls : List GetdelimCall} (hdelims : ∀ call ∈ calls, call.delim ≠ some 0)
    (io : Io) (lines : List (List UInt8)) :
    ((getdelims calls io).1 = lines.map some ↔
        lines = (cuts (delimTests calls) io.pending).1 ∧
          List.Forall₂ (fun call line => Grants call.realloc line.length) calls lines) ∧
      ((getdelims calls io).1 = lines.map some →
        lines.flatten ++ (getdelims calls io).2.pending = io.pending) := by
  induction calls generalizing io lines with
  | nil =>
    cases lines with
    | nil => simp [getdelims, delimTests, cuts]
    | cons line lines => simp [getdelims, delimTests, cuts]
  | cons call calls ih =>
    rw [List.forall_mem_cons] at hdelims
    have hfirst := ioGetdelim_eq_some_iff call.realloc hdelims.1 io
    have hbehind {line : List UInt8}
        (hline : line = (cut (fun b => call.delim = some b) io.pending).1)
        (hgrant : Grants call.realloc line.length) :
        (ioGetdelim call.realloc call.delim io).2.pending =
          (cut (fun b => call.delim = some b) io.pending).2 :=
      pending_ioGetdelim call.realloc hdelims.1 io
        (by rw [(hfirst line).mpr ⟨hline, hgrant⟩, Option.isSome_some])
    rw [getdelims_cons, delimTests, List.map_cons, cuts]
    dsimp only
    cases lines with
    | nil => simp
    | cons line lines =>
      obtain ⟨hlines, hrest⟩ := ih hdelims.2 (ioGetdelim call.realloc call.delim io).2 lines
      simp only [List.map_cons, List.cons.injEq, hfirst, hlines, List.forall₂_cons]
      constructor
      · constructor
        · rintro ⟨⟨hline, hgrant⟩, hcuts, hgrants⟩
          rw [hbehind hline hgrant] at hcuts
          exact ⟨⟨hline, hcuts⟩, hgrant, hgrants⟩
        · rintro ⟨⟨hline, hcuts⟩, hgrant, hgrants⟩
          refine ⟨⟨hline, hgrant⟩, ?_, hgrants⟩
          rw [hbehind hline hgrant]
          exact hcuts
      · rintro ⟨⟨hline, hgrant⟩, hcuts, hgrants⟩
        have hcontent := hrest (hlines.mpr ⟨hcuts, hgrants⟩)
        rw [hbehind hline hgrant] at hcontent
        rw [List.flatten_cons, List.append_assoc, hcontent, hline, cut_append]

/-- Two lines of a file that `read` divides within the first of them; the second call gets
no more memory than it needs. -/
theorem getdelims_eq_iff_two_lines :
    (getdelims [⟨some 0x0a, fun _ => true⟩, ⟨none, fun size => size ≤ 2⟩]
        (ioInit [[0x61], [0x62, 0x0a, 0x63]])).1 =
      [[0x61, 0x62, 0x0a], [0x63]].map some := by
  have hdelims : ∀ call ∈ [GetdelimCall.mk (some 0x0a) fun _ => true,
      ⟨none, fun size => size ≤ 2⟩], call.delim ≠ some 0 := by
    simp
  have hlines := getdelims_eq_iff hdelims (ioInit [[0x61], [0x62, 0x0a, 0x63]])
    [[0x61, 0x62, 0x0a], [0x63]]
  refine hlines.1.mpr ⟨by decide, .cons ⟨fun _ _ _ _ => rfl, rfl⟩ (.cons ⟨?_, rfl⟩ .nil)⟩
  intro size hpos hlt hdvd
  exact absurd (Nat.le_of_dvd hpos hdvd) (by simp at hlt; omega)

end PmuEvents.Aarch64
