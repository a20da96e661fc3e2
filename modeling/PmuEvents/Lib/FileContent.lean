import PmuEvents.Lib.ListLoop
import PmuEvents.Lib.Sysfs
import Mathlib.Data.List.TakeWhile
set_option autoImplicit false

/-!
# `get_file_content`

The file is read into a fresh block, whose size is what `lseek` reports for the file; a
sysfs attribute reports a page.  The terminating NUL is put at the reported size and not
behind the bytes that were read, so the bytes of the block between them are searched for
the newline as well.  The main result: for which contents and sizes the returned line
does not depend on what the fresh block held.
-/

namespace PmuEvents.Lib

open PmuEvents.Libc

/-- What the system calls answer for an open file. -/
structure File where
  /-- `lseek(fd, 0, SEEK_END)`; `none` for -1. -/
  seek_end : Option Nat
  /-- The bytes that `read` stores when so many are asked for; `none` for -1. -/
  read : Nat → Option (List UInt8)
  read_le : ∀ {count bytes}, read count = some bytes → bytes.length ≤ count

/-- `malloc(size)`, where `fresh` is what the block holds. -/
def malloc (fresh : Nat → UInt8) (size : Nat) : List UInt8 := (List.range size).map fresh

/-- A block after bytes are stored from its start. -/
def store (block bytes : List UInt8) : List UInt8 := bytes ++ block.drop bytes.length

/-- The C string at the start of a block. -/
def cstr (block : List UInt8) : CStr := block.takeWhile (· ≠ 0)

/-- `get_file_content` for a file, or for a path that cannot be opened. -/
def getFileContent (fresh : Nat → UInt8) (fd : Option File) : Option CStr :=
  match fd with
  | none => none
  | some fd =>
    match fd.seek_end with
    | none => none
    | some end_ =>
      let content := malloc fresh (end_ + 1)
      match fd.read end_ with
      | none => none
      | some bytes =>
        let content := (store content bytes).set end_ 0
        match strchr (cstr content) (chr '\n') with
        | none => some (cstr content)
        | some newline =>
          some (cstr (content.set ((cstr content).length - newline.length) 0))

/-- The first line of a file. -/
def firstLine (content : CStr) : CStr := content.takeWhile (· ≠ chr '\n')

/-! ## The block -/

/-- The block holds the bytes that were read, what it held before, and a NUL. -/
theorem set_store_malloc (fresh : Nat → UInt8) {bytes : List UInt8} {size : Nat}
    (h : bytes.length ≤ size) :
    (store (malloc fresh (size + 1)) bytes).set size 0 =
      bytes ++ ((malloc fresh size).drop bytes.length ++ [0]) := by
  have hlen : bytes.length ≤ (malloc fresh size).length := by
    simpa [malloc] using h
  have hend : size - bytes.length = ((malloc fresh size).drop bytes.length).length := by
    simp [malloc]
  have hblock : malloc fresh (size + 1) = malloc fresh size ++ [fresh size] := by
    rw [malloc, List.range_succ, List.map_append]
    rfl
  rw [store, hblock, List.drop_append_of_le_length hlen, List.set_append_right _ _ h, hend,
    List.set_append_right _ _ (Nat.le_refl _), Nat.sub_self]
  rfl

/-- Bytes other than the one sought are taken as a whole. -/
theorem takeWhile_ne_append {c : UInt8} {s : CStr} (h : c ∉ s) (rest : List UInt8) :
    (s ++ rest).takeWhile (· ≠ c) = s ++ rest.takeWhile (· ≠ c) := by
  apply List.takeWhile_append_of_pos
  intro b hb
  rw [decide_eq_true_iff]
  rintro rfl
  exact h hb

theorem takeWhile_ne_append_cons {c : UInt8} {s : CStr} (h : c ∉ s) (rest : List UInt8) :
    (s ++ c :: rest).takeWhile (· ≠ c) = s := by
  rw [takeWhile_ne_append h, List.takeWhile_cons_of_neg (by simp), List.append_nil]

theorem zero_not_mem_cstr (block : List UInt8) : 0 ∉ cstr block := by
  intro h
  have hne := List.mem_takeWhile_imp h
  simp at hne

theorem cstr_concat_zero (block : List UInt8) : cstr (block ++ [0]) = cstr block := by
  induction block with
  | nil => rfl
  | cons b block ih =>
    rw [cstr, cstr, List.cons_append, List.takeWhile_cons, List.takeWhile_cons]
    rw [cstr, cstr] at ih
    rw [ih]

/-- A NUL in place of the first newline leaves the first line. -/
theorem cstr_set_newline {block : List UInt8} {newline : CStr}
    (h : strchr (cstr block) (chr '\n') = some newline) :
    cstr (block.set ((cstr block).length - newline.length) 0) = firstLine (cstr block) := by
  obtain ⟨before, after, hcut, rfl, hbefore⟩ := strchr_eq_some h
  have hzero : 0 ∉ before := fun hmem =>
    zero_not_mem_cstr block (hcut ▸ List.mem_append_left _ hmem)
  have hblock : block = before ++ chr '\n' :: (after ++ block.dropWhile (· ≠ 0)) := by
    have hsplit : cstr block ++ block.dropWhile (· ≠ 0) = block :=
      List.takeWhile_append_dropWhile
    rw [hcut, List.append_assoc] at hsplit
    exact hsplit.symm
  have hindex : (cstr block).length - (chr '\n' :: after).length = before.length := by
    rw [hcut, List.length_append, Nat.add_sub_cancel]
  have hset : block.set before.length 0 =
      before ++ 0 :: (after ++ block.dropWhile (· ≠ 0)) := by
    conv_lhs => rw [hblock]
    rw [List.set_append_right _ _ (Nat.le_refl _), Nat.sub_self]
    rfl
  rw [hindex, hset, cstr, takeWhile_ne_append_cons hzero, hcut, firstLine,
    takeWhile_ne_append_cons hbefore]

/-- The function returns the first line of the content and of the old bytes behind it. -/
theorem getFileContent_eq {fd : File} {size : Nat} {content : CStr}
    (hsize : fd.seek_end = some size) (hread : fd.read size = some content)
    (hcontent : 0 ∉ content) (fresh : Nat → UInt8) :
    getFileContent fresh (some fd) =
      some (firstLine (content ++ cstr ((malloc fresh size).drop content.length))) := by
  have hblock : cstr ((store (malloc fresh (size + 1)) content).set size 0) =
      content ++ cstr ((malloc fresh size).drop content.length) := by
    rw [set_store_malloc fresh (fd.read_le hread), cstr, takeWhile_ne_append hcontent]
    congr 1
    exact cstr_concat_zero _
  rw [← hblock]
  simp only [getFileContent, hsize, hread]
  split
  · rename_i hnone
    rw [firstLine, ← List.append_nil (cstr _), takeWhile_ne_append (strchr_eq_none hnone)]
    rfl
  · rename_i newline hnewline
    rw [cstr_set_newline hnewline]

/-! ## Independence of the block -/

/-- For a file of this content, and of the size that `lseek` reports, the function returns
the first line, whatever the fresh block held. -/
def ReadsFirstLine (content : CStr) (size : Nat) : Prop :=
  ∀ fd : File, fd.seek_end = some size → fd.read size = some content →
    ∀ fresh, getFileContent fresh (some fd) = some (firstLine content)

/-- A content with a newline is cut at it, before the old bytes. -/
theorem firstLine_append {content : CStr} (h : chr '\n' ∈ content) (tail : List UInt8) :
    firstLine (content ++ tail) = firstLine content := by
  obtain ⟨before, after, rfl, hbefore⟩ := List.eq_append_cons_of_mem h
  rw [firstLine, firstLine, List.append_assoc, List.cons_append,
    takeWhile_ne_append_cons hbefore, takeWhile_ne_append_cons hbefore]

/-- A content without a newline and shorter than the reported size is followed by what the
block held. -/
theorem getFileContent_of_short {fd : File} {size : Nat} {content : CStr}
    (hsize : fd.seek_end = some size) (hread : fd.read size = some content)
    (hcontent : 0 ∉ content) (hline : chr '\n' ∉ content) {b : UInt8} (hzero : b ≠ 0)
    (hb : b ≠ chr '\n') :
    getFileContent (fun _ => b) (some fd) =
      some (content ++ List.replicate (size - content.length) b) := by
  have htail : (malloc (fun _ => b) size).drop content.length =
      List.replicate (size - content.length) b := by
    rw [malloc, List.map_const', List.length_range, List.drop_replicate]
  have hcstr : ∀ n, cstr (List.replicate n b) = List.replicate n b := by
    intro n
    rw [cstr, List.takeWhile_replicate, if_pos (by simpa using hzero)]
  rw [getFileContent_eq hsize hread hcontent, htail, hcstr, firstLine, takeWhile_ne_append hline,
    List.takeWhile_replicate, if_pos (by simpa using hb)]

/-- A regular file: `read` stores as much of the content as was asked for. -/
def File.ofContent (content : CStr) (size : Nat) : File where
  seek_end := some size
  read count := some (content.take count)
  read_le := by
    intro count bytes h
    obtain rfl := Option.some.inj h
    exact List.length_take_le _ _

theorem not_readsFirstLine_of_short {content : CStr} {size : Nat} (hcontent : 0 ∉ content)
    (hline : chr '\n' ∉ content) (hlt : content.length < size) :
    ¬ ReadsFirstLine content size := by
  intro h
  have hread : (File.ofContent content size).read size = some content :=
    congrArg some (List.take_of_length_le (Nat.le_of_lt hlt))
  have hall := h (File.ofContent content size) rfl hread fun _ => chr '0'
  have hfirst : firstLine content = content := by
    rw [firstLine, ← List.append_nil content, takeWhile_ne_append hline]
    rfl
  rw [getFileContent_of_short rfl hread hcontent hline (by decide) (by decide), hfirst,
    Option.some.injEq] at hall
  have hlen := congrArg List.length hall
  rw [List.length_append, List.length_replicate] at hlen
  omega

theorem readsFirstLine_of_line {content : CStr} {size : Nat} (hcontent : 0 ∉ content)
    (h : chr '\n' ∈ content ∨ content.length = size) : ReadsFirstLine content size := by
  intro fd hseek hread fresh
  rw [getFileContent_eq hseek hread hcontent]
  rcases h with hline | rfl
  · rw [firstLine_append hline]
  · have htail : (malloc fresh content.length).drop content.length = [] := by
      simp [malloc]
    rw [htail]
    simp [cstr]

/-- The returned line is the first line of the content, for all contents of the rest of the
block, exactly when the content has a newline or is as long as the reported size. -/
theorem readsFirstLine_iff {content : CStr} {size : Nat} (hcontent : 0 ∉ content)
    (hsize : content.length ≤ size) :
    ReadsFirstLine content size ↔ chr '\n' ∈ content ∨ content.length = size := by
  constructor
  · intro h
    by_contra hnot
    rw [not_or] at hnot
    exact not_readsFirstLine_of_short hcontent hnot.1 (lt_of_le_of_ne hsize hnot.2) h
  · exact readsFirstLine_of_line hcontent

/-- A `cpus` file that ends with a newline, reported as a page. -/
theorem readsFirstLine_cpus : ReadsFirstLine (cs "0-3\n") 4096 :=
  (readsFirstLine_iff (by decide) (by decide)).mpr (.inl (by decide))

/-- A `cpus` file without a newline, reported as a page. -/
theorem not_readsFirstLine_cpus : ¬ ReadsFirstLine (cs "0-3") 4096 :=
  not_readsFirstLine_of_short (by decide) (by decide) (by decide)

example :
    getFileContent (fun _ => chr '7') (some (.ofContent (cs "0-3") 4)) = some (cs "0-37") := by
  decide

end PmuEvents.Lib
