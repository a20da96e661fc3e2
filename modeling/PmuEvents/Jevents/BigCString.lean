import PmuEvents.Foundation.CLiteral
import PmuEvents.Foundation.LastExtension
import PmuEvents.Jevents.PyText
import Mathlib.Data.Char
set_option autoImplicit false

/-!
# `BigCString`

The class that holds many C strings in one: the texts added to it, the text it
writes, and the offset of every text.  A text that ends another one is folded into
it.  Whether it does is decided on the source texts, while offsets are counted in
compiled bytes by `c_len`.
-/

namespace PmuEvents.Jevents

open PmuEvents.Foundation

/-- `bytes.count`: the occurrences of a non-empty sequence, without overlaps; `skip`
bytes belong to the occurrence found last. -/
def countBytes (needle : List UInt8) : Nat → List UInt8 → Nat
  | _, [] => 0
  | skip + 1, _ :: s => countBytes needle skip s
  | 0, b :: s =>
    if needle.isPrefixOf (b :: s) then countBytes needle (needle.length - 1) s + 1
    else countBytes needle 0 s

/-- `c_len`: the length of a text as a C string. -/
def cLen (s : Text) : Int :=
  let utf := utf8 s
  utf.length - countBytes [0x5c] 0 utf + countBytes [0x5c, 0x5c] 0 utf -
    countBytes [0x5c, 0x30, 0x30, 0x30] 0 utf * 2

/-- The order in which Python iterates over a set of strings. -/
structure SetOrder where
  iterate : List Text → List Text
  perm : ∀ l, (iterate l).Perm l

/-- The set of strings with the order of their insertion, and for each whether it
was added as a metric's. -/
structure BigCString where
  strings : List (Text × Bool)
  nodup : (strings.map Prod.fst).Nodup

namespace BigCString

/-- `__init__`. -/
def empty : BigCString := ⟨[], List.nodup_nil⟩

/-- `add`. -/
def add (self : BigCString) (s : Text) (metric : Bool) : BigCString :=
  if h : s ∈ self.strings.map Prod.fst then self
  else
    { strings := self.strings ++ [(s, metric)]
      nodup := by
        rw [List.map_append, List.map_singleton]
        exact List.nodup_append.mpr ⟨self.nodup, List.nodup_singleton s, by
          rintro a ha b hb rfl
          obtain rfl : a = s := List.mem_singleton.mp hb
          exact h ha⟩ }

/-- A sequence of `add` calls. -/
def addAll (self : BigCString) (calls : List (Text × Bool)) : BigCString :=
  calls.foldl (fun self call => self.add call.1 call.2) self

/-- The strings. -/
def texts (self : BigCString) : List Text := self.strings.map Prod.fst

/-- `sorted_reversed_strings`. -/
def sortedReversed (self : BigCString) : List Text :=
  (self.texts.map List.reverse).insertionSort (· ≤ ·)

/-- `folded_strings`: the strings that are the end of another one, each with the
string it is folded into. -/
def foldedStrings (self : BigCString) : List (Text × Text) :=
  (lastExtensions self.sortedReversed).map fun fold => (fold.1.reverse, fold.2.reverse)

/-- `fold_into_strings[s]`. -/
def foldIntoStrings (self : BigCString) (s : Text) : List Text :=
  (self.foldedStrings.filter fun fold => fold.2 = s).map Prod.fst

/-- The strings sorted by `string_cmp_key`: those of metrics last, else in the
order of their insertion. -/
def sortedStrings (self : BigCString) : List Text :=
  (self.strings.filter fun s => !s.2).map Prod.fst ++
    (self.strings.filter fun s => s.2).map Prod.fst

/-- The strings that are written, in order. -/
def emitted (self : BigCString) : List Text :=
  self.sortedStrings.filter fun s => s ∉ self.foldedStrings.map Prod.fst

section Compute

variable (setOrder : SetOrder)

/-- The comment after a string that others are folded into. -/
def alsoComment (self : BigCString) (s : Text) : Text :=
  match self.foldIntoStrings s with
  | [] => []
  | folded =>
    " /* also: ".toList ++ ", ".toList.intercalate (setOrder.iterate folded) ++ " */".toList

/-- The comment before a string. -/
def offsetComment (big_string_offset : Int) : Text :=
  "/* offset=".toList ++ pyStr big_string_offset ++ " */ ".toList

/-- The line written for a string. -/
def line (self : BigCString) (s : Text) (big_string_offset : Int) : Text :=
  offsetComment big_string_offset ++ quoted s ++ self.alsoComment setOrder s ++ ['\n']

/-- `big_string` for the remaining strings to write. -/
def emitSource (self : BigCString) : List Text → Int → Text
  | [], _ => []
  | s :: rest, big_string_offset =>
    self.line setOrder s big_string_offset ++
      self.emitSource rest (big_string_offset + cLen s)

/-- The offsets of the strings that are written. -/
def emitOffsets : List Text → Int → List (Text × Int)
  | [], _ => []
  | s :: rest, big_string_offset =>
    (s, big_string_offset) :: emitOffsets rest (big_string_offset + cLen s)

/-- The loop that computes the offsets of the folded strings; `none` where the
assertion or the lookup fails. -/
def foldOffsets : List (Text × Text) → List (Text × Int) → Option (List (Text × Int))
  | [], offsets => some offsets
  | (s, folded_s) :: rest, offsets =>
    if (offsets.lookup s).isSome then none
    else
      (offsets.lookup folded_s).bind fun offset =>
        foldOffsets rest (offsets ++ [(s, offset + cLen folded_s - cLen s)])

/-- `compute`: the text of the big string and the offsets. -/
def compute (self : BigCString) : Option (Text × List (Text × Int)) :=
  (foldOffsets self.foldedStrings (emitOffsets self.emitted 0)).map fun offsets =>
    (self.emitSource setOrder self.emitted 0, offsets)

end Compute

end BigCString

example : cLen "a\\000b\\\\".toList = 4 := by decide

end PmuEvents.Jevents
