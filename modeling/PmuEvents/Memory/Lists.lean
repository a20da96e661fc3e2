import PmuEvents.Foundation.Resource
import PmuEvents.Lib.ListLoop
import Mathlib.Tactic.Abel
set_option autoImplicit false

/-!
# The list parsers and their memory

`parse_range_list`, `parse_assignment_list`, `parse_config_def` and the functions that
free what they return, with the blocks they allocate and free.  `malloc` and `strdup`,
whose results the library uses untested, are taken to succeed; `realloc` may be refused.
Reading or freeing a block that is not allocated, or an element behind an array, is a
fault.  The main results: no call faults, whatever is refused; a failed
`parse_range_list` leaves nothing allocated; a failed `parse_assignment_list` leaves the
keys of the assignments in front of the one it stopped at.
-/

namespace PmuEvents.Memory

open PmuEvents.Foundation PmuEvents.Libc PmuEvents.Lib

/-- What the library acquires: a block of memory, an open file, an open directory. -/
inductive Kind where
  | block
  | file
  | directory
  deriving DecidableEq, Repr

abbrev Block := Resource Kind

/-- A C function: it returns, or it faults. -/
abbrev C (α : Type) := Program Kind α

/-- `free`, which ignores NULL. -/
def free : Option Block → C Unit
  | none => pure ()
  | some block => release block

/-- A read or write through a pointer. -/
def deref : Option Block → C Unit
  | none => .fault
  | some block => use block

/-- A C string; `none` for one the library has not allocated. -/
structure Str where
  block : Option Block
  text : CStr
  deriving DecidableEq, Repr

/-- A string constant. -/
def lit (text : CStr) : Str := { block := none, text }

/-- The text of a string that is read. -/
def Str.read (s : Str) : C CStr :=
  match s.block with
  | none => pure s.text
  | some block => do
    use block
    pure s.text

/-- `strdup`: the block of a copy. -/
def strdup (s : Str) : C Block := do
  let _ ← s.read
  acquire .block

/-- A counted array: `len`, the block of the array, and the elements stored in it. -/
structure HeldList (α : Type) where
  len : Nat
  block : Option Block
  items : List α
  deriving DecidableEq, Repr

/-- Before anything is stored. -/
def HeldList.empty {α : Type} : HeldList α := { len := 0, block := none, items := [] }

/-- An assignment, and the block of its key. -/
structure HeldAssignment where
  block : Block
  key : CStr
  value : U64
  deriving DecidableEq, Repr

/-- The assignment as the value it stands for. -/
def HeldAssignment.erase (asn : HeldAssignment) : Assignment :=
  { key := asn.key, value := asn.value }

/-- The pointer `key`. -/
def HeldAssignment.str (asn : HeldAssignment) : Str := { block := some asn.block, text := asn.key }

/-- A config definition and the block of its ranges. -/
structure HeldConfigDef where
  var : AttrVar
  range : HeldList Range
  deriving DecidableEq, Repr

/-- The definition as the value it stands for. -/
def HeldConfigDef.erase (d : HeldConfigDef) : ConfigDef := { var := d.var, range := d.range.items }

section Loop

variable {α : Type} (parse : Str → C (Option α)) (len_on_error : Nat → Nat)

/-- The loop of the two list parsers over the copied string, from `cur_range` on: the
array grows by one element, the piece up to the next comma is parsed into it.  The two
differ in `parse` and in the `len` they leave where a piece is refused. -/
def listLoop (copy : Block) (cur_range : CStr) (list : HeldList α) : C (Int × HeldList α) := do
  let list := { list with len := list.len + 1 }
  match ← grow .block list.block with
  | none =>
    free list.block
    release copy
    pure (-1, list)
  | some tmp =>
    let list := { list with block := some tmp }
    use copy
    match _h : strchr cur_range (chr ',') with
    | none =>
      match ← parse { block := some copy, text := cur_range } with
      | none =>
        release tmp
        release copy
        pure (-1, { list with len := len_on_error list.len })
      | some item =>
        use tmp
        release copy
        pure (0, { list with items := list.items ++ [item] })
    | some next_comma =>
      let piece := cur_range.take (cur_range.length - next_comma.length)
      match ← parse { block := some copy, text := piece } with
      | none =>
        release tmp
        release copy
        pure (-1, { list with len := len_on_error list.len })
      | some item =>
        use tmp
        listLoop copy next_comma.tail { list with items := list.items ++ [item] }
termination_by cur_range.length
decreasing_by exact length_tail_lt_of_strchr _h

end Loop

/-- `parse_range`, which allocates nothing. -/
def parseRange (term : Str) : C (Option Range) := do
  let term ← term.read
  pure (Lib.parseRange term)

/-- `parse_range_list`. -/
def parseRangeList (term : Str) : C (Int × HeldList Range) := do
  let new_term ← strdup term
  listLoop parseRange id new_term term.text .empty

/-- `free_range_list`. -/
def freeRangeList (list : HeldList Range) : C Unit := free list.block

/-- `parse_config_def`. -/
def parseConfigDef (term : Str) : C (Option HeldConfigDef) := do
  let text ← term.read
  match afterPrefix (cs "config:") text with
  | some start_term => ranges .config start_term
  | none =>
    match afterPrefix (cs "config1:") text with
    | some start_term => ranges .config1 start_term
    | none =>
      match afterPrefix (cs "config2:") text with
      | some start_term => ranges .config2 start_term
      | none => pure none
where
  ranges (var : AttrVar) (start_term : CStr) : C (Option HeldConfigDef) := do
    let parsed ← parseRangeList { block := term.block, text := start_term }
    if parsed.1 = -1 then pure none else pure (some { var, range := parsed.2 })

/-- `free_config_def`. -/
def freeConfigDef (d : HeldConfigDef) : C Unit := freeRangeList d.range

/-- `parse_assignment`: the key is copied into a block of its own. -/
def parseAssignment (term : Str) : C (Option HeldAssignment) := do
  let text ← term.read
  match Lib.parseAssignment text with
  | none => pure none
  | some asn =>
    let block ← acquire .block
    pure (some { block, key := asn.key, value := asn.value })

/-- `free_assignment`. -/
def freeAssignment (asn : HeldAssignment) : C Unit := free asn.block

/-- `parse_assignment_list`.  It looks for the comma before it grows the array, which
makes no difference. -/
def parseAssignmentList (str : Str) : C (Int × HeldList HeldAssignment) := do
  let new_str ← strdup str
  listLoop parseAssignment (fun _ => 0) new_str str.text .empty

/-- The loop of a function that frees the elements of an array: `len` elements are read,
whatever is stored. -/
def freeItems {α : Type} (freeItem : α → C Unit) (block : Block) : Nat → List α → C Unit
  | 0, _ => pure ()
  | _ + 1, [] => .fault
  | len + 1, item :: items => do
    use block
    freeItem item
    freeItems freeItem block len items

/-- `free_assignment_list`. -/
def freeAssignmentList (list : HeldList HeldAssignment) : C Unit := do
  match list.block with
  | none => if list.len = 0 then pure () else .fault
  | some block =>
    freeItems freeAssignment block list.len list.items
    release block

/-! ## What is held -/

/-- The block of a string. -/
def Str.owned (s : Str) : Multiset Block := pointee s.block

/-- The block of the key. -/
def HeldAssignment.owned (asn : HeldAssignment) : Multiset Block := {asn.block}

/-- The block of an array and what its elements own. -/
def HeldList.owned {α : Type} (owns : α → Multiset Block) (list : HeldList α) :
    Multiset Block :=
  pointee list.block + (list.items.map owns).sum

section Rules

variable {α : Type} {grants : Nat → Bool} {pre rest : Multiset Block}
  {post : α → Multiset Block → Prop}

/-- The block of a string, if it has one, is among the resources. -/
def Str.Readable (s : Str) (pre : Multiset Block) : Prop := ∀ block ∈ s.block, block ∈ pre

theorem triple_read {s : Str} {next : CStr → C α} (h : s.Readable pre)
    (hnext : Triple grants pre (next s.text) post) :
    Triple grants pre (s.read >>= next) post := by
  unfold Str.read
  cases hblock : s.block with
  | none => exact hnext
  | some block =>
    rw [bind_assoc]
    exact .use (h block hblock) hnext

theorem Str.Readable.mono {s : Str} (h : s.Readable pre) (more : Multiset Block) :
    s.Readable (more + pre) :=
  fun block hblock => Multiset.mem_add.mpr (.inr (h block hblock))

theorem readable_lit (text : CStr) : (lit text).Readable pre := by simp [Str.Readable, lit]

theorem Str.readable_owned (s : Str) (pre : Multiset Block) : s.Readable (s.owned + pre) := by
  intro block hblock
  rw [Str.owned, Option.mem_def.mp hblock]
  simp

theorem triple_deref {p : Option Block} {next : Unit → C α} (hpre : pre = pointee p + rest)
    (hsome : p.isSome) (hnext : Triple grants pre (next ()) post) :
    Triple grants pre (deref p >>= next) post := by
  obtain ⟨block, rfl⟩ := Option.isSome_iff_exists.mp hsome
  exact .use (by rw [hpre]; simp) hnext

theorem triple_free {p : Option Block} {next : Unit → C α} (hpre : pre = pointee p + rest)
    (hnext : Triple grants rest (next ()) post) :
    Triple grants pre (free p >>= next) post := by
  cases p with
  | none =>
    rw [pointee_none, zero_add] at hpre
    exact hpre ▸ hnext
  | some block => exact .release hpre hnext

theorem triple_strdup {s : Str} {next : Block → C α} (h : s.Readable pre)
    (hnext : ∀ block, Triple grants ({block} + pre) (next block) post) :
    Triple grants pre (strdup s >>= next) post := by
  rw [strdup, bind_assoc]
  exact triple_read h (.acquire fun block _ => hnext block)

end Rules

/-! ## The loop -/

section Loop

variable {α β : Type}

/-- How the memory parser of a piece answers, next to the parser of its value: an accepted
piece adds what the item owns. -/
def ParsesPiece (parse : Str → C (Option α)) (value : CStr → Option β) (erase : α → β)
    (owns : α → Multiset Block) : Prop :=
  ∀ grants (s : Str) pre, s.Readable pre →
    Triple grants pre (parse s) fun r held =>
      match r with
      | none => value s.text = none ∧ held = pre
      | some item => value s.text = some (erase item) ∧ held = owns item + pre ∧
          ∀ r ∈ owns item, r.kind = .block

/-- A list parser that has stored `items` stops at a segment of the text: it has accepted
the segments in front, and either refuses this one or is refused the memory for it.  What
the items own is left. -/
def Stops (grants : Nat → Bool) (value : CStr → Option β) (erase : α → β)
    (owns : α → Multiset Block) (text : CStr) (items : List α) (held : Multiset Block) : Prop :=
  ∃ front piece behind, ∃ accepted : List α, segments text = front ++ piece :: behind ∧
    front.mapM value = some (accepted.map erase) ∧ (value piece = none ∨ Refuses grants) ∧
      (∀ item ∈ accepted, ∀ r ∈ owns item, r.kind = .block) ∧
        held = (items.map owns).sum + (accepted.map owns).sum

/-- A list parser that has stored `items` stores all segments of the text. -/
def Stores (value : CStr → Option β) (erase : α → β) (owns : α → Multiset Block) (text : CStr)
    (items : List α) (list : HeldList α) (held : Multiset Block) : Prop :=
  ∃ new : List α, (segments text).mapM value = some (new.map erase) ∧ list.items = items ++ new ∧
    list.len = list.items.length ∧ list.block.isSome ∧ held = list.owned owns

theorem segments_ne_nil (text : CStr) : segments text ≠ [] := List.splitOn_ne_nil _ _

variable {grants : Nat → Bool} {parse : Str → C (Option α)} {value : CStr → Option β}
  {erase : α → β} {owns : α → Multiset Block}

/-- The first segment is refused, or the memory for it. -/
theorem Stops.first {text piece : CStr} {behind : List CStr} {items : List α}
    (hsegments : segments text = piece :: behind) (h : value piece = none ∨ Refuses grants) :
    Stops grants value erase owns text items (items.map owns).sum :=
  ⟨[], piece, behind, [], hsegments, rfl, h, by simp, by simp⟩

/-- The first segment is accepted and the rest is not. -/
theorem Stops.cons {text piece rest : CStr} {items : List α} {item : α} {held : Multiset Block}
    (hsegments : segments text = piece :: segments rest) (hvalue : value piece = some (erase item))
    (hkind : ∀ r ∈ owns item, r.kind = .block)
    (h : Stops grants value erase owns rest (items ++ [item]) held) :
    Stops grants value erase owns text items held := by
  obtain ⟨front, piece', behind, accepted, hrest, hfront, hstop, hkinds, rfl⟩ := h
  refine ⟨piece :: front, piece', behind, item :: accepted, by rw [hsegments, hrest]; rfl, ?_,
    hstop, List.forall_mem_cons.mpr ⟨hkind, hkinds⟩, ?_⟩
  · simp [hvalue, hfront]
  · simp [add_assoc]

/-- The first segment is accepted and so is the rest. -/
theorem Stores.cons {text piece rest : CStr} {items : List α} {item : α} {list : HeldList α}
    {held : Multiset Block} (hsegments : segments text = piece :: segments rest)
    (hvalue : value piece = some (erase item))
    (h : Stores value erase owns rest (items ++ [item]) list held) :
    Stores value erase owns text items list held := by
  obtain ⟨new, hnew, hitems, hlist⟩ := h
  refine ⟨item :: new, ?_, by rw [hitems]; simp, hlist⟩
  simp [hsegments, hvalue, hnew]

/-- The piece that is parsed into the new element. -/
theorem triple_piece {γ : Type} (hparse : ParsesPiece parse value erase owns) {copy : Block}
    {pre : Multiset Block} (hcopy : copy ∈ pre) {piece : CStr} {next : Option α → C γ}
    {post : γ → Multiset Block → Prop}
    (hnone : value piece = none → Triple grants pre (next none) post)
    (hsome : ∀ item, value piece = some (erase item) → (∀ r ∈ owns item, r.kind = .block) →
      Triple grants (owns item + pre) (next (some item)) post) :
    Triple grants pre (parse { block := some copy, text := piece } >>= next) post := by
  have hread : Str.Readable { block := some copy, text := piece } pre := by
    intro block hblock
    obtain rfl := Option.some.inj hblock
    exact hcopy
  refine (hparse grants _ _ hread).bind fun r held hr => ?_
  cases r with
  | none =>
    obtain ⟨hvalue, rfl⟩ := hr
    exact hnone hvalue
  | some item =>
    obtain ⟨hvalue, rfl, hkind⟩ := hr
    exact hsome item hvalue hkind

/-- The loop from a segment on: it never faults, and stores all segments or stops. -/
theorem triple_listLoop (hparse : ParsesPiece parse value erase owns) (len_on_error : Nat → Nat)
    (copy : Block) (cur_range : CStr) (list : HeldList α) (hlen : list.len = list.items.length) :
    Triple grants ({copy} + list.owned owns) (listLoop parse len_on_error copy cur_range list)
      fun r held =>
        (r.1 = 0 ∧ Stores value erase owns cur_range list.items r.2 held) ∨
          (r.1 = -1 ∧ Stops grants value erase owns cur_range list.items held) := by
  induction h : cur_range.length using Nat.strong_induction_on generalizing cur_range list with
  | _ n ih =>
    have hpre : {copy} + list.owned owns =
        pointee list.block + ({copy} + (list.items.map owns).sum) := by
      rw [HeldList.owned]
      abel
    rw [listLoop]
    refine .grow hpre (fun tmp => ?_) fun hrefuses => ?_
    · refine .use (by simp) ?_
      split
      · rename_i hcomma
        have hsegments := segments_of_strchr_none hcomma
        refine triple_piece hparse (by simp) (fun hvalue => ?_) fun item hvalue hkind => ?_
        · exact .release rfl (.release rfl (.pure (.inr ⟨rfl, .first hsegments (.inl hvalue)⟩)))
        · have hown : owns item + ({tmp} + ({copy} + (list.items.map owns).sum)) =
              {copy} + ({tmp} + ((list.items.map owns).sum + owns item)) := by abel
          refine .use (by simp) (.release hown (.pure (.inl ⟨rfl, [item], ?_, rfl, ?_, rfl, ?_⟩)))
          · simp [hsegments, hvalue]
          · simp [hlen]
          · simp [HeldList.owned]
      · rename_i next_comma hcomma
        have hsegments := segments_of_strchr_some hcomma
        refine triple_piece hparse (by simp) (fun hvalue => ?_) fun item hvalue hkind => ?_
        · exact .release rfl (.release rfl (.pure (.inr ⟨rfl, .first hsegments (.inl hvalue)⟩)))
        · refine .use (by simp) ?_
          have hown : owns item + ({tmp} + ({copy} + (list.items.map owns).sum)) =
              {copy} + HeldList.owned owns ⟨list.len + 1, some tmp, list.items ++ [item]⟩ := by
            rw [HeldList.owned, List.map_append, List.sum_append, List.map_singleton,
              List.sum_singleton, pointee_some]
            abel
          rw [hown]
          refine (ih _ (h ▸ length_tail_lt_of_strchr hcomma) _ _ (by simp [hlen]) rfl).conseq ?_
          rintro r held (⟨hcode, hstores⟩ | ⟨hcode, hstops⟩)
          · exact .inl ⟨hcode, hstores.cons hsegments hvalue⟩
          · exact .inr ⟨hcode, hstops.cons hsegments hvalue hkind⟩
    · obtain ⟨piece, behind, hsegments⟩ := List.exists_cons_of_ne_nil (segments_ne_nil cur_range)
      refine triple_free hpre (.release rfl (.pure (.inr ⟨rfl, ?_⟩)))
      exact .first hsegments (.inr hrefuses)

end Loop

/-! ## The parsers -/

section Parsers

variable {grants : Nat → Bool} {pre : Multiset Block}

theorem parsesPiece_parseRange : ParsesPiece parseRange Lib.parseRange id fun _ => 0 := by
  intro grants s pre hread
  refine triple_read hread (.pure ?_)
  cases h : Lib.parseRange s.text with
  | none => exact ⟨rfl, rfl⟩
  | some range => exact ⟨rfl, (zero_add _).symm, by simp⟩

theorem parsesPiece_parseAssignment :
    ParsesPiece parseAssignment Lib.parseAssignment HeldAssignment.erase HeldAssignment.owned := by
  intro grants s pre hread
  refine triple_read hread ?_
  cases h : Lib.parseAssignment s.text with
  | none => exact .pure ⟨rfl, rfl⟩
  | some asn => exact .acquire fun block hblock => .pure ⟨rfl, rfl, by simpa [HeldAssignment.owned]⟩

/-- What `parse_range_list` returns for a text, and what is held for it. -/
def ParsesRanges (grants : Nat → Bool) (text : CStr) (r : Int × HeldList Range)
    (held : Multiset Block) : Prop :=
  (r.1 = 0 ∧ Lib.parseRangeList text = some r.2.items ∧ r.2.block.isSome ∧
      held = pointee r.2.block) ∨
    (r.1 = -1 ∧ (Lib.parseRangeList text = none ∨ Refuses grants) ∧ held = 0)

theorem sum_map_zero {α : Type} (items : List α) :
    (items.map fun _ => (0 : Multiset Block)).sum = 0 := by simp

/-- `parse_range_list` never faults, and holds the array on success and nothing on failure. -/
theorem triple_parseRangeList {term : Str} (h : term.Readable pre) :
    Triple grants pre (parseRangeList term) fun r held =>
      ∃ own, ParsesRanges grants term.text r own ∧ held = own + pre := by
  refine triple_strdup h fun new_term => ?_
  have hpre : {new_term} + pre =
      {new_term} + HeldList.empty.owned (fun _ : Range => 0) + pre := by
    simp [HeldList.owned, HeldList.empty]
  refine (triple_listLoop parsesPiece_parseRange id new_term term.text .empty rfl).frame hpre ?_
  rintro r held (⟨hcode, new, hnew, hitems, -, hblock, rfl⟩ |
    ⟨hcode, front, piece, behind, accepted, hsegments, -, hstop, -, rfl⟩)
  · refine ⟨_, .inl ⟨hcode, ?_, hblock, ?_⟩, rfl⟩
    · rw [Lib.parseRangeList, hnew, hitems]
      simp [HeldList.empty]
    · rw [HeldList.owned, sum_map_zero, add_zero]
  · refine ⟨_, .inr ⟨hcode, hstop.imp_left fun hvalue => ?_, ?_⟩, rfl⟩
    · rw [Lib.parseRangeList, hsegments, List.mapM_append, List.mapM_cons, hvalue]
      simp
    · rw [sum_map_zero, sum_map_zero, add_zero]

/-- What `parse_config_def` returns for a text, and what is held for it. -/
def ParsesConfigDef (grants : Nat → Bool) (text : CStr) (r : Option HeldConfigDef)
    (held : Multiset Block) : Prop :=
  match r with
  | none => (Lib.parseConfigDef text = none ∨ Refuses grants) ∧ held = 0
  | some d => Lib.parseConfigDef text = some d.erase ∧ d.range.block.isSome ∧
      held = pointee d.range.block

theorem triple_ranges {term : Str} (h : term.Readable pre) {var : AttrVar} {start_term : CStr}
    (hdef : Lib.parseConfigDef term.text =
      (Lib.parseRangeList start_term).map fun range => { var, range }) :
    Triple grants pre (parseConfigDef.ranges term var start_term) fun r held =>
      ∃ own, ParsesConfigDef grants term.text r own ∧ held = own + pre := by
  have hread : Str.Readable { block := term.block, text := start_term } pre := h
  refine (triple_parseRangeList hread).bind fun parsed held hparsed => ?_
  obtain ⟨own, ⟨hcode, hvalue, hblock, hown⟩ | ⟨hcode, hvalue, hown⟩, rfl⟩ := hparsed
  · rw [if_neg (by rw [hcode]; decide)]
    exact .pure ⟨own, ⟨by rw [hdef, hvalue]; rfl, hblock, hown⟩, rfl⟩
  · rw [if_pos hcode]
    exact .pure ⟨own, ⟨hvalue.imp_left fun hnone => by rw [hdef, hnone]; rfl, hown⟩, rfl⟩

theorem triple_parseConfigDef {term : Str} (h : term.Readable pre) :
    Triple grants pre (parseConfigDef term) fun r held =>
      ∃ own, ParsesConfigDef grants term.text r own ∧ held = own + pre := by
  refine triple_read h ?_
  split
  · rename_i start_term hprefix
    exact triple_ranges h (by simp only [Lib.parseConfigDef, hprefix])
  · rename_i hprefix
    split
    · rename_i start_term hprefix1
      exact triple_ranges h (by simp only [Lib.parseConfigDef, hprefix, hprefix1])
    · rename_i hprefix1
      split
      · rename_i start_term hprefix2
        exact triple_ranges h (by simp only [Lib.parseConfigDef, hprefix, hprefix1, hprefix2])
      · rename_i hprefix2
        refine .pure ⟨0, ⟨.inl ?_, rfl⟩, (zero_add _).symm⟩
        simp only [Lib.parseConfigDef, hprefix, hprefix1, hprefix2]

/-- What `parse_assignment_list` returns for a text, and what is held for it: on failure the
keys in front of the assignment it stopped at. -/
def ParsesAssignments (grants : Nat → Bool) (text : CStr) (r : Int × HeldList HeldAssignment)
    (held : Multiset Block) : Prop :=
  (r.1 = 0 ∧ Stores Lib.parseAssignment HeldAssignment.erase HeldAssignment.owned text [] r.2
      held) ∨
    (r.1 = -1 ∧ Stops grants Lib.parseAssignment HeldAssignment.erase HeldAssignment.owned text []
      held)

theorem triple_parseAssignmentList {str : Str} (h : str.Readable pre) :
    Triple grants pre (parseAssignmentList str) fun r held =>
      ∃ own, ParsesAssignments grants str.text r own ∧ held = own + pre := by
  refine triple_strdup h fun new_str => ?_
  have hpre : {new_str} + pre =
      {new_str} + HeldList.empty.owned HeldAssignment.owned + pre := by
    simp [HeldList.owned, HeldList.empty]
  refine (triple_listLoop parsesPiece_parseAssignment _ new_str str.text .empty rfl).frame hpre ?_
  intro r held hr
  exact ⟨held, hr, rfl⟩

/-! ## Freeing -/

theorem triple_freeItems {α : Type} {freeItem : α → C Unit} {owns : α → Multiset Block}
    (block : Block) {items : List α}
    (hfree : ∀ item ∈ items, Triple grants (owns item) (freeItem item) fun _ held => held = 0) :
    Triple grants ({block} + (items.map owns).sum) (freeItems freeItem block items.length items)
      fun _ held => held = {block} := by
  induction items with
  | nil => exact .pure (by simp)
  | cons item items ih =>
    rw [List.forall_mem_cons] at hfree
    rw [List.length_cons, freeItems, List.map_cons, List.sum_cons]
    exact .use (by simp) (hfree.1.dispose (add_left_comm _ _ _) (ih hfree.2))

/-- `free` as a last call. -/
theorem triple_free_last (p : Option Block) :
    Triple grants (pointee p) (free p) fun _ held => held = 0 := by
  have h : Triple grants (pointee p) (free p >>= Pure.pure) fun _ held => held = 0 :=
    triple_free (add_zero _).symm (.pure rfl)
  rwa [bind_pure] at h

/-- `free_assignment_list` frees all that a successful parse holds. -/
theorem triple_freeAssignmentList {list : HeldList HeldAssignment}
    (hlen : list.len = list.items.length) (hblock : list.block.isSome) :
    Triple grants (list.owned HeldAssignment.owned) (freeAssignmentList list)
      fun _ held => held = 0 := by
  obtain ⟨block, hblock⟩ := Option.isSome_iff_exists.mp hblock
  rw [freeAssignmentList, hblock, HeldList.owned, hblock, hlen]
  refine (triple_freeItems block fun asn _ => triple_free_last (some asn.block)).bind
    fun _ held hheld => ?_
  rw [hheld]
  exact triple_free_last (some block)

/-- The assignments in front of the first one that is refused. -/
def acceptedInFront (event : CStr) : List CStr :=
  (segments event).takeWhile fun piece => (Lib.parseAssignment piece).isSome

/-- The kinds of the keys that are left. -/
theorem map_kind_keys {accepted : List HeldAssignment}
    (h : ∀ asn ∈ accepted, ∀ r ∈ asn.owned, r.kind = .block) :
    ((accepted.map HeldAssignment.owned).sum).map Resource.kind =
      .replicate accepted.length .block := by
  induction accepted with
  | nil => rfl
  | cons asn accepted ih =>
    rw [List.forall_mem_cons] at h
    have hkind : asn.block.kind = .block := h.1 _ (Multiset.mem_singleton_self _)
    rw [List.map_cons, List.sum_cons, Multiset.map_add, ih h.2, HeldAssignment.owned,
      Multiset.map_singleton, hkind, List.length_cons, Multiset.replicate_succ,
      Multiset.singleton_add]

/-- A failed parse leaves no more keys than there are segments; where no memory was refused,
the string is refused and the keys are those of the assignments in front. -/
theorem keys_of_stops {event : CStr} {held : Multiset Block}
    (h : Stops grants Lib.parseAssignment HeldAssignment.erase HeldAssignment.owned event [] held) :
    ∃ k ≤ (segments event).length, held.map Resource.kind = .replicate k .block ∧
      (¬ Refuses grants → (Lib.parseAssignmentList event).1 = -1 ∧
        k = (acceptedInFront event).length) := by
  obtain ⟨front, piece, behind, accepted, hsegments, hfront, hstop, hkinds, rfl⟩ := h
  have haccepted := mapM_eq_some_iff.mp hfront
  have hlen : accepted.length = front.length := by
    simpa using haccepted.length_eq.symm
  refine ⟨accepted.length, ?_, ?_, fun hgranted => ?_⟩
  · rw [hlen, hsegments, List.length_append]
    exact Nat.le_add_right _ _
  · rw [List.map_nil, List.sum_nil, zero_add, map_kind_keys hkinds]
  · have hpiece : Lib.parseAssignment piece = none := hstop.resolve_right hgranted
    have hall : ∀ p ∈ front, (Lib.parseAssignment p).isSome = true := by
      intro p hp
      obtain ⟨before, after, rfl⟩ := List.append_of_mem hp
      cases hvalue : Lib.parseAssignment p with
      | some asn => rfl
      | none =>
        rw [mapM_eq_none_of_mem hp hvalue] at hfront
        cases hfront
    refine ⟨?_, ?_⟩
    · have hmem : piece ∈ segments event := by
        rw [hsegments]
        simp
      rw [Lib.parseAssignmentList, mapM_eq_none_of_mem hmem hpiece]
    · rw [acceptedInFront, hsegments, List.takeWhile_append_of_pos hall,
        List.takeWhile_cons_of_neg (by simp [hpiece]), List.append_nil, hlen]

/-- The parsers under any refusals: no call faults, a failed one leaves nothing but keys, and
what a successful one holds is given back by its counterpart. -/
theorem parsers_memory (grants : Nat → Bool) (text : CStr) (s : Store Kind) :
    (∃ r s', run grants (parseRangeList (lit text)) s = some (r, s') ∧
      ((r.1 = -1 ∧ (Lib.parseRangeList text = none ∨ Refuses grants) ∧ s'.live = s.live) ∨
        (r.1 = 0 ∧ Lib.parseRangeList text = some r.2.items ∧
          ∃ s'', run grants (freeRangeList r.2) s' = some ((), s'') ∧ s''.live = s.live))) ∧
    (∃ r s', run grants (parseConfigDef (lit text)) s = some (r, s') ∧
      ((r = none ∧ (Lib.parseConfigDef text = none ∨ Refuses grants) ∧ s'.live = s.live) ∨
        ∃ d, r = some d ∧ Lib.parseConfigDef text = some d.erase ∧
          ∃ s'', run grants (freeConfigDef d) s' = some ((), s'') ∧ s''.live = s.live)) ∧
    (∃ r s', run grants (parseAssignmentList (lit text)) s = some (r, s') ∧
      ((r.1 = -1 ∧ ∃ keys k, s'.live = keys + s.live ∧
          keys.map Resource.kind = .replicate k .block ∧ k ≤ (segments text).length ∧
          (¬ Refuses grants →
            (Lib.parseAssignmentList text).1 = -1 ∧ k = (acceptedInFront text).length)) ∨
        (r.1 = 0 ∧ Lib.parseAssignmentList text = (0, r.2.items.map HeldAssignment.erase) ∧
          ∃ s'', run grants (freeAssignmentList r.2) s' = some ((), s'') ∧
            s''.live = s.live))) := by
  refine ⟨?_, ?_, ?_⟩
  · obtain ⟨r, s', hrun, own, ⟨hcode, hvalue, -, rfl⟩ | ⟨hcode, hvalue, rfl⟩, hlive⟩ :=
      (triple_parseRangeList (readable_lit text)).outcome
    · exact ⟨r, s', hrun, .inr ⟨hcode, hvalue, (triple_free_last r.2.block).restores hlive⟩⟩
    · exact ⟨r, s', hrun, .inl ⟨hcode, hvalue, hlive.trans (zero_add _)⟩⟩
  · obtain ⟨r, s', hrun, own, hr, hlive⟩ := (triple_parseConfigDef (readable_lit text)).outcome
    refine ⟨r, s', hrun, ?_⟩
    cases r with
    | none =>
      obtain ⟨hvalue, rfl⟩ := hr
      exact .inl ⟨rfl, hvalue, hlive.trans (zero_add _)⟩
    | some d =>
      obtain ⟨hvalue, -, rfl⟩ := hr
      exact .inr ⟨d, rfl, hvalue, (triple_free_last d.range.block).restores hlive⟩
  · obtain ⟨r, s', hrun, own, ⟨hcode, new, hnew, hitems, hlen, hblock, rfl⟩ | ⟨hcode, hstops⟩,
      hlive⟩ := (triple_parseAssignmentList (readable_lit text)).outcome
    · refine ⟨r, s', hrun, .inr ⟨hcode, ?_, (triple_freeAssignmentList hlen hblock).restores hlive⟩⟩
      rw [hitems, List.nil_append]
      exact parseAssignmentList_of_mapM hnew
    · obtain ⟨k, hk, hkinds, hexact⟩ := keys_of_stops hstops
      exact ⟨r, s', hrun, .inl ⟨hcode, own, k, hlive, hkinds, hk, hexact⟩⟩

end Parsers

end PmuEvents.Memory
