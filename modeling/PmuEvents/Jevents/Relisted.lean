import PmuEvents.Jevents.Passes
set_option autoImplicit false

/-!
# Directories listed in another order

`os.scandir` lists a directory in any order.  The walk sorts what it lists, so it
meets the files of a tree in the same order whatever the order of the listings.
-/

namespace PmuEvents.Jevents

open PmuEvents.Foundation

/-- What a directory holds. -/
def Entry.entries : Entry → List Entry
  | .file _ => []
  | .dir _ entries => entries

/-- The names in each directory of a tree are distinct. -/
inductive DistinctNames : List Entry → Prop
  | nil : DistinctNames []
  | cons {item : Entry} {items : List Entry} (name : item.name ∉ items.map Entry.name)
      (below : DistinctNames item.entries) (rest : DistinctNames items) :
      DistinctNames (item :: items)

theorem distinctNames_cons {item : Entry} {items : List Entry} :
    DistinctNames (item :: items) ↔
      item.name ∉ items.map Entry.name ∧ DistinctNames item.entries ∧ DistinctNames items := by
  constructor
  · intro h
    cases h with
    | cons name below rest => exact ⟨name, below, rest⟩
  · rintro ⟨name, below, rest⟩
    exact .cons name below rest

/-- The same tree, with its directories listed in other orders. -/
inductive Relisted : List Entry → List Entry → Prop
  | nil : Relisted [] []
  | file (name : Text) {items items' : List Entry} (rest : Relisted items items') :
      Relisted (.file name :: items) (.file name :: items')
  | dir (name : Text) {entries entries' items items' : List Entry}
      (below : Relisted entries entries') (rest : Relisted items items') :
      Relisted (.dir name entries :: items) (.dir name entries' :: items')
  | swap (item item' : Entry) (items : List Entry) :
      Relisted (item :: item' :: items) (item' :: item :: items)
  | trans {items items' items'' : List Entry} (left : Relisted items items')
      (right : Relisted items' items'') : Relisted items items''

theorem Relisted.perm_names {items items' : List Entry} (h : Relisted items items') :
    (items.map Entry.name).Perm (items'.map Entry.name) := by
  induction h with
  | nil => exact .nil
  | file name _ ih => exact .cons _ ih
  | dir name _ _ _ ih => exact .cons _ ih
  | swap item item' items => exact .swap _ _ _
  | trans _ _ ih ih' => exact ih.trans ih'

theorem Relisted.distinctNames {items items' : List Entry} (h : Relisted items items')
    (hdistinct : DistinctNames items) : DistinctNames items' := by
  induction h with
  | nil => exact .nil
  | file name hrest ih =>
    obtain ⟨hname, hbelow, hitems⟩ := distinctNames_cons.mp hdistinct
    exact .cons (fun hmem => hname (hrest.perm_names.mem_iff.mpr hmem)) hbelow (ih hitems)
  | dir name _ hrest ihbelow ih =>
    obtain ⟨hname, hbelow, hitems⟩ := distinctNames_cons.mp hdistinct
    exact .cons (fun hmem => hname (hrest.perm_names.mem_iff.mpr hmem)) (ihbelow hbelow)
      (ih hitems)
  | swap item item' items =>
    obtain ⟨hname, hbelow, hrest⟩ := distinctNames_cons.mp hdistinct
    obtain ⟨hname', hbelow', hitems⟩ := distinctNames_cons.mp hrest
    rw [List.map_cons, List.mem_cons, not_or] at hname
    refine .cons ?_ hbelow' (.cons hname.2 hbelow hitems)
    rw [List.map_cons, List.mem_cons, not_or]
    exact ⟨fun heq => hname.1 heq.symm, hname'⟩
  | trans _ _ ih ih' => exact ih' (ih hdistinct)

/-- A tree may always be listed as it is. -/
theorem Relisted.refl : ∀ items : List Entry, Relisted items items
  | [] => .nil
  | .file name :: items => .file name (refl items)
  | .dir name entries :: items => .dir name (refl entries) (refl items)

/-- The entries of a directory in any order. -/
theorem Relisted.of_perm {items items' : List Entry} (h : items.Perm items') :
    Relisted items items' := by
  induction h with
  | nil => exact .nil
  | cons item _ ih =>
    cases item with
    | file name => exact .file name ih
    | dir name entries => exact .dir name (.refl entries) ih
  | swap item item' items => exact .swap item' item items
  | trans _ _ ih ih' => exact .trans ih ih'

/-! ## The files the walk meets -/

/-- The item of a visit is a file. -/
def Visit.isFile (v : Visit) : Bool := !v.item.isDir

section Files

variable (model arch : Text)

/-- The visits of files at or below the items of a directory. -/
def filesOfEntries (parents : List Text) (items : List Entry) : List (Text × List Visit) :=
  (visitsOfEntriesModel model arch parents items).map fun entry =>
    (entry.1, entry.2.filter Visit.isFile)

/-- A sort by distinct names does not depend on the order before it. -/
theorem inNameOrder_perm {visits visits' : List (Text × List Visit)} (h : visits.Perm visits')
    (hdistinct : (visits.map Prod.fst).Nodup) : inNameOrder visits = inNameOrder visits' := by
  have hsorted : ∀ l : List (Text × List Visit),
      (l.insertionSort fun a b => a.1 ≤ b.1).Pairwise fun a b => a.1 ≤ b.1 :=
    fun l => List.pairwise_insertionSort (fun a b : Text × List Visit => a.1 ≤ b.1) l
  have hperm := List.perm_insertionSort (fun a b : Text × List Visit => a.1 ≤ b.1)
  have heq : (visits.insertionSort fun a b => a.1 ≤ b.1) =
      visits'.insertionSort fun a b => a.1 ≤ b.1 := by
    refine List.Perm.eq_of_pairwise ?_ (hsorted visits) (hsorted visits')
      ((hperm visits).trans (h.trans (hperm visits').symm))
    intro a b ha hb hab hba
    exact List.inj_on_of_nodup_map hdistinct ((hperm visits).mem_iff.mp ha)
      (h.mem_iff.mpr ((hperm visits').mem_iff.mp hb)) (le_antisymm hab hba)
  rw [inNameOrder, inNameOrder, heq]

theorem filter_inNameOrder (p : Visit → Bool) (visits : List (Text × List Visit)) :
    (inNameOrder visits).filter p =
      inNameOrder (visits.map fun entry => (entry.1, entry.2.filter p)) := by
  have hsort : (visits.insertionSort fun a b => a.1 ≤ b.1).map
        (fun entry => (entry.1, entry.2.filter p)) =
      (visits.map fun entry => (entry.1, entry.2.filter p)).insertionSort fun a b => a.1 ≤ b.1 :=
    List.map_insertionSort _ _ _ _ fun _ _ _ _ => Iff.rfl
  rw [inNameOrder, inNameOrder, ← hsort, List.filter_flatMap, List.flatMap_map]

theorem filesOfEntries_names (parents : List Text) (items : List Entry) :
    (filesOfEntries model arch parents items).map Prod.fst = items.map Entry.name := by
  induction items with
  | nil => rfl
  | cons item items ih =>
    rw [List.map_cons, ← ih]
    rfl

theorem nodup_names {items : List Entry} (h : DistinctNames items) :
    (items.map Entry.name).Nodup := by
  induction h with
  | nil => exact .nil
  | cons name _ _ _ ih => exact List.nodup_cons.mpr ⟨name, ih⟩

/-- The files the walk meets are those of the items, in the order of their names. -/
theorem filter_ftwModel (parents : List Text) (items : List Entry) :
    (ftwModel model arch parents items).filter Visit.isFile =
      inNameOrder (filesOfEntries model arch parents items) :=
  filter_inNameOrder _ _

theorem filesOfEntries_perm {items items' : List Entry} (h : Relisted items items')
    (hdistinct : DistinctNames items) (parents : List Text) :
    (filesOfEntries model arch parents items).Perm
      (filesOfEntries model arch parents items') := by
  induction h generalizing parents with
  | nil => exact .nil
  | file name _ ih =>
    obtain ⟨-, -, hitems⟩ := distinctNames_cons.mp hdistinct
    exact .cons _ (ih hitems parents)
  | @dir name entries entries' items items' _ _ ihbelow ih =>
    obtain ⟨-, hbelow, hitems⟩ := distinctNames_cons.mp hdistinct
    have hfiles : (ftwModel model arch (parents ++ [name]) entries).filter Visit.isFile =
        (ftwModel model arch (parents ++ [name]) entries').filter Visit.isFile := by
      rw [filter_ftwModel, filter_ftwModel]
      refine inNameOrder_perm (ihbelow hbelow _) ?_
      rw [filesOfEntries_names]
      exact nodup_names hbelow
    have hhead : ((Entry.dir name entries).visitsModel model arch parents).filter Visit.isFile =
        ((Entry.dir name entries').visitsModel model arch parents).filter Visit.isFile := by
      rw [Entry.visitsModel, Entry.visitsModel]
      split
      · rfl
      · exact hfiles
    simp only [filesOfEntries, visitsOfEntriesModel, List.map_cons, hhead]
    exact .cons _ (ih hitems parents)
  | swap item item' items => exact .swap _ _ _
  | trans hleft _ ih ih' =>
    exact (ih hdistinct parents).trans (ih' (hleft.distinctNames hdistinct) parents)

/-- The walk meets the same files in the same order, however the directories are listed. -/
theorem Relisted.filter_ftwModel {items items' : List Entry} (h : Relisted items items')
    (hdistinct : DistinctNames items) (parents : List Text) :
    (ftwModel model arch parents items).filter Visit.isFile =
      (ftwModel model arch parents items').filter Visit.isFile := by
  rw [Jevents.filter_ftwModel, Jevents.filter_ftwModel]
  refine inNameOrder_perm (filesOfEntries_perm model arch h hdistinct parents) ?_
  rw [filesOfEntries_names]
  exact nodup_names hdistinct

end Files

end PmuEvents.Jevents
