import DesignHierarchy.Proofs.Numbering
import DesignHierarchy.Workspace.Catalog

/-! Two tables for one. A store finds under a path both the id of a file and what it
declares; a catalog keeps the two apart and counts ids in 32 bits. Loads and removals
keep the tables in step with each other and with the store, so that no answer shows
how the files are kept. -/
namespace DesignHierarchy

namespace Table

theorem isEmpty_eq {κ ν : Type} (table : Table κ ν) : table.isEmpty = (table.size == 0) := by
  unfold isEmpty size
  cases table.newest <;> rfl

variable {κ ι ν μ : Type} [DecidableEq κ] [DecidableEq ι] {s : Table ι μ} {t : Table κ ν}
  {f : κ × ν → ι × μ} {key : κ} {other : ι} {value : ν}

theorem entries_insert_of_get? {old : ν} (h : t.get? key = some old) (value : ν) :
    (t.insert key value).entries = t.entries.map (revalue key value) := by
  rw [entries, newest_insert_eq_map h, entries, List.map_reverse]

theorem entries_insert_of_get?_none (h : t.get? key = none) (value : ν) :
    (t.insert key value).entries = t.entries ++ [(key, value)] := by
  rw [entries, newest_insert_of_get?_none h, List.reverse_cons, entries]

theorem entries_erase (t : Table κ ν) (key : κ) :
    (t.erase key).entries = t.entries.filter fun entry => entry.1 ≠ key := by
  rw [entries, newest_erase, entries, List.filter_reverse]

theorem insert_of_get? (h : t.get? key = some value) : t.insert key value = t := by
  apply ext
  rw [entries_insert_of_get? h]
  refine (List.map_congr_left ?_).trans (List.map_id _)
  intro entry hentry
  unfold revalue
  split
  · rename_i hkey
    have hget := get?_eq_some_iff.2 (show (entry.1, entry.2) ∈ t.entries from hentry)
    rw [hkey, h] at hget
    cases hget
    rfl
  · rfl

/-! One table is the image of another, entry by entry, and one entry changes in both. -/

variable (image : s.entries = t.entries.map f)
  (matched : ∀ entry ∈ t.entries, (f entry).1 = other ↔ entry.1 = key)

include image matched

theorem get?_of_image {old : ν} (h : t.get? key = some old) :
    s.get? other = some (f (key, old)).2 := by
  have hmem := get?_eq_some_iff.1 h
  rw [get?_eq_some_iff, image, List.mem_map]
  refine ⟨_, hmem, Prod.ext ?_ rfl⟩
  exact (matched _ hmem).2 rfl

theorem get?_none_of_image (h : t.get? key = none) : s.get? other = none := by
  rw [get?_eq_none_iff, keys] at h ⊢
  rw [image, List.map_map]
  intro hmem
  obtain ⟨entry, hentry, heq⟩ := List.mem_map.1 hmem
  exact h (List.mem_map.2 ⟨entry, hentry, (matched entry hentry).1 heq⟩)

theorem entries_insert_of_image {new : μ} (hf : f (key, value) = (other, new)) :
    (s.insert other new).entries = (t.insert key value).entries.map f := by
  cases h : t.get? key with
  | none =>
    rw [entries_insert_of_get?_none h, entries_insert_of_get?_none
      (get?_none_of_image image matched h), image, List.map_append, List.map_singleton, hf]
  | some old =>
    rw [entries_insert_of_get? h, entries_insert_of_get? (get?_of_image image matched h), image,
      List.map_map, List.map_map]
    apply List.map_congr_left
    intro entry hentry
    by_cases hkey : entry.1 = key
    · have hother := (matched entry hentry).2 hkey
      simp [revalue, hkey, hother, hf]
    · have hother := mt (matched entry hentry).1 hkey
      simp [revalue, hkey, hother]

theorem entries_erase_of_image :
    (s.erase other).entries = (t.erase key).entries.map f := by
  rw [entries_erase, entries_erase, image, List.filter_map]
  congr 1
  apply List.filter_congr
  intro entry hentry
  exact decide_eq_decide.2 (not_congr (matched entry hentry))

end Table

namespace Store

variable {store : Store}

/-- Nothing is registered yet for a file that gets the next number. -/
theorem Consistent.file_ne_of_mem_named (h : store.Consistent) {name : String} {symbol : Symbol}
    (hs : symbol ∈ store.named name) : symbol.location.file ≠ ⟨store.nextFile⟩ := by
  unfold Store.named at hs
  cases hget : store.byName.get? name with
  | none => simp [hget] at hs
  | some symbols =>
    rw [hget] at hs
    obtain ⟨key, source, hkey, hwalk⟩ := mem_symbols.1 (h.named hget hs).1
    have hlt := h.bounded hkey
    rw [← (h.file hkey hwalk).2] at hlt
    intro heq
    rw [heq] at hlt
    exact Nat.lt_irrefl _ hlt

theorem Consistent.id_eq_iff (h : store.Consistent) {key : List SourcePath.Component}
    {source : SourceFile} (hkey : store.files.get? key = some source) :
    ∀ entry ∈ store.files.entries, entry.2.id = source.id ↔ entry.1 = key := by
  intro entry hentry
  have hget := Table.get?_eq_some_iff.2 hentry
  refine ⟨h.distinct hget hkey, ?_⟩
  intro heq
  rw [heq, hkey] at hget
  cases hget
  rfl

theorem Consistent.id_eq_idFor_iff (h : store.Consistent) (path : SourcePath) :
    ∀ entry ∈ store.files.entries, entry.2.id = store.idFor path ↔ entry.1 = path.components := by
  intro entry hentry
  have hget := Table.get?_eq_some_iff.2 hentry
  refine ⟨h.key_of_id hget, ?_⟩
  intro heq
  rw [heq] at hget
  exact (idFor_of_get? hget).symm

end Store

namespace Catalog

variable {catalog : Catalog} {store : Store} {path : SourcePath}

/-- What a file of a store looks like in the table of files. -/
def entryOf (entry : List SourcePath.Component × SourceFile) : FileId × Listing :=
  (entry.2.id, ⟨entry.2.path, entry.2.symbols⟩)

/-- The tables hold, file by file, what the store holds. -/
structure Agrees (catalog : Catalog) (store : Store) : Prop where
  fileIds : catalog.fileIds.entries = store.files.entries.map fun entry => (entry.1, entry.2.id)
  files : catalog.files.entries = store.files.entries.map entryOf
  named : ∀ name, (catalog.byName.get? name).getD [] = store.named name
  nextFile : catalog.nextFile.toNat = store.nextFile

theorem agrees_empty : Agrees {} {} where
  fileIds := rfl
  files := rfl
  named _ := rfl
  nextFile := rfl

theorem Agrees.fileId?_eq (h : catalog.Agrees store) (path : SourcePath) :
    catalog.fileId? path = store.fileId? path := by
  unfold fileId? Store.fileId?
  cases hget : store.files.get? path.components with
  | none => exact Table.get?_none_of_image h.fileIds (fun _ _ => Iff.rfl) hget
  | some source => exact Table.get?_of_image h.fileIds (fun _ _ => Iff.rfl) hget

theorem Agrees.get?_files (h : catalog.Agrees store) (consistent : store.Consistent)
    (file : FileId) :
    catalog.files.get? file =
      (store.source? file).map fun source => ⟨source.path, source.symbols⟩ := by
  cases hsource : store.source? file with
  | none =>
    have hne := List.find?_eq_none.1 hsource
    rw [Option.map_none, Table.get?_eq_none_iff, Table.keys, h.files, List.map_map]
    intro hmem
    obtain ⟨entry, hentry, heq⟩ := List.mem_map.1 hmem
    exact hne entry.2 (List.mem_map.2 ⟨entry, hentry, rfl⟩) (decide_eq_true heq)
  | some source =>
    obtain ⟨rfl, key, hkey⟩ := consistent.source?_eq_some_iff.1 hsource
    exact Table.get?_of_image h.files (consistent.id_eq_iff hkey) hkey

/-! A load and a removal, in both. -/

/-- The path gets the id that the store gives it, and what it declared before is dropped. -/
theorem Agrees.assign?_eq (h : catalog.Agrees store) (consistent : store.Consistent)
    (path : SourcePath) (decls : List Decl) (room : store.nextFile + 1 < UInt32.size) :
    ∃ assigned, catalog.assign? path = some (store.idFor path, assigned) ∧
      assigned.fileIds = catalog.fileIds.insert path.components (store.idFor path) ∧
      assigned.files = catalog.files ∧
      (∀ name, (assigned.byName.get? name).getD [] =
        (store.named name).filter (·.location.file ≠ store.idFor path)) ∧
      assigned.nextFile.toNat = (store.load path decls).nextFile := by
  obtain ⟨source, hsource, hid, hnext⟩ | ⟨hnone, hid, hnext⟩ := store.idFor_cases path decls
  · have hfile : catalog.fileId? path = some source.id := by
      rw [h.fileId?_eq, Store.fileId?, hsource, Option.map_some]
    rw [assign?, hfile, hid]
    refine ⟨_, rfl, (Table.insert_of_get? hfile).symm, rfl, ?_, h.nextFile.trans hnext.symm⟩
    intro name
    rw [Store.getD_get?_forget, h.named]
  · have hfile : catalog.fileId? path = none := by
      rw [h.fileId?_eq, Store.fileId?, hnone, Option.map_none]
    rw [assign?, hfile]
    dsimp only
    rw [h.nextFile, if_pos room, hid]
    refine ⟨_, rfl, rfl, rfl, ?_, ?_⟩
    · intro name
      rw [h.named]
      refine (List.filter_eq_self.2 ?_).symm
      intro symbol hsymbol
      exact decide_eq_true (consistent.file_ne_of_mem_named hsymbol)
    · rw [hnext, UInt32.toNat_add, h.nextFile]
      exact Nat.mod_eq_of_lt room

theorem Agrees.load (h : catalog.Agrees store) (consistent : store.Consistent) (path : SourcePath)
    {decls : List Decl} (room : store.nextFile + 1 < UInt32.size)
    (small : Decl.countAll decls < UInt32.size) :
    ∃ later, catalog.load? path decls = some (store.idFor path, later) ∧
      later.Agrees (store.load path decls) := by
  obtain ⟨assigned, hassign, hfileIds, hfiles, hnamed, hnext⟩ :=
    h.assign?_eq consistent path decls room
  have hfreeze : Decl.freezeAll? (store.idFor path) decls 0 = some (_, _) :=
    Decl.freezeAll?_eq (by simpa using small)
  simp only [load?, hassign, Option.bind_eq_bind, Option.bind_some, hfreeze]
  refine ⟨_, rfl, ?_, ?_, ?_, hnext⟩
  · rw [hfileIds, Store.files_load]
    exact Table.entries_insert_of_image h.fileIds (fun _ _ => Iff.rfl) rfl
  · rw [hfiles, Store.files_load]
    exact Table.entries_insert_of_image h.files (consistent.id_eq_idFor_iff path) rfl
  · intro name
    rw [Store.getD_get?_registerAll, hnamed, Store.named, Store.named]
    dsimp only [Store.load]
    rw [Store.getD_get?_registerAll, Store.getD_get?_forget]
    rfl

theorem Agrees.unload (h : catalog.Agrees store) (consistent : store.Consistent)
    (path : SourcePath) :
    (catalog.unload path).1 = store.fileId? path ∧
      (catalog.unload path).2.Agrees (store.unload path) := by
  cases hfile : store.fileId? path with
  | none =>
    rw [Catalog.unload, h.fileId?_eq, Store.unload, hfile]
    exact ⟨rfl, h⟩
  | some file =>
    have hid : store.idFor path = file := by rw [Store.idFor, hfile, Option.getD_some]
    have matched := consistent.id_eq_idFor_iff path
    rw [hid] at matched
    rw [Catalog.unload, h.fileId?_eq, Store.unload, hfile]
    refine ⟨rfl, ?_, ?_, ?_, h.nextFile⟩
    · exact Table.entries_erase_of_image h.fileIds fun _ _ => Iff.rfl
    · exact Table.entries_erase_of_image h.files matched
    · intro name
      rw [Store.named]
      dsimp only
      rw [Store.getD_get?_forget, Store.getD_get?_forget, h.named, Store.named]

/-! What can be asked. -/

theorem Agrees.symbols_eq (h : catalog.Agrees store) : catalog.symbols = store.symbols := by
  rw [symbols, Table.values, h.files, Store.symbols, Store.sources, Table.values, List.map_map,
    List.flatMap_map, List.flatMap_map]
  rfl

theorem Agrees.place_eq (h : catalog.Agrees store) (symbol : Symbol) :
    catalog.place symbol = store.place symbol := by
  rw [place, Table.keys, h.files, Store.place, Store.sources, Table.values, List.map_map,
    List.findIdx_map, List.findIdx_map]
  rfl

theorem Agrees.precedes_iff (h : catalog.Agrees store) (a b : Symbol) :
    catalog.Precedes a b ↔ store.Precedes a b := by
  rw [Precedes, Store.Precedes, h.place_eq, h.place_eq]

/-- Choosing from the front keeps the same symbol as choosing from the back. -/
theorem Agrees.foldl_prefer (h : catalog.Agrees store) (symbols : List Symbol) (best : Symbol) :
    symbols.foldl catalog.prefer (some best) = store.earliest (best :: symbols) := by
  induction symbols generalizing best with
  | nil => rfl
  | cons first rest ih =>
    have hprefer : catalog.prefer (some best) first =
        some (if store.Precedes first best then first else best) := by
      simp only [prefer, h.precedes_iff]
      split <;> rfl
    rw [List.foldl_cons, hprefer, ih, Store.earliest, Store.earliest, Store.earliest]
    cases store.earliest rest with
    | none => by_cases hfirst : store.Precedes first best <;> simp [hfirst]
    | some other =>
      unfold Store.Precedes
      grind

theorem Agrees.lookup_eq (h : catalog.Agrees store) (name : String) :
    catalog.lookup name = store.lookup name := by
  rw [lookup, h.named, Store.lookup, ← Store.named]
  cases store.named name with
  | nil => rfl
  | cons first rest => exact h.foldl_prefer rest first

end Catalog

/-! Runs of loads and removals, with the ids they answer. -/

inductive Change where
  | load (path : SourcePath) (decls : List Decl)
  | unload (path : SourcePath)

/-- The declarations of a file are fewer than 32 bits can count. -/
def Change.Small : Change → Prop
  | load _ decls => Decl.countAll decls < UInt32.size
  | unload _ => True

namespace Store

def change (store : Store) : Change → Option FileId × Store
  | .load path decls => (some (store.idFor path), store.load path decls)
  | .unload path => (store.fileId? path, store.unload path)

def changeAll : Store → List Change → List (Option FileId) × Store
  | store, [] => ([], store)
  | store, change :: rest =>
    let (answer, later) := store.change change
    let (answers, last) := changeAll later rest
    (answer :: answers, last)

theorem Reached.change {store : Store} (h : Reached store) (change : Change) :
    Reached (store.change change).2 := by
  cases change with
  | load path decls => exact .load path decls h
  | unload path => exact .unload path h

theorem nextFile_change_le (store : Store) (change : Change) :
    (store.change change).2.nextFile ≤ store.nextFile + 1 := by
  cases change with
  | load path decls =>
    obtain ⟨-, -, -, hnext⟩ | ⟨-, -, hnext⟩ := store.idFor_cases path decls
    · exact hnext.le.trans (Nat.le_succ _)
    · exact hnext.le
  | unload path => exact (store.nextFile_unload path).le.trans (Nat.le_succ _)

end Store

namespace Catalog

variable {catalog : Catalog} {store : Store}

def change? (catalog : Catalog) : Change → Option (Option FileId × Catalog)
  | .load path decls => (catalog.load? path decls).map fun (file, later) => (some file, later)
  | .unload path => some (catalog.unload path)

def changeAll? : Catalog → List Change → Option (List (Option FileId) × Catalog)
  | catalog, [] => some ([], catalog)
  | catalog, change :: rest => do
    let (answer, later) ← catalog.change? change
    let (answers, last) ← changeAll? later rest
    return (answer :: answers, last)

theorem Agrees.change (h : catalog.Agrees store) (consistent : store.Consistent) {change : Change}
    (room : store.nextFile + 1 < UInt32.size) (small : change.Small) :
    ∃ later, catalog.change? change = some ((store.change change).1, later) ∧
      later.Agrees (store.change change).2 := by
  cases change with
  | load path decls =>
    obtain ⟨later, hload, hagrees⟩ := h.load consistent path room small
    exact ⟨later, by rw [change?, hload]; rfl, hagrees⟩
  | unload path =>
    obtain ⟨hanswer, hagrees⟩ := h.unload consistent path
    exact ⟨(catalog.unload path).2, by rw [change?, Store.change, ← hanswer], hagrees⟩

/-- A change takes one id at most, so a run of them takes no more than it is long. -/
theorem Agrees.changeAll (h : catalog.Agrees store) (reached : store.Reached)
    {changes : List Change} (room : store.nextFile + changes.length < UInt32.size)
    (small : ∀ change ∈ changes, change.Small) :
    (store.changeAll changes).2.Reached ∧
      ∃ last, catalog.changeAll? changes = some ((store.changeAll changes).1, last) ∧
        last.Agrees (store.changeAll changes).2 := by
  induction changes generalizing catalog store with
  | nil => exact ⟨reached, catalog, rfl, h⟩
  | cons change rest ih =>
    rw [List.length_cons] at room
    have hnext := store.nextFile_change_le change
    obtain ⟨later, hchange, hlater⟩ :=
      h.change reached.consistent (by omega) (small change List.mem_cons_self)
    obtain ⟨hlast, last, hrest, hagrees⟩ := ih hlater (reached.change change) (by omega)
      fun other hother => small other (List.mem_cons_of_mem _ hother)
    refine ⟨hlast, last, ?_, hagrees⟩
    rw [changeAll?, hchange, Option.bind_eq_bind, Option.bind_some]
    dsimp only
    rw [hrest]
    rfl

/-- As long as 32 bits suffice to count the files and the declarations of each, tables that are
kept apart answer what a store answers. The two tables then have the same files: a path leads to
an id exactly if that file was last loaded under this path. -/
theorem answers_of_changes {changes : List Change} (room : changes.length < UInt32.size)
    (small : ∀ change ∈ changes, change.Small) :
    ∃ catalog, changeAll? {} changes = some ((Store.changeAll {} changes).1, catalog) ∧
      (∀ path file, catalog.fileId? path = some file ↔
        ∃ listing, catalog.files.get? file = some listing ∧
          listing.path.components = path.components) ∧
      catalog.fileIds.size = catalog.files.size ∧
      let store := (Store.changeAll {} changes).2
      catalog.nextFile.toNat = store.nextFile ∧
      (∀ path, catalog.fileId? path = store.fileId? path) ∧
      (∀ file, catalog.path? file = store.path? file) ∧
      (∀ file, catalog.symbolsIn file = store.symbolsIn file) ∧
      (∀ name, catalog.lookup name = store.lookup name) ∧
      catalog.definitions = store.definitions ∧
      catalog.topCandidates = store.topCandidates ∧
      catalog.fileCount = store.fileCount ∧ catalog.isEmpty = store.isEmpty := by
  obtain ⟨reached, catalog, hchanges, h⟩ :=
    agrees_empty.changeAll .empty (by simpa using room) small
  have consistent := reached.consistent
  have hsize : catalog.files.size = (Store.changeAll {} changes).2.files.size := by
    rw [← Table.length_entries, h.files, List.length_map, Table.length_entries]
  have hdefinitions : catalog.definitions = (Store.changeAll {} changes).2.definitions := by
    rw [definitions, h.symbols_eq, Store.definitions]
  refine ⟨catalog, hchanges, ?agree, ?sizes, h.nextFile, h.fileId?_eq, ?path, ?symbols,
    h.lookup_eq, hdefinitions, ?candidates, hsize, ?empty⟩
  case agree =>
    intro path file
    rw [h.fileId?_eq, reached.fileId?_eq_some_iff, h.get?_files consistent]
    simp
  case sizes =>
    rw [hsize, ← Table.length_entries, h.fileIds, List.length_map, Table.length_entries]
  case path =>
    intro file
    rw [Catalog.path?, h.get?_files consistent, Option.map_map, Store.path?]
    rfl
  case symbols =>
    intro file
    rw [symbolsIn, h.get?_files consistent, Option.map_map, Store.symbolsIn]
    rfl
  case candidates =>
    rw [topCandidates, hdefinitions, instantiated, h.symbols_eq, ← Store.instantiated,
      Store.topCandidates]
  case empty =>
    rw [isEmpty, Table.isEmpty_eq, hsize, Store.isEmpty, Table.isEmpty_eq]

/-- The last number is never given out, as the counter could not go past it. -/
example : (load? { nextFile := 4294967295 } ⟨"a.v"⟩ []).isNone := by decide +kernel

end Catalog

end DesignHierarchy
