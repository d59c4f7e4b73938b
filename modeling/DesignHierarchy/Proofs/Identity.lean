import DesignHierarchy.Proofs.Reloading
import DesignHierarchy.Workspace.Basic

/-! Who is who among the loaded files. A path that is loaded keeps the number of
its file, any other path gets a number that no file had before, and a symbol
bears the number of its file. So an id means one symbol at a time, and nothing
at all once its file has been removed. -/
namespace DesignHierarchy

namespace Store

variable {store : Store} {path : SourcePath} {file : FileId}

/-- A file stands under the path that it was last spelled with. -/
theorem Reached.components_path (h : Reached store) {key : List SourcePath.Component}
    {source : SourceFile} (hkey : store.files.get? key = some source) :
    source.path.components = key := by
  induction h generalizing key source with
  | empty => simp at hkey
  | load path decls _ ih =>
    rw [files_load, Table.get?_insert] at hkey
    split at hkey
    · rename_i heq
      cases hkey
      exact heq
    · exact ih hkey
  | unload path _ ih =>
    rw [files_unload, Table.get?_erase] at hkey
    split at hkey
    · cases hkey
    · exact ih hkey

theorem Consistent.source?_eq_some_iff (h : store.Consistent) {source : SourceFile} :
    store.source? file = some source ↔
      source.id = file ∧ ∃ key, store.files.get? key = some source := by
  unfold source? sources
  constructor
  · intro hfind
    exact ⟨by simpa using List.find?_some hfind,
      Table.mem_values.1 (List.mem_of_find?_eq_some hfind)⟩
  · rintro ⟨rfl, key, hkey⟩
    cases hfind : store.files.values.find? (·.id = source.id) with
    | none =>
      have hne := List.find?_eq_none.1 hfind source (Table.mem_values_of_get? hkey)
      exact absurd (decide_eq_true rfl) hne
    | some found =>
      obtain ⟨other, hother⟩ := Table.mem_values.1 (List.mem_of_find?_eq_some hfind)
      have hid : found.id = source.id := by simpa using List.find?_some hfind
      cases h.distinct hother hkey hid
      rw [← hother, hkey]

/-- The two ways to a file, by its path and by its number, lead to the same one. -/
theorem Reached.fileId?_eq_some_iff (h : Reached store) :
    store.fileId? path = some file ↔
      ∃ source, store.source? file = some source ∧ source.path.components = path.components := by
  simp only [h.consistent.source?_eq_some_iff, fileId?, Option.map_eq_some_iff]
  constructor
  · rintro ⟨source, hkey, rfl⟩
    exact ⟨source, ⟨rfl, _, hkey⟩, h.components_path hkey⟩
  · rintro ⟨source, ⟨rfl, key, hkey⟩, hpath⟩
    rw [← hpath, h.components_path hkey]
    exact ⟨source, hkey, rfl⟩

theorem Consistent.components_of_fileId? (h : store.Consistent) {p q : SourcePath}
    (hp : store.fileId? p = some file) (hq : store.fileId? q = some file) :
    p.components = q.components := by
  obtain ⟨source, hsource, rfl⟩ := Option.map_eq_some_iff.1 hp
  obtain ⟨other, hother, hid⟩ := Option.map_eq_some_iff.1 hq
  exact h.distinct hsource hother hid.symm

theorem Reached.nodup_ids (h : Reached store) : (store.symbols.map (·.id)).Nodup := by
  apply List.pairwise_map.2
  exact (ascending_symbols h.consistent h.ordered).imp fun hbefore => hbefore.ne

/-- A symbol is found in the file whose number it bears, and in no other. -/
theorem Consistent.mem_symbolsIn (h : store.Consistent) {symbol : Symbol} :
    symbol ∈ Symbol.walkAll (store.symbolsIn file) ↔
      symbol ∈ store.symbols ∧ symbol.id.file = file := by
  unfold symbolsIn
  constructor
  · intro hs
    cases hsource : store.source? file with
    | none => simp [hsource, Symbol.walkAll] at hs
    | some source =>
      obtain ⟨rfl, key, hkey⟩ := h.source?_eq_some_iff.1 hsource
      rw [hsource] at hs
      exact ⟨mem_symbols.2 ⟨key, source, hkey, hs⟩, (h.file hkey hs).1⟩
  · rintro ⟨hs, rfl⟩
    obtain ⟨key, source, hkey, hs⟩ := mem_symbols.1 hs
    have hsource := h.source?_eq_some_iff.2 ⟨(h.file hkey hs).1.symm, key, hkey⟩
    rw [hsource]
    exact hs

theorem Consistent.location_file (h : store.Consistent) {symbol : Symbol}
    (hs : symbol ∈ store.symbols) : symbol.location.file = symbol.id.file := by
  obtain ⟨key, source, hkey, hs⟩ := mem_symbols.1 hs
  rw [(h.file hkey hs).1, (h.file hkey hs).2]

/-- A load keeps the number of a file, or takes the next one. -/
theorem idFor_cases (store : Store) (path : SourcePath) (decls : List Decl) :
    (∃ source, store.files.get? path.components = some source ∧
      store.idFor path = source.id ∧ (store.load path decls).nextFile = store.nextFile) ∨
    store.files.get? path.components = none ∧ store.idFor path = ⟨store.nextFile⟩ ∧
      (store.load path decls).nextFile = store.nextFile + 1 := by
  rw [nextFile_load, loaded?, Option.isSome_map]
  cases hget : store.files.get? path.components with
  | none => exact .inr ⟨rfl, idFor_of_get?_none hget, rfl⟩
  | some source => exact .inl ⟨source, rfl, idFor_of_get? hget, rfl⟩

theorem nextFile_unload (store : Store) (path : SourcePath) :
    (store.unload path).nextFile = store.nextFile := by
  unfold unload
  split <;> rfl

/-- The number was given out, and no loaded file has it any more. -/
structure Gone (file : FileId) (store : Store) : Prop where
  used : file.index < store.nextFile
  absent : ∀ {key source}, store.files.get? key = some source → source.id ≠ file

theorem Consistent.gone_unload (h : store.Consistent) (loaded : store.fileId? path = some file) :
    Gone file (store.unload path) := by
  obtain ⟨source, hsource, rfl⟩ := Option.map_eq_some_iff.1 loaded
  refine ⟨by rw [nextFile_unload]; exact h.bounded hsource, ?_⟩
  intro key other hkey hid
  rw [files_unload, Table.get?_erase] at hkey
  split at hkey
  · cases hkey
  · rename_i hne
    exact hne (h.distinct hsource hkey hid.symm)

theorem Gone.idFor_ne (h : Gone file store) (path : SourcePath) : store.idFor path ≠ file := by
  obtain ⟨source, hsource, hid, -⟩ | ⟨-, hid, -⟩ := store.idFor_cases path []
  · rw [hid]
    exact h.absent hsource
  · rintro rfl
    have hlt := h.used
    rw [hid] at hlt
    exact Nat.lt_irrefl _ hlt

theorem Gone.load (h : Gone file store) (path : SourcePath) (decls : List Decl) :
    Gone file (store.load path decls) where
  used := by
    have hlt := h.used
    obtain ⟨-, -, -, hnext⟩ | ⟨-, -, hnext⟩ := store.idFor_cases path decls <;> omega
  absent := by
    intro key source hkey
    rw [files_load, Table.get?_insert] at hkey
    split at hkey
    · cases hkey
      exact h.idFor_ne path
    · exact h.absent hkey

theorem Gone.unload (h : Gone file store) (path : SourcePath) : Gone file (store.unload path) where
  used := by
    rw [nextFile_unload]
    exact h.used
  absent := by
    intro key source hkey
    rw [files_unload, Table.get?_erase] at hkey
    split at hkey
    · cases hkey
    · exact h.absent hkey

theorem Gone.file_ne (h : Gone file store) (consistent : store.Consistent) {symbol : Symbol}
    (hs : symbol ∈ store.symbols) : symbol.id.file ≠ file := by
  obtain ⟨key, source, hkey, hs⟩ := mem_symbols.1 hs
  rw [(consistent.file hkey hs).1]
  exact h.absent hkey

end Store

namespace Workspace

variable {w t : Workspace} {path : SourcePath} {file : FileId} {given later : List FileId}

@[simp] theorem value_load (w : Workspace) (path : SourcePath) (decls : List Decl) :
    ((load path decls).run w).value = w.store.idFor path := rfl

@[simp] theorem store_load (w : Workspace) (path : SourcePath) (decls : List Decl) :
    ((load path decls).run w).state.store = w.store.load path decls := rfl

@[simp] theorem value_unload (w : Workspace) (path : SourcePath) :
    ((unload path).run w).value = w.store.fileId? path := rfl

@[simp] theorem store_unload (w : Workspace) (path : SourcePath) :
    ((unload path).run w).state.store = w.store.unload path := rfl

/-- Loads and removals lead from one workspace to another, and answer with these ids on the way. -/
inductive Leads (w : Workspace) : List FileId → Workspace → Prop
  | refl : Leads w [] w
  | load {given : List FileId} {t : Workspace} (path : SourcePath) (decls : List Decl)
      (before : Leads w given t) :
      Leads w (given ++ [((Workspace.load path decls).run t).value])
        ((Workspace.load path decls).run t).state
  | unload {given : List FileId} {t : Workspace} (path : SourcePath) (before : Leads w given t) :
      Leads w (given ++ ((Workspace.unload path).run t).value.toList)
        ((Workspace.unload path).run t).state

theorem Leads.reached (h : Leads w given t) (reached : w.store.Reached) : t.store.Reached := by
  induction h with
  | refl => exact reached
  | load path decls _ ih => exact .load path decls ih
  | unload path _ ih => exact .unload path ih

/-- The ids answered so far are the numbers below the next one, without a gap. -/
theorem Leads.mem_given (h : Leads {} given t) : file ∈ given ↔ file.index < t.store.nextFile := by
  induction h generalizing file with
  | refl => simp
  | @load given t path decls before ih =>
    have consistent := (before.reached .empty).consistent
    rw [List.mem_append, List.mem_singleton, ih, value_load, store_load]
    obtain ⟨source, hsource, hid, hnext⟩ | ⟨-, hid, hnext⟩ := t.store.idFor_cases path decls
    · have hlt := consistent.bounded hsource
      rw [hid, hnext]
      refine ⟨?_, .inl⟩
      rintro (h | rfl)
      · exact h
      · exact hlt
    · rw [hid, hnext, Nat.lt_succ_iff_lt_or_eq]
      refine or_congr_right ⟨?_, ?_⟩
      · rintro rfl
        rfl
      · intro heq
        rw [← heq]
  | @unload given t path before ih =>
    have consistent := (before.reached .empty).consistent
    rw [List.mem_append, ih, value_unload, store_unload, Store.nextFile_unload, Option.mem_toList]
    refine ⟨?_, .inl⟩
    rintro (h | h)
    · exact h
    · obtain ⟨source, hsource, rfl⟩ := Option.map_eq_some_iff.1 h
      exact consistent.bounded hsource

/-- A number that is gone stays so, and is never answered again. -/
theorem Leads.gone (h : Leads w later t) (gone : Store.Gone file w.store) :
    Store.Gone file t.store ∧ file ∉ later := by
  induction h with
  | refl => exact ⟨gone, List.not_mem_nil⟩
  | @load later t path decls _ ih =>
    obtain ⟨hgone, hlater⟩ := ih
    refine ⟨hgone.load path decls, ?_⟩
    rw [List.mem_append, List.mem_singleton, not_or]
    exact ⟨hlater, (hgone.idFor_ne path).symm⟩
  | @unload later t path _ ih =>
    obtain ⟨hgone, hlater⟩ := ih
    refine ⟨hgone.unload path, ?_⟩
    rw [List.mem_append, Option.mem_toList, not_or]
    refine ⟨hlater, ?_⟩
    intro h
    obtain ⟨source, hsource, hid⟩ := Option.map_eq_some_iff.1 h
    exact hgone.absent hsource hid

/-- In every workspace that loads and removals reach, ids tell files and symbols apart. A path that
is loaded keeps its id, and the ids of a file that was removed are never seen again. -/
theorem ids_of_changes (changes : Leads {} given w) :
    (∀ path file, w.store.fileId? path = some file ↔
      ∃ source, w.store.source? file = some source ∧
        source.path.components = path.components) ∧
    (∀ p q f g, w.store.fileId? p = some f → w.store.fileId? q = some g →
      p.components ≠ q.components → f ≠ g) ∧
    (w.store.symbols.map (·.id)).Nodup ∧
    (∀ symbol ∈ w.store.symbols, symbol.location.file = symbol.id.file ∧
      ∀ file, symbol ∈ Symbol.walkAll (w.store.symbolsIn file) ↔ file = symbol.id.file) ∧
    (∀ path decls file, w.store.fileId? path = some file →
      ((load path decls).run w).value = file) ∧
    (∀ path decls, w.store.fileId? path = none →
      ∀ file ∈ given, file.index < ((load path decls).run w).value.index) ∧
    ∀ path file, w.store.fileId? path = some file →
      ((unload path).run w).value = some file ∧
      ∀ later t, Leads ((unload path).run w).state later t →
        file ∉ later ∧ ∀ symbol ∈ t.store.symbols, symbol.id.file ≠ file := by
  have reached := changes.reached .empty
  have consistent := reached.consistent
  refine ⟨fun _ _ => reached.fileId?_eq_some_iff, ?apart, reached.nodup_ids, ?held, ?kept, ?fresh,
    ?removed⟩
  case apart =>
    rintro p q f g hp hq hne rfl
    exact hne (consistent.components_of_fileId? hp hq)
  case held =>
    intro symbol hs
    refine ⟨consistent.location_file hs, ?_⟩
    intro file
    rw [consistent.mem_symbolsIn, eq_comm]
    exact and_iff_right hs
  case kept =>
    intro path decls file hfile
    rw [value_load, Store.idFor, hfile, Option.getD_some]
  case fresh =>
    intro path decls hnone file hfile
    rw [value_load, Store.idFor, hnone, Option.getD_none]
    exact changes.mem_given.1 hfile
  case removed =>
    intro path file hfile
    refine ⟨hfile, ?_⟩
    intro later t hlater
    obtain ⟨hgone, hnever⟩ := hlater.gone (consistent.gone_unload hfile)
    have hreached := hlater.reached (.unload path reached)
    exact ⟨hnever, fun symbol hs => hgone.file_ne hreached.consistent hs⟩

/-- A file that is removed, under another spelling of its path, and loaded again: the reload keeps
the number 0, and the load after the removal gets the number 2. -/
theorem ids_of_changes_again :
    let decls : List Decl :=
      [{ name := "m", kind := .module, children := [{ name := "u", kind := .inst }] }]
    let both := ((load ⟨"b.v"⟩ decls).run ((load ⟨"lib/a.v"⟩ decls).run {}).state).state
    let rest := ((unload ⟨"lib//a.v"⟩).run both).state
    let again := (load ⟨"lib/a.v"⟩ decls).run rest
    both.store.symbols.length = 4 ∧ (both.store.symbols.map (·.id)).Nodup ∧
      ((load ⟨"lib/a.v"⟩ decls).run both).value = ⟨0⟩ ∧ again.value = ⟨2⟩ ∧
      FileId.index ⟨1⟩ < again.value.index ∧
      again.state.store.symbols.length = 4 ∧
      ∀ symbol ∈ again.state.store.symbols, symbol.id.file ≠ ⟨0⟩ := by
  intro decls both rest again
  have changes := Leads.load ⟨"b.v"⟩ decls (.load ⟨"lib/a.v"⟩ decls (@Leads.refl {}))
  have loaded : both.store.fileId? ⟨"lib//a.v"⟩ = some ⟨0⟩ := by decide +kernel
  obtain ⟨-, -, nodup, -, kept, -, removed⟩ := ids_of_changes changes
  obtain ⟨-, never⟩ := removed _ _ loaded
  obtain ⟨-, -, -, -, -, fresh, -⟩ := ids_of_changes (.unload ⟨"lib//a.v"⟩ changes)
  obtain ⟨-, gone⟩ := never _ _ (.load ⟨"lib/a.v"⟩ decls .refl)
  exact ⟨by decide +kernel, nodup, kept ⟨"lib/a.v"⟩ decls ⟨0⟩ (by decide +kernel),
    by decide +kernel, fresh ⟨"lib/a.v"⟩ decls (by decide +kernel) ⟨1⟩ (by decide +kernel),
    by decide +kernel, gone⟩

end Workspace

end DesignHierarchy
