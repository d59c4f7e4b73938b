import DesignHierarchy.Proofs.LoadOrder

/-! Loads and unloads one after the other. The table of names remembers in which
order the files came and went, but no question shows that order: a store answers
from its files, which know nothing of earlier versions or of files that are gone. -/
namespace DesignHierarchy

namespace Table

variable {κ ν : Type} [DecidableEq κ] {table : Table κ ν} {key other : κ}

/-- An entry with another value, if it is the one under this key. -/
def revalue (key : κ) (value : ν) (entry : κ × ν) : κ × ν :=
  if entry.1 = key then (entry.1, value) else entry

@[simp] theorem fst_revalue (key : κ) (value : ν) (entry : κ × ν) :
    (revalue key value entry).1 = entry.1 := by
  unfold revalue
  split <;> rfl

theorem revalue_revalue (key : κ) (v w : ν) (entry : κ × ν) :
    revalue key w (revalue key v entry) = revalue key w entry := by
  by_cases h : entry.1 = key <;> simp [revalue, h]

theorem revalue_comm (h : key ≠ other) (v w : ν) (entry : κ × ν) :
    revalue other w (revalue key v entry) = revalue key v (revalue other w entry) := by
  by_cases hk : entry.1 = key
  · simp [revalue, hk, h]
  · by_cases ho : entry.1 = other <;> simp [revalue, hk, ho, h.symm]

/-- As keys do not repeat, replacing the first value under a key replaces all of them. -/
theorem replace_eq_map {entries : List (κ × ν)} (nodup : (entries.map (·.1)).Nodup) (key : κ)
    (value : ν) : replace key value entries = entries.map (revalue key value) := by
  induction entries with
  | nil => rfl
  | cons entry rest ih =>
    rw [List.map_cons, List.nodup_cons] at nodup
    rw [replace, List.map_cons]
    by_cases h : entry.1 = key
    · have hrest : rest.map (revalue key value) = rest.map id := by
        apply List.map_congr_left
        intro later hlater
        have hne : later.1 ≠ key := by
          intro heq
          exact nodup.1 (List.mem_map.2 ⟨later, hlater, heq.trans h.symm⟩)
        simp [revalue, hne]
      rw [if_pos h, hrest, List.map_id]
      simp [revalue, h]
    · rw [if_neg h, ih nodup.2]
      simp [revalue, h]

theorem newest_insert_eq_map {old : ν} (h : table.get? key = some old) (value : ν) :
    (table.insert key value).newest = table.newest.map (revalue key value) := by
  rw [newest_insert_of_get? h, replace_eq_map table.nodup_newest]

theorem newest_erase (table : Table κ ν) (key : κ) :
    (table.erase key).newest = table.newest.filter fun entry => entry.1 ≠ key := rfl

omit [DecidableEq κ] in
theorem eq_of_newest {s t : Table κ ν} (h : s.newest = t.newest) : s = t :=
  ext (congrArg List.reverse h)

/-- The later value counts, and the key keeps the place it first came to. -/
theorem insert_insert (table : Table κ ν) (key : κ) (v w : ν) :
    (table.insert key v).insert key w = table.insert key w := by
  have hv : (table.insert key v).get? key = some v := by simp
  apply eq_of_newest
  cases h : table.get? key with
  | none =>
    rw [newest_insert_of_get? hv, newest_insert_of_get?_none h, newest_insert_of_get?_none h]
    simp [replace]
  | some old =>
    rw [newest_insert_eq_map hv, newest_insert_eq_map h, newest_insert_eq_map h, List.map_map]
    exact List.map_congr_left fun entry _ => revalue_revalue key v w entry

theorem insert_comm (hne : key ≠ other) {a b : ν} (hk : table.get? key = some a)
    (ho : table.get? other = some b) (v w : ν) :
    (table.insert key v).insert other w = (table.insert other w).insert key v := by
  have ho' : (table.insert key v).get? other = some b := by simp [hne, ho]
  have hk' : (table.insert other w).get? key = some a := by simp [hne.symm, hk]
  apply eq_of_newest
  rw [newest_insert_eq_map ho', newest_insert_eq_map hk, newest_insert_eq_map hk',
    newest_insert_eq_map ho, List.map_map, List.map_map]
  exact List.map_congr_left fun entry _ => revalue_comm hne v w entry

theorem erase_insert_of_ne (hne : key ≠ other) {a : ν} (hk : table.get? key = some a) (v : ν) :
    (table.insert key v).erase other = (table.erase other).insert key v := by
  have hk' : (table.erase other).get? key = some a := by simp [hne.symm, hk]
  apply eq_of_newest
  rw [newest_insert_eq_map hk', newest_erase, newest_erase, newest_insert_eq_map hk,
    List.filter_map]
  congr 2
  funext entry
  simp

theorem erase_of_get?_none (h : table.get? key = none) : table.erase key = table := by
  apply eq_of_newest
  apply List.filter_eq_self.2
  intro entry hentry
  have hne : entry.1 ≠ key := by
    intro heq
    exact find?_eq_none_iff.1 h (List.mem_map.2 ⟨entry, hentry, heq⟩)
  simpa using hne

theorem erase_insert_self (h : table.get? key = none) (v : ν) :
    (table.insert key v).erase key = table := by
  have hnewest : ((table.insert key v).erase key).newest = (table.erase key).newest := by
    rw [newest_erase, newest_erase, newest_insert_of_get?_none h,
      List.filter_cons_of_neg (by simp)]
  rw [eq_of_newest hnewest, erase_of_get?_none h]

end Table

namespace Store

variable {store a b : Store}

/-- Nothing that can be asked of a store tells the two apart. -/
structure SameAnswers (a b : Store) : Prop where
  lookup : ∀ name, a.lookup name = b.lookup name
  definitions : a.definitions = b.definitions
  topCandidates : a.topCandidates = b.topCandidates
  symbolsIn : ∀ file, a.symbolsIn file = b.symbolsIn file
  path? : ∀ file, a.path? file = b.path? file
  fileId? : ∀ path, a.fileId? path = b.fileId? path
  fileCount : a.fileCount = b.fileCount
  isEmpty : a.isEmpty = b.isEmpty

/-- What a name stands for depends on the loaded definitions of that name only. -/
theorem Reached.lookup_congr (ha : Reached a) (hb : Reached b) {name : String}
    (h : ∀ symbol, symbol.name = name → (symbol ∈ a.definitions ↔ symbol ∈ b.definitions)) :
    a.lookup name = b.lookup name := by
  apply Option.ext
  intro symbol
  rw [ha.lookup_eq_some_iff, hb.lookup_eq_some_iff]
  constructor
  · intro hfirst
    refine ⟨(h symbol hfirst.name_eq).1 hfirst.declared, hfirst.name_eq, ?_⟩
    intro other hother hname
    exact hfirst.first other ((h other hname).2 hother) hname
  · intro hfirst
    refine ⟨(h symbol hfirst.name_eq).2 hfirst.declared, hfirst.name_eq, ?_⟩
    intro other hother hname
    exact hfirst.first other ((h other hname).1 hother) hname

/-- Every answer is one of the files; how the table of names came about does not matter. -/
theorem Reached.sameAnswers (ha : Reached a) (hb : Reached b) (h : a.files = b.files) :
    SameAnswers a b := by
  have hsources : a.sources = b.sources := by rw [sources, h, sources]
  have hsymbols : a.symbols = b.symbols := by rw [symbols, hsources, symbols]
  have hdefinitions : a.definitions = b.definitions := by rw [definitions, hsymbols, definitions]
  have hsource : ∀ file, a.source? file = b.source? file := by
    intro file
    rw [source?, hsources, source?]
  exact {
    lookup := fun name => ha.lookup_congr hb fun _ _ => by rw [hdefinitions]
    definitions := hdefinitions
    topCandidates := by
      rw [topCandidates, hdefinitions, instantiated, hsymbols, ← instantiated, topCandidates]
    symbolsIn := fun file => by rw [symbolsIn, hsource, symbolsIn]
    path? := fun file => by rw [Store.path?, hsource, Store.path?]
    fileId? := fun path => by rw [Store.fileId?, h, Store.fileId?]
    fileCount := by rw [Store.fileCount, h, Store.fileCount]
    isEmpty := by rw [Store.isEmpty, h, Store.isEmpty] }

/-- The file that a load puts under a path. -/
def fileOf (file : FileId) (path : SourcePath) (decls : List Decl) : SourceFile :=
  ⟨file, path, (Decl.freezeAll file decls 0).1⟩

theorem files_load (store : Store) (path : SourcePath) (decls : List Decl) :
    (store.load path decls).files =
      store.files.insert path.components (fileOf (store.idFor path) path decls) := rfl

theorem files_unload (store : Store) (path : SourcePath) :
    (store.unload path).files = store.files.erase path.components := by
  unfold unload
  split
  · rename_i hnone
    exact (Table.erase_of_get?_none (Option.map_eq_none_iff.1 hnone)).symm
  · rfl

/-- The id that a path has is known from the file there. -/
theorem idFor_congr {p q : SourcePath} {source : SourceFile}
    (ha : a.files.get? p.components = some source) (hb : b.files.get? q.components = some source) :
    a.idFor p = b.idFor q := by
  rw [idFor_of_get? ha, idFor_of_get? hb]

theorem exists_get?_of_isSome {path : SourcePath} (h : (store.fileId? path).isSome) :
    ∃ source, store.files.get? path.components = some source := by
  rw [fileId?, Option.isSome_map] at h
  exact Option.isSome_iff_exists.1 h

/-- The other spelling of a path gets the id that a load of the first one kept or gave out. -/
theorem idFor_load {p q : SourcePath} (hpq : p.components = q.components) (decls : List Decl) :
    (store.load p decls).idFor q = store.idFor q := by
  have hget : (store.load p decls).files.get? q.components =
      some (fileOf (store.idFor p) p decls) := by
    rw [files_load, Table.get?_insert, if_pos hpq]
  rw [idFor_of_get? hget]
  simp only [fileOf, idFor, fileId?, hpq]

theorem files_load_load {p q : SourcePath} (hpq : p.components = q.components)
    (d e : List Decl) : ((store.load p d).load q e).files = (store.load q e).files := by
  rw [files_load, files_load, files_load, idFor_load hpq, hpq, Table.insert_insert]

section Apart

variable {p q : SourcePath} (hpq : p.components ≠ q.components)
  (hp : (store.fileId? p).isSome) (hq : (store.fileId? q).isSome)

include hpq hp hq

theorem files_load_comm (d e : List Decl) :
    ((store.load p d).load q e).files = ((store.load q e).load p d).files := by
  obtain ⟨source, hsource⟩ := exists_get?_of_isSome hp
  obtain ⟨other, hother⟩ := exists_get?_of_isSome hq
  have hidq : (store.load p d).idFor q = store.idFor q :=
    idFor_congr (by rw [files_load, Table.get?_insert, if_neg hpq, hother]) hother
  have hidp : (store.load q e).idFor p = store.idFor p :=
    idFor_congr (by rw [files_load, Table.get?_insert, if_neg hpq.symm, hsource]) hsource
  rw [files_load, files_load, files_load, files_load, hidq, hidp]
  exact Table.insert_comm hpq hsource hother _ _

omit hq in
theorem files_unload_load (d : List Decl) :
    ((store.load p d).unload q).files = ((store.unload q).load p d).files := by
  obtain ⟨source, hsource⟩ := exists_get?_of_isSome hp
  have hidp : (store.unload q).idFor p = store.idFor p :=
    idFor_congr (by rw [files_unload, Table.get?_erase, if_neg hpq.symm, hsource]) hsource
  rw [files_unload, files_load, files_load, files_unload, hidp]
  exact Table.erase_insert_of_ne hpq hsource _

end Apart

theorem files_unload_load_self {p q : SourcePath} (hpq : p.components = q.components)
    (new : store.fileId? p = none) (d : List Decl) :
    ((store.load p d).unload q).files = store.files := by
  rw [files_unload, files_load, ← hpq]
  exact Table.erase_insert_self (Option.map_eq_none_iff.1 new) _

theorem loaded?_unload (store : Store) (path : SourcePath) (key : List SourcePath.Component) :
    (store.unload path).loaded? key =
      if path.components = key then none else store.loaded? key := by
  unfold loaded?
  rw [files_unload, Table.get?_erase]
  split <;> rfl

/-- A file that does not declare a name has no say in what the name stands for. -/
theorem lookup_of_silent (ha : Reached a) (hb : Reached b) {key : List SourcePath.Component}
    {name : String} (others : ∀ other, key ≠ other → a.loaded? other = b.loaded? other)
    (silent : ∀ file decls, a.loaded? key = some (file, decls) → name ∉ Decl.definesAll decls)
    (silent' : ∀ file decls, b.loaded? key = some (file, decls) → name ∉ Decl.definesAll decls) :
    a.lookup name = b.lookup name := by
  have hdeclares : ∀ {file decls} {symbol : Symbol}, symbol.name = name →
      symbol ∈ (Symbol.walkAll (Decl.freezeAll file decls 0).1).filter (·.isDefinition) →
      name ∈ Decl.definesAll decls := by
    intro file decls symbol hname hs
    rw [Decl.definesAll_eq file decls 0, ← hname]
    exact List.mem_map_of_mem hs
  apply ha.lookup_congr hb
  intro symbol hname
  rw [ha.consistent.mem_definitions_iff, hb.consistent.mem_definitions_iff]
  constructor
  · rintro ⟨other, file, decls, hother, hs⟩
    have hne : key ≠ other := by
      rintro rfl
      exact silent file decls hother (hdeclares hname hs)
    exact ⟨other, file, decls, by rw [← others other hne, hother], hs⟩
  · rintro ⟨other, file, decls, hother, hs⟩
    have hne : key ≠ other := by
      rintro rfl
      exact silent' file decls hother (hdeclares hname hs)
    exact ⟨other, file, decls, by rw [others other hne, hother], hs⟩

/-- Loads and unloads compose as if a store were nothing but its files: of two loads of one file the
later one counts, and changes of different files can trade places. Two spellings of a path name one
file. -/
theorem answers_of_reloads (reached : Reached store) :
    (∀ p q d e, p.components = q.components →
      SameAnswers ((store.load p d).load q e) (store.load q e)) ∧
    (∀ p q d e, p.components ≠ q.components →
      (store.fileId? p).isSome → (store.fileId? q).isSome →
      SameAnswers ((store.load p d).load q e) ((store.load q e).load p d) ∧
      SameAnswers ((store.load p d).unload q) ((store.unload q).load p d)) ∧
    (∀ p q d, p.components = q.components → store.fileId? p = none →
      SameAnswers ((store.load p d).unload q) store) ∧
    ∀ p name, (∀ file old, store.loaded? p.components = some (file, old) →
        name ∉ Decl.definesAll old) →
      (∀ d, name ∉ Decl.definesAll d → (store.load p d).lookup name = store.lookup name) ∧
      (store.unload p).lookup name = store.lookup name := by
  refine ⟨?_, ?_, ?_, ?_⟩
  · intro p q d e hpq
    exact Reached.sameAnswers (.load q e (.load p d reached)) (.load q e reached)
      (files_load_load hpq d e)
  · intro p q d e hpq hp hq
    exact ⟨Reached.sameAnswers (.load q e (.load p d reached)) (.load p d (.load q e reached))
        (files_load_comm hpq hp hq d e),
      Reached.sameAnswers (.unload q (.load p d reached)) (.load p d (.unload q reached))
        (files_unload_load hpq hp d)⟩
  · intro p q d hpq new
    exact Reached.sameAnswers (.unload q (.load p d reached)) reached
      (files_unload_load_self hpq new d)
  · intro p name silent
    refine ⟨fun d hd => ?_, ?_⟩
    · apply lookup_of_silent (.load p d reached) reached _ _ silent
      · intro other hne
        rw [loaded?_load, if_neg hne]
      · intro file decls hload
        rw [loaded?_load, if_pos rfl] at hload
        cases hload
        exact hd
    · apply lookup_of_silent (.unload p reached) reached _ _ silent
      · intro other hne
        rw [loaded?_unload, if_neg hne]
      · intro file decls hload
        rw [loaded?_unload, if_pos rfl] at hload
        cases hload

/-- Two files declare one name, and their reloads leave the table of names in different orders. -/
theorem answers_of_reloads_shared :
    let packed : List Decl :=
      [{ name := "p", kind := .package, children := [{ name := "m", kind := .module }] }]
    let bare : List Decl := [{ name := "m", kind := .module }, { name := "n", kind := .interface }]
    let store := (Store.load {} ⟨"a.v"⟩ packed).load ⟨"b.v"⟩ bare
    let s := (store.load ⟨"a.v"⟩ bare).load ⟨"b.v"⟩ packed
    let t := (store.load ⟨"b.v"⟩ packed).load ⟨"a.v"⟩ bare
    (s.named "m").map (·.id) = [⟨⟨0⟩, 0⟩, ⟨⟨1⟩, 1⟩] ∧
      (t.named "m").map (·.id) = [⟨⟨1⟩, 1⟩, ⟨⟨0⟩, 0⟩] ∧ SameAnswers s t ∧
      SameAnswers ((store.load ⟨"lib/c.v"⟩ packed).load ⟨"lib//c.v"⟩ bare)
        (store.load ⟨"lib//c.v"⟩ bare) ∧
      SameAnswers ((store.load ⟨"lib/c.v"⟩ bare).unload ⟨"lib//c.v"⟩) store ∧
      (store.load ⟨"a.v"⟩ []).lookup "n" = store.lookup "n" := by
  intro packed bare store s t
  have reached : Reached store := .load _ _ (.load _ _ .empty)
  obtain ⟨again, trade, undone, silent⟩ := answers_of_reloads reached
  have hlib : (SourcePath.mk "lib/c.v").components = (SourcePath.mk "lib//c.v").components := by
    decide +kernel
  have hold : ∀ file old, store.loaded? (SourcePath.mk "a.v").components = some (file, old) →
      "n" ∉ Decl.definesAll old := by
    have hloaded : store.loaded? (SourcePath.mk "a.v").components = some (⟨0⟩, packed) := by
      decide +kernel
    intro file old hfile
    rw [hloaded] at hfile
    cases hfile
    decide +kernel
  exact ⟨by decide +kernel, by decide +kernel,
    (trade ⟨"a.v"⟩ ⟨"b.v"⟩ bare packed (by decide +kernel) (by decide +kernel)
      (by decide +kernel)).1,
    again _ _ packed bare hlib, undone _ _ bare hlib (by decide +kernel),
    (silent ⟨"a.v"⟩ "n" hold).1 [] (by decide +kernel)⟩

end Store

end DesignHierarchy
