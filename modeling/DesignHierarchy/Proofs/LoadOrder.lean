import DesignHierarchy.Proofs.Precedence
import DesignHierarchy.Proofs.Renumber
import DesignHierarchy.Proofs.ScopeGraph

/-! The order of loading. It numbers the files and decides between files that
declare the same name. Two neighbours that trade places trade numbers, so where no
name is declared in two files any other order changes numbers only. -/
namespace DesignHierarchy

namespace Decl

mutual

/-- The modules and interfaces of a declaration, itself included, at any depth. -/
def defines : Decl → List String
  | ⟨name, kind, _, _, _, children⟩ =>
    if kind.isDefinition then name :: definesAll children else definesAll children

def definesAll : List Decl → List String
  | [] => []
  | decl :: rest => decl.defines ++ definesAll rest

end

mutual

theorem defines_eq (file : FileId) : ∀ (decl : Decl) (next : Nat),
    decl.defines = ((freeze file decl next).1.walk.filter (·.isDefinition)).map (·.name)
  | ⟨name, kind, typeRef, nameSpan, fullSpan, children⟩, next => by
    rw [defines, definesAll_eq file children (next + 1), freeze, Symbol.walk_eq, List.filter_cons]
    by_cases hkind : kind.isDefinition <;> simp [Symbol.isDefinition, hkind]

/-- What a file defines, read off its symbols. -/
theorem definesAll_eq (file : FileId) : ∀ (decls : List Decl) (next : Nat),
    definesAll decls =
      ((Symbol.walkAll (freezeAll file decls next).1).filter (·.isDefinition)).map (·.name)
  | [], _ => by simp [definesAll, freezeAll, Symbol.walkAll]
  | decl :: rest, next => by
    rw [definesAll, defines_eq file decl next, definesAll_eq file rest (freeze file decl next).2,
      freezeAll, Symbol.walkAll, List.filter_append, List.map_append]

end

mutual

@[simp] theorem decl_freeze (file : FileId) : ∀ (decl : Decl) (next : Nat),
    (freeze file decl next).1.decl = decl
  | ⟨name, kind, typeRef, nameSpan, fullSpan, children⟩, next => by
    rw [freeze, Symbol.decl, declAll_freezeAll file children]

@[simp] theorem declAll_freezeAll (file : FileId) : ∀ (decls : List Decl) (next : Nat),
    Symbol.declAll (freezeAll file decls next).1 = decls
  | [], _ => by rw [freezeAll, Symbol.declAll]
  | decl :: rest, next => by
    rw [freezeAll, Symbol.declAll, decl_freeze file decl, declAll_freezeAll file rest]

end

end Decl

namespace Store

variable {store : Store}

/-- The number of a loaded file and what it declares. -/
def loaded? (store : Store) (key : List SourcePath.Component) : Option (FileId × List Decl) :=
  (store.files.get? key).map fun source => (source.id, Symbol.declAll source.symbols)

theorem fileId?_eq (store : Store) (path : SourcePath) :
    store.fileId? path = (store.loaded? path.components).map (·.1) := by
  simp [fileId?, loaded?, Function.comp_def]

theorem idFor_eq (store : Store) (path : SourcePath) :
    store.idFor path = ((store.loaded? path.components).map (·.1)).getD ⟨store.nextFile⟩ := by
  rw [idFor, fileId?_eq]

theorem loaded?_load (store : Store) (path : SourcePath) (decls : List Decl)
    (key : List SourcePath.Component) :
    (store.load path decls).loaded? key =
      if path.components = key then some (store.idFor path, decls) else store.loaded? key := by
  unfold loaded?
  dsimp only [load]
  rw [Table.get?_insert]
  split
  · simp
  · rfl

theorem nextFile_load (store : Store) (path : SourcePath) (decls : List Decl) :
    (store.load path decls).nextFile =
      if (store.loaded? path.components).isSome then store.nextFile else store.nextFile + 1 := by
  dsimp only [load]
  rw [fileId?_eq, Option.isSome_map]

theorem Consistent.loaded?_lt (h : store.Consistent) {key : List SourcePath.Component}
    {file : FileId} {decls : List Decl} (hkey : store.loaded? key = some (file, decls)) :
    file.index < store.nextFile := by
  obtain ⟨source, hsource, heq⟩ := Option.map_eq_some_iff.1 hkey
  cases heq
  exact h.bounded hsource

/-- What is loaded is what the files declare under their numbers. -/
theorem Consistent.mem_symbols_iff (h : store.Consistent) {symbol : Symbol} :
    symbol ∈ store.symbols ↔ ∃ key file decls, store.loaded? key = some (file, decls) ∧
      symbol ∈ Symbol.walkAll (Decl.freezeAll file decls 0).1 := by
  rw [mem_symbols]
  constructor
  · rintro ⟨key, source, hkey, hs⟩
    refine ⟨key, source.id, Symbol.declAll source.symbols, by rw [loaded?, hkey]; rfl, ?_⟩
    obtain ⟨decls, hdecls⟩ := h.frozen hkey
    rw [hdecls] at hs ⊢
    rwa [Decl.declAll_freezeAll]
  · rintro ⟨key, file, decls, hkey, hs⟩
    obtain ⟨source, hsource, heq⟩ := Option.map_eq_some_iff.1 hkey
    cases heq
    obtain ⟨decls, hdecls⟩ := h.frozen hsource
    rw [hdecls, Decl.declAll_freezeAll, ← hdecls] at hs
    exact ⟨key, source, hsource, hs⟩

/-! Two stores with the same files under other numbers. -/

structure Renumbers (r : Equiv.Perm FileId) (a b : Store) : Prop where
  loaded : ∀ key, b.loaded? key = (a.loaded? key).map (Prod.map r id)
  nextFile : b.nextFile = a.nextFile
  fresh : ∀ file : FileId, a.nextFile ≤ file.index → r file = file

section Renumbers

variable {a b c : Store} {r q : Equiv.Perm FileId}

theorem Renumbers.refl (a : Store) : Renumbers (Equiv.refl FileId) a a where
  loaded key := by cases a.loaded? key <;> rfl
  nextFile := rfl
  fresh _ _ := rfl

theorem Renumbers.trans (hab : Renumbers r a b) (hbc : Renumbers q b c) :
    Renumbers (r.trans q) a c where
  loaded key := by
    rw [hbc.loaded, hab.loaded, Option.map_map]
    rfl
  nextFile := hbc.nextFile.trans hab.nextFile
  fresh file hfile := by
    rw [Equiv.trans_apply, hab.fresh file hfile, hbc.fresh file (by rwa [hab.nextFile])]

theorem Renumbers.idFor (h : Renumbers r a b) (path : SourcePath) :
    b.idFor path = r (a.idFor path) := by
  rw [idFor_eq, idFor_eq, h.loaded, h.nextFile]
  cases a.loaded? path.components with
  | none => exact (h.fresh ⟨a.nextFile⟩ (Nat.le_refl _)).symm
  | some entry => rfl

/-- One more load, of a file that is there already or of a new one. -/
theorem Renumbers.load (h : Renumbers r a b) (path : SourcePath) (decls : List Decl) :
    Renumbers r (a.load path decls) (b.load path decls) where
  loaded key := by
    rw [loaded?_load, loaded?_load, h.idFor, h.loaded]
    split <;> rfl
  nextFile := by
    rw [nextFile_load, nextFile_load, h.loaded, h.nextFile, Option.isSome_map]
  fresh file hfile := by
    apply h.fresh
    rw [nextFile_load] at hfile
    split at hfile <;> omega

/-- Two new files get their numbers the other way round when they are loaded the other way
round. -/
theorem renumbers_swap (consistent : store.Consistent) {p q : SourcePath} (d e : List Decl)
    (hpq : p.components ≠ q.components) (hp : store.loaded? p.components = none)
    (hq : store.loaded? q.components = none) :
    Renumbers (Equiv.swap ⟨store.nextFile⟩ ⟨store.nextFile + 1⟩)
      ((store.load p d).load q e) ((store.load q e).load p d) where
  loaded key := by
    have hidp : (store.load q e).idFor p = ⟨store.nextFile + 1⟩ := by
      simp [idFor_eq, loaded?_load, nextFile_load, hp, hq, hpq.symm]
    have hidq : (store.load p d).idFor q = ⟨store.nextFile + 1⟩ := by
      simp [idFor_eq, loaded?_load, nextFile_load, hp, hq, hpq]
    have hp' : store.idFor p = ⟨store.nextFile⟩ := by simp [idFor_eq, hp]
    have hq' : store.idFor q = ⟨store.nextFile⟩ := by simp [idFor_eq, hq]
    simp only [loaded?_load, hidp, hidq, hp', hq']
    by_cases hkp : p.components = key
    · have hkq : q.components ≠ key := fun h => hpq (hkp.trans h.symm)
      simp [hkp, hkq]
    by_cases hkq : q.components = key
    · simp [hkp, hkq]
    rw [if_neg hkp, if_neg hkq, if_neg hkq, if_neg hkp]
    cases hkey : store.loaded? key with
    | none => rfl
    | some entry =>
      -- what was there before has a smaller number and keeps it
      obtain ⟨⟨n⟩, decls⟩ := entry
      have hlt : n < store.nextFile := consistent.loaded?_lt hkey
      rw [Option.map_some, Prod.map_apply, Equiv.swap_apply_of_ne_of_ne]
      · rfl
      · simp only [ne_eq, FileId.mk.injEq]
        omega
      · simp only [ne_eq, FileId.mk.injEq]
        omega
  nextFile := by
    simp [nextFile_load, loaded?_load, hp, hq, hpq, hpq.symm]
  fresh file hfile := by
    simp only [nextFile_load, loaded?_load, hp, hq, hpq, if_false, Option.isSome_none,
      Bool.false_eq_true] at hfile
    apply Equiv.swap_apply_of_ne_of_ne
    · rintro rfl
      dsimp only at hfile
      omega
    · rintro rfl
      dsimp only at hfile
      omega

end Renumbers

/-- Loads files one after the other. -/
def loadAll (store : Store) (files : List (SourcePath × List Decl)) : Store :=
  files.foldl (fun store file => store.load file.1 file.2) store

section LoadAll

variable {files others : List (SourcePath × List Decl)}

theorem reached_loadAll (h : Reached store) (files : List (SourcePath × List Decl)) :
    Reached (store.loadAll files) := by
  induction files generalizing store with
  | nil => exact h
  | cons file rest ih => exact ih (.load file.1 file.2 h)

theorem Renumbers.loadAll {r : Equiv.Perm FileId} {a b : Store} (h : Renumbers r a b)
    (files : List (SourcePath × List Decl)) : Renumbers r (a.loadAll files) (b.loadAll files) := by
  induction files generalizing a b with
  | nil => exact h
  | cons file rest ih => exact ih (h.load file.1 file.2)

/-- New files that are loaded in another order get other numbers, and that is all. -/
theorem exists_renumbers (perm : files.Perm others)
    (distinct : (files.map (·.1.components)).Nodup) (consistent : store.Consistent)
    (new : ∀ file ∈ files, store.loaded? file.1.components = none) :
    ∃ r, Renumbers r (store.loadAll files) (store.loadAll others) := by
  induction perm generalizing store with
  | nil => exact ⟨_, .refl _⟩
  | @cons file files others _ ih =>
    rw [List.map_cons, List.nodup_cons] at distinct
    apply ih distinct.2 (consistent.load file.1 file.2)
    intro later hlater
    rw [loaded?_load, if_neg, new later (List.mem_cons_of_mem _ hlater)]
    intro heq
    exact distinct.1 (List.mem_map.2 ⟨later, hlater, heq.symm⟩)
  | swap first second files =>
    have hne : second.1.components ≠ first.1.components := by
      intro heq
      simp [heq] at distinct
    exact ⟨_, (renumbers_swap consistent second.2 first.2 hne (new second (by simp))
      (new first (by simp))).loadAll files⟩
  | @trans files middle others perm _ ih ih' =>
    obtain ⟨r, hr⟩ := ih distinct consistent new
    obtain ⟨q, hq⟩ := ih' ((perm.map _).nodup_iff.1 distinct) consistent
      fun file hfile => new file (perm.mem_iff.2 hfile)
    exact ⟨_, hr.trans hq⟩

/-- What is loaded in the end comes from one of the files, or was there before. -/
theorem loaded?_loadAll {key : List SourcePath.Component} {file : FileId} {decls : List Decl}
    (h : (store.loadAll files).loaded? key = some (file, decls)) :
    store.loaded? key = some (file, decls) ∨
      ∃ loaded ∈ files, loaded.1.components = key ∧ loaded.2 = decls := by
  induction files generalizing store with
  | nil => exact .inl h
  | cons first rest ih =>
    obtain h | ⟨loaded, hmem, hloaded⟩ := ih h
    · rw [loaded?_load] at h
      split at h
      · rename_i hkey
        cases h
        exact .inr ⟨first, List.mem_cons_self, hkey, rfl⟩
      · exact .inl h
    · exact .inr ⟨loaded, List.mem_cons_of_mem _ hmem, hloaded⟩

theorem isSome_loaded?_loadAll {key : List SourcePath.Component}
    (h : (store.loaded? key).isSome ∨ ∃ file ∈ files, file.1.components = key) :
    ((store.loadAll files).loaded? key).isSome := by
  induction files generalizing store with
  | nil => simpa [loadAll] using h
  | cons first rest ih =>
    apply ih
    rw [loaded?_load]
    by_cases hkey : first.1.components = key
    · simp [hkey]
    · simpa [hkey] using h

end LoadAll

/-! Names that no two files declare. -/

/-- All definitions of a name are in one file. -/
def Unambiguous (store : Store) : Prop :=
  ∀ a ∈ store.definitions, ∀ b ∈ store.definitions, a.name = b.name → a.id.file = b.id.file

theorem Consistent.mem_definitions_iff (h : store.Consistent) {symbol : Symbol} :
    symbol ∈ store.definitions ↔ ∃ key file decls, store.loaded? key = some (file, decls) ∧
      symbol ∈ (Symbol.walkAll (Decl.freezeAll file decls 0).1).filter (·.isDefinition) := by
  simp only [mem_definitions, h.mem_symbols_iff, List.mem_filter, ← and_assoc, exists_and_right]

theorem unambiguous_loadAll {files : List (SourcePath × List Decl)}
    (apart : ∀ f ∈ files, ∀ g ∈ files, f.1.components ≠ g.1.components →
      ∀ name ∈ Decl.definesAll f.2, name ∉ Decl.definesAll g.2) :
    (loadAll {} files).Unambiguous := by
  have consistent := (reached_loadAll .empty files).consistent
  intro a ha b hb hname
  obtain ⟨k, f, d, hk, ha⟩ := consistent.mem_definitions_iff.1 ha
  obtain ⟨l, g, e, hl, hb⟩ := consistent.mem_definitions_iff.1 hb
  obtain hk' | ⟨x, hx, hxk, rfl⟩ := loaded?_loadAll hk
  · cases hk'
  obtain hl' | ⟨y, hy, hyl, rfl⟩ := loaded?_loadAll hl
  · cases hl'
  have hxa : a.name ∈ Decl.definesAll x.2 := by
    rw [Decl.definesAll_eq f]
    exact List.mem_map_of_mem ha
  have hyb : a.name ∈ Decl.definesAll y.2 := by
    rw [Decl.definesAll_eq g, hname]
    exact List.mem_map_of_mem hb
  -- the name is in both files, so they are one file and have one number
  have hkl : k = l := by
    by_contra hne
    rw [← hxk, ← hyl] at hne
    exact apart x hx y hy hne _ hxa hyb
  rw [hkl, hl] at hk
  obtain ⟨hfile, -⟩ := Prod.mk.inj (Option.some.inj hk)
  rw [(Decl.file_of_mem_freezeAll (List.mem_filter.1 ha).1).1,
    (Decl.file_of_mem_freezeAll (List.mem_filter.1 hb).1).1, hfile]

section Renumbers

variable {a b : Store} {r : Equiv.Perm FileId} (h : Renumbers r a b) (ha : Reached a)
  (hb : Reached b)

include h ha hb

theorem Renumbers.mem_definitions {symbol : Symbol} :
    symbol ∈ b.definitions ↔ ∃ other ∈ a.definitions, other.renumber r = symbol := by
  have hfrozen : ∀ file decls,
      (Symbol.walkAll (Decl.freezeAll (r file) decls 0).1).filter (·.isDefinition) =
        ((Symbol.walkAll (Decl.freezeAll file decls 0).1).filter (·.isDefinition)).map
          (Symbol.renumber r) := by
    intro file decls
    rw [Decl.freezeAll_renumber, Symbol.walkAll_renumberAll, List.filter_map]
    simp [Function.comp_def]
  simp only [hb.consistent.mem_definitions_iff, ha.consistent.mem_definitions_iff, h.loaded]
  constructor
  · rintro ⟨key, file, decls, hkey, hs⟩
    obtain ⟨⟨file, decls⟩, hentry, heq⟩ := Option.map_eq_some_iff.1 hkey
    cases heq
    rw [hfrozen] at hs
    obtain ⟨other, hother, rfl⟩ := List.mem_map.1 hs
    exact ⟨other, ⟨key, file, decls, hentry, hother⟩, rfl⟩
  · rintro ⟨other, ⟨key, file, decls, hentry, hother⟩, rfl⟩
    refine ⟨key, r file, decls, by rw [hentry]; rfl, ?_⟩
    rw [hfrozen]
    exact List.mem_map_of_mem hother

/-- The first definition of a name stays the first: its rivals are in the same file. -/
theorem Renumbers.isFirst (unambiguous : a.Unambiguous) {name : String} {symbol : Symbol}
    (hfirst : a.IsFirst name symbol) : b.IsFirst name (symbol.renumber r) where
  declared := (h.mem_definitions ha hb).2 ⟨symbol, hfirst.declared, rfl⟩
  name_eq := by rw [Symbol.name_renumber, hfirst.name_eq]
  first := by
    intro other hother hname
    obtain ⟨rival, hrival, rfl⟩ := (h.mem_definitions ha hb).1 hother
    rw [Symbol.name_renumber] at hname
    obtain rfl | hbefore := hfirst.first rival hrival hname
    · exact .inl rfl
    have hfile := unambiguous symbol hfirst.declared rival hrival (hfirst.name_eq.trans hname.symm)
    right
    simp only [DefId.Before, Symbol.id_renumber, DefId.renumber, hfile] at hbefore ⊢
    simpa using hbefore

theorem Renumbers.lookup (unambiguous : a.Unambiguous) (name : String) :
    b.lookup name = (a.lookup name).map (Symbol.renumber r) := by
  cases hfound : a.lookup name with
  | some symbol =>
    rw [ha.lookup_eq_some_iff] at hfound
    rw [Option.map_some, hb.lookup_eq_some_iff]
    exact h.isFirst ha hb unambiguous hfound
  | none =>
    rw [Option.map_none, Option.eq_none_iff_forall_ne_some]
    intro symbol hsymbol
    rw [hb.lookup_eq_some_iff] at hsymbol
    obtain ⟨other, hother, rfl⟩ := (h.mem_definitions ha hb).1 hsymbol.declared
    apply ha.ne_of_lookup_eq_none hfound hother
    rw [← hsymbol.name_eq, Symbol.name_renumber]

theorem Renumbers.asLookup (unambiguous : a.Unambiguous) (suspends : Bool) :
    (a.asLookup suspends).Renumbers r (b.asLookup suspends) := by
  intro symbol
  rw [ha.consistent.answer_asLookup, hb.consistent.answer_asLookup, Symbol.typeRef_renumber]
  cases symbol.typeRef with
  | none => rfl
  | some name => exact h.lookup ha hb unambiguous name

end Renumbers

end Store

namespace Indexer

/-- Before anything is expanded, remembered or noted. -/
def ofTop (top : Symbol) : Indexer := ⟨⟨.ofTop top, ∅⟩, {}⟩

/-- The order in which files are loaded does not matter where no module or interface is declared in
two of them: names mean the same, and a build ends the same with the same paths in the index, but
for the numbers of the files. -/
theorem build_of_permuted_files {files others : List (SourcePath × List Decl)}
    (distinct : (files.map (·.1.components)).Nodup)
    (apart : ∀ f ∈ files, ∀ g ∈ files, f.1.components ≠ g.1.components →
      ∀ name ∈ Decl.definesAll f.2, name ∉ Decl.definesAll g.2)
    (perm : files.Perm others) (name : String) (suspends : Bool) (scale : UInt32) :
    let s := Store.loadAll {} files
    let t := Store.loadAll {} others
    (s.lookup name = none ↔ t.lookup name = none) ∧
    ∀ top top', s.lookup name = some top → t.lookup name = some top' →
      let a := (build (s.asLookup suspends) scale none).run (ofTop top)
      let b := (build (t.asLookup suspends) scale none).run (ofTop top')
      a.value = b.value ∧ a.state.index.status = b.state.index.status ∧
        a.state.index.visited = b.state.index.visited ∧
        a.state.index.truncated = b.state.index.truncated ∧
        a.journal.reports = b.journal.reports ∧
        ∀ file ∈ files, ∃ f g, s.fileId? file.1 = some f ∧ t.fileId? file.1 = some g ∧
          ∀ n, (a.state.index.instancesOf ⟨f, n⟩).map (·.1) =
            (b.state.index.instancesOf ⟨g, n⟩).map (·.1) := by
  intro s t
  have hs : Store.Reached s := Store.reached_loadAll .empty files
  have ht : Store.Reached t := Store.reached_loadAll .empty others
  obtain ⟨r, hr⟩ := Store.exists_renumbers perm distinct Store.consistent_empty fun _ _ => rfl
  have unambiguous : s.Unambiguous := Store.unambiguous_loadAll apart
  have hlookup := hr.lookup hs ht unambiguous name
  refine ⟨by rw [hlookup, Option.map_eq_none_iff], ?_⟩
  intro top top' htop htop' a b
  rw [hlookup, htop] at htop'
  cases htop'
  have alike : Alike r a b := alike_of_renumbers (hr.asLookup hs ht unambiguous suspends)
    (Elaborator.sound_ofTop _ top) (Elaborator.sound_ofTop _ _) scale
  refine ⟨alike.value, alike.status, alike.visited, alike.truncated, alike.reports, ?_⟩
  intro file hfile
  have hloaded : (s.loaded? file.1.components).isSome :=
    Store.isSome_loaded?_loadAll (.inr ⟨file, hfile, rfl⟩)
  obtain ⟨⟨f, decls⟩, hentry⟩ := Option.isSome_iff_exists.1 hloaded
  refine ⟨f, r f, by rw [Store.fileId?_eq, hentry]; rfl, ?_, fun n => alike.instances ⟨f, n⟩⟩
  rw [Store.fileId?_eq, hr.loaded, hentry]
  rfl

/-- The file of the module below comes second or first, so its number is one or zero. -/
theorem build_of_permuted_files_pair :
    let above : Decl :=
      { name := "m", kind := .module, children := [
        { name := "u", kind := .inst, typeRef := some "n" },
        { name := "v", kind := .inst, typeRef := some "n" }] }
    let below : Decl := { name := "n", kind := .module }
    let s := Store.loadAll {} [(⟨"m.v"⟩, [above]), (⟨"n.v"⟩, [below])]
    let t := Store.loadAll {} [(⟨"n.v"⟩, [below]), (⟨"m.v"⟩, [above])]
    let a := (build (s.asLookup true) 8 none).run (ofTop (above.freeze ⟨0⟩ 0).1)
    let b := (build (t.asLookup true) 8 none).run (ofTop (above.freeze ⟨1⟩ 0).1)
    s.lookup "m" = some (above.freeze ⟨0⟩ 0).1 ∧ t.lookup "m" = some (above.freeze ⟨1⟩ 0).1 ∧
      a.state.index.visited = 3 ∧ b.state.index.visited = 3 ∧
      a.journal.reports = b.journal.reports ∧
      (a.state.index.instancesOf ⟨⟨1⟩, 0⟩).map (·.1) = ["m.u", "m.v"] ∧
      (b.state.index.instancesOf ⟨⟨0⟩, 0⟩).map (·.1) = ["m.u", "m.v"] := by
  intro above below s t a b
  have htop : s.lookup "m" = some (above.freeze ⟨0⟩ 0).1 := by decide +kernel
  have htop' : t.lookup "m" = some (above.freeze ⟨1⟩ 0).1 := by decide +kernel
  have visited : a.state.index.visited = 3 := by
    simp only [a, run_build]
    decide +kernel
  have listed : (a.state.index.instancesOf ⟨⟨1⟩, 0⟩).map (·.1) = ["m.u", "m.v"] := by
    simp only [a, run_build]
    decide +kernel
  have distinct : ([(⟨"m.v"⟩, [above]), (⟨"n.v"⟩, [below])].map
      fun file : SourcePath × List Decl => file.1.components).Nodup := by decide +kernel
  obtain ⟨-, hbuilds⟩ := build_of_permuted_files distinct (by decide +kernel) (.swap _ _ _) "m" true 8
  obtain ⟨-, -, hvisited, -, hreports, hfiles⟩ := hbuilds _ _ htop htop'
  obtain ⟨f, g, hf, hg, hpaths⟩ := hfiles (⟨"n.v"⟩, [below]) (by simp)
  have hf' : s.fileId? ⟨"n.v"⟩ = some ⟨1⟩ := by decide +kernel
  have hg' : t.fileId? ⟨"n.v"⟩ = some ⟨0⟩ := by decide +kernel
  cases hf.symm.trans hf'
  cases hg.symm.trans hg'
  exact ⟨htop, htop', visited, hvisited.symm.trans visited, hreports, listed,
    (hpaths 0).symm.trans listed⟩

end Indexer

end DesignHierarchy
