import DesignHierarchy.Source.Path
import DesignHierarchy.Symbol.Decl
import DesignHierarchy.Table

/-! The loaded files. Files keep the order in which they were first loaded, and
that order decides between equal names; a second table finds definitions by name
without walking the files. A `Catalog` has the ids in a table of their own. -/
namespace DesignHierarchy

structure SourceFile where
  id : FileId
  /-- The path as it was spelled at the latest load. -/
  path : SourcePath
  symbols : List Symbol

structure Store where
  files : Table (List SourcePath.Component) SourceFile := ∅
  /-- Definitions at any depth, under their names. -/
  byName : Table String (List Symbol) := ∅
  /-- The number of the next new file; numbers are never given out twice. -/
  nextFile : Nat := 0

namespace Store

def sources (store : Store) : List SourceFile := store.files.values

def fileCount (store : Store) : Nat := store.files.size

def isEmpty (store : Store) : Bool := store.files.isEmpty

def fileId? (store : Store) (path : SourcePath) : Option FileId :=
  (store.files.get? path.components).map (·.id)

/-- The id that a load of this path keeps or gives out. -/
def idFor (store : Store) (path : SourcePath) : FileId :=
  (store.fileId? path).getD ⟨store.nextFile⟩

def source? (store : Store) (file : FileId) : Option SourceFile :=
  store.sources.find? (·.id = file)

def path? (store : Store) (file : FileId) : Option SourcePath :=
  (store.source? file).map (·.path)

def symbolsIn (store : Store) (file : FileId) : List Symbol :=
  ((store.source? file).map (·.symbols)).getD []

/-- Every loaded symbol, files in load order and each file in pre-order. -/
def symbols (store : Store) : List Symbol :=
  store.sources.flatMap fun source => Symbol.walkAll source.symbols

def symbol? (store : Store) (id : DefId) : Option Symbol :=
  (Symbol.walkAll (store.symbolsIn id.file)).find? (·.id = id)

def definitions (store : Store) : List Symbol :=
  store.symbols.filter (·.isDefinition)

/-- The types that instances anywhere in the loaded files are written with. -/
def instantiated (store : Store) : List String :=
  store.symbols.filterMap fun symbol => if symbol.kind = .inst then symbol.typeRef else none

/-- The modules that no instance names: the natural tops of a design. -/
def topCandidates (store : Store) : List Symbol :=
  store.definitions.filter fun symbol =>
    symbol.kind = .module ∧ symbol.name ∉ store.instantiated

/-- Drops the definitions that a file declared, and the names that nothing else declares. -/
def forget (file : FileId) (byName : Table String (List Symbol)) : Table String (List Symbol) :=
  byName.filterMap fun symbols =>
    let rest := symbols.filter (·.location.file ≠ file)
    if rest.isEmpty then none else some rest

def register (byName : Table String (List Symbol)) (symbol : Symbol) : Table String (List Symbol) :=
  byName.update symbol.name fun symbols => symbols.getD [] ++ [symbol]

/-- Loads a file, or reloads it under the id and in the place it has. -/
def load (store : Store) (path : SourcePath) (decls : List Decl) : Store :=
  let file := store.idFor path
  let symbols := (Decl.freezeAll file decls 0).1
  let declared := (Symbol.walkAll symbols).filter (·.isDefinition)
  { files := store.files.insert path.components ⟨file, path, symbols⟩
    byName := declared.foldl register (forget file store.byName)
    nextFile := if (store.fileId? path).isSome then store.nextFile else store.nextFile + 1 }

def unload (store : Store) (path : SourcePath) : Store :=
  match store.fileId? path with
  | none => store
  | some file =>
    { store with
      files := store.files.erase path.components
      byName := forget file store.byName }

/-- The place of the file that declares a symbol, among the loaded files. -/
def place (store : Store) (symbol : Symbol) : Nat :=
  store.sources.findIdx (·.id = symbol.location.file)

/-- Earlier files come first, and in one file earlier declarations. -/
def Precedes (store : Store) (a b : Symbol) : Prop :=
  store.place a < store.place b ∨ store.place a = store.place b ∧ a.id.ordinal < b.id.ordinal

instance (store : Store) (a b : Symbol) : Decidable (store.Precedes a b) :=
  inferInstanceAs (Decidable (_ ∨ _))

def earliest (store : Store) : List Symbol → Option Symbol
  | [] => none
  | symbol :: rest =>
    match store.earliest rest with
    | none => some symbol
    | some other => if store.Precedes other symbol then some other else some symbol

theorem mem_of_earliest {store : Store} {symbols : List Symbol} {symbol : Symbol}
    (h : store.earliest symbols = some symbol) : symbol ∈ symbols := by
  induction symbols generalizing symbol with
  | nil => cases h
  | cons first rest ih =>
    unfold earliest at h
    split at h
    · cases h; simp
    · next other hr =>
      split at h
      · cases h; exact List.mem_cons_of_mem _ (ih hr)
      · cases h; simp

/-- The definition with this name; the earliest one when there are several. -/
def lookup (store : Store) (name : String) : Option Symbol :=
  store.earliest ((store.byName.get? name).getD [])

theorem mem_of_lookup {store : Store} {name : String} {symbol : Symbol}
    (h : store.lookup name = some symbol) : symbol ∈ store.byName.values.flatten := by
  have hm := mem_of_earliest h
  cases hg : store.byName.get? name with
  | none => simp [hg] at hm
  | some symbols =>
    rw [hg] at hm
    exact List.mem_flatten.2 ⟨symbols, Table.mem_values_of_get? hg, hm⟩

end Store

end DesignHierarchy
