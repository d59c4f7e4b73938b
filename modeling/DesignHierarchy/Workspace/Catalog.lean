import DesignHierarchy.Workspace.Store

/-! The loaded files as they are kept: one table from paths to ids, another one from
ids to what the files declare, and a counter of 32 bits for the next id. A `Store`
has the two tables in one. -/
namespace DesignHierarchy

structure Listing where
  /-- The path as it was spelled at the latest load. -/
  path : SourcePath
  symbols : List Symbol

structure Catalog where
  fileIds : Table (List SourcePath.Component) FileId := ∅
  /-- The order of these entries decides between equal names. -/
  files : Table FileId Listing := ∅
  byName : Table String (List Symbol) := ∅
  nextFile : UInt32 := 0

namespace Catalog

def fileId? (catalog : Catalog) (path : SourcePath) : Option FileId :=
  catalog.fileIds.get? path.components

def path? (catalog : Catalog) (file : FileId) : Option SourcePath :=
  (catalog.files.get? file).map (·.path)

def symbolsIn (catalog : Catalog) (file : FileId) : List Symbol :=
  ((catalog.files.get? file).map (·.symbols)).getD []

def fileCount (catalog : Catalog) : Nat := catalog.files.size

def isEmpty (catalog : Catalog) : Bool := catalog.files.isEmpty

def symbols (catalog : Catalog) : List Symbol :=
  catalog.files.values.flatMap fun listing => Symbol.walkAll listing.symbols

def definitions (catalog : Catalog) : List Symbol :=
  catalog.symbols.filter (·.isDefinition)

def instantiated (catalog : Catalog) : List String :=
  catalog.symbols.filterMap fun symbol => if symbol.kind = .inst then symbol.typeRef else none

def topCandidates (catalog : Catalog) : List Symbol :=
  catalog.definitions.filter fun symbol =>
    symbol.kind = .module ∧ symbol.name ∉ catalog.instantiated

/-- The place of a symbol's file in the table, behind all others if it is not there. -/
def place (catalog : Catalog) (symbol : Symbol) : Nat :=
  catalog.files.keys.findIdx (· = symbol.location.file)

def Precedes (catalog : Catalog) (a b : Symbol) : Prop :=
  catalog.place a < catalog.place b ∨
    catalog.place a = catalog.place b ∧ a.id.ordinal < b.id.ordinal

instance (catalog : Catalog) (a b : Symbol) : Decidable (catalog.Precedes a b) :=
  inferInstanceAs (Decidable (_ ∨ _))

/-- Of two symbols the one that precedes, the one that was found before if neither does. -/
def prefer (catalog : Catalog) (best : Option Symbol) (symbol : Symbol) : Option Symbol :=
  match best with
  | none => some symbol
  | some other => if catalog.Precedes symbol other then some symbol else some other

def lookup (catalog : Catalog) (name : String) : Option Symbol :=
  ((catalog.byName.get? name).getD []).foldl catalog.prefer none

/-- A path that is known keeps its id and drops what it declared, any other one takes the next
id; refused where the counter would wrap around. -/
def assign? (catalog : Catalog) (path : SourcePath) : Option (FileId × Catalog) :=
  match catalog.fileId? path with
  | some file => some (file, { catalog with byName := Store.forget file catalog.byName })
  | none =>
    if catalog.nextFile.toNat + 1 < UInt32.size then
      let file : FileId := ⟨catalog.nextFile.toNat⟩
      some (file, { catalog with
        fileIds := catalog.fileIds.insert path.components file
        nextFile := catalog.nextFile + 1 })
    else none

def load? (catalog : Catalog) (path : SourcePath) (decls : List Decl) :
    Option (FileId × Catalog) := do
  let (file, assigned) ← catalog.assign? path
  let (symbols, _) ← Decl.freezeAll? file decls 0
  let declared := (Symbol.walkAll symbols).filter (·.isDefinition)
  return (file, { assigned with
    files := assigned.files.insert file ⟨path, symbols⟩
    byName := declared.foldl Store.register assigned.byName })

def unload (catalog : Catalog) (path : SourcePath) : Option FileId × Catalog :=
  match catalog.fileId? path with
  | none => (none, catalog)
  | some file => (some file, { catalog with
      fileIds := catalog.fileIds.erase path.components
      files := catalog.files.erase file
      byName := Store.forget file catalog.byName })

end Catalog

end DesignHierarchy
