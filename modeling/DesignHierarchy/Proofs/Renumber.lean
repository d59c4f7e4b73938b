import DesignHierarchy.Proofs.Replay
import Mathlib.Logic.Equiv.Basic

/-! Numbers of files. A build compares the ids of definitions and shows none of
them, so a design whose files are numbered in another way is built alike: place by
place the elaborations differ in numbers only. -/
namespace DesignHierarchy

def DefId.renumber (r : Equiv.Perm FileId) (id : DefId) : DefId := { id with file := r id.file }

theorem DefId.renumber_injective (r : Equiv.Perm FileId) :
    Function.Injective (DefId.renumber r) := by
  intro a b h
  obtain ⟨hfile, hordinal⟩ := DefId.mk.inj h
  cases a
  cases b
  cases r.injective hfile
  cases hordinal
  rfl

@[simp] theorem DefId.renumber_inj {r : Equiv.Perm FileId} {a b : DefId} :
    a.renumber r = b.renumber r ↔ a = b :=
  (DefId.renumber_injective r).eq_iff

namespace Symbol

mutual

/-- The same declaration in a file with another number. -/
def renumber (r : Equiv.Perm FileId) : Symbol → Symbol
  | ⟨id, name, kind, typeRef, location, children⟩ =>
    ⟨id.renumber r, name, kind, typeRef, { location with file := r location.file },
      renumberAll r children⟩

def renumberAll (r : Equiv.Perm FileId) : List Symbol → List Symbol
  | [] => []
  | symbol :: rest => symbol.renumber r :: renumberAll r rest

end

variable (r : Equiv.Perm FileId) (symbol : Symbol)

theorem renumberAll_eq_map (symbols : List Symbol) :
    renumberAll r symbols = symbols.map (renumber r) := by
  induction symbols with
  | nil => simp [renumberAll]
  | cons symbol rest ih => simp [renumberAll, ih]

@[simp] theorem id_renumber : (symbol.renumber r).id = symbol.id.renumber r := by
  cases symbol; simp [renumber]

@[simp] theorem name_renumber : (symbol.renumber r).name = symbol.name := by
  cases symbol; simp [renumber]

@[simp] theorem kind_renumber : (symbol.renumber r).kind = symbol.kind := by
  cases symbol; simp [renumber]

@[simp] theorem typeRef_renumber : (symbol.renumber r).typeRef = symbol.typeRef := by
  cases symbol; simp [renumber]

@[simp] theorem children_renumber :
    (symbol.renumber r).children = symbol.children.map (renumber r) := by
  cases symbol; simp [renumber, renumberAll_eq_map]

@[simp] theorem isDefinition_renumber : (symbol.renumber r).isDefinition = symbol.isDefinition := by
  simp [isDefinition]

@[simp] theorem shown_renumber : (symbol.renumber r).shown = symbol.shown.map (renumber r) := by
  simp [shown, List.filter_map, Function.comp_def]

mutual

theorem walk_renumber : ∀ symbol : Symbol, (symbol.renumber r).walk = symbol.walk.map (renumber r)
  | ⟨id, name, kind, typeRef, location, children⟩ => by
    rw [walk_eq, walk_eq, children_renumber, ← renumberAll_eq_map, walkAll_renumberAll children,
      List.map_cons]

theorem walkAll_renumberAll : ∀ symbols : List Symbol,
    walkAll (renumberAll r symbols) = (walkAll symbols).map (renumber r)
  | [] => by simp [renumberAll, walkAll]
  | symbol :: rest => by
    rw [renumberAll, walkAll, walkAll, List.map_append, walk_renumber symbol,
      walkAll_renumberAll rest]

end

end Symbol

namespace Decl

mutual

theorem freeze_renumber (r : Equiv.Perm FileId) (file : FileId) : ∀ (decl : Decl) (next : Nat),
    freeze (r file) decl next = ((freeze file decl next).1.renumber r, (freeze file decl next).2)
  | ⟨name, kind, typeRef, nameSpan, fullSpan, children⟩, next => by
    rw [freeze, freezeAll_renumber r file children]
    simp [freeze, Symbol.renumber, DefId.renumber]

/-- A file with another number holds the same declarations. -/
theorem freezeAll_renumber (r : Equiv.Perm FileId) (file : FileId) :
    ∀ (decls : List Decl) (next : Nat), freezeAll (r file) decls next =
      (Symbol.renumberAll r (freezeAll file decls next).1, (freezeAll file decls next).2)
  | [], next => by simp [freezeAll, Symbol.renumberAll]
  | decl :: rest, next => by
    rw [freezeAll, freeze_renumber r file decl]
    dsimp only
    rw [freezeAll_renumber r file rest]
    simp [freezeAll, Symbol.renumberAll]

end

end Decl

/-- Each instance that the one lookup resolves, the other resolves to the same declaration. -/
def Lookup.Renumbers (r : Equiv.Perm FileId) (lookup other : Lookup) : Prop :=
  ∀ symbol, other.answer (symbol.renumber r) = (lookup.answer symbol).map (Symbol.renumber r)

namespace Place

def renumber (r : Equiv.Perm FileId) (place : Place) : Place :=
  { place with
    symbol := place.symbol.renumber r
    definition := place.definition.map (Symbol.renumber r)
    above := place.above.map (DefId.renumber r) }

section Renumber

variable (r : Equiv.Perm FileId) (place : Place)

@[simp] theorem renumber_ofTop (top : Symbol) : (ofTop top).renumber r = ofTop (top.renumber r) := by
  simp [ofTop, renumber]

@[simp] theorem above_renumber : (place.renumber r).above = place.above.map (DefId.renumber r) := rfl

@[simp] theorem path_renumber : (place.renumber r).path = place.path := rfl

@[simp] theorem definitionId_renumber :
    (place.renumber r).definitionId = place.definitionId.map (DefId.renumber r) := by
  simp [renumber, definitionId, Function.comp_def]

@[simp] theorem opened_renumber :
    (place.renumber r).opened = place.opened.map (DefId.renumber r) := by
  rw [opened, opened, definitionId_renumber, above_renumber, List.map_append]
  cases place.definitionId <;> rfl

@[simp] theorem shown_renumber : (place.renumber r).shown = place.shown.map (Symbol.renumber r) := by
  unfold shown renumber
  cases place.definition <;> simp

@[simp] theorem instanceOf_renumber :
    (place.renumber r).instanceOf = place.instanceOf.map (DefId.renumber r) := by
  have hkind : (place.renumber r).kind = place.kind := rfl
  unfold instanceOf
  rw [hkind, definitionId_renumber]
  cases place.kind <;> rfl

@[simp] theorem reenters_renumber : (place.renumber r).reenters = place.reenters := by
  unfold reenters
  rw [definitionId_renumber, above_renumber]
  cases place.definitionId <;> simp

end Renumber

section Elaboration

variable {r : Equiv.Perm FileId} {lookup other : Lookup} (h : lookup.Renumbers r other)

include h

theorem child_renumber (place : Place) (symbol : Symbol) :
    (place.renumber r).child other (symbol.renumber r) = (place.child lookup symbol).renumber r := by
  have hrecursive : ((lookup.answer symbol).map (Symbol.renumber r)).any
      (fun symbol => symbol.id ∈ (place.renumber r).opened) =
        (lookup.answer symbol).any fun symbol => symbol.id ∈ place.opened := by
    cases lookup.answer symbol <;> simp
  unfold child
  rw [Symbol.kind_renumber, h symbol]
  dsimp only
  rw [hrecursive, opened_renumber]
  cases symbol.kind <;> simp [renumber]

theorem children_renumber (place : Place) :
    (place.renumber r).children other = (place.children lookup).map (renumber r) := by
  rw [children, children, shown_renumber, List.map_map, List.map_map]
  exact List.map_congr_left fun symbol _ => child_renumber h place symbol

theorem Preorder.renumber {places order : List Place} (hpre : Preorder lookup places order) :
    Preorder other (places.map (renumber r)) (order.map (renumber r)) := by
  induction hpre with
  | nil => exact .nil
  | @leave place rest order shut _ ih =>
    refine .leave ?_ ih
    intro renumbered hd
    rw [definitionId_renumber] at hd
    obtain ⟨d, hplace, rfl⟩ := Option.map_eq_some_iff.1 hd
    exact List.mem_map_of_mem (shut d hplace)
  | @enter place rest below order d definition unopened _ _ ihBelow ihAfter =>
    rw [← children_renumber h] at ihBelow
    rw [List.map_cons, List.map_cons, List.map_append]
    refine .enter (d := d.renumber r) ?_ ?_ ihBelow ihAfter
    · rw [definitionId_renumber, definition, Option.map_some]
    · simpa using unopened

end Elaboration

theorem instances_renumber (r : Equiv.Perm FileId) (d : DefId) (places : List Place)
    (known : List (String × Place)) :
    instances (d.renumber r) (places.map (renumber r)) (known.map (Prod.map id (renumber r))) =
      (instances d places known).map (Prod.map id (renumber r)) := by
  have hinstance : ∀ place : Place,
      (place.renumber r).instanceOf = some (d.renumber r) ↔ place.instanceOf = some d := by
    intro place
    rw [instanceOf_renumber, ← Option.map_some]
    exact (Option.map_injective (DefId.renumber_injective r)).eq_iff
  induction places generalizing known with
  | nil => rfl
  | cons place rest ih =>
    unfold instances at ih ⊢
    rw [List.map_cons, List.foldl_cons, List.foldl_cons, ← ih]
    congr 1
    simp only [hinstance, path_renumber]
    split
    · rw [Roster.map_enroll]
    · rfl

end Place

namespace Indexer

/-- What two builds show alike when they visit the same places in files with other numbers. -/
structure Alike (r : Equiv.Perm FileId) (a b : Run Indexer Status) : Prop where
  value : a.value = b.value
  status : a.state.index.status = b.state.index.status
  visited : a.state.index.visited = b.state.index.visited
  truncated : a.state.index.truncated = b.state.index.truncated
  reports : a.journal.reports = b.journal.reports
  instances : ∀ d, (a.state.index.instancesOf d).map (·.1) =
    (b.state.index.instancesOf (d.renumber r)).map (·.1)

theorem Finds.map_fst_instancesOf {lookup : Lookup} {top : Symbol} {scale : UInt32}
    {run : Run Indexer Status} {places : List Place} (h : Finds lookup top scale run places)
    (d : DefId) :
    (run.state.index.instancesOf d).map (·.1) = (Place.instances d places []).map (·.1) := by
  have hpaths := congrArg (List.map (·.1)) (h.instances d)
  simpa [Tree.shownAt, Function.comp_def] using hpaths

/-- The numbers of the files do not show in a build. -/
theorem alike_of_renumbers {r : Equiv.Perm FileId} {lookup other : Lookup}
    (h : lookup.Renumbers r other) {top : Symbol} {i j : Indexer}
    (hi : i.elaborator.Sound lookup top) (hj : j.elaborator.Sound other (top.renumber r))
    (scale : UInt32) :
    Alike r ((build lookup scale none).run i) ((build other scale none).run j) := by
  obtain ⟨places, ha⟩ := exists_finds hi scale
  obtain ⟨others, hb⟩ := exists_finds hj scale
  have hpre := ha.preorder.renumber h
  rw [List.map_singleton, Place.renumber_ofTop] at hpre
  obtain rfl := hb.preorder.unique hpre
  refine ⟨ha.complete.1.trans hb.complete.1.symm, ha.complete.2.trans hb.complete.2.symm, ?_, ?_,
    ?_, ?_⟩
  · rw [ha.visited, hb.visited, List.length_map]
  · rw [ha.truncated, hb.truncated, List.countP_map]
    exact List.countP_congr fun place _ => by simp
  · rw [ha.reports, hb.reports, List.map_map, List.length_map]
    rfl
  · intro d
    have hinstances := Place.instances_renumber r d places []
    rw [List.map_nil] at hinstances
    rw [ha.map_fst_instancesOf, hb.map_fst_instancesOf, hinstances, List.map_map]
    rfl

end Indexer

end DesignHierarchy
