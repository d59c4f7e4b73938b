import DesignHierarchy.Proofs.Tour
import Mathlib.Data.List.Sort

/-! What a build finds. Everything that a complete build shows, except for the ids
of nodes, is read off the pre-order of the places of the design. So it does not
matter which nodes were made before, in what order, or what abandoned calls left. -/
namespace DesignHierarchy

namespace Roster

/-- The entries after a value was put at a path: it takes the place of the one that was there, or
stands at the end. -/
def enroll (path : String) (x : α) (entries : List (String × α)) : List (String × α) :=
  if path ∈ entries.map (·.1) then
    entries.map fun entry => if path = entry.1 then (path, x) else entry
  else entries ++ [(path, x)]

@[simp] theorem entries_empty : (∅ : Roster).entries = [] := rfl

theorem map_enroll (f : α → β) (path : String) (x : α) (entries : List (String × α)) :
    (enroll path x entries).map (Prod.map id f) =
      enroll path (f x) (entries.map (Prod.map id f)) := by
  have hkeys : (entries.map (Prod.map id f)).map (·.1) = entries.map (·.1) := by
    simp
  unfold enroll
  rw [hkeys]
  split
  · rw [List.map_map, List.map_map]
    apply List.map_congr_left
    intro entry _
    by_cases h : path = entry.1 <;> simp [h]
  · simp

theorem map_fst_enroll (path : String) (x : α) (entries : List (String × α)) :
    (enroll path x entries).map (·.1) =
      if path ∈ entries.map (·.1) then entries.map (·.1) else entries.map (·.1) ++ [path] := by
  unfold enroll
  split
  · rw [List.map_map]
    apply List.map_congr_left
    intro entry _
    by_cases h : path = entry.1 <;> simp [h]
  · simp

theorem entries_insert (roster : Roster) (path : String) (id : NodeId) :
    (roster.insert path id).entries = enroll path id roster.entries := by
  have hother : ∀ p, path ≠ p → ((roster.insert path id).get? p).map (p, ·) =
      (roster.get? p).map (p, ·) := by
    intro p hp
    rw [get?_insert, if_neg hp]
  unfold enroll
  rw [map_fst_entries]
  split
  · rename_i hmem
    rw [entries, entries, paths_insert, if_pos hmem, List.map_filterMap]
    apply List.filterMap_congr
    intro p hp
    by_cases h : path = p
    · subst h
      obtain ⟨old, hold⟩ := Option.isSome_iff_exists.1 (mem_paths.1 hp)
      simp [hold]
    · rw [hother p h]
      cases roster.get? p <;> simp [h]
  · rename_i hmem
    rw [entries, entries, paths_insert, if_neg hmem, List.filterMap_append]
    congr 1
    · apply List.filterMap_congr
      intro p hp
      exact hother p fun h => hmem (h ▸ hp)
    · simp

end Roster

namespace Place

/-- The definition that stands as an instance at this place. -/
def instanceOf (place : Place) : Option DefId :=
  match place.kind with
  | .inst .. => place.definitionId
  | _ => none

/-- A place is followed by all that lies under its children, unless it has no definition or one
that is open above it. -/
inductive Preorder (lookup : Lookup) : List Place → List Place → Prop
  | nil : Preorder lookup [] []
  | leave {place : Place} {rest order : List Place}
      (shut : ∀ d, place.definitionId = some d → d ∈ place.above)
      (after : Preorder lookup rest order) : Preorder lookup (place :: rest) (place :: order)
  | enter {place : Place} {rest below order : List Place} {d : DefId}
      (definition : place.definitionId = some d) (unopened : d ∉ place.above)
      (under : Preorder lookup (place.children lookup) below)
      (after : Preorder lookup rest order) :
      Preorder lookup (place :: rest) (place :: (below ++ order))

theorem Preorder.unique {lookup : Lookup} {places a b : List Place}
    (ha : Preorder lookup places a) (hb : Preorder lookup places b) : a = b := by
  induction ha generalizing b with
  | nil =>
    cases hb
    rfl
  | leave shut _ ih =>
    cases hb with
    | leave _ after => rw [ih after]
    | enter definition unopened => exact absurd (shut _ definition) unopened
  | enter definition unopened _ _ ihBelow ihAfter =>
    cases hb with
    | leave shut => exact absurd (shut _ definition) unopened
    | enter _ _ under after => rw [ihBelow under, ihAfter after]

/-- The instances of a definition among the places, by their paths. -/
def instances (d : DefId) (places : List Place) (known : List (String × Place)) :
    List (String × Place) :=
  places.foldl (fun known place =>
    if place.instanceOf = some d then Roster.enroll place.path place known else known) known

end Place

namespace Tree

/-- The entries of an index with what stands at their nodes. -/
def shownAt (tree : Tree) (entries : List (String × NodeId)) : List (String × Option Place) :=
  entries.map (Prod.map id tree.place?)

theorem instanceOf_of_place? {tree : Tree} {id : NodeId} {node : Node} {place : Place}
    (hplace : tree.place? id = some place) (hnode : tree.node? id = some node) :
    node.instanceOf = place.instanceOf := by
  rw [place?_of_node? hnode] at hplace
  cases hplace
  unfold Node.instanceOf Node.isInstance Place.instanceOf
  cases node.kind <;> rfl

theorem definitionId_of_place? {tree : Tree} {id : NodeId} {node : Node} {place : Place}
    (hplace : tree.place? id = some place) (hnode : tree.node? id = some node) :
    place.definitionId = node.definitionId := by
  rw [place?_of_node? hnode] at hplace
  cases hplace
  rfl

theorem Extends.map_place? {s t : Tree} (h : s.Extends t) (hs : s.WellFormed) (ht : t.WellFormed)
    {ids : List NodeId} (present : ∀ id ∈ ids, id.index < s.size) :
    ids.map t.place? = ids.map s.place? :=
  List.map_congr_left fun id hid => h.place? hs.parentsFirst ht.parentsFirst (present id hid)

/-- What depends on a node only through its place is the same along places. -/
theorem map_eq_of_places {tree : Tree} {visits : List NodeId} {places : List Place}
    (hplaces : visits.map tree.place? = places.map some) {f : NodeId → β} {g : Place → β}
    (h : ∀ v place, tree.place? v = some place → f v = g place) : visits.map f = places.map g := by
  induction visits generalizing places with
  | nil =>
    cases places with
    | nil => rfl
    | cons place others => cases hplaces
  | cons v rest ih =>
    cases places with
    | nil => cases hplaces
    | cons place others =>
      obtain ⟨hplace, hothers⟩ := List.cons.inj hplaces
      rw [List.map_cons, List.map_cons, h v place hplace, ih hothers]

end Tree

namespace Elaborator

section Traverses

variable {lookup : Lookup} {top : Symbol} {chain : List DefId} {id : NodeId} {rest : List NodeId}
  {place : Place} {others : List Place} {s : Elaborator}
  (sound : s.Sound lookup top) (hunder : s.tree.Under chain (id :: rest))
  (hplaces : (id :: rest).map s.tree.place? = (place :: others).map some)

include sound hunder hplaces

/-- The first of the nodes stands at the first of the places, and it stays there, as do the
others. -/
theorem places_cons :
    s.tree.place? id = some place ∧ place.above = chain.reverse ∧
      ∀ t, Grows lookup s t →
        t.tree.place? id = some place ∧ t.tree.Under chain rest ∧
          rest.map t.tree.place? = others.map some := by
  obtain ⟨hplace, hothers⟩ := List.cons.inj hplaces
  obtain ⟨hlt, hopen⟩ := hunder id List.mem_cons_self
  have hrest : s.tree.Under chain rest := fun r hr => hunder r (List.mem_cons_of_mem _ hr)
  refine ⟨hplace, ?_, ?_⟩
  · rw [← hopen]
    obtain ⟨node, -, rfl⟩ := Option.map_eq_some_iff.1 hplace
    rfl
  · intro t grows
    have ht := grows.wellFormed sound.formed
    refine ⟨?_, hrest.mono grows.extends sound.formed ht, ?_⟩
    · rw [grows.extends.place? sound.formed.parentsFirst ht.parentsFirst hlt, hplace]
    · rw [grows.extends.map_place? sound.formed ht fun r hr => (hrest r hr).1, hothers]

end Traverses

/-- A traversal visits the nodes at the places of the pre-order. -/
theorem Traverses.places {lookup : Lookup} {top : Symbol} {chain : List DefId}
    {ids visits : List NodeId} {s t : Elaborator} (h : Traverses lookup chain ids s visits t)
    (sound : s.Sound lookup top) (hunder : s.tree.Under chain ids) {places : List Place}
    (hplaces : ids.map s.tree.place? = places.map some) :
    ∃ order, visits.map t.tree.place? = order.map some ∧ Place.Preorder lookup places order := by
  induction h generalizing places with
  | nil =>
    cases places with
    | nil => exact ⟨[], rfl, .nil⟩
    | cons place others => cases hplaces
  | @leave chain id rest visits s t node found shut after ih =>
    cases places with
    | nil => cases hplaces
    | cons place others =>
      obtain ⟨hplace, habove, later⟩ := places_cons sound hunder hplaces
      obtain ⟨-, hrest, hothers⟩ := later s (.refl s)
      obtain ⟨order, horder, hpre⟩ := ih sound hrest hothers
      refine ⟨place :: order, ?_, .leave ?_ hpre⟩
      · rw [List.map_cons, List.map_cons, (later t after.grows).1, horder]
      · rw [habove, Tree.definitionId_of_place? hplace found]
        simpa using shut
  | @enter chain id rest below visits s m t node d found definition unopened under after ihBelow
      ihAfter =>
    cases places with
    | nil => cases hplaces
    | cons place others =>
      obtain ⟨hplace, habove, later⟩ := places_cons sound hunder hplaces
      -- whether the children were made just now or long ago, they stand at the places under this one
      have hgrows := grows_expand lookup s id
      have hsound := sound.grows hgrows
      have hchildren := hsound.places_of_children (later _ hgrows).1
        ((expansion_expand lookup s id).recorded found)
      obtain ⟨low, hlow, hpreLow⟩ := ihBelow hsound
        (under_expand lookup sound.formed found (hunder id List.mem_cons_self).2 definition) hchildren
      have hm := hsound.grows under.grows
      obtain ⟨-, hrest, hothers⟩ := later m (hgrows.trans under.grows)
      obtain ⟨order, horder, hpre⟩ := ihAfter hm hrest hothers
      refine ⟨place :: (low ++ order), ?_, .enter (d := d) ?_ ?_ hpreLow hpre⟩
      · rw [List.map_cons, List.map_append, List.map_cons, List.map_append,
          (later t (hgrows.trans (under.grows.trans after.grows))).1, horder,
          after.grows.extends.map_place? hm.formed (hm.grows after.grows).formed
            fun v hv => under.present hv, hlow]
      · rw [Tree.definitionId_of_place? hplace found, definition]
      · rw [habove]
        simpa using unopened

end Elaborator

namespace InstanceIndex

theorem instancesOf_note {tree : Tree} {id : NodeId} {node : Node} (found : tree.node? id = some node)
    (index : InstanceIndex) (d : DefId) :
    (note tree index id).instancesOf d =
      if node.instanceOf = some d then
        Roster.enroll ((tree.path? id).getD "") id (index.instancesOf d)
      else index.instancesOf d := by
  unfold instancesOf
  rw [entries_note found]
  cases node.instanceOf with
  | none => simp
  | some definition =>
    rw [Table.get?_update]
    by_cases hd : definition = d
    · subst hd
      cases index.entries.get? definition with
      | none => simpa using Roster.entries_insert ∅ _ _
      | some roster => simpa using Roster.entries_insert roster _ _
    · simp [hd]

/-- The instances that are noted along visits are those at the places that were visited. -/
theorem instancesOf_notes {tree : Tree} {visits : List NodeId} {places : List Place}
    (hplaces : visits.map tree.place? = places.map some) (d : DefId) {index : InstanceIndex}
    {known : List (String × Place)}
    (hknown : tree.shownAt (index.instancesOf d) = known.map (Prod.map id some)) :
    tree.shownAt ((visits.foldl (note tree) index).instancesOf d) =
      (Place.instances d places known).map (Prod.map id some) := by
  induction visits generalizing places index known with
  | nil =>
    cases places with
    | nil => exact hknown
    | cons place others => cases hplaces
  | cons v rest ih =>
    cases places with
    | nil => cases hplaces
    | cons place others =>
      obtain ⟨hplace, hothers⟩ := List.cons.inj hplaces
      obtain ⟨node, found, -⟩ := Option.map_eq_some_iff.1 hplace
      rw [List.foldl_cons, Place.instances, List.foldl_cons]
      apply ih hothers
      rw [instancesOf_note found, Tree.instanceOf_of_place? hplace found, Tree.path?_of_place? hplace,
        Option.getD_some]
      split
      · rw [Tree.shownAt, Roster.map_enroll, Roster.map_enroll, hplace]
        exact congrArg (Roster.enroll _ _) hknown
      · exact hknown

theorem definitions_congr {a b : InstanceIndex} (h : ∀ d, d ∈ a.definitions ↔ d ∈ b.definitions) :
    a.definitions = b.definitions := by
  have : Std.Irrefl DefId.Before := ⟨DefId.before_irrefl⟩
  have : Std.Antisymm DefId.Before :=
    ⟨fun x _ hxy hyx => absurd (DefId.before_trans hxy hyx) (DefId.before_irrefl x)⟩
  exact List.Pairwise.eq_of_mem_iff (DefId.pairwise_ascending _) (DefId.pairwise_ascending _) h

end InstanceIndex

namespace Indexer

/-- What a complete build shows, when these are the places it visited. -/
structure Finds (lookup : Lookup) (top : Symbol) (scale : UInt32) (run : Run Indexer Status)
    (places : List Place) : Prop where
  preorder : Place.Preorder lookup [.ofTop top] places
  complete : run.value = .complete ∧ run.state.index.status = .complete
  visited : run.state.index.visited = places.length
  truncated : run.state.index.truncated = places.countP (·.reenters)
  reports : run.journal.reports =
    (Estimate.start scale).announce (places.map fun place => .visiting place.path) ++
      [⟨((Estimate.start scale).after places.length).finish.1, .complete⟩]
  definitions : ∀ d, d ∈ run.state.index.definitions ↔ ∃ place ∈ places, place.instanceOf = some d
  instances : ∀ d, run.state.elaborator.tree.shownAt (run.state.index.instancesOf d) =
    (Place.instances d places []).map (Prod.map id some)

/-- A build finds what stands in the elaboration of the design. -/
theorem exists_finds {lookup : Lookup} {top : Symbol} {i : Indexer}
    (sound : i.elaborator.Sound lookup top) (scale : UInt32) :
    ∃ places, Finds lookup top scale ((build lookup scale none).run i) places := by
  have hi : (Pass.start i.elaborator scale).tree.WellFormed := sound.formed
  obtain ⟨stops, way, htour⟩ := exists_tour lookup scale hi
  obtain ⟨hvalue, hleft, hindex, hreports⟩ := build_of_tour (htour none)
  obtain ⟨visits, built⟩ := exists_built sound.formed hvalue
  obtain ⟨places, hplaces, hpre⟩ := @Elaborator.Traverses.places _ _ _ _ _ _ _ built.traverses sound
    (under_root sound.formed) [.ofTop top] (by rw [List.map_singleton, sound.place?_root]; rfl)
  have hlength : visits.length = places.length := by
    simpa using congrArg List.length hplaces
  -- the traversal gives the places and the tour gives the increments; both leave the same trail
  have hstops : stops.map (·.id) = visits := by
    have htrail := built.trail
    rw [hindex] at htrail
    exact (way.trail hi).symm.trans htrail
  refine ⟨places, hpre, ⟨hvalue, by rw [hindex]⟩, by rw [built.visited, hlength], ?truncated,
    ?reports, ?definitions, ?instances⟩
  case truncated =>
    have hre := Tree.map_eq_of_places hplaces fun _ _ => Tree.reenters_of_place?
    have hcount := congrArg (List.countP id) hre
    rw [List.countP_map, List.countP_map] at hcount
    rw [built.truncated]
    exact hcount
  case reports =>
    obtain ⟨hannounced, hestimate⟩ := way.reported hi
    have hstages := @Tree.map_eq_of_places _ _ _ _ hplaces
      (Pass.stage ((build lookup scale none).run i).state.elaborator.tree)
      (fun place => .visiting place.path) fun v place hplace => by
        rw [Pass.stage, Tree.path?_of_place? hplace, Option.getD_some]
    rw [← hstops, List.map_map, hleft] at hstages
    rw [hreports, hannounced, hestimate, ← hlength, ← hstops, List.length_map, ← hstages]
    rfl
  case definitions =>
    intro d
    have hsome := @Tree.map_eq_of_places _ _ _ _ hplaces
      (fun v => (((build lookup scale none).run i).state.elaborator.tree.node? v).bind (·.instanceOf))
      (·.instanceOf) fun v place hplace => by
        obtain ⟨node, found, -⟩ := Option.map_eq_some_iff.1 hplace
        rw [found, Option.bind_some, Tree.instanceOf_of_place? hplace found]
    have hmem := congrArg (some d ∈ ·) hsome
    simp only [List.mem_map, Option.bind_eq_some_iff, eq_iff_iff] at hmem
    rw [built.mem_definitions]
    exact hmem
  case instances =>
    intro d
    rw [built.noted]
    exact InstanceIndex.instancesOf_notes hplaces d rfl

/-- Whatever was browsed before, a build finds the same, up to the ids of nodes. So does one under a
limit to the number of nodes, if its tree stays below it. -/
theorem build_ignores_history {lookup : Lookup} {top : Symbol} {i j : Indexer}
    (hi : Elaborator.Reached lookup top i.elaborator)
    (hj : Elaborator.Reached lookup top j.elaborator) (scale : UInt32) :
    let a := (build lookup scale none).run i
    let b := (build lookup scale none).run j
    a.value = b.value ∧ a.state.index.status = b.state.index.status ∧
      a.state.index.visited = b.state.index.visited ∧
      a.state.index.truncated = b.state.index.truncated ∧
      a.journal.reports = b.journal.reports ∧
      a.state.index.definitions = b.state.index.definitions ∧
      (∀ d, ∃ found : List (String × Place),
        (a.state.index.instancesOf d).map
            (fun (path, id) => (path, a.state.elaborator.tree.place? id)) =
          found.map (fun (path, place) => (path, some place)) ∧
        (b.state.index.instancesOf d).map
            (fun (path, id) => (path, b.state.elaborator.tree.place? id)) =
          found.map (fun (path, place) => (path, some place))) ∧
      ∀ limit, a.state.nodeCount < limit → (build lookup scale none (some limit)).run i = a := by
  obtain ⟨places, ha⟩ := exists_finds hi.sound scale
  obtain ⟨others, hb⟩ := exists_finds hj.sound scale
  obtain rfl := ha.preorder.unique hb.preorder
  refine ⟨ha.complete.1.trans hb.complete.1.symm, ha.complete.2.trans hb.complete.2.symm,
    ha.visited.trans hb.visited.symm, ha.truncated.trans hb.truncated.symm,
    ha.reports.trans hb.reports.symm, ?_, fun d => ⟨_, ha.instances d, hb.instances d⟩,
    fun limit room => (bounded_build lookup limit scale none).run_eq room⟩
  apply InstanceIndex.definitions_congr
  intro d
  rw [ha.definitions, hb.definitions]

/-- Browsing below the inner instance of the self-nesting top, where no build goes, changes
nothing. -/
theorem build_ignores_history_selfNesting :
    let once := Indexer.browsedOnce.elaborator
    let twice := ((Elaborator.expand .selfNesting ⟨1⟩).run once).state
    let deep := ((Elaborator.expand .selfNesting ⟨2⟩).run twice).state
    let a := (build .selfNesting 64 none).run ⟨deep, {}⟩
    let b := (build .selfNesting 64 none).run .selfNesting
    deep.tree.isExpanded ⟨2⟩ ∧ b.state.index.visited = 3 ∧
      a.state.index.visited = b.state.index.visited ∧ a.journal.reports = b.journal.reports ∧
      a.state.index.definitions = b.state.index.definitions := by
  intro once twice deep a b
  have fresh : Elaborator.Reached .selfNesting .selfNesting Indexer.selfNesting.elaborator := .start
  have browsed : Elaborator.Reached .selfNesting .selfNesting deep :=
    .expand ⟨2⟩ (.expand ⟨1⟩ (.expand .root fresh (Call.leaves_run _ _)) (Call.leaves_run _ _))
      (Call.leaves_run _ _)
  have expanded : deep.tree.isExpanded ⟨2⟩ := by decide +kernel
  have visited : b.state.index.visited = 3 := by
    simp only [b, run_build]
    decide +kernel
  obtain ⟨-, -, hvisited, -, hreports, hdefinitions, -⟩ :=
    @build_ignores_history _ _ ⟨deep, {}⟩ .selfNesting browsed fresh 64
  exact ⟨expanded, visited, hvisited, hreports, hdefinitions⟩

end Indexer

end DesignHierarchy
