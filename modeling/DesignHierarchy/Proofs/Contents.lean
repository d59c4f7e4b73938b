import DesignHierarchy.Proofs.Browsing
import DesignHierarchy.Proofs.Replay
import DesignHierarchy.Proofs.Shortcut
import Mathlib.Data.Finset.Card

/-! What an index holds. Wherever its pass stopped, an index is determined by the
nodes that were visited: for each definition it lists the paths of the instances
among them, in the order of the first visits, each with the node that was visited
there last. Nodes can share their definition and their path, so an index may hold
less than was visited. -/
namespace DesignHierarchy

namespace Tree

/-- The definition and the path that the visit of a node is recorded under: only an instance with
a definition is recorded. -/
def entry? (tree : Tree) (id : NodeId) : Option (DefId × String) := do
  let node ← tree.node? id
  match node.kind with
  | .inst .. => return (← node.definitionId, ← tree.path? id)
  | _ => none

/-- The paths of the instances of a definition among visits, in the order of the first visits. -/
def pathsAmong (tree : Tree) (visits : List NodeId) (d : DefId) : List String :=
  (((visits.filterMap tree.entry?).filter (·.1 = d)).map (·.2)).eraseDups

/-- The last of the visits to an instance of a definition at a path. -/
def lastAmong (tree : Tree) (visits : List NodeId) (d : DefId) (path : String) : Option NodeId :=
  (visits.filter (tree.entry? · = some (d, path))).getLast?

variable {tree : Tree} {id : NodeId}

theorem entry?_eq_some_iff {d : DefId} {path : String} :
    tree.entry? id = some (d, path) ↔ tree.InstanceAt d path id := by
  unfold entry? InstanceAt Node.instanceOf Node.isInstance
  cases tree.node? id with
  | none => simp
  | some node => cases hkind : node.kind <;> simp [hkind, Option.bind_eq_some_iff]

theorem entry?_of_node? {node : Node} (found : tree.node? id = some node) {path : String}
    (hpath : tree.path? id = some path) :
    tree.entry? id = node.instanceOf.map (·, path) := by
  ext ⟨d, p⟩
  rw [entry?_eq_some_iff]
  simp [InstanceAt, found, hpath]

theorem entry?_eq_none_iff {node : Node} (found : tree.node? id = some node) :
    tree.entry? id = none ↔ ¬ node.isInstance ∨ node.isUnresolved := by
  obtain ⟨path, hpath⟩ := exists_path? (lt_size_of_node? found)
  rw [entry?_of_node? found hpath]
  unfold Node.instanceOf Node.isUnresolved Node.definitionId
  cases node.isInstance <;> cases node.definition <;> simp

variable {visits : List NodeId} {d : DefId} {path : String}

theorem mem_pathsAmong :
    path ∈ tree.pathsAmong visits d ↔ (d, path) ∈ visits.filterMap tree.entry? := by
  unfold pathsAmong
  rw [List.mem_eraseDups]
  simp

theorem isSome_lastAmong :
    (tree.lastAmong visits d path).isSome ↔ (d, path) ∈ visits.filterMap tree.entry? := by
  simp [lastAmong, List.mem_filterMap]

end Tree

theorem eraseDups_concat {α : Type} [DecidableEq α] (l : List α) (a : α) :
    (l ++ [a]).eraseDups = if a ∈ l then l.eraseDups else l.eraseDups ++ [a] := by
  rw [List.eraseDups_append]
  by_cases h : a ∈ l <;> simp [List.removeAll, List.eraseDups_cons, h]

namespace InstanceIndex

/-- A listing is known by its paths and the node at each of them. -/
theorem map_instancesOf (index : InstanceIndex) (d : DefId) :
    (index.instancesOf d).map (fun (path, id) => (path, some id)) =
      ((index.instancesOf d).map (·.1)).map fun path => (path, index.at? d path) := by
  rw [List.map_map]
  apply List.map_congr_left
  rintro ⟨path, id⟩ hmem
  simp [mem_instancesOf.1 hmem]

theorem nodup_paths (index : InstanceIndex) (d : DefId) :
    ((index.instancesOf d).map (·.1)).Nodup := by
  unfold instancesOf
  cases index.entries.get? d with
  | none => exact List.nodup_nil
  | some roster =>
    rw [Option.map_some, Option.getD_some, Roster.map_fst_entries]
    exact roster.paths_nodup

theorem nodup_definitions (index : InstanceIndex) : index.definitions.Nodup :=
  (DefId.pairwise_ascending _).imp fun hbefore => hbefore.ne

theorem length_definitions (index : InstanceIndex) :
    index.definitions.length = index.definitionCount := by
  have hperm : index.definitions.Perm index.entries.keys :=
    (List.perm_ext_iff_of_nodup index.nodup_definitions index.entries.keys_nodup).2
      fun _ => DefId.mem_ascending
  rw [hperm.length_eq, Table.keys, List.length_map, Table.length_entries, definitionCount]

/-- The definitions of an index with the paths of their instances. -/
def pairs (index : InstanceIndex) : List (DefId × String) :=
  index.entries.entries.flatMap fun (d, roster) => roster.paths.map (d, ·)

theorem mem_pairs {index : InstanceIndex} {d : DefId} {path : String} :
    (d, path) ∈ index.pairs ↔ (index.at? d path).isSome := by
  unfold pairs at?
  rw [List.mem_flatMap]
  constructor
  · rintro ⟨⟨e, roster⟩, hroster, hmem⟩
    obtain ⟨p, hp, heq⟩ := List.mem_map.1 hmem
    cases heq
    rw [Table.get?_eq_some_iff.2 hroster, Option.bind_some]
    exact Roster.mem_paths.1 hp
  · intro h
    obtain ⟨id, hid⟩ := Option.isSome_iff_exists.1 h
    obtain ⟨roster, hroster, hget⟩ := Option.bind_eq_some_iff.1 hid
    exact ⟨(d, roster), Table.get?_eq_some_iff.1 hroster,
      List.mem_map_of_mem (Roster.mem_paths.2 (by rw [hget]; rfl))⟩

theorem nodup_pairs (index : InstanceIndex) : index.pairs.Nodup := by
  refine List.nodup_flatMap.2 ⟨?_, ?_⟩
  · rintro ⟨d, roster⟩ -
    exact roster.paths_nodup.map (Prod.mk_right_injective d)
  · -- definitions are keys, so the pairs of two of them have nothing in common
    apply (List.pairwise_map.1 index.entries.keys_nodup).imp
    rintro ⟨d, _⟩ ⟨e, _⟩ hne ⟨f, path⟩ hd he
    obtain ⟨_, -, hd⟩ := List.mem_map.1 hd
    obtain ⟨_, -, he⟩ := List.mem_map.1 he
    cases hd
    cases he
    exact hne rfl

theorem length_pairs (index : InstanceIndex) :
    index.pairs.length = index.instanceCount := by
  unfold pairs instanceCount Table.values
  simp [List.length_flatMap, List.flatMap_map]

section Notes

variable {tree : Tree} {visits : List NodeId} (present : ∀ v ∈ visits, v.index < tree.size)
  (top : Symbol)

include present

theorem paths_notes (d : DefId) :
    ((visits.foldl (note tree) (.opened top)).instancesOf d).map (·.1) =
      tree.pathsAmong visits d := by
  unfold Tree.pathsAmong
  induction visits using List.reverseRecOn with
  | nil => rfl
  | append_singleton rest v ih =>
    obtain ⟨node, found⟩ := Tree.exists_node? (present v (by simp))
    obtain ⟨path, hpath⟩ := Tree.exists_path? (Tree.lt_size_of_node? found)
    have ih := ih fun w hw => present w (List.mem_append_left _ hw)
    rw [List.foldl_append, List.foldl_cons, List.foldl_nil, instancesOf_note found, hpath,
      Option.getD_some, List.filterMap_append, List.filter_append, List.map_append,
      List.filterMap_cons, List.filterMap_nil, Tree.entry?_of_node? found hpath]
    cases hinst : node.instanceOf with
    | none => simpa using ih
    | some e =>
      by_cases hd : e = d
      · subst hd
        rw [if_pos rfl, Roster.map_fst_enroll, ih]
        simp [eraseDups_concat]
      · simpa [hd] using ih

/-- At each path the last visit counts. -/
theorem at?_notes_eq (d : DefId) (path : String) :
    (visits.foldl (note tree) (.opened top)).at? d path = tree.lastAmong visits d path := by
  unfold Tree.lastAmong
  induction visits using List.reverseRecOn with
  | nil => rfl
  | append_singleton rest v ih =>
    obtain ⟨node, found⟩ := Tree.exists_node? (present v (by simp))
    rw [List.foldl_append, List.foldl_cons, List.foldl_nil, at?_note found,
      ih fun w hw => present w (List.mem_append_left _ hw), List.filter_append,
      List.getLast?_append]
    by_cases h : tree.InstanceAt d path v
    · have hv : node.instanceOf = some d ∧ tree.path? v = some path := by
        simpa [Tree.InstanceAt, found] using h
      simp [if_pos hv, Tree.entry?_eq_some_iff.2 h]
    · have hv : ¬ (node.instanceOf = some d ∧ tree.path? v = some path) := by
        simpa [Tree.InstanceAt, found] using h
      simp [if_neg hv, mt Tree.entry?_eq_some_iff.1 h]

end Notes

/-- The index has a note of each of these visits, and of nothing else. -/
structure NotedAlong (tree : Tree) (visits : List NodeId) (index : InstanceIndex) : Prop where
  present : ∀ v ∈ visits, v.index < tree.size
  noted : ∃ status, index = { visits.foldl (note tree) (.opened tree.top) with status }

namespace NotedAlong

variable {tree : Tree} {visits : List NodeId} {index : InstanceIndex}
  (h : index.NotedAlong tree visits)

include h

theorem trail : index.trail.toList = visits := by
  obtain ⟨status, rfl⟩ := h.noted
  exact trail_notes h.present _

theorem paths (d : DefId) : (index.instancesOf d).map (·.1) = tree.pathsAmong visits d := by
  obtain ⟨status, rfl⟩ := h.noted
  exact paths_notes h.present _ d

theorem at?_eq (d : DefId) (path : String) : index.at? d path = tree.lastAmong visits d path := by
  obtain ⟨status, rfl⟩ := h.noted
  exact at?_notes_eq h.present _ d path

/-- No definition is held without an instance. -/
theorem mem_definitions_iff (d : DefId) : d ∈ index.definitions ↔ index.instancesOf d ≠ [] := by
  rw [mem_definitions]
  constructor
  · intro hd
    obtain ⟨status, hindex⟩ := h.noted
    rw [hindex] at hd
    obtain ⟨v, hv, node, found, hinst⟩ | hd := (isSome_notes h.present _ d).1 hd
    · obtain ⟨path, hpath⟩ := Tree.exists_path? (h.present v hv)
      have hmem : path ∈ tree.pathsAmong visits d := Tree.mem_pathsAmong.2
        (List.mem_filterMap.2 ⟨v, hv, Tree.entry?_eq_some_iff.2 ⟨node, found, hinst, hpath⟩⟩)
      rw [← h.paths] at hmem
      obtain ⟨entry, hentry, -⟩ := List.mem_map.1 hmem
      exact List.ne_nil_of_mem hentry
    · cases hd
  · intro hne
    unfold instancesOf at hne
    cases hroster : index.entries.get? d with
    | none => simp [hroster] at hne
    | some roster => rfl

theorem instanceCount_eq :
    index.instanceCount = (visits.filterMap tree.entry?).toFinset.card := by
  rw [← length_pairs, ← List.toFinset_card_of_nodup index.nodup_pairs]
  congr 1
  ext ⟨d, path⟩
  rw [List.mem_toFinset, List.mem_toFinset, mem_pairs, h.at?_eq, Tree.isSome_lastAmong]

theorem instanceCount_le : index.instanceCount ≤ index.visited := by
  rw [h.instanceCount_eq, visited, ← Array.length_toList, h.trail]
  exact (List.toFinset_card_le _).trans (List.length_filterMap_le _ _)

end NotedAlong

end InstanceIndex

namespace Pass

variable {lookup : Lookup} {s m t : Pass}

/-- By these visits a pass comes from one state to the other. -/
structure Covers (lookup : Lookup) (s : Pass) (visits : List NodeId) (t : Pass) : Prop where
  grows : Elaborator.Grows lookup s.elaborator t.elaborator
  present : ∀ v ∈ visits, v.index < t.tree.size
  noted : t.index = visits.foldl (InstanceIndex.note t.tree) s.index

theorem Covers.refl (s : Pass) : Covers lookup s [] s where
  grows := .refl _
  present := by simp
  noted := rfl

theorem Covers.trans {a b : List NodeId} (hs : s.tree.WellFormed) (first : Covers lookup s a m)
    (second : Covers lookup m b t) : Covers lookup s (a ++ b) t where
  grows := first.grows.trans second.grows
  present := by
    intro v hv
    obtain hv | hv := List.mem_append.1 hv
    · exact (first.present v hv).trans_le second.grows.extends.size_le
    · exact second.present v hv
  noted := by
    have hm : m.tree.WellFormed := first.grows.wellFormed hs
    have ht : t.tree.WellFormed := second.grows.wellFormed hm
    have hext : m.tree.Extends t.tree := second.grows.extends
    rw [second.noted, first.noted, List.foldl_append,
      foldl_note_of_extends hext hm ht first.present]

theorem Noted.covers {stop : Stop} (hs : s.tree.WellFormed) (here : stop.At s.tree)
    (h : Noted lookup s stop t) : Covers lookup s [stop.id] t := by
  obtain ⟨hindex, grows⟩ := h
  have hext : s.tree.Extends t.tree := grows.extends
  have hlt := Tree.lt_size_of_node? here.found
  refine ⟨grows, ?_, ?_⟩
  · intro v hv
    cases List.mem_singleton.1 hv
    exact hlt.trans_le hext.size_le
  · rw [hindex, List.foldl_cons, List.foldl_nil,
      note_of_extends hext hs (grows.wellFormed hs) hlt]

/-- Wherever a tour is cancelled or abandoned, it has made the first of its visits. -/
theorem OnWay.meets_covers {stops : List Stop} (way : OnWay lookup s stops)
    (hs : s.tree.WellFormed) (cancelAfter : Option Nat) :
    ((tour lookup cancelAfter stops).run s).Meets
      (fun t => ∃ visits, visits <+: stops.map (·.id) ∧ Covers lookup s visits t)
      fun _ t => ∃ visits, visits <+: stops.map (·.id) ∧ Covers lookup s visits t := by
  induction way with
  | nil =>
    rw [tour, Call.run_pure, Run.meets_done]
    exact ⟨[], List.nil_prefix, .refl _⟩
  | @cons s stop rest here onward ih =>
    rw [run_tour_cons]
    split
    · rw [Run.meets_done]
      exact ⟨[], List.nil_prefix, .refl _⟩
    · have hvisit := @meets_noted lookup s stop here
      have hcovers := hvisit.2.covers hs here
      have hrest := ih (hvisit.2.2.wellFormed hs)
      have later : ∀ t, (∃ visits, visits <+: rest.map (·.id) ∧
            Covers lookup ((stop.call lookup).run s).state visits t) →
          ∃ visits, visits <+: (stop :: rest).map (·.id) ∧ Covers lookup s visits t := by
        rintro t ⟨visits, hbegin, ht⟩
        exact ⟨stop.id :: visits, List.cons_prefix_cons.2 ⟨rfl, hbegin⟩, hcovers.trans hs ht⟩
      refine (hvisit.imp ?_ fun _ _ ht => ht).bind_at (hrest.imp later fun _ => later)
      intro t ht
      exact ⟨[stop.id], List.cons_prefix_cons.2 ⟨rfl, List.nil_prefix⟩, ht.covers hs here⟩

end Pass

namespace Indexer

/-- Wherever a build is cancelled or abandoned, its index has a note of the first visits of the
full build. -/
theorem meets_build_noted (lookup : Lookup) {i : Indexer} (hi : i.elaborator.tree.WellFormed)
    (scale : UInt32) (cancelAfter : Option Nat) :
    let first (j : Indexer) := ∃ visits,
      visits <+: ((build lookup scale none).run i).state.index.trail.toList ∧
        j.index.NotedAlong j.elaborator.tree visits
    ((build lookup scale cancelAfter).run i).Meets first fun _ j => first j := by
  intro first
  obtain ⟨stops, way, htour⟩ := exists_tour lookup scale hi
  obtain ⟨-, -, hindex, -⟩ := build_of_tour (htour none)
  have htrail : ((build lookup scale none).run i).state.index.trail.toList = stops.map (·.id) := by
    rw [hindex]
    exact way.trail hi
  -- only the status is changed after the tour, and it is no part of the notes
  have noted : ∀ s : Pass, (∃ visits, visits <+: stops.map (·.id) ∧
      Pass.Covers lookup (.start i.elaborator scale) visits s) →
      ∀ status, first ⟨s.elaborator, { s.index with status }⟩ := by
    rintro s ⟨visits, hbegin, covers⟩ status
    refine ⟨visits, htrail ▸ hbegin, covers.present, status, ?_⟩
    rw [covers.noted, covers.grows.extends.top]
    rfl
  rw [run_build, htour]
  apply Run.Meets.within
  apply ((way.meets_covers hi cancelAfter).imp (fun s hs => noted s hs s.index.status)
    fun _ _ hs => hs).bind
  intro ending s hs
  cases ending with
  | outOfRoom => exact (Run.meets_done ..).2 (noted s hs s.index.status)
  | finished => exact (Run.meets_done ..).2 (noted s hs .complete)
  | cancelled => exact (Run.meets_done ..).2 (noted s hs .cancelled)

/-- What an index holds, however its build stopped: for each definition the paths of its visited
instances, in the order of the first visits, each path once and with the node that was visited there
last. -/
theorem contents_of_build {i : Indexer} (reached : i.elaborator.tree.Reached) (lookup : Lookup)
    (scale : UInt32) (cancelAfter polls : Option Nat) :
    let left := ((build lookup scale cancelAfter).drive polls i).state
    let tree := left.elaborator.tree
    let index := left.index
    let visits := index.trail.toList
    (polls = some 0 → left = i) ∧
    (polls ≠ some 0 →
      visits <+: ((build lookup scale none).run i).state.index.trail.toList ∧
      (∀ v ∈ visits, ∃ node, tree.node? v = some node ∧
        (tree.entry? v = none ↔ ¬ node.isInstance ∨ node.isUnresolved)) ∧
      (∀ d,
        (index.instancesOf d).map (fun (path, id) => (path, some id)) =
          (tree.pathsAmong visits d).map (fun path => (path, tree.lastAmong visits d path)) ∧
        ((index.instancesOf d).map (·.1)).Nodup ∧
        (d ∈ index.definitions ↔ index.instancesOf d ≠ [])) ∧
      index.definitions.Nodup ∧ index.definitions.length = index.definitionCount ∧
      index.instanceCount = (visits.filterMap tree.entry?).toFinset.card ∧
      index.instanceCount ≤ index.visited) := by
  intro left tree index visits
  refine ⟨fun unstarted => ?_, fun started => ?_⟩
  · subst unstarted
    rfl
  obtain ⟨along, hbegin, noted⟩ := Call.holds_of_started started
    (meets_build_noted lookup reached.wellFormed scale cancelAfter) fun _ _ h => h
  obtain rfl : visits = along := noted.trail
  refine ⟨hbegin, ?_, ?_, index.nodup_definitions, index.length_definitions,
    noted.instanceCount_eq, noted.instanceCount_le⟩
  · intro v hv
    obtain ⟨node, found⟩ := Tree.exists_node? (noted.present v hv)
    exact ⟨node, found, Tree.entry?_eq_none_iff found⟩
  · intro d
    refine ⟨?_, index.nodup_paths d, noted.mem_definitions_iff d⟩
    rw [index.map_instancesOf, noted.paths]
    apply List.map_congr_left
    intro path _
    rw [noted.at?_eq]

/-- A build that is abandoned when it has visited three cells, the last with the name of the first:
that name keeps its place, now with the last cell. -/
theorem contents_of_build_sharedName :
    let children : List Decl := [.cellNamed "u", .cellNamed "v", .cellNamed "u"]
    ∃ left, left = ((build (.cellAndTop children) 64 none).drive (some 4)
        ⟨⟨.ofTop (.topOver children), ∅⟩, {}⟩).state ∧
      left.index.status = .inProgress ∧ left.index.visited = 4 ∧
      (left.index.instancesOf Symbol.cell.id).map (fun (path, id) => (path, some id)) =
        [("top.u", some ⟨3⟩), ("top.v", some ⟨2⟩)] ∧
      Symbol.cell.id ∈ left.index.definitions ∧ left.index.instanceCount = 2 := by
  intro children
  obtain ⟨-, started⟩ := @contents_of_build ⟨⟨.ofTop (.topOver children), ∅⟩, {}⟩
    (.ofTop (.topOver children)) (.cellAndTop children) 64 none (some 4)
  obtain ⟨-, -, listing, -, -, count, -⟩ := started (by decide)
  obtain ⟨listed, -, held⟩ := listing Symbol.cell.id
  refine ⟨_, rfl, ?status, ?visited, listed.trans ?paths, held.2 ?nonempty, count.trans ?pairs⟩
  all_goals simp only [Call.drive, run_build]
  all_goals decide +kernel

end Indexer

end DesignHierarchy
