import DesignHierarchy.Proofs.Capacity
import DesignHierarchy.Proofs.Frontier
import DesignHierarchy.Proofs.Room

/-! Complete builds. A build that comes to its end has traversed the hierarchy
from the root, and its index can be read off the nodes of the traversal. -/
namespace DesignHierarchy

/-- The node is an instance of the definition and has this path. -/
def Tree.InstanceAt (tree : Tree) (d : DefId) (path : String) (id : NodeId) : Prop :=
  ∃ node, tree.node? id = some node ∧ node.instanceOf = some d ∧ tree.path? id = some path

theorem Tree.exists_path? {tree : Tree} {id : NodeId} (h : id.index < tree.size) :
    ∃ path, tree.path? id = some path := by
  simp [path?, contains, h]

namespace InstanceIndex

/-- The instance of a definition that is recorded under just this path. -/
def at? (index : InstanceIndex) (d : DefId) (path : String) : Option NodeId :=
  (index.entries.get? d).bind (·.get? path)

theorem mem_instancesOf {index : InstanceIndex} {d : DefId} {path : String} {id : NodeId} :
    (path, id) ∈ index.instancesOf d ↔ index.at? d path = some id := by
  unfold instancesOf at?
  cases index.entries.get? d with
  | none => simp
  | some roster =>
    simp only [Option.map_some, Option.getD_some, Option.bind_some, Roster.entries,
      List.mem_filterMap, Option.map_eq_some_iff, Prod.mk.injEq]
    constructor
    · rintro ⟨other, -, found, hfound, rfl, rfl⟩
      exact hfound
    · intro h
      exact ⟨path, Roster.mem_paths.2 (by simp [h]), id, h, rfl, rfl⟩

section Note

variable {tree : Tree} {id : NodeId} {node : Node} (found : tree.node? id = some node)

include found

theorem trail_note (index : InstanceIndex) : (note tree index id).trail = index.trail.push id := by
  simp only [note, found, visit]
  cases node.instanceOf <;> split <;> rfl

theorem cut_note (index : InstanceIndex) :
    (note tree index id).cut = if tree.reenters id then index.cut.push id else index.cut := by
  simp only [note, found, visit]
  cases node.instanceOf <;> split <;> rfl

theorem entries_note (index : InstanceIndex) :
    (note tree index id).entries =
      match node.instanceOf with
      | some definition => index.entries.update definition fun roster =>
          (roster.getD ∅).insert ((tree.path? id).getD "") id
      | none => index.entries := by
  simp only [note, found, visit]
  cases node.instanceOf <;> split <;> rfl

theorem isSome_note (index : InstanceIndex) (d : DefId) :
    ((note tree index id).entries.get? d).isSome ↔
      node.instanceOf = some d ∨ (index.entries.get? d).isSome := by
  rw [entries_note found]
  cases node.instanceOf with
  | none => simp
  | some definition =>
    rw [Table.get?_update]
    by_cases hd : definition = d <;> simp [hd]

theorem at?_note (index : InstanceIndex) (d : DefId) (path : String) :
    (note tree index id).at? d path =
      if node.instanceOf = some d ∧ tree.path? id = some path then some id
      else index.at? d path := by
  obtain ⟨own, hown⟩ := Tree.exists_path? (Tree.lt_size_of_node? found)
  unfold at?
  rw [entries_note found, hown]
  cases node.instanceOf with
  | none => simp
  | some definition =>
    rw [Table.get?_update]
    by_cases hd : definition = d
    · subst hd
      by_cases hp : own = path
      · simp [hp]
      · cases index.entries.get? definition <;> simp [hp]
    · simp [hd]

end Note

theorem mem_definitions {index : InstanceIndex} {d : DefId} :
    d ∈ index.definitions ↔ (index.entries.get? d).isSome := by
  rw [definitions, DefId.mem_ascending, Option.isSome_iff_ne_none, Ne, Table.get?_eq_none_iff]
  simp

theorem top_note (tree : Tree) (index : InstanceIndex) (id : NodeId) :
    (note tree index id).top = index.top := by
  unfold note
  split
  · rfl
  · rename_i node _
    unfold visit
    cases node.instanceOf <;> dsimp only <;> split <;> rfl

theorem top_notes (tree : Tree) (visits : List NodeId) (index : InstanceIndex) :
    (visits.foldl (note tree) index).top = index.top := by
  induction visits generalizing index with
  | nil => rfl
  | cons id rest ih => rw [List.foldl_cons, ih, top_note]

section Notes

variable {tree : Tree} {visits : List NodeId} (present : ∀ v ∈ visits, v.index < tree.size)

include present

theorem trail_notes (index : InstanceIndex) :
    (visits.foldl (note tree) index).trail.toList = index.trail.toList ++ visits := by
  induction visits generalizing index with
  | nil => simp
  | cons id rest ih =>
    obtain ⟨node, found⟩ := Tree.exists_node? (present id List.mem_cons_self)
    rw [List.foldl_cons, ih fun v hv => present v (List.mem_cons_of_mem _ hv), trail_note found]
    simp

theorem isSome_notes (index : InstanceIndex) (d : DefId) :
    ((visits.foldl (note tree) index).entries.get? d).isSome ↔
      (∃ v ∈ visits, ∃ node, tree.node? v = some node ∧ node.instanceOf = some d) ∨
        (index.entries.get? d).isSome := by
  induction visits generalizing index with
  | nil => simp
  | cons id rest ih =>
    obtain ⟨node, found⟩ := Tree.exists_node? (present id List.mem_cons_self)
    rw [List.foldl_cons, ih fun v hv => present v (List.mem_cons_of_mem _ hv), isSome_note found]
    simp only [List.mem_cons, exists_eq_or_imp, found, Option.some.injEq, exists_eq_left', or_assoc,
      or_left_comm]

theorem at?_notes {index : InstanceIndex} {d : DefId} {path : String} {id : NodeId}
    (h : (visits.foldl (note tree) index).at? d path = some id) :
    id ∈ visits ∧ tree.InstanceAt d path id ∨ index.at? d path = some id := by
  induction visits generalizing index with
  | nil => exact .inr h
  | cons v rest ih =>
    obtain ⟨node, found⟩ := Tree.exists_node? (present v List.mem_cons_self)
    obtain ⟨hmem, hat⟩ | h := ih (fun v hv => present v (List.mem_cons_of_mem _ hv)) h
    · exact .inl ⟨List.mem_cons_of_mem _ hmem, hat⟩
    · rw [at?_note found] at h
      split at h
      · rename_i hat
        cases h
        exact .inl ⟨List.mem_cons_self, node, found, hat⟩
      · exact .inr h

theorem isSome_at?_notes {index : InstanceIndex} {d : DefId} {path : String}
    (h : (∃ v ∈ visits, tree.InstanceAt d path v) ∨ (index.at? d path).isSome) :
    ((visits.foldl (note tree) index).at? d path).isSome := by
  induction visits generalizing index with
  | nil => simpa using h
  | cons v rest ih =>
    obtain ⟨node, found⟩ := Tree.exists_node? (present v List.mem_cons_self)
    apply ih (fun v hv => present v (List.mem_cons_of_mem _ hv))
    rw [at?_note found]
    obtain ⟨w, hw, hat⟩ | h := h
    · obtain rfl | hw := List.mem_cons.1 hw
      · obtain ⟨node', found', hat⟩ := hat
        rw [found] at found'
        cases found'
        exact .inr (by rw [if_pos hat]; rfl)
      · exact .inl ⟨w, hw, hat⟩
    · right
      split
      · rfl
      · exact h

/-- The nodes that are cut off are those whose definition is open above them. -/
theorem cut_notes (index : InstanceIndex) :
    (visits.foldl (note tree) index).cut.toList =
      index.cut.toList ++ visits.filter tree.reenters := by
  induction visits generalizing index with
  | nil => simp
  | cons id rest ih =>
    obtain ⟨node, found⟩ := Tree.exists_node? (present id List.mem_cons_self)
    rw [List.foldl_cons, ih fun v hv => present v (List.mem_cons_of_mem _ hv), cut_note found]
    cases hre : tree.reenters id <;> simp [hre]

end Notes

end InstanceIndex

namespace Indexer

/-- What a complete build from `i` did, when these are the nodes of its traversal. -/
structure Built (lookup : Lookup) (i : Indexer) (run : Run Indexer Status)
    (visits : List NodeId) : Prop where
  traverses : Elaborator.Traverses lookup [] [.root] i.elaborator visits run.state.elaborator
  noted : run.state.index =
    { visits.foldl (InstanceIndex.note run.state.elaborator.tree) (.opened i.elaborator.tree.top)
      with status := .complete }
  reported : run.journal.reports.map (·.stage) =
    visits.map (Pass.stage run.state.elaborator.tree) ++ [.complete]

theorem under_root {tree : Tree} (h : tree.WellFormed) : tree.Under [] [.root] := by
  intro id hid
  cases List.mem_singleton.1 hid
  exact ⟨tree.nonempty, h.openAbove_root⟩

variable {lookup : Lookup} {scale : UInt32} {cancelAfter : Option Nat} {i : Indexer}

theorem exists_built (hi : i.elaborator.tree.WellFormed)
    (h : ((build lookup scale cancelAfter).run i).value = .complete) :
    ∃ visits, Built lookup i ((build lookup scale cancelAfter).run i) visits := by
  have hend := finished_of_build h
  obtain ⟨-, hleft, hindex, hreports⟩ := build_of_finished hend
  obtain ⟨visits, htraverses, hnoted, hreported⟩ := @Pass.course_sweep lookup cancelAfter
    (Pass.room lookup i.elaborator) [] [.root] (Pass.start i.elaborator scale) hi (under_root hi) hend
  have hstate : ((build lookup scale cancelAfter).run i).state.elaborator.tree =
      (sweeping lookup scale cancelAfter i).state.tree := congrArg Elaborator.tree hleft
  refine ⟨visits, ?_, ?_, ?_⟩
  · rw [hleft]
    exact htraverses
  · rw [hindex, hstate]
    exact congrArg (fun index : InstanceIndex => { index with status := .complete }) hnoted
  · rw [hreports, hstate]
    exact congrArg (· ++ [.complete]) hreported

namespace Built

variable {run : Run Indexer Status} {visits : List NodeId}

theorem present (h : Built lookup i run visits) {v : NodeId} (hv : v ∈ visits) :
    v.index < run.state.elaborator.tree.size :=
  h.traverses.present hv

theorem wellFormed (h : Built lookup i run visits) (hi : i.elaborator.tree.WellFormed) :
    run.state.elaborator.tree.WellFormed :=
  h.traverses.grows.wellFormed hi

theorem nodup (h : Built lookup i run visits) (hi : i.elaborator.tree.WellFormed) : visits.Nodup :=
  h.traverses.nodup hi (under_root hi) (.refl _) (h.wellFormed hi) (List.pairwise_singleton _ _)

theorem trail (h : Built lookup i run visits) : run.state.index.trail.toList = visits := by
  rw [h.noted]
  have htrail := InstanceIndex.trail_notes (fun _ => h.present)
    (.opened i.elaborator.tree.top)
  simpa [InstanceIndex.opened] using htrail

theorem cut (h : Built lookup i run visits) :
    run.state.index.cut.toList = visits.filter run.state.elaborator.tree.reenters := by
  rw [h.noted]
  have hcut := InstanceIndex.cut_notes (fun _ => h.present) (.opened i.elaborator.tree.top)
  simpa [InstanceIndex.opened] using hcut

theorem top (h : Built lookup i run visits) :
    run.state.index.top = some run.state.elaborator.tree.top := by
  rw [h.noted, h.traverses.grows.extends.top]
  exact InstanceIndex.top_notes _ _ _

theorem visited (h : Built lookup i run visits) : run.state.index.visited = visits.length := by
  rw [InstanceIndex.visited, ← Array.length_toList, h.trail]

theorem truncated (h : Built lookup i run visits) :
    run.state.index.truncated = visits.countP run.state.elaborator.tree.reenters := by
  rw [InstanceIndex.truncated, ← Array.length_toList, h.cut, List.countP_eq_length_filter]

theorem root_mem (h : Built lookup i run visits) : .root ∈ visits :=
  h.traverses.mem_of_mem (List.mem_singleton.2 rfl)

/-- Induction over the visited nodes, from the root down. -/
theorem visitInduction (h : Built lookup i run visits) (hi : i.elaborator.tree.WellFormed)
    {motive : NodeId → Prop} (root : motive .root)
    (below : ∀ p cs c, p ∈ visits → run.state.elaborator.tree.reenters p = false →
      run.state.elaborator.tree.children? p = some cs → c ∈ cs → motive p → motive c)
    {v : NodeId} (hv : v ∈ visits) : motive v := by
  have hwf := h.wellFormed hi
  induction hn : v.index using Nat.strongRecOn generalizing v with
  | ind n ih =>
    obtain hroot | ⟨p, hp, hre, cs, hcs, hmem⟩ :=
      h.traverses.origin hi (under_root hi) (.refl _) hwf hv
    · rw [List.mem_singleton.1 hroot]
      exact root
    · have hlt := hwf.parentsFirst.lt (hwf.parent?_of_mem hcs hmem)
      exact below p cs v hp hre hcs hmem (ih p.index (by omega) hp rfl)

/-- Everything above a visited node was visited and entered. -/
theorem above (h : Built lookup i run visits) (hi : i.elaborator.tree.WellFormed) {v a : NodeId}
    (hv : v ∈ visits) (ha : a ∈ run.state.elaborator.tree.ancestors v) :
    a ∈ visits ∧ run.state.elaborator.tree.reenters a = false := by
  have hwf := h.wellFormed hi
  refine h.visitInduction hi (motive := fun v => a ∈ run.state.elaborator.tree.ancestors v →
    a ∈ visits ∧ run.state.elaborator.tree.reenters a = false) ?root ?below hv ha
  case root =>
    intro ha
    rw [hwf.ancestors_root] at ha
    cases ha
  case below =>
    intro p cs c hp hre hcs hc ih ha
    rw [Tree.ancestors_of_parent? hwf.parentsFirst (hwf.parent?_of_mem hcs hc)] at ha
    obtain rfl | ha := List.mem_cons.1 ha
    · exact ⟨hp, hre⟩
    · exact ih ha

theorem children_mem (h : Built lookup i run visits) (hi : i.elaborator.tree.WellFormed)
    {v : NodeId} (hv : v ∈ visits) {node : Node}
    (hnode : run.state.elaborator.tree.node? v = some node) (hdef : node.definition.isSome)
    (hre : run.state.elaborator.tree.reenters v = false) :
    ∃ cs, run.state.elaborator.tree.children? v = some cs ∧ ∀ c ∈ cs, c ∈ visits :=
  h.traverses.covers hi (under_root hi) (.refl _) (h.wellFormed hi) hv hnode hdef hre

theorem root_expanded (h : Built lookup i run visits) (hi : i.elaborator.tree.WellFormed) :
    ∃ cs, run.state.elaborator.tree.children? .root = some cs := by
  have hwf := h.wellFormed hi
  obtain ⟨cs, hcs, -⟩ := h.children_mem hi h.root_mem hwf.root rfl hwf.reenters_root
  exact ⟨cs, hcs⟩

theorem mem_definitions (h : Built lookup i run visits) {d : DefId} :
    d ∈ run.state.index.definitions ↔
      ∃ v ∈ visits, ∃ node, run.state.elaborator.tree.node? v = some node ∧
        node.instanceOf = some d := by
  rw [InstanceIndex.mem_definitions, h.noted]
  dsimp only
  rw [InstanceIndex.isSome_notes fun _ => h.present]
  simp [InstanceIndex.opened]

theorem at? (h : Built lookup i run visits) {d : DefId} {path : String} {id : NodeId}
    (hat : run.state.index.at? d path = some id) :
    id ∈ visits ∧ run.state.elaborator.tree.InstanceAt d path id := by
  rw [h.noted] at hat
  obtain hat | hat := InstanceIndex.at?_notes (fun _ => h.present) hat
  · exact hat
  · simp [InstanceIndex.at?, InstanceIndex.opened] at hat

theorem isSome_at? (h : Built lookup i run visits) {d : DefId} {path : String} {v : NodeId}
    (hv : v ∈ visits) (hat : run.state.elaborator.tree.InstanceAt d path v) :
    (run.state.index.at? d path).isSome := by
  rw [h.noted]
  exact InstanceIndex.isSome_at?_notes (fun _ => h.present) (.inl ⟨v, hv, hat⟩)

/-- A definition that is named has an instance. -/
theorem instancesOf_ne_nil (h : Built lookup i run visits) {d : DefId}
    (hd : d ∈ run.state.index.definitions) : run.state.index.instancesOf d ≠ [] := by
  obtain ⟨v, hv, node, hnode, hinst⟩ := h.mem_definitions.1 hd
  obtain ⟨path, hpath⟩ := Tree.exists_path? (h.present hv)
  obtain ⟨id, hid⟩ := Option.isSome_iff_exists.1 (h.isSome_at? hv ⟨node, hnode, hinst, hpath⟩)
  exact List.ne_nil_of_mem (InstanceIndex.mem_instancesOf.2 hid)

theorem messages (h : Built lookup i run visits) :
    ∃ paths : List String, visits.map run.state.elaborator.tree.path? = paths.map some ∧
      run.journal.reports.map (·.stage.message) =
        paths.map ("Indexing " ++ ·) ++ ["Indexing complete"] := by
  refine ⟨visits.map fun v => (run.state.elaborator.tree.path? v).getD "", ?_, ?_⟩
  · rw [List.map_map]
    apply List.map_congr_left
    intro v hv
    simp [Tree.path?, Tree.contains, h.present hv]
  · have hmap := congrArg (List.map Stage.message) h.reported
    rw [List.map_map, List.map_append, List.map_map] at hmap
    rw [List.map_map]
    exact hmap

/-- From the root alone, every node there is in the end is visited. -/
theorem visited_all (h : Built lookup i run visits) (hi : i.elaborator.tree.WellFormed)
    (alone : i.elaborator.tree.size = 1) : visits.length = run.state.elaborator.tree.size := by
  have hbare : (i.elaborator.tree.children? .root).getD [] = [] := by
    cases hcs : i.elaborator.tree.children? .root with
    | none => rfl
    | some cs =>
      apply List.eq_nil_iff_forall_not_mem.2
      intro c hc
      have hparent := (hi.listed hi.root hcs).parents c hc
      have hlt := hi.parentsFirst.lt hparent
      have hsize := Tree.lt_size_of_parent? hparent
      omega
  have hsize := (h.traverses.size_add_length hi (under_root hi) (List.nodup_singleton _) (by
    intro id hid
    rw [List.mem_singleton.1 hid]
    exact hbare)).1
  rw [List.length_singleton] at hsize
  omega

end Built

/-- A build that nobody cancels visits the pre-order of the hierarchy, each node once, however
much of the hierarchy was there before. On the way, its stack and path agree with the hierarchy,
and no limit matters that the hierarchy stays below. -/
theorem build_visits_preorder {top : Symbol}
    (reached : Elaborator.Reached lookup top i.elaborator) (scale : UInt32) :
    let run := (build lookup scale none).run i
    let tree := run.state.elaborator.tree
    ∃ (visits : List NodeId) (paths : List String),
      Elaborator.Traverses lookup [] [.root] i.elaborator visits run.state.elaborator ∧
      (∀ visits' e, Elaborator.Traverses lookup [] [.root] i.elaborator visits' e →
        visits' = visits) ∧
      visits.map tree.path? = paths.map some ∧
      run.journal.reports.map (·.stage.message) =
        paths.map ("Indexing " ++ ·) ++ ["Indexing complete"] ∧
      run.state.index.trail.toList = visits ∧ run.state.index.visited = visits.length ∧
      visits.Nodup ∧ run.state.index.truncated = visits.countP tree.reenters ∧
      (i.elaborator.tree.size = 1 → run.state.index.visited = tree.size) ∧
      (∀ frontier, Relation.ReflTransGen (Pass.Frontier.Turn lookup none)
          (.start (Pass.start i.elaborator scale)) frontier → frontier.Aligned ∧
        (frontier.stack ≠ #[] → ∃ next, Pass.Frontier.Turn lookup none frontier next) ∧
        (frontier.resume lookup none (Pass.room lookup i.elaborator)).state.elaborator =
          run.state.elaborator) ∧
      ∀ limit, run.state.nodeCount < limit →
        (build lookup scale none (some limit)).run i = run := by
  have hi := reached.sound.formed
  have hend := finished_sweeping lookup i scale
  obtain ⟨hvalue, hleft, -⟩ := build_of_finished hend
  obtain ⟨visits, hbuilt⟩ := exists_built hi hvalue
  obtain ⟨paths, hpaths, hmessages⟩ := hbuilt.messages
  refine ⟨visits, paths, hbuilt.traverses, ?_, hpaths, hmessages, hbuilt.trail, hbuilt.visited,
    hbuilt.nodup hi, hbuilt.truncated, ?_, ?_,
    fun limit room => (bounded_build lookup limit scale none).run_eq room⟩
  · intro visits' e h
    exact (h.unique hbuilt.traverses).1
  · intro alone
    rw [hbuilt.visited]
    exact hbuilt.visited_all hi alone
  · intro frontier turns
    rw [sweeping, ← Pass.loop_eq_sweep] at hend hleft
    obtain ⟨-, hstate⟩ := Pass.Frontier.resume_of_turns turns hend
    have hstart : (Pass.start i.elaborator scale).tree.WellFormed := hi
    refine ⟨Pass.Frontier.aligned_of_turns hstart turns, Pass.Frontier.exists_turn lookup, ?_⟩
    rw [hstate, hleft]
    rfl

/-- After the first turn the block is on the stack, below the definition that the root opened. -/
theorem build_visits_preorder_selfNesting :
    let first := (Pass.turn .selfNesting none none [] .root 0).run
      (Pass.start Indexer.selfNesting.elaborator 64)
    ((build .selfNesting 64 none).run .selfNesting).state.index.visited =
      ((build .selfNesting 64 none).run .selfNesting).state.elaborator.tree.size ∧
    ((build .selfNesting 64 none).run .browsedOnce).state.index.trail.toList.Nodup ∧
    Pass.Frontier.Aligned ⟨first.state, #[(⟨1⟩, 1)], [Symbol.selfNesting.id]⟩ := by
  intro first
  have fresh : Elaborator.Reached .selfNesting .selfNesting Indexer.selfNesting.elaborator := .start
  have browsed : Elaborator.Reached .selfNesting .selfNesting Indexer.browsedOnce.elaborator :=
    .expand .root fresh (Call.leaves_run _ _)
  obtain ⟨_, _, -, -, -, -, -, -, -, -, hall, hturns, -⟩ := build_visits_preorder fresh 64
  obtain ⟨visits, _, -, -, -, -, htrail, -, hnodup, -⟩ := build_visits_preorder browsed 64
  have answer : first.value = some ([Symbol.selfNesting.id], [⟨1⟩]) := by decide +kernel
  have turned := @Pass.Frontier.Turn.take .selfNesting none _ #[] .root 0 [] _ _ answer
  refine ⟨hall rfl, ?_, (hturns _ (.single turned)).1⟩
  rw [htrail]
  exact hnodup

end Indexer

end DesignHierarchy
