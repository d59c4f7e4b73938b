import DesignHierarchy.Proofs.Halting
import DesignHierarchy.Proofs.Identity
import DesignHierarchy.Proofs.ScopeGraph
import Mathlib.Data.List.Pairwise

/-! Recursive designs. A pass cuts a node off by the definitions on its way down, a
view marks an instance by the nodes above it, and the two agree. Blocks bear no mark.
In a loaded design they need none: a block is declared in one scope only, so where it
comes round again that scope has come round before it and was cut off itself. -/
namespace DesignHierarchy

namespace Symbol

mutual

theorem perm_walk : ∀ root : Symbol,
    root.walk.Perm (root :: root.walk.flatMap (·.children))
  | ⟨id, name, kind, typeRef, location, children⟩ => by
    rw [walk_eq, List.flatMap_cons]
    exact (perm_walkAll children).cons _

/-- Every declaration is one of the outermost or a child of a declaration, and only once. -/
theorem perm_walkAll : ∀ symbols : List Symbol,
    (walkAll symbols).Perm (symbols ++ (walkAll symbols).flatMap (·.children))
  | [] => by simp [walkAll]
  | root :: rest => by
    rw [walkAll, List.flatMap_append]
    have hboth := (perm_walk root).append (perm_walkAll rest)
    refine hboth.trans ?_
    rw [List.cons_append, List.cons_append, ← List.append_assoc, ← List.append_assoc]
    exact (List.perm_append_comm.append_right _).cons _

end

/-- A declaration has one scope. -/
theorem eq_of_mem_children {symbols : List Symbol} (nodup : (walkAll symbols).Nodup)
    {scope other child : Symbol} (hscope : scope ∈ walkAll symbols)
    (hother : other ∈ walkAll symbols) (hchild : child ∈ scope.children)
    (hchild' : child ∈ other.children) : scope = other := by
  have hall := (perm_walkAll symbols).nodup_iff.1 nodup
  have hdisjoint := (List.nodup_flatMap.1 (List.nodup_append.1 hall).2.1).2
  have : Std.Symm (Function.onFun List.Disjoint fun symbol : Symbol => symbol.children) :=
    ⟨fun _ _ h => h.symm⟩
  by_contra hne
  exact hdisjoint.forall hscope hother hne hchild hchild'

end Symbol

namespace Store

variable {store : Store}

theorem symbols_eq_walkAll (store : Store) :
    store.symbols = Symbol.walkAll (store.sources.flatMap (·.symbols)) := by
  unfold symbols
  simp only [Symbol.walkAll_eq_flatMap, List.flatMap_assoc]

theorem Reached.eq_of_mem_children (loaded : Reached store) {scope other child : Symbol}
    (hscope : scope ∈ store.symbols) (hother : other ∈ store.symbols)
    (hchild : child ∈ scope.children) (hchild' : child ∈ other.children) : scope = other := by
  have nodup := loaded.nodup_ids.of_map
  rw [symbols_eq_walkAll] at nodup hscope hother
  exact Symbol.eq_of_mem_children nodup hscope hother hchild hchild'

end Store

namespace Tree

variable {tree : Tree} {v p : NodeId}

theorem openAbove_eq_append (h : tree.ParentsFirst) (hp : tree.parent? v = some p) :
    tree.openAbove v = ((tree.node? p).bind (·.definitionId)).toList ++ tree.openAbove p := by
  rw [openAbove_of_parent? h hp, openDefinitions, List.filterMap_cons, ← openAbove]
  cases (tree.node? p).bind (·.definitionId) <;> rfl

theorem reenters_eq_false_iff : tree.reenters v = false ↔
    ∀ d, (tree.node? v).bind (·.definitionId) = some d → d ∉ tree.openAbove v := by
  unfold reenters
  cases tree.node? v with
  | none => simp
  | some node => cases hd : node.definitionId <;> simp [hd]

/-- No definition is open twice above a node, if each node above was entered. -/
theorem nodup_openAbove (h : tree.ParentsFirst)
    (entered : ∀ a ∈ tree.ancestors v, tree.reenters a = false) : (tree.openAbove v).Nodup := by
  induction hn : v.index using Nat.strongRecOn generalizing v with
  | ind n ih =>
    cases hp : tree.parent? v with
    | none => simp [openAbove, ancestors_eq h, hp]
    | some p =>
      rw [ancestors_of_parent? h hp] at entered
      have habove := ih p.index (hn ▸ h.lt hp)
        (fun a ha => entered a (List.mem_cons_of_mem _ ha)) rfl
      have hnew := reenters_eq_false_iff.1 (entered p List.mem_cons_self)
      rw [openAbove_eq_append h hp]
      cases hd : (tree.node? p).bind (·.definitionId) with
      | none => exact habove
      | some d => exact List.nodup_cons.2 ⟨hnew d hd, habove⟩

theorem parent_mem_ancestors (h : tree.ParentsFirst) {a q : NodeId} (ha : a ∈ tree.ancestors v)
    (hp : tree.parent? v = some p) (hq : tree.parent? a = some q) : q ∈ tree.ancestors p := by
  have hqa : q ∈ tree.ancestors a := by
    rw [ancestors_of_parent? h hq]
    exact List.mem_cons_self
  rw [ancestors_of_parent? h hp] at ha
  obtain rfl | ha := List.mem_cons.1 ha
  · exact hqa
  · exact mem_ancestors_trans h hqa ha

theorem reenters_parent (h : tree.ParentsFirst) (nodup : (tree.openAbove v).Nodup)
    (hp : tree.parent? v = some p) : tree.reenters p = false := by
  rw [reenters_eq_false_iff]
  intro d hd
  rw [openAbove_eq_append h hp, hd] at nodup
  exact (List.nodup_cons.1 nodup).1

end Tree

namespace Elaborator

section Blocks

variable {store : Store} (loaded : store.Reached) {suspends : Bool} {top : Symbol}
  {e : Elaborator} (sound : Sound (store.asLookup suspends) top e)
  (declared : top ∈ store.symbols) (openable : top.isDefinition)

include loaded sound declared

theorem Sound.mem_symbols {id : NodeId} {node : Node} (hnode : e.tree.node? id = some node)
    {scope : Symbol} (hdef : node.definition = some scope) : scope ∈ store.symbols :=
  loaded.consistent.mem_of_reaches declared (reaches_of_node loaded.consistent sound hnode hdef)

include openable

omit declared in
/-- Where a block is open, its node stands under a scope that declares it. -/
theorem Sound.scope_of_block {id : NodeId} {node : Node} (hnode : e.tree.node? id = some node)
    {block : Symbol} (hdef : node.definition = some block) (hblock : block.kind = .block) :
    ∃ p owner scope, e.tree.parent? id = some p ∧ e.tree.node? p = some owner ∧
      owner.definition = some scope ∧ block ∈ scope.children := by
  have hroot : id ≠ .root := by
    rintro rfl
    rw [sound.formed.root, sound.top_eq] at hnode
    cases hnode
    cases hdef
    simp [Symbol.isDefinition, Kind.isDefinition, hblock] at openable
  obtain ⟨p, owner, scope, hparent, -, howner, hscope, hshown, -⟩ := sound.declared hnode hroot
  refine ⟨p, owner, scope, by simpa [Tree.parent?, hnode] using hparent, howner, hscope, ?_⟩
  have hedge := edge_of_node loaded.consistent sound hnode hroot hshown hdef
  split at hedge
  · obtain ⟨child, -, -, hresolved⟩ := hedge
    obtain ⟨name, -, hname⟩ := Option.bind_eq_some_iff.1 hresolved
    have hdefinition := (loaded.consistent.lookup hname).2
    simp [Symbol.isDefinition, Kind.isDefinition, hblock] at hdefinition
  · exact hedge.1

/-- A block is not open above itself, if no definition is open twice above it. -/
theorem Sound.block_not_reenters {v : NodeId} {node : Node} (hnode : e.tree.node? v = some node)
    {block : Symbol} (hdef : node.definition = some block) (hblock : block.kind = .block)
    (nodup : (e.tree.openAbove v).Nodup) : e.tree.reenters v = false := by
  have hpf := sound.formed.parentsFirst
  rw [Tree.reenters_eq_false_iff]
  intro d hd hopen
  obtain ⟨a, ha, habove⟩ := List.mem_filterMap.1 hopen
  obtain ⟨upper, hupper, habove⟩ := Option.bind_eq_some_iff.1 habove
  obtain ⟨other, hother, hsame⟩ := Option.map_eq_some_iff.1 habove
  obtain rfl : other = block := by
    apply loaded.consistent.eq_of_id_eq (sound.mem_symbols loaded declared hupper hother)
      (sound.mem_symbols loaded declared hnode hdef)
    simpa [hnode, Node.definitionId, hdef, hsame] using hd.symm
  -- both nodes of the block stand under its one scope, which is therefore open twice
  obtain ⟨p, owner, scope, hp, howner, hscope, hmem⟩ :=
    sound.scope_of_block loaded openable hnode hdef hblock
  obtain ⟨q, owner', scope', hq, howner', hscope', hmem'⟩ :=
    sound.scope_of_block loaded openable hupper hother hblock
  obtain rfl : scope' = scope := loaded.eq_of_mem_children
    (sound.mem_symbols loaded declared howner' hscope')
    (sound.mem_symbols loaded declared howner hscope) hmem' hmem
  have hagain : scope'.id ∈ e.tree.openAbove p := List.mem_filterMap.2
    ⟨q, Tree.parent_mem_ancestors hpf ha hp hq, by simp [howner', Node.definitionId, hscope']⟩
  have hpd : (e.tree.node? p).bind (·.definitionId) = some scope'.id := by
    simp [howner, Node.definitionId, hscope]
  rw [Tree.openAbove_eq_append hpf hp, hpd] at nodup
  exact (List.nodup_cons.1 nodup).1 hagain

/-- In a loaded design a node is cut off just where it is marked. -/
theorem Sound.reenters_eq {v : NodeId} {node : Node} (hnode : e.tree.node? v = some node)
    (nodup : (e.tree.openAbove v).Nodup) : e.tree.reenters v = node.isRecursive := by
  by_cases hroot : v = .root
  · subst hroot
    rw [sound.formed.root] at hnode
    cases hnode
    exact sound.formed.reenters_root
  cases sound.formed.linked hnode hroot with
  | @intro p owner symbol answer _ _ _ =>
    cases hkind : symbol.kind with
    | inst => exact (sound.formed.isRecursive_eq hnode (by simp [hkind])).symm
    | block =>
      rw [sound.block_not_reenters loaded declared openable hnode
        (by simp [Symbol.scope, hkind]) hkind nodup]
      simp [Node.under, Node.isRecursive, hkind]
    | _ => simp [Tree.reenters, hnode, Node.under, Node.definitionId, Node.isRecursive, hkind]

end Blocks

end Elaborator

namespace Indexer

variable {lookup : Lookup} {scale : UInt32} {i : Indexer} {stops : List Pass.Stop}

theorem exists_built_of_drive {cancelAfter polls : Option Nat} (hi : i.elaborator.tree.WellFormed)
    (h : ((build lookup scale cancelAfter).drive polls i).value? = some .complete) :
    ∃ visits, Built lookup i ((build lookup scale cancelAfter).run i) visits ∧
      ((build lookup scale cancelAfter).drive polls i).state =
        ((build lookup scale cancelAfter).run i).state := by
  have hdrive := (Call.drive_of_value? h).trans (Call.drive_none _ _)
  rw [hdrive] at h ⊢
  obtain ⟨visits, hbuilt⟩ := exists_built hi (Option.some.inj h)
  exact ⟨visits, hbuilt, rfl⟩

section Toured

variable (h : Toured lookup scale i stops) (hi : i.elaborator.tree.WellFormed)

include h hi

theorem Toured.built :
    Built lookup i ((build lookup scale none).run i) (stops.map (·.id)) := by
  have hvalue := (build_of_finished (finished_sweeping lookup i scale)).1
  obtain ⟨visits, hbuilt⟩ := exists_built hi hvalue
  rwa [← hbuilt.trail, h.trail] at hbuilt

/-- No definition is open twice above a stop. -/
theorem Toured.nodup_chain {stop : Pass.Stop} (hstop : stop ∈ stops) : stop.chain.Nodup := by
  have hbuilt := h.built hi
  have hs : (Pass.start i.elaborator scale).tree.WellFormed := hi
  have here := (h.way.trace hs).stands stop (List.mem_append_left _ hstop)
  have hnodup := Tree.nodup_openAbove (hbuilt.wellFormed hi).parentsFirst
    fun a ha => (hbuilt.above hi (List.mem_map_of_mem hstop) ha).2
  rw [h.tree, here.opened] at hnodup
  exact List.nodup_reverse.1 hnodup

end Toured

/-- Wherever it stops, a build leaves the trace of its first stops. -/
theorem Halt.exists_trace {left : Call.Outcome Indexer Status}
    (h : Halt lookup scale i stops left) :
    ∃ made pending rest c, stops = made ++ pending ++ rest ∧
      Pass.Trace lookup (.start i.elaborator scale) made pending c ∧
      left.state.elaborator = c.state.elaborator ∧ left.state.index.trail = c.state.index.trail ∧
      left.state.index.cut = c.state.index.cut ∧ left.journal.warnings = c.journal.warnings := by
  cases h with
  | @abandoned made pending rest c split _ trace =>
    exact ⟨made, pending, rest, c, split, trace, rfl, rfl, rfl, rfl⟩
  | @ended made rest c status stage split trace _ _ =>
    refine ⟨made, [], rest, c, by rw [split, List.append_nil], trace, rfl, rfl, rfl, ?_⟩
    rw [Journal.warnings_append, Journal.warnings_report,
      Journal.warnings_event (by simp [Event.level]), Journal.warnings_nil, List.append_nil]

/-- What is left of a build, as far as it was cut off: what it visited, which of these nodes it
did not enter, and how it warned of them. -/
structure Pruned (lookup : Lookup) (i : Indexer) (left : Call.Outcome Indexer Status) : Prop where
  grows : Elaborator.Grows lookup i.elaborator left.state.elaborator
  nodup : left.state.index.trail.toList.Nodup
  found : ∀ v ∈ left.state.index.trail.toList, ∃ node,
    left.state.elaborator.tree.node? v = some node
  once : ∀ v ∈ left.state.index.trail.toList, (left.state.elaborator.tree.openAbove v).Nodup
  cut : left.state.index.cut.toList =
    left.state.index.trail.toList.filter left.state.elaborator.tree.reenters
  warned : left.journal.warnings =
    left.state.index.cut.toList.map (Pass.warning left.state.elaborator.tree)

theorem Halt.pruned {left : Call.Outcome Indexer Status} (h : Halt lookup scale i stops left)
    (toured : Toured lookup scale i stops) (hi : i.elaborator.tree.WellFormed) :
    Pruned lookup i left := by
  obtain ⟨made, pending, rest, c, hsplit, trace, hleft, htrail, hcut, hwarned⟩ := h.exists_trace
  have htree : left.state.elaborator.tree = c.state.tree := congrArg Elaborator.tree hleft
  have hvisits : left.state.index.trail.toList = (made ++ pending).map (·.id) := by
    rw [htrail, trace.trail]
    rfl
  have hreenter : left.state.index.cut.toList =
      left.state.index.trail.toList.filter left.state.elaborator.tree.reenters := by
    rw [hcut, trace.cut, hvisits, htree]
    rfl
  have here : ∀ v ∈ left.state.index.trail.toList, ∃ stop ∈ stops, stop.id = v ∧
      stop.At left.state.elaborator.tree := by
    intro v hv
    rw [hvisits] at hv
    obtain ⟨stop, hstop, rfl⟩ := List.mem_map.1 hv
    refine ⟨stop, by rw [hsplit]; exact List.mem_append_left _ hstop, rfl, ?_⟩
    rw [htree]
    exact trace.stands stop hstop
  refine ⟨by rw [hleft]; exact trace.grows, ?nodup, ?found, ?once, hreenter, ?warned⟩
  case nodup =>
    have hall := (toured.built hi).nodup hi
    rw [hsplit, List.map_append] at hall
    rw [hvisits]
    exact (List.nodup_append.1 hall).1
  case found =>
    intro v hv
    obtain ⟨stop, -, rfl, at_stop⟩ := here v hv
    exact ⟨_, at_stop.found⟩
  case once =>
    intro v hv
    obtain ⟨stop, hstop, rfl, at_stop⟩ := here v hv
    rw [at_stop.opened]
    exact List.nodup_reverse.2 (toured.nodup_chain hi hstop)
  case warned =>
    rw [hwarned, trace.warned, hreenter, hvisits, htree]

theorem line_warning (tree : Tree) (v : NodeId) :
    (Pass.warning tree v).line =
      "WARN [REVERSE_INDEX] Recursive instantiation at '" ++ (tree.path? v).getD "" ++
        "', not descending" := by
  have hline : (Pass.warning tree v).line = "WARN" ++ " " ++
      ("[REVERSE_INDEX] Recursive instantiation at " ++ ("'" ++ (tree.path? v).getD "" ++ "'") ++
        ", not descending") := rfl
  have hopen : "WARN" ++ " " ++ "[REVERSE_INDEX] Recursive instantiation at " ++ "'" =
      "WARN [REVERSE_INDEX] Recursive instantiation at '" := rfl
  have hclose : "'" ++ ", not descending" = "', not descending" := rfl
  rw [hline, ← hopen, ← hclose]
  simp only [String.append_assoc]

/-- Wherever a build stops, the visited instances that were cut off are those marked as recursive,
each with one warning, and nothing was visited below them. Over loaded files and under a module or
an interface no block is ever cut off. -/
theorem recursion_of_build (reached : i.elaborator.tree.Reached) (lookup : Lookup)
    (scale : UInt32) (cancelAfter polls : Option Nat) (started : polls ≠ some 0) :
    let left := (build lookup scale cancelAfter).drive polls i
    let tree := left.state.elaborator.tree
    let index := left.state.index
    let visits := index.trail.toList
    let cut := index.cut.toList
    let marked (v : NodeId) := (tree.node? v).any (·.isRecursive)
    (visits.Nodup ∧ cut.Sublist visits) ∧
    (∀ v ∈ visits, ∃ node, tree.node? v = some node ∧
      (node.isInstance → (v ∈ cut ↔ node.isRecursive))) ∧
    (∀ v ∈ visits, ∀ p, tree.parent? v = some p → p ∉ cut) ∧
    (left.value? = some .complete → ∀ v ∈ visits, v ∉ cut → ∀ node, tree.node? v = some node →
      node.definition.isSome → ∃ cs, tree.children? v = some cs ∧ ∀ c ∈ cs, c ∈ visits) ∧
    left.journal.warnings.map (·.line) = cut.map (fun v =>
      "WARN [REVERSE_INDEX] Recursive instantiation at '" ++ (tree.path? v).getD "" ++
        "', not descending") ∧
    ∀ store suspends top, lookup = Store.asLookup store suspends → store.Reached →
      top ∈ store.symbols → (top.kind = .module ∨ top.kind = .interface) →
      Elaborator.Reached lookup top i.elaborator →
      (∀ v ∈ visits, ∀ node, tree.node? v = some node → node.kind = .block → v ∉ cut) ∧
      index.truncated = visits.countP marked ∧
      left.journal.warnings.length = visits.countP marked := by
  intro left tree index visits cut marked
  have hi := reached.wellFormed
  obtain ⟨stops, toured, halts⟩ := exists_halt lookup scale hi
  have pruned : Pruned lookup i left := (halts cancelAfter polls started).pruned toured hi
  have hwf : tree.WellFormed := pruned.grows.wellFormed hi
  have hcut : ∀ v ∈ visits, (v ∈ cut ↔ tree.reenters v) := by
    intro v hv
    rw [show cut = _ from pruned.cut, List.mem_filter]
    exact and_iff_right hv
  refine ⟨⟨pruned.nodup, ?sublist⟩, ?marks, ?below, ?entered, ?lines, ?loaded⟩
  case sublist =>
    rw [show cut = _ from pruned.cut]
    exact List.filter_sublist
  case marks =>
    intro v hv
    obtain ⟨node, hnode⟩ := pruned.found v hv
    refine ⟨node, hnode, fun hinst => ?_⟩
    rw [hcut v hv, hwf.isRecursive_eq hnode hinst]
  case below =>
    intro v hv p hp hmem
    rw [show cut = _ from pruned.cut, List.mem_filter,
      Tree.reenters_parent hwf.parentsFirst (pruned.once v hv) hp] at hmem
    exact absurd hmem.2 Bool.false_ne_true
  case entered =>
    intro hvalue v hv huncut node hnode hdef
    obtain ⟨along, hbuilt, hstate⟩ := exists_built_of_drive hi hvalue
    have hre : tree.reenters v = false := by
      rw [hcut v hv] at huncut
      exact Bool.eq_false_iff.2 huncut
    have htrail : visits = along := by
      rw [← hbuilt.trail, ← hstate]
    rw [show tree = _ from congrArg (·.elaborator.tree) hstate] at hre hnode ⊢
    rw [htrail] at hv ⊢
    exact hbuilt.children_mem hi hv hnode hdef hre
  case lines =>
    rw [show left.journal.warnings = _ from pruned.warned, List.map_map]
    exact List.map_congr_left fun v _ => line_warning tree v
  case loaded =>
    rintro store suspends top rfl loaded declared hkind reached
    have sound := reached.sound.grows pruned.grows
    have openable : top.isDefinition := Symbol.isDefinition_iff.2 hkind
    have hmarked : ∀ v ∈ visits, tree.reenters v = marked v := by
      intro v hv
      obtain ⟨node, hnode⟩ := pruned.found v hv
      have hmark : marked v = node.isRecursive := by simp [marked, tree, hnode]
      rw [hmark]
      exact sound.reenters_eq loaded declared openable hnode (pruned.once v hv)
    have hcount : cut.length = visits.countP marked := by
      rw [show cut = _ from pruned.cut, ← List.countP_eq_length_filter]
      exact List.countP_congr fun v hv => by rw [hmarked v hv]
    refine ⟨?_, ?_, ?_⟩
    · intro v hv node hnode hblock
      rw [hcut v hv, hmarked v hv]
      simp [marked, hnode, Node.isRecursive, hblock]
    · rw [InstanceIndex.truncated, ← Array.length_toList]
      exact hcount
    · rw [show left.journal.warnings = _ from pruned.warned, List.length_map]
      exact hcount

/-- The self-nesting top, a block in it and the top again: the last of them is marked and cut off,
and the block is not. -/
theorem recursion_of_build_selfNesting :
    ∃ left, left = (build .selfNesting 64 none).drive none .selfNesting ∧
      left.state.index.trail.toList = [.root, ⟨1⟩, ⟨2⟩] ∧
      (left.state.elaborator.tree.node? ⟨1⟩).map (·.kind) = some .block ∧
      left.state.index.cut.toList = [⟨2⟩] ∧
      left.state.index.truncated = left.state.index.trail.toList.countP (fun v =>
        (left.state.elaborator.tree.node? v).any (·.isRecursive)) ∧
      left.journal.warnings.map (·.line) =
        ["WARN [REVERSE_INDEX] Recursive instantiation at 'm.b.u', not descending"] := by
  obtain ⟨-, -, -, -, lines, design⟩ := @recursion_of_build .selfNesting
    (.ofTop .selfNesting) .selfNesting 64 none none (by decide)
  obtain ⟨-, truncated, -⟩ := design .selfNesting false .selfNesting rfl (.load _ _ .empty)
    (by decide +kernel) (.inl rfl) .start
  refine ⟨_, rfl, ?visits, ?block, ?cut, truncated, lines.trans ?path⟩
  all_goals simp only [Call.drive, run_build]
  all_goals decide +kernel

end Indexer

end DesignHierarchy
