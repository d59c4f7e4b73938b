import DesignHierarchy.Proofs.Halting

/-! The questions of a pass. A name is asked for when a node is made for an instance
that is written with it, and is remembered from then on. A pass under a new top starts
with nothing remembered and visits every node that it makes, so it asks once for each
type that it comes across. -/
namespace DesignHierarchy

/-- A question is remembered, and nothing is asked that was remembered before. -/
theorem Memo.asked_resolve (lookup : Lookup) (name : String) (memo : Memo) :
    let run := (Memo.resolve lookup name).run memo
    run.state.keys = memo.keys ++ run.journal.asked ∧ name ∈ run.state.keys ∧
      ∀ other ∈ run.journal.asked, name = other := by
  cases hg : memo.get? name with
  | some answer =>
    have hmem : name ∈ memo.keys := by
      by_contra hnot
      rw [Table.get?_eq_none_iff.2 hnot] at hg
      cases hg
    rw [run_resolve_of_get? hg]
    simp [Run.state, Run.journal, hmem]
  | none =>
    obtain ⟨-, hjournal, hstate, -⟩ := @run_resolve_of_get?_none lookup _ _ hg
    have hkeys := Table.keys_update memo name fun _ => lookup.definition? name
    rw [if_neg (Table.get?_eq_none_iff.1 hg)] at hkeys
    dsimp only
    rw [hjournal, hstate, Table.insert, hkeys]
    simp

theorem Node.isInstance_of_typeName {node : Node} {name : String}
    (h : node.typeName = some name) : node.isInstance := by
  unfold typeName at h
  unfold isInstance
  cases hkind : node.kind <;> simp [hkind] at h ⊢

namespace Elaborator

/-- By asking for these names an elaborator comes from one state to the other: each of them is the
type of a new node, and the types of the new nodes are remembered. -/
structure Asks (s : Elaborator) (names : List String) (t : Elaborator) : Prop where
  kept : ∀ {id node}, s.tree.node? id = some node → t.tree.node? id = some node
  keys : t.memo.keys = s.memo.keys ++ names
  typed : ∀ name ∈ names, ∃ id node, s.tree.size ≤ id.index ∧ t.tree.node? id = some node ∧
    node.typeName = some name
  known : ∀ id node name, s.tree.size ≤ id.index → t.tree.node? id = some node →
    node.typeName = some name → name ∈ t.memo.keys

section Asks

variable {s m t : Elaborator} {a b : List String}

theorem Asks.refl (s : Elaborator) : Asks s [] s where
  kept := id
  keys := (List.append_nil _).symm
  typed := by simp
  known := by
    intro id node name hid hnode _
    exact absurd (Tree.lt_size_of_node? hnode) (Nat.not_lt.2 hid)

theorem Asks.size_le (h : Asks s a t) : s.tree.size ≤ t.tree.size := by
  have hpos : 0 < s.tree.size := s.tree.nonempty
  obtain ⟨node, hnode⟩ := @Tree.exists_node? s.tree ⟨s.tree.size - 1⟩ (Nat.sub_one_lt_of_lt hpos)
  have hlt := Tree.lt_size_of_node? (h.kept hnode)
  dsimp only at hlt
  omega

theorem Asks.trans (first : Asks s a m) (second : Asks m b t) : Asks s (a ++ b) t where
  kept := fun hnode => second.kept (first.kept hnode)
  keys := by rw [second.keys, first.keys, List.append_assoc]
  typed := by
    intro name hname
    obtain hname | hname := List.mem_append.1 hname
    · obtain ⟨id, node, hid, hnode, htype⟩ := first.typed name hname
      exact ⟨id, node, hid, second.kept hnode, htype⟩
    · obtain ⟨id, node, hid, hnode, htype⟩ := second.typed name hname
      exact ⟨id, node, first.size_le.trans hid, hnode, htype⟩
  known := by
    intro id node name hid hnode htype
    by_cases hnew : m.tree.size ≤ id.index
    · exact second.known id node name hnew hnode htype
    · -- the node was there before the later questions, and its type was remembered then
      obtain ⟨earlier, hearlier⟩ := Tree.exists_node? (Nat.lt_of_not_le hnew)
      obtain rfl : node = earlier := Option.some.inj (hnode.symm.trans (second.kept hearlier))
      rw [second.keys]
      exact List.mem_append_left _ (first.known id node name hid hearlier htype)

/-- Recording children makes no node. -/
theorem Asks.record (h : Asks s a t) (id : NodeId) (cs : List NodeId) :
    Asks s a { t with tree := t.tree.record id cs } where
  kept := by
    intro other node hnode
    rw [Tree.node?_record]
    exact h.kept hnode
  keys := h.keys
  typed := by
    simp only [Tree.node?_record]
    exact h.typed
  known := by
    simp only [Tree.node?_record]
    exact h.known

end Asks

theorem asked_elaborate (lookup : Lookup) (id : NodeId) (symbol : Symbol) (s : Elaborator) :
    let run := (elaborate lookup id symbol).run s
    run.state.tree = s.tree ∧ run.state.memo.keys = s.memo.keys ++ run.journal.asked ∧
      (∀ name ∈ run.journal.asked, run.value.typeName = some name) ∧
      ∀ name, run.value.typeName = some name → name ∈ run.state.memo.keys := by
  unfold elaborate
  cases hkind : symbol.kind with
  | inst =>
    unfold resolveInstance Memo.resolveInstance
    cases htype : symbol.typeRef with
    | none => simp [Call.run_map, Run.journal, Run.state, Run.value, Node.typeName]
    | some name =>
      obtain ⟨hkeys, hmem, honly⟩ := Memo.asked_resolve lookup name s.memo
      simpa [Call.run_map, Run.journal, Run.state, Run.value, Node.typeName] using
        ⟨hkeys, honly, hmem⟩
  | _ => simp [Run.journal, Run.state, Run.value, Node.typeName]

/-- One node more, for which its type may have been asked. -/
theorem asks_attach (lookup : Lookup) (id : NodeId) (symbol : Symbol) (s : Elaborator) :
    let run := (elaborate lookup id symbol).run s
    Asks s run.journal.asked { run.state with tree := run.state.tree.add run.value } := by
  obtain ⟨htree, hkeys, htyped, hknown⟩ := asked_elaborate lookup id symbol s
  dsimp only
  rw [htree]
  refine ⟨(Tree.extends_add _ _).node, hkeys, ?_, ?_⟩
  · intro name hname
    exact ⟨s.tree.nextId, _, Nat.le_refl _, by simp [Tree.nextId], htyped name hname⟩
  · intro other node name hother hnode htype
    have hlt := Tree.lt_size_of_node? hnode
    rw [Tree.size_add] at hlt
    rw [Tree.node?_add, if_pos (by omega)] at hnode
    cases hnode
    exact hknown name htype

theorem asks_addChildren (lookup : Lookup) (id : NodeId) (definition : String)
    (symbols : List Symbol) (s : Elaborator) :
    let run := (addChildren lookup id definition symbols).run s
    Asks s run.journal.asked run.state := by
  induction symbols generalizing s with
  | nil => exact .refl s
  | cons symbol rest ih =>
    unfold addChildren
    have hfirst := asks_attach lookup id symbol s
    simpa [Call.run_map, Run.journal, Run.state] using hfirst.trans (ih _)

theorem asks_expand (lookup : Lookup) (id : NodeId) (s : Elaborator) :
    let run := (expand lookup id).run s
    Asks s run.journal.asked run.state := by
  unfold expand
  rw [Call.run_bind, Call.run_gets, Run.bind_done, Run.after_nil]
  split
  · exact .refl s
  · exact .refl s
  · split
    · exact (Asks.refl s).record id []
    · rename_i definition _
      have hadded := asks_addChildren lookup id definition.name definition.shown s
      simpa [Call.run_map, Run.journal, Run.state, Call.emit, Elaborator.record] using
        hadded.record id _

end Elaborator

namespace Pass

variable {lookup : Lookup}

theorem asks_enter (chain : List DefId) (id : NodeId) (node : Node) (path : String) (s : Pass) :
    let run := (enter lookup chain id node path).run s
    Elaborator.Asks s.elaborator run.journal.asked run.state.elaborator := by
  unfold enter
  split
  · exact .refl _
  · split
    · exact .refl _
    · have hexpand := Elaborator.asks_expand lookup id s.elaborator
      simpa [expand, Call.run_map, Run.journal, Run.state] using hexpand

theorem asks_visit (stop : Stop) (s : Pass) :
    let run := (stop.call lookup).run s
    Elaborator.Asks s.elaborator run.journal.asked run.state.elaborator := by
  have hentered := @asks_enter lookup stop.chain stop.id stop.node ((s.tree.path? stop.id).getD "")
    { s with index := s.index.visit stop.id stop.node ((s.tree.path? stop.id).getD "") }
  have hstate := (run_visit lookup stop.chain stop.id stop.node s).2.1
  have hjournal := (@suspensions_visit lookup stop s).1
  dsimp only
  rw [hjournal, Journal.asked_append, Journal.asked_report, Journal.asked_nil, List.append_nil,
    Stop.call, hstate]
  exact hentered

theorem asks_tour (stops : List Stop) (s : Pass) :
    let run := (tour lookup none stops).run s
    Elaborator.Asks s.elaborator run.journal.asked run.state.elaborator := by
  induction stops generalizing s with
  | nil => exact .refl _
  | cons stop rest ih =>
    have hfirst := @asks_visit lookup stop s
    dsimp only
    rw [run_tour_none_cons, Run.journal_bind, Journal.asked_append, Run.state_bind]
    exact hfirst.trans (ih _)

end Pass

namespace Indexer

variable {lookup : Lookup} {scale : UInt32} {i : Indexer}

theorem asks_build (hi : i.elaborator.tree.WellFormed) (cancelAfter : Option Nat) :
    let run := (build lookup scale cancelAfter).run i
    Elaborator.Asks i.elaborator run.journal.asked run.state.elaborator := by
  obtain ⟨stops, -, htour⟩ := exists_tour lookup scale hi
  obtain ⟨made, rest, -, hrun⟩ := @Pass.exists_run_tour lookup (.start i.elaborator scale) rfl
    cancelAfter stops
  have hmade : Elaborator.Asks i.elaborator
      ((Pass.tour lookup none made).run (.start i.elaborator scale)).journal.asked
      ((Pass.tour lookup none made).run (.start i.elaborator scale)).state.elaborator :=
    @Pass.asks_tour lookup made (.start i.elaborator scale)
  dsimp only
  rw [run_build, htour, hrun]
  split <;> simpa [Pass.run_conclude, Run.journal, Run.state, Run.value] using hmade

/-- A complete build from the root alone leaves no node unvisited. -/
theorem Built.mem_of_alone {run : Run Indexer Status} {visits : List NodeId}
    (h : Built lookup i run visits) (hi : i.elaborator.tree.WellFormed)
    (alone : i.elaborator.tree.size = 1) {v : NodeId}
    (hv : v.index < run.state.elaborator.tree.size) : v ∈ visits := by
  have hids {w : NodeId} : w ∈ Tree.freshIds 0 run.state.elaborator.tree.size ↔
      w.index < run.state.elaborator.tree.size := by
    simp [Tree.mem_freshIds]
  -- there are as many visits as nodes, and none is visited twice
  have hsubset : visits ⊆ Tree.freshIds 0 run.state.elaborator.tree.size :=
    fun w hw => hids.2 (h.present hw)
  have hlength := h.visited_all hi alone
  have hperm := (List.subperm_of_subset (h.nodup hi) hsubset).perm_of_length_le
    (by rw [Tree.length_freshIds, hlength])
  exact hperm.mem_iff.2 (hids.2 hv)

/-- What a complete build asks that starts from a new top with nothing remembered. -/
theorem asked_of_complete {top : Symbol} {index : InstanceIndex} {cancelAfter : Option Nat}
    (h : ((build lookup scale cancelAfter).run ⟨⟨.ofTop top, ∅⟩, index⟩).value = .complete) :
    let run := (build lookup scale cancelAfter).run ⟨⟨.ofTop top, ∅⟩, index⟩
    let tree := run.state.elaborator.tree
    let memo := run.state.elaborator.memo
    run.journal.asked.Nodup ∧
      (∀ name, name ∈ run.journal.asked ↔ ∃ v ∈ run.state.index.trail.toList, ∃ node,
        tree.node? v = some node ∧ node.isInstance ∧ node.typeName = some name) ∧
      memo.keys = run.journal.asked ∧
      ∀ name ∈ run.journal.asked, memo.get? name = some (lookup.definition? name) := by
  intro run tree memo
  have hi := Tree.wellFormed_ofTop top
  have asks : Elaborator.Asks ⟨.ofTop top, ∅⟩ run.journal.asked run.state.elaborator :=
    @asks_build lookup scale ⟨⟨.ofTop top, ∅⟩, index⟩ hi cancelAfter
  have reached : Elaborator.Reached lookup top run.state.elaborator :=
    .build scale cancelAfter .start (Call.leaves_run _ _)
  obtain ⟨visits, built⟩ := exists_built hi h
  have hkeys : memo.keys = run.journal.asked := asks.keys
  refine ⟨hkeys ▸ memo.keys_nodup, fun name => ⟨fun hname => ?visited, ?asked⟩, hkeys, ?answers⟩
  case visited =>
    obtain ⟨id, node, -, hnode, htype⟩ := asks.typed name hname
    refine ⟨id, ?_, node, hnode, Node.isInstance_of_typeName htype, htype⟩
    rw [built.trail]
    exact built.mem_of_alone hi rfl (Tree.lt_size_of_node? hnode)
  case asked =>
    rintro ⟨v, hv, node, hnode, hinst, htype⟩
    have hroot := (built.wellFormed hi).ne_root_of_isInstance hnode hinst
    have hnew : 1 ≤ v.index := Nat.pos_of_ne_zero fun hzero => hroot (congrArg NodeId.mk hzero)
    rw [← hkeys]
    exact asks.known v node name hnew hnode htype
  case answers =>
    intro name hname
    rw [← hkeys] at hname
    cases hanswer : memo.get? name with
    | none => exact absurd hname (Table.get?_eq_none_iff.1 hanswer)
    | some answer => rw [reached.sound.remembered hanswer]

end Indexer

namespace Browser

/-- A build that ends as complete asks once for each type that a visited instance is written with,
and for nothing else. It remembers just these names, each with its answer. -/
theorem questions_of_build (lookup : Lookup) (b : Browser) (top : Symbol)
    (cancelAfter polls : Option Nat) :
    let left := (build lookup top cancelAfter).drive polls b
    left.value? = some .complete → ∃ tree, left.state.tree = some tree ∧
      left.journal.asked.Nodup ∧
      (∀ name, name ∈ left.journal.asked ↔ ∃ v ∈ left.state.index.trail.toList, ∃ node,
        tree.node? v = some node ∧ node.isInstance ∧ node.typeName = some name) ∧
      left.state.memo.keys = left.journal.asked ∧
      (∀ name ∈ left.journal.asked,
        left.state.memo.get? name = some (lookup.definition? name)) ∧
      ∀ limit, left.state.nodeCount < limit →
        (build lookup top cancelAfter (some limit)).drive polls b = left := by
  intro left hcomplete
  have hlimit (limit : Nat) (room : left.state.nodeCount < limit) :
      (build lookup top cancelAfter (some limit)).drive polls b = left :=
    Call.drive_eq (untilFull_build lookup limit b top cancelAfter) (Nat.not_le_of_lt room)
  have hleft := (Call.drive_of_value? hcomplete).trans (Call.drive_none _ _)
  rw [run_build] at hleft
  rw [show left = _ from hleft] at hcomplete hlimit ⊢
  simp only [Run.value_after, Run.value_within, Option.some.injEq] at hcomplete
  obtain ⟨hnodup, hasked, hkeys, hanswers⟩ := Indexer.asked_of_complete hcomplete
  simp only [Run.state_after, Run.state_within, Run.journal_after, Run.journal_within] at hlimit ⊢
  exact ⟨_, rfl, hnodup, hasked, hkeys, hanswers, hlimit⟩

/-- Two cells, an instance of a missing type and one without a type, in a browser that remembers an
outdated answer for the cell. -/
theorem questions_of_build_outdated :
    let children : List Decl := [.cellNamed "u", .cellNamed "v",
      { name := "w", kind := .inst, typeRef := some "x" }, { name := "n", kind := .inst }]
    ∃ left, left = (build (.cellAndTop children) (.topOver children) none).drive none
        { memo := (∅ : Memo).insert "cell" none } ∧
      left.journal.asked = ["cell", "x"] ∧ left.state.memo.keys = ["cell", "x"] ∧
      left.state.memo.get? "cell" = some (some .cell) ∧ left.state.memo.get? "x" = some none ∧
      left.state.index.visited = 5 := by
  intro children
  have complete : ((build (.cellAndTop children) (.topOver children) none).drive none
      { memo := (∅ : Memo).insert "cell" none }).value? = some .complete := by
    simp only [children, Call.drive, run_build, Indexer.run_build]
    decide +kernel
  obtain ⟨tree, -, -, -, keys, answers, -⟩ := questions_of_build (.cellAndTop children)
    { memo := (∅ : Memo).insert "cell" none } (.topOver children) none none complete
  refine ⟨_, rfl, ?asked, keys.trans ?_, (answers "cell" ?_).trans ?_, (answers "x" ?_).trans ?_,
    ?visited⟩
  all_goals simp only [children, Call.drive, run_build, Indexer.run_build]
  all_goals decide +kernel

end Browser

end DesignHierarchy
