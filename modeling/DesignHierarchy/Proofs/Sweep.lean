import DesignHierarchy.Proofs.Loop
import DesignHierarchy.Proofs.Traversal

/-! What a pass does. It changes the hierarchy only by expanding nodes, and one
that comes to its end has traversed the hierarchy: the index holds a note of each
visit, in order, and each visit was reported. -/
namespace DesignHierarchy

namespace Journal

@[simp] theorem reports_nil : reports [] = [] := rfl

@[simp] theorem reports_asked (name : String) (j : Journal) :
    reports (.asked name :: j) = reports j := rfl

@[simp] theorem reports_event (event : Event) (j : Journal) :
    reports (.event event :: j) = reports j := rfl

@[simp] theorem reports_report (report : Report) (j : Journal) :
    reports (.report report :: j) = report :: reports j := rfl

end Journal

/-- Only a pass makes reports. -/
theorem Memo.reports_resolve (lookup : Lookup) (name : String) (memo : Memo) :
    ((Memo.resolve lookup name).run memo).journal.reports = [] := by
  cases hg : memo.get? name with
  | some answer =>
    rw [run_resolve_of_get? hg]
    rfl
  | none =>
    obtain ⟨-, hjournal, -⟩ := @run_resolve_of_get?_none lookup _ _ hg
    rw [hjournal]
    rfl

namespace Elaborator

theorem reports_elaborate (lookup : Lookup) (id : NodeId) (symbol : Symbol) (s : Elaborator) :
    ((elaborate lookup id symbol).run s).journal.reports = [] := by
  unfold elaborate
  cases symbol.kind with
  | inst =>
    unfold resolveInstance Memo.resolveInstance
    cases symbol.typeRef <;> simp [Call.run_map, Run.journal, Memo.reports_resolve]
  | _ => rfl

theorem reports_addChildren (lookup : Lookup) (id : NodeId) (definition : String)
    (symbols : List Symbol) (s : Elaborator) :
    ((addChildren lookup id definition symbols).run s).journal.reports = [] := by
  induction symbols generalizing s with
  | nil => rfl
  | cons symbol rest ih =>
    unfold addChildren
    simp [Call.run_map, Run.journal, reports_elaborate, ih]

theorem reports_expand (lookup : Lookup) (id : NodeId) (s : Elaborator) :
    ((expand lookup id).run s).journal.reports = [] := by
  unfold expand
  rw [Call.run_bind, Call.run_gets, Run.bind_done, Run.after_nil]
  split
  · rfl
  · rfl
  · split
    · rfl
    · simp [Call.run_map, Run.journal, reports_addChildren, Call.emit, record]

end Elaborator

namespace InstanceIndex

/-- What the visit of a node of this tree adds to an index. -/
def note (tree : Tree) (index : InstanceIndex) (id : NodeId) : InstanceIndex :=
  match tree.node? id with
  | none => index
  | some node =>
    let seen := index.visit id node ((tree.path? id).getD "")
    if tree.reenters id then seen.truncate id else seen

end InstanceIndex

namespace Pass

/-- What the visit of a node of this tree reports. -/
def stage (tree : Tree) (id : NodeId) : Stage := .visiting ((tree.path? id).getD "")

section Growth

variable {s t : Tree} (h : s.Extends t) (hs : s.WellFormed) (ht : t.WellFormed)

include h hs ht

theorem note_of_extends {id : NodeId} (hid : id.index < s.size) (index : InstanceIndex) :
    InstanceIndex.note t index id = InstanceIndex.note s index id := by
  obtain ⟨node, hnode⟩ := Tree.exists_node? hid
  unfold InstanceIndex.note
  rw [hnode, h.node hnode, h.path? hs.parentsFirst ht.parentsFirst hid,
    h.reenters hs.parentsFirst ht.parentsFirst hid]

theorem foldl_note_of_extends {visits : List NodeId} (hvisits : ∀ v ∈ visits, v.index < s.size)
    (index : InstanceIndex) :
    visits.foldl (InstanceIndex.note t) index = visits.foldl (InstanceIndex.note s) index := by
  induction visits generalizing index with
  | nil => rfl
  | cons v rest ih =>
    rw [List.foldl_cons, List.foldl_cons, note_of_extends h hs ht (hvisits v List.mem_cons_self)]
    exact ih (fun w hw => hvisits w (List.mem_cons_of_mem _ hw)) _

theorem stage_of_extends {id : NodeId} (hid : id.index < s.size) : stage t id = stage s id := by
  unfold stage
  rw [h.path? hs.parentsFirst ht.parentsFirst hid]

theorem map_stage_of_extends {visits : List NodeId} (hvisits : ∀ v ∈ visits, v.index < s.size) :
    visits.map (stage t) = visits.map (stage s) :=
  List.map_congr_left fun v hv => stage_of_extends h hs ht (hvisits v hv)

end Growth

@[simp] theorem run_report (step : Estimate → UInt32 × Estimate) (stage : Stage) (s : Pass) :
    (report step stage).run s =
      .done { s with estimate := (step s.estimate).2, made := s.made + 1 }
        [.report ⟨(step s.estimate).1, stage⟩] () := rfl

@[simp] theorem run_modifyIndex (f : InstanceIndex → InstanceIndex) (s : Pass) :
    (modifyIndex f).run s = .done { s with index := f s.index } [] () := rfl

theorem run_conclude (status : Status) (stage : Stage) (s : Pass) :
    (conclude status stage).run s =
      .done { s with
          index := { s.index with status }
          estimate := s.estimate.finish.2
          made := s.made + 1 }
        [.report ⟨s.estimate.finish.1, stage⟩,
          .event (.indexed stage s.tree.top.name { s.index with status }.tally)] status := rfl

/-- What is done below a node: nothing if its definition is open or missing, and else it is
expanded. -/
theorem enter_cases (lookup : Lookup) (chain : List DefId) (id : NodeId) (node : Node)
    (path : String) (s : Pass) :
    let run := (enter lookup chain id node path).run s
    run.journal.reports = [] ∧
      ((∀ d, node.definitionId = some d → d ∈ chain) ∧ run.value = (chain, []) ∧
          run.state.elaborator = s.elaborator ∧
          run.state.index = (if node.definitionId.isSome then s.index.truncate id else s.index) ∨
        ∃ d, node.definitionId = some d ∧ d ∉ chain ∧
          run.value = (chain ++ [d], ((Elaborator.expand lookup id).run s.elaborator).value) ∧
          run.state.elaborator = ((Elaborator.expand lookup id).run s.elaborator).state ∧
          run.state.index = s.index) := by
  cases hd : node.definitionId with
  | none => simp [enter, hd, Run.value, Run.state, Run.journal]
  | some d =>
    by_cases hmem : d ∈ chain
    · simp [enter, hd, hmem, Call.emit, Call.run_map, Run.value, Run.state, Run.journal]
    · simp [enter, hd, hmem, expand, Call.run_map, Run.value, Run.state, Run.journal,
        Elaborator.reports_expand]

/-- A visit notes the node, does what is to be done below it and reports. -/
theorem run_visit (lookup : Lookup) (chain : List DefId) (id : NodeId) (node : Node) (s : Pass) :
    let path := (s.tree.path? id).getD ""
    let run := (visit lookup chain id node).run s
    let entered := (enter lookup chain id node path).run
      { s with index := s.index.visit id node path }
    run.value = entered.value ∧ run.state.elaborator = entered.state.elaborator ∧
      run.state.index = entered.state.index ∧
      run.journal.reports.map (·.stage) = entered.journal.reports.map (·.stage) ++ [stage s.tree id] := by
  simp [visit, Call.run_map, Run.value, Run.state, Run.journal, stage]

/-- What one visit comes to. -/
theorem visit_cases (lookup : Lookup) {chain : List DefId} {id : NodeId} {node : Node} {s : Pass}
    (found : s.tree.node? id = some node) (hopen : s.tree.openAbove id = chain.reverse) :
    let run := (visit lookup chain id node).run s
    run.state.index = InstanceIndex.note s.tree s.index id ∧
      run.journal.reports.map (·.stage) = [stage s.tree id] ∧
      ((∀ d, node.definitionId = some d → d ∈ chain) ∧ run.value = (chain, []) ∧
          run.state.elaborator = s.elaborator ∨
        ∃ d, node.definitionId = some d ∧ d ∉ chain ∧
          run.value = (chain ++ [d], ((Elaborator.expand lookup id).run s.elaborator).value) ∧
          run.state.elaborator = ((Elaborator.expand lookup id).run s.elaborator).state) := by
  have hreenters : s.tree.reenters id = node.definitionId.any (· ∈ chain) := by
    simp [Tree.reenters, found, hopen]
  obtain ⟨hvalue, hleft, hindex, hreports⟩ := run_visit lookup chain id node s
  obtain ⟨hquiet, hcases⟩ := enter_cases lookup chain id node ((s.tree.path? id).getD "")
    { s with index := s.index.visit id node ((s.tree.path? id).getD "") }
  rw [hquiet] at hreports
  obtain ⟨hshut, hvalue', hleft', hindex'⟩ | ⟨d, hd, hnew, hvalue', hleft', hindex'⟩ := hcases
  · refine ⟨?_, hreports, .inl ⟨hshut, hvalue.trans hvalue', hleft.trans hleft'⟩⟩
    rw [hindex, hindex']
    cases hd : node.definitionId with
    | none => simp [InstanceIndex.note, found, hreenters, hd]
    | some d => simp [InstanceIndex.note, found, hreenters, hd, hshut d hd]
  · refine ⟨?_, hreports, .inr ⟨d, hd, hnew, hvalue.trans hvalue', hleft.trans hleft'⟩⟩
    rw [hindex, hindex']
    simp [InstanceIndex.note, found, hreenters, hd, hnew]

/-- A visit leaves what a sweep of the nodes below needs. -/
theorem visit_under (lookup : Lookup) {chain : List DefId} {id : NodeId} {node : Node} {s : Pass}
    (hs : s.tree.WellFormed) (found : s.tree.node? id = some node)
    (hopen : s.tree.openAbove id = chain.reverse) :
    let run := (visit lookup chain id node).run s
    Elaborator.Grows lookup s.elaborator run.state.elaborator ∧
      run.state.tree.Under run.value.1 run.value.2 := by
  obtain ⟨-, -, ⟨-, hvalue, hleft⟩ | ⟨d, hd, -, hvalue, hleft⟩⟩ := visit_cases lookup found hopen
  · dsimp only
    rw [hvalue, hleft]
    refine ⟨.refl _, ?_⟩
    intro c hc
    cases hc
  · have hcs := Elaborator.under_expand lookup hs found hopen hd
    rw [← hleft] at hcs
    dsimp only
    rw [hvalue, hleft]
    exact ⟨Elaborator.grows_expand _ _ _, hcs⟩

/-- What a pass did that traversed these nodes. -/
structure Course (lookup : Lookup) (chain : List DefId) (ids : List NodeId) (s : Pass)
    (run : Run Pass Ending) (visits : List NodeId) : Prop where
  traverses : Elaborator.Traverses lookup chain ids s.elaborator visits run.state.elaborator
  noted : run.state.index = visits.foldl (InstanceIndex.note run.state.tree) s.index
  reported : run.journal.reports.map (·.stage) = visits.map (stage run.state.tree)

/-- A visit, what lies under the visited node and the nodes after it make one course. -/
theorem Course.cons {lookup : Lookup} {chain : List DefId} {id : NodeId} {node : Node}
    {rest below visits : List NodeId} {s : Pass} {under after run : Run Pass Ending}
    (hs : s.tree.WellFormed) (found : s.tree.node? id = some node)
    (hopen : s.tree.openAbove id = chain.reverse)
    (hunder : Course lookup ((visit lookup chain id node).run s).value.1
      ((visit lookup chain id node).run s).value.2 ((visit lookup chain id node).run s).state
      under below)
    (hafter : Course lookup chain rest under.state after visits) (hstate : run.state = after.state)
    (hjournal : run.journal = ((visit lookup chain id node).run s).journal ++
      (under.journal ++ after.journal)) :
    Course lookup chain (id :: rest) s run (id :: (below ++ visits)) := by
  obtain ⟨hindex, hreport, hcases⟩ := visit_cases lookup found hopen
  have hsm := (visit_under lookup hs found hopen).1.trans hunder.traverses.grows
  have hmt := hafter.traverses.grows
  have hm : under.state.tree.WellFormed := hsm.wellFormed hs
  have ht : after.state.tree.WellFormed := hmt.wellFormed hm
  have hext : under.state.tree.Extends after.state.tree := hmt.extends
  have hext' : s.tree.Extends after.state.tree := (hsm.trans hmt).extends
  have hlt := Tree.lt_size_of_node? found
  have hbelow : ∀ v ∈ below, v.index < under.state.tree.size :=
    fun v hv => hunder.traverses.present hv
  refine ⟨?_, ?_, ?_⟩
  · rw [hstate]
    obtain ⟨hshut, hvalue, hleft⟩ | ⟨d, hd, hnew, hvalue, hleft⟩ := hcases
    · -- nothing lies below a node that is not entered
      have htrav := hunder.traverses
      rw [hvalue, hleft] at htrav
      generalize hleft' : under.state.elaborator = m at htrav
      cases htrav
      refine .leave found hshut ?_
      rw [← hleft']
      exact hafter.traverses
    · have htrav := hunder.traverses
      rw [hvalue, hleft] at htrav
      exact .enter found hd hnew htrav hafter.traverses
  · rw [hstate, hafter.noted, hunder.noted, hindex, List.foldl_cons, List.foldl_append,
      foldl_note_of_extends hext hm ht hbelow, note_of_extends hext' hs ht hlt]
  · rw [hjournal, hstate, Journal.reports_append, Journal.reports_append, List.map_append,
      List.map_append, hreport, hunder.reported, hafter.reported, List.map_cons, List.map_append,
      map_stage_of_extends hext hm ht hbelow, stage_of_extends hext' hs ht hlt]
    rfl

/-- A sweep that comes to its end has traversed the nodes it was given, if that is so of the
sweeps below them. -/
theorem course_sweepWith {lookup : Lookup} {cancelAfter : Option Nat}
    {below : List DefId → List NodeId → Call Pass Ending}
    (hbelow : ∀ chain ids s, s.tree.WellFormed → s.tree.Under chain ids →
      ((below chain ids).run s).value = .finished →
      ∃ visits, Course lookup chain ids s ((below chain ids).run s) visits)
    {chain : List DefId} {ids : List NodeId} {s : Pass} (hs : s.tree.WellFormed)
    (hunder : s.tree.Under chain ids)
    (h : ((sweepWith lookup cancelAfter below chain ids).run s).value = .finished) :
    ∃ visits, Course lookup chain ids s ((sweepWith lookup cancelAfter below chain ids).run s)
      visits := by
  induction ids generalizing s with
  | nil => exact ⟨[], .nil, rfl, rfl⟩
  | cons id rest ih =>
    obtain ⟨hlt, hopen⟩ := hunder id List.mem_cons_self
    obtain ⟨node, found⟩ := Tree.exists_node? hlt
    have hrest : s.tree.Under chain rest := fun r hr => hunder r (List.mem_cons_of_mem _ hr)
    have hrun := run_sweepWith_cons lookup cancelAfter below chain id rest s
    split at hrun
    · rw [hrun] at h
      cases h
    simp only [found] at hrun
    obtain ⟨hgrows, hsite⟩ := visit_under lookup hs found hopen
    -- both the sweep below the node and the one after it came to their ends
    rw [hrun, Run.value_bind, Run.value_bind] at h
    cases hend : ((below ((visit lookup chain id node).run s).value.1
        ((visit lookup chain id node).run s).value.2).run
        ((visit lookup chain id node).run s).state).value with
    | cancelled =>
      rw [hend] at h
      cases h
    | outOfRoom =>
      rw [hend] at h
      cases h
    | finished =>
      rw [hend] at h
      have hvisited := hgrows.wellFormed hs
      obtain ⟨low, hlow⟩ := hbelow _ _ _ hvisited hsite hend
      have hm := hlow.traverses.grows.wellFormed hvisited
      have hrest' := hrest.mono (hgrows.trans hlow.traverses.grows).extends hs hm
      obtain ⟨visits, hafter⟩ := ih hm hrest' h
      refine ⟨_, hlow.cons hs found hopen hafter ?_ ?_⟩
      · rw [hrun, Run.state_bind, Run.state_bind, hend]
        rfl
      · rw [hrun, Run.journal_bind, Run.journal_bind, hend]
        rfl

theorem course_sweep {lookup : Lookup} {cancelAfter : Option Nat} {room : Nat}
    {chain : List DefId} {ids : List NodeId} {s : Pass} (hs : s.tree.WellFormed)
    (hunder : s.tree.Under chain ids)
    (h : ((sweep lookup cancelAfter room chain ids).run s).value = .finished) :
    ∃ visits, Course lookup chain ids s ((sweep lookup cancelAfter room chain ids).run s) visits := by
  induction room generalizing chain ids s with
  | zero =>
    cases ids with
    | nil => exact ⟨[], .nil, rfl, rfl⟩
    | cons id rest => cases h
  | succ room ih => exact course_sweepWith (fun _ _ _ hs hunder h => ih hs hunder h) hs hunder h

end Pass

/-- What is said at the end of a pass that stopped like this. -/
def Ending.outcome : Ending → Option (Status × Stage)
  | .finished => some (.complete, .complete)
  | .cancelled => some (.cancelled, .cancelled)
  | .outOfRoom => none

namespace Indexer

/-- The sweep that a build makes. -/
def sweeping (lookup : Lookup) (scale : UInt32) (cancelAfter : Option Nat) (i : Indexer) :
    Run Pass Ending :=
  (Pass.sweep lookup cancelAfter (Pass.room lookup i.elaborator) [] [.root]).run
    (Pass.start i.elaborator scale)

variable {lookup : Lookup} {scale : UInt32} {cancelAfter : Option Nat} {i : Indexer}

theorem run_build :
    (build lookup scale cancelAfter).run i =
      ((sweeping lookup scale cancelAfter i).bind fun ending =>
        Call.run (match ending with
          | .finished => Pass.conclude .complete .complete
          | .cancelled => Pass.conclude .cancelled .cancelled
          | .outOfRoom => return .inProgress)).within fun pass => ⟨pass.elaborator, pass.index⟩ := by
  rw [sweeping, ← Pass.loop_eq_sweep]
  rfl

theorem finished_of_build (h : ((build lookup scale cancelAfter).run i).value = .complete) :
    (sweeping lookup scale cancelAfter i).value = .finished := by
  rw [run_build, Run.value_within, Run.value_bind] at h
  cases hend : (sweeping lookup scale cancelAfter i).value with
  | finished => rfl
  | cancelled =>
    rw [hend] at h
    cases h
  | outOfRoom =>
    rw [hend] at h
    cases h

/-- A build makes its sweep and one more report. -/
theorem build_of_outcome {status : Status} {stage : Stage}
    (h : (sweeping lookup scale cancelAfter i).value.outcome = some (status, stage)) :
    let run := (build lookup scale cancelAfter).run i
    let swept := sweeping lookup scale cancelAfter i
    run.value = status ∧ run.state.elaborator = swept.state.elaborator ∧
      run.state.index = { swept.state.index with status } ∧
      run.journal.reports =
        swept.journal.reports ++ [⟨swept.state.estimate.finish.1, stage⟩] := by
  rw [run_build]
  cases hend : (sweeping lookup scale cancelAfter i).value with
  | outOfRoom =>
    rw [hend] at h
    cases h
  | finished =>
    rw [hend] at h
    cases h
    simp [hend, Pass.run_conclude, Run.value, Run.state, Run.journal]
  | cancelled =>
    rw [hend] at h
    cases h
    simp [hend, Pass.run_conclude, Run.value, Run.state, Run.journal]

theorem build_of_finished (h : (sweeping lookup scale cancelAfter i).value = .finished) :
    let run := (build lookup scale cancelAfter).run i
    let swept := sweeping lookup scale cancelAfter i
    run.value = .complete ∧ run.state.elaborator = swept.state.elaborator ∧
      run.state.index = { swept.state.index with status := .complete } ∧
      run.journal.reports.map (·.stage) = swept.journal.reports.map (·.stage) ++ [.complete] := by
  have hout : (sweeping lookup scale cancelAfter i).value.outcome = some (.complete, .complete) := by
    rw [h]
    rfl
  obtain ⟨hvalue, hleft, hindex, hreports⟩ := build_of_outcome hout
  exact ⟨hvalue, hleft, hindex, by rw [hreports, List.map_append]; rfl⟩

end Indexer

end DesignHierarchy
