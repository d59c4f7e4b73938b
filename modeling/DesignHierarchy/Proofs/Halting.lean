import DesignHierarchy.Proofs.Contents
import DesignHierarchy.Proofs.Suspension

/-! Where a build stops. Cancelled, abandoned or neither, a build has made the
first visits of its tour and may be inside one more. What it leaves can be read
off these stops: the notes in the index, the reports and the warnings. -/
namespace DesignHierarchy

namespace Journal

def warnings (journal : Journal) : List Event := journal.events.filter (·.level = .warn)

@[simp] theorem warnings_nil : warnings [] = [] := rfl

@[simp] theorem warnings_append (a b : Journal) :
    warnings (a ++ b) = warnings a ++ warnings b := by
  simp [warnings]

@[simp] theorem warnings_asked (name : String) (j : Journal) :
    warnings (.asked name :: j) = warnings j := rfl

@[simp] theorem warnings_report (report : Report) (j : Journal) :
    warnings (.report report :: j) = warnings j := rfl

theorem warnings_event {event : Event} (h : event.level ≠ .warn) (j : Journal) :
    warnings (.event event :: j) = warnings j :=
  List.filter_cons_of_neg (by simpa using h)

end Journal

/-- A run that is abandoned has written the beginning of what it writes. -/
theorem Run.journal_of_mem_pauses {σ α : Type} {run : Run σ α} {c : Checkpoint σ}
    (h : c ∈ run.pauses) : ∃ later, run.journal = c.journal ++ later := by
  induction run generalizing c with
  | done s j a => cases h
  | paused s j resume ih =>
    obtain rfl | h := List.mem_cons.1 h
    · exact ⟨_, rfl⟩
    · obtain ⟨c', hc', rfl⟩ := List.mem_map.1 h
      obtain ⟨later, hlater⟩ := ih () hc'
      exact ⟨later, by rw [journal, hlater, Checkpoint.after, List.append_assoc]⟩

/-- A call that came to its end did what it does when nobody interrupts it. -/
theorem Call.drive_of_value? {σ α : Type} {call : Call σ α} {s : σ} {polls : Option Nat} {a : α}
    (h : (call.drive polls s).value? = some a) : call.drive polls s = call.drive none s := by
  match polls with
  | none => rfl
  | some 0 => cases h
  | some (skip + 1) =>
    rw [drive_succ] at h ⊢
    split at h
    · cases h
    · rfl

/-- Answers are no reason to warn. -/
theorem Memo.warnings_resolve (lookup : Lookup) (name : String) (memo : Memo) :
    ((Memo.resolve lookup name).run memo).journal.warnings = [] := by
  cases hg : memo.get? name with
  | some answer =>
    rw [run_resolve_of_get? hg]
    rfl
  | none =>
    obtain ⟨-, hjournal, -⟩ := @run_resolve_of_get?_none lookup _ _ hg
    rw [hjournal, Journal.warnings_asked]
    apply Journal.warnings_event
    cases lookup.definition? name <;> simp [resolution, Event.level]

namespace Elaborator

theorem warnings_elaborate (lookup : Lookup) (id : NodeId) (symbol : Symbol) (s : Elaborator) :
    ((elaborate lookup id symbol).run s).journal.warnings = [] := by
  unfold elaborate
  cases symbol.kind with
  | inst =>
    unfold resolveInstance Memo.resolveInstance
    cases symbol.typeRef <;> simp [Call.run_map, Run.journal, Memo.warnings_resolve]
  | _ => rfl

theorem warnings_addChildren (lookup : Lookup) (id : NodeId) (definition : String)
    (symbols : List Symbol) (s : Elaborator) :
    ((addChildren lookup id definition symbols).run s).journal.warnings = [] := by
  induction symbols generalizing s with
  | nil => rfl
  | cons symbol rest ih =>
    unfold addChildren
    simp [Call.run_map, Run.journal, warnings_elaborate, ih]

theorem warnings_expand (lookup : Lookup) (id : NodeId) (s : Elaborator) :
    ((expand lookup id).run s).journal.warnings = [] := by
  unfold expand
  rw [Call.run_bind, Call.run_gets, Run.bind_done, Run.after_nil]
  split
  · rfl
  · rfl
  · split
    · rfl
    · have hevent (name : String) (nodes : Nat) :
          Journal.warnings [.event (.expanded name nodes)] = [] := rfl
      simp [Call.run_map, Run.journal, warnings_addChildren, Call.emit, record, hevent]

end Elaborator

namespace Pass

/-- What is said about a node that is visited but not entered. -/
def warning (tree : Tree) (id : NodeId) : Event := .recursion ((tree.path? id).getD "")

variable {lookup : Lookup} {s : Pass} {stop : Stop} {stops : List Stop} {c : Checkpoint Pass}

theorem warnings_of_extends {a b : Tree} (hext : a.Extends b) (ha : a.WellFormed)
    (hb : b.WellFormed) {id : NodeId} (hid : id.index < a.size) :
    ([id].filter b.reenters).map (warning b) = if a.reenters id then [warning a id] else [] := by
  have hpath : warning b id = warning a id := by
    rw [warning, hext.path? ha.parentsFirst hb.parentsFirst hid, warning]
  rw [← hpath, ← hext.reenters ha.parentsFirst hb.parentsFirst hid]
  cases hre : b.reenters id <;> simp [hre]

/-- A visit warns of a node that it does not enter, and it is not suspended before that. -/
theorem warnings_enter (here : stop.At s.tree) :
    let path := (s.tree.path? stop.id).getD ""
    let run := (enter lookup stop.chain stop.id stop.node path).run
      { s with index := s.index.visit stop.id stop.node path }
    let warnings := if s.tree.reenters stop.id then [warning s.tree stop.id] else []
    run.journal.warnings = warnings ∧ ∀ c ∈ run.pauses, c.journal.warnings = warnings := by
  have hreenters : s.tree.reenters stop.id = stop.node.definitionId.any (· ∈ stop.chain) := by
    simp [Tree.reenters, here.found, here.opened]
  intro path run warnings
  cases hd : stop.node.definitionId with
  | none => simp [run, warnings, enter, hreenters, hd, Run.journal, Run.pauses]
  | some d =>
    by_cases hmem : d ∈ stop.chain
    · have hwarn : Journal.warnings [.event (.recursion path)] = [warning s.tree stop.id] := rfl
      simp [run, warnings, enter, hreenters, hd, hmem, Call.emit, Call.run_map, Run.journal,
        Run.pauses, hwarn]
    · -- the node is expanded, which is done without a warning up to any suspension
      have hquiet : run.journal.warnings = [] := by
        simp [run, enter, hd, hmem, expand, Call.run_map, Run.journal, Elaborator.warnings_expand]
      have hnone : warnings = [] := by simp [warnings, hreenters, hd, hmem]
      rw [hnone]
      refine ⟨hquiet, fun c hc => ?_⟩
      obtain ⟨later, hlater⟩ := Run.journal_of_mem_pauses hc
      rw [hlater, Journal.warnings_append] at hquiet
      exact (List.append_eq_nil_iff.1 hquiet).1

theorem warnings_visit (here : stop.At s.tree) :
    let run := (stop.call lookup).run s
    let warnings := if s.tree.reenters stop.id then [warning s.tree stop.id] else []
    run.journal.warnings = warnings ∧ ∀ c ∈ run.pauses, c.journal.warnings = warnings := by
  intro run warnings
  obtain ⟨hjournal, hpauses⟩ := @suspensions_visit lookup stop s
  obtain ⟨hend, hopen⟩ := @warnings_enter lookup s stop here
  have hwritten : run.journal.warnings = warnings := by
    rw [hjournal, Journal.warnings_append, hend]
    exact List.append_nil _
  refine ⟨hwritten, fun c hc => ?_⟩
  rw [hpauses, List.mem_append, List.mem_singleton] at hc
  obtain hc | rfl := hc
  · exact hopen c hc
  · rw [← hjournal]
    exact hwritten

theorem Stop.At.mono {a b : Tree} (here : stop.At a) (hext : a.Extends b) (ha : a.WellFormed)
    (hb : b.WellFormed) : stop.At b where
  found := hext.node here.found
  opened := by
    rw [hext.openAbove ha.parentsFirst hb.parentsFirst (Tree.lt_size_of_node? here.found),
      here.opened]
  connected := here.connected.mono hext

/-- What a pass leaves that came along these stops: those in `made` have been visited and
reported, and those in `pending` only visited. -/
structure Trace (lookup : Lookup) (s : Pass) (made pending : List Stop) (c : Checkpoint Pass) :
    Prop where
  grows : Elaborator.Grows lookup s.elaborator c.state.elaborator
  stands : ∀ stop ∈ made ++ pending, stop.At c.state.tree
  noted : c.state.index =
    ((made ++ pending).map (·.id)).foldl (InstanceIndex.note c.state.tree) s.index
  reported : c.journal.reports =
    s.estimate.announce (made.map fun stop => stage c.state.tree stop.id)
  warned : c.journal.warnings =
    (((made ++ pending).map (·.id)).filter c.state.tree.reenters).map (warning c.state.tree)

section Trace

variable {made pending : List Stop} (h : Trace lookup s made pending c)

include h

theorem Trace.present : ∀ v ∈ (made ++ pending).map (·.id), v.index < c.state.tree.size := by
  intro v hv
  obtain ⟨stop, hstop, rfl⟩ := List.mem_map.1 hv
  exact Tree.lt_size_of_node? (h.stands stop hstop).found

theorem Trace.trail :
    c.state.index.trail.toList = s.index.trail.toList ++ (made ++ pending).map (·.id) := by
  rw [h.noted]
  exact InstanceIndex.trail_notes h.present _

theorem Trace.cut :
    c.state.index.cut.toList = s.index.cut.toList ++
      ((made ++ pending).map (·.id)).filter c.state.tree.reenters := by
  rw [h.noted]
  exact InstanceIndex.cut_notes h.present _

end Trace

section Visit

variable (hs : s.tree.WellFormed) (here : stop.At s.tree)

include hs here

/-- One visit leaves its trace, whether or not it has been reported. -/
theorem Noted.trace (h : Noted lookup s stop c.state) {made pending : List Stop}
    (hstop : made ++ pending = [stop])
    (hreports : c.journal.reports = s.estimate.announce (made.map fun stop => stage s.tree stop.id))
    (hwarnings : c.journal.warnings =
      if s.tree.reenters stop.id then [warning s.tree stop.id] else []) :
    Trace lookup s made pending c := by
  have covers := h.covers hs here
  have hext : s.tree.Extends c.state.tree := covers.grows.extends
  have ht : c.state.tree.WellFormed := covers.grows.wellFormed hs
  have hlt := Tree.lt_size_of_node? here.found
  refine ⟨covers.grows, ?stands, ?noted, ?reported, ?warned⟩
  case stands =>
    intro other hmem
    rw [hstop, List.mem_singleton] at hmem
    subst hmem
    exact here.mono hext hs ht
  case noted =>
    rw [hstop]
    exact covers.noted
  case reported =>
    rw [hreports]
    congr 1
    apply List.map_congr_left
    intro other hmem
    have hother : other ∈ made ++ pending := List.mem_append_left _ hmem
    rw [hstop, List.mem_singleton] at hother
    rw [hother, stage_of_extends hext hs ht hlt]
  case warned =>
    rw [hwarnings, hstop]
    exact (warnings_of_extends hext hs ht hlt).symm

theorem trace_visit :
    let run := (stop.call lookup).run s
    Trace lookup s [stop] [] ⟨run.state, run.journal⟩ :=
  Noted.trace hs here (@meets_noted lookup s stop here).2 rfl (progress_visit stop s).2.2
    (warnings_visit here).1

theorem trace_visit_of_mem (h : c ∈ ((stop.call lookup).run s).pauses) :
    Trace lookup s [stop] [] c ∨ Trace lookup s [] [stop] c := by
  have hnoted := (@meets_noted lookup s stop here).1 c h
  have hwarnings := (@warnings_visit lookup s stop here).2 c h
  obtain ⟨-, hreports⟩ | ⟨-, hreports⟩ := checkpoint_visit h
  · rw [(progress_visit stop s).2.2] at hreports
    exact .inl (hnoted.trace hs here rfl hreports hwarnings)
  · exact .inr (hnoted.trace hs here rfl hreports hwarnings)

/-- A visit and the trace of what comes after it make one trace. -/
theorem Trace.cons {made pending : List Stop}
    (rest : Trace lookup ((stop.call lookup).run s).state made pending c) :
    Trace lookup s (stop :: made) pending (c.after ((stop.call lookup).run s).journal) := by
  have first := @trace_visit lookup s stop hs here
  have hext : s.tree.Extends c.state.tree := (first.grows.trans rest.grows).extends
  have ht : c.state.tree.WellFormed := (first.grows.trans rest.grows).wellFormed hs
  have hlt := Tree.lt_size_of_node? here.found
  refine ⟨first.grows.trans rest.grows, ?stands, ?noted, ?reported, ?warned⟩
  case stands =>
    intro other hmem
    obtain rfl | hmem := List.mem_cons.1 hmem
    · exact here.mono hext hs ht
    · exact rest.stands other hmem
  case noted =>
    have hvisit := (@meets_noted lookup s stop here).2.1
    rw [Checkpoint.after, rest.noted, hvisit, List.cons_append, List.map_cons, List.foldl_cons,
      note_of_extends hext hs ht hlt]
  case reported =>
    obtain ⟨hnext, -, hreport⟩ := @progress_visit lookup stop s
    rw [Checkpoint.after, Journal.reports_append, hreport, rest.reported, hnext, List.map_cons,
      Estimate.announce, stage_of_extends hext hs ht hlt]
    rfl
  case warned =>
    rw [Checkpoint.after, Journal.warnings_append, (warnings_visit here).1, rest.warned,
      ← warnings_of_extends hext hs ht hlt, ← List.map_append, ← List.filter_append]
    rfl

end Visit

theorem trace_nil (s : Pass) : Trace lookup s [] [] ⟨s, []⟩ where
  grows := .refl _
  stands := by simp
  noted := rfl
  reported := rfl
  warned := rfl

theorem OnWay.trace (way : OnWay lookup s stops) (hs : s.tree.WellFormed) :
    let run := (tour lookup none stops).run s
    Trace lookup s stops [] ⟨run.state, run.journal⟩ := by
  induction way with
  | nil => exact trace_nil _
  | @cons s stop rest here onward ih =>
    have hrest := (ih ((grows_visit stop s).wellFormed hs)).cons hs here
    dsimp only
    rw [run_tour_none_cons, Run.state_bind, Run.journal_bind]
    exact hrest

/-- Abandoned, a tour has come along its first stops and is at the end of a visit or inside it. -/
theorem OnWay.exists_trace (way : OnWay lookup s stops) (hs : s.tree.WellFormed)
    (h : c ∈ ((tour lookup none stops).run s).pauses) :
    ∃ made pending rest, stops = made ++ pending ++ rest ∧ pending.length ≤ 1 ∧
      Trace lookup s made pending c := by
  induction way generalizing c with
  | nil => cases h
  | @cons s stop rest here onward ih =>
    rw [run_tour_none_cons, Run.pauses_bind, List.mem_append, List.mem_map] at h
    obtain h | ⟨c, hc, rfl⟩ := h
    · obtain h | h := trace_visit_of_mem hs here h
      · exact ⟨[stop], [], rest, rfl, Nat.zero_le _, h⟩
      · exact ⟨[], [stop], rest, rfl, Nat.le_refl _, h⟩
    · obtain ⟨made, pending, rest, rfl, hpending, h⟩ := ih ((grows_visit stop s).wellFormed hs) hc
      exact ⟨stop :: made, pending, rest, rfl, hpending, h.cons hs here⟩

/-- Cancelled or not, a tour makes its first visits. -/
theorem exists_run_tour (h : s.made = 0) (cancelAfter : Option Nat) (stops : List Stop) :
    ∃ made rest, stops = made ++ rest ∧ (tour lookup cancelAfter stops).run s =
      ((tour lookup none made).run s).bind fun _ t =>
        .done t [] (if rest = [] then .finished else .cancelled) := by
  cases cancelAfter with
  | none =>
    refine ⟨stops, [], (List.append_nil _).symm, ?_⟩
    rw [if_pos rfl, ← @value_tour_none lookup stops s]
    exact (Run.bind_pure _).symm.trans (Run.bind_congr rfl)
  | some n =>
    refine ⟨stops.take n, stops.drop n, (List.take_append_drop n stops).symm, ?_⟩
    rw [run_tour_some h]
    by_cases hn : n < stops.length
    · rw [if_pos hn, if_neg (by simpa using hn)]
    · rw [if_neg hn, if_pos (by simpa using hn)]

end Pass

namespace Indexer

variable {lookup : Lookup} {scale : UInt32} {i : Indexer}

/-- How a build that was started stops on its tour: it is abandoned at a suspension, or it says
how it ended. -/
inductive Halt (lookup : Lookup) (scale : UInt32) (i : Indexer) (stops : List Pass.Stop) :
    Call.Outcome Indexer Status → Prop
  | abandoned {made pending rest : List Pass.Stop} {c : Checkpoint Pass}
      (split : stops = made ++ pending ++ rest) (pending_le : pending.length ≤ 1)
      (trace : Pass.Trace lookup (.start i.elaborator scale) made pending c) :
      Halt lookup scale i stops ⟨⟨c.state.elaborator, c.state.index⟩, c.journal, none⟩
  | ended {made rest : List Pass.Stop} {c : Checkpoint Pass} {status : Status} {stage : Stage}
      (split : stops = made ++ rest)
      (trace : Pass.Trace lookup (.start i.elaborator scale) made [] c)
      (estimate : c.state.estimate = (Estimate.start scale).after made.length)
      (said : (status, stage) =
        if rest = [] then (.complete, .complete) else (.cancelled, .cancelled)) :
      Halt lookup scale i stops
        ⟨⟨c.state.elaborator, { c.state.index with status }⟩,
          c.journal ++ [.report ⟨c.state.estimate.finish.1, stage⟩,
            .event (.indexed stage c.state.tree.top.name { c.state.index with status }.tally)],
          some status⟩

/-- The tour that every build of this hierarchy is on, wherever it stops. -/
theorem exists_halt (lookup : Lookup) (scale : UInt32) (hi : i.elaborator.tree.WellFormed) :
    ∃ stops, Toured lookup scale i stops ∧ ∀ cancelAfter polls, polls ≠ some 0 →
      Halt lookup scale i stops ((build lookup scale cancelAfter).drive polls i) := by
  have hs : (Pass.start i.elaborator scale).tree.WellFormed := hi
  obtain ⟨stops, way, htour⟩ := exists_tour lookup scale hi
  refine ⟨stops, toured_of_tour hi way (htour none), fun cancelAfter polls started => ?_⟩
  obtain ⟨made, rest, hsplit, hrun⟩ := @Pass.exists_run_tour lookup (.start i.elaborator scale) rfl
    cancelAfter stops
  have hmade : Pass.OnWay lookup (.start i.elaborator scale) made := by
    have htake := way.take made.length
    rwa [hsplit, List.take_left] at htake
  -- a build is suspended where its tour is, and says after it how it ended
  have hpauses : ((build lookup scale cancelAfter).run i).pauses =
      ((Pass.tour lookup none made).run (.start i.elaborator scale)).pauses.map
        fun c => ⟨⟨c.state.elaborator, c.state.index⟩, c.journal⟩ := by
    rw [run_build, htour, hrun]
    split <;> simp [Pass.run_conclude, Run.pauses, Run.value, Run.state]
  have hend : Halt lookup scale i stops ((build lookup scale cancelAfter).drive none i) := by
    have hended := @Halt.ended lookup scale i stops made rest _
      (if rest = [] then .complete else .cancelled) (if rest = [] then .complete else .cancelled)
      hsplit (hmade.trace hs) (hmade.reported hs).2 (by split <;> rfl)
    rw [Call.drive_none, run_build, htour, hrun]
    split <;> rename_i hrest <;>
      simpa [hrest, Pass.run_conclude, Run.value, Run.state, Run.journal] using hended
  cases polls with
  | none => exact hend
  | some polled =>
    cases polled with
    | zero => exact absurd rfl started
    | succ skip =>
      rw [Call.drive_succ]
      split
      · rename_i c hc
        have hmem := List.mem_of_getElem? hc
        rw [hpauses, List.mem_map] at hmem
        obtain ⟨c, hmem, rfl⟩ := hmem
        obtain ⟨made, pending, later, rfl, hpending, trace⟩ := hmade.exists_trace hs hmem
        exact .abandoned (hsplit.trans (List.append_assoc _ later rest)) hpending trace
      · exact hend

end Indexer

end DesignHierarchy
