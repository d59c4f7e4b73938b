import DesignHierarchy.Proofs.Build
import DesignHierarchy.Proofs.Places

/-! Passes as tours. However deep a pass goes, it is a list of visits made one
after the other, and cancelling it leaves out the last of them. So what holds of
one visit is carried along the list, and a pass is never opened again. -/
namespace DesignHierarchy

namespace Estimate

/-- The estimate after so many visits. -/
def after (estimate : Estimate) : Nat → Estimate
  | 0 => estimate
  | visits + 1 => estimate.advance.2.after visits

/-- The reports on visits, one for each stage. -/
def announce (estimate : Estimate) : List Stage → List Report
  | [] => []
  | stage :: rest => ⟨estimate.advance.1, stage⟩ :: estimate.advance.2.announce rest

end Estimate

namespace Pass

variable {lookup : Lookup} {cancelAfter : Option Nat}

/-- A node to visit, with the definitions that are open above it, the topmost first. -/
structure Stop where
  chain : List DefId
  id : NodeId
  node : Node

/-- Makes the visits in order, unless the pass is cancelled before one of them. -/
def tour (lookup : Lookup) (cancelAfter : Option Nat) : List Stop → Call Pass Ending
  | [] => return .finished
  | stop :: rest => do
    if ← Call.gets (·.isCancelled cancelAfter) then return .cancelled
    else
      let _ ← visit lookup stop.chain stop.id stop.node
      tour lookup cancelAfter rest

/-- The course of the visit at a stop. -/
def Stop.call (lookup : Lookup) (stop : Stop) : Call Pass (List DefId × List NodeId) :=
  visit lookup stop.chain stop.id stop.node

theorem run_tour_cons (stop : Stop) (rest : List Stop) (s : Pass) :
    (tour lookup cancelAfter (stop :: rest)).run s =
      if s.isCancelled cancelAfter then .done s [] .cancelled
      else ((stop.call lookup).run s).bind fun _ => (tour lookup cancelAfter rest).run := by
  rw [tour]
  cases hc : s.isCancelled cancelAfter <;> simp [hc, Stop.call]

theorem run_tour_none_cons (stop : Stop) (rest : List Stop) (s : Pass) :
    (tour lookup none (stop :: rest)).run s =
      ((stop.call lookup).run s).bind fun _ => (tour lookup none rest).run := by
  rw [run_tour_cons, if_neg (by simp [isCancelled])]

theorem run_tour_append (a b : List Stop) (s : Pass) :
    (tour lookup cancelAfter (a ++ b)).run s =
      ((tour lookup cancelAfter a).run s).bind (goOn (tour lookup cancelAfter b).run) := by
  induction a generalizing s with
  | nil => simp [tour, goOn]
  | cons stop rest ih =>
    rw [List.cons_append, run_tour_cons, run_tour_cons]
    split
    · simp [goOn]
    · rw [Run.bind_assoc]
      congr 1
      funext _ t
      exact ih t

theorem value_tour_none (stops : List Stop) (s : Pass) :
    ((tour lookup none stops).run s).value = .finished := by
  induction stops generalizing s with
  | nil => rfl
  | cons stop rest ih =>
    rw [run_tour_none_cons, Run.value_bind]
    exact ih _

/-- A tour that comes to its end is the one that nobody cancels. -/
theorem tour_of_finished {stops : List Stop} {s : Pass}
    (h : ((tour lookup cancelAfter stops).run s).value = .finished) :
    (tour lookup cancelAfter stops).run s = (tour lookup none stops).run s := by
  induction stops generalizing s with
  | nil => rfl
  | cons stop rest ih =>
    rw [run_tour_cons] at h
    rw [run_tour_cons, run_tour_none_cons]
    split at h
    · cases h
    · rename_i hc
      rw [if_neg hc]
      apply Run.bind_congr
      rw [Run.value_bind] at h
      exact ih h

/-! What one visit does to the progress of a pass. -/

/-- Entering a node makes no progress. -/
theorem progress_enter (chain : List DefId) (id : NodeId) (node : Node) (path : String) (s : Pass) :
    let run := (enter lookup chain id node path).run s
    run.state.estimate = s.estimate ∧ run.state.made = s.made ∧ run.journal.reports = [] := by
  refine ⟨?_, ?_, (enter_cases lookup chain id node path s).1⟩
  all_goals
    unfold enter
    split
    · rfl
    · split
      · rfl
      · simp [expand, Call.run_map, Run.state]

theorem progress_visit (stop : Stop) (s : Pass) :
    let run := (stop.call lookup).run s
    run.state.estimate = s.estimate.advance.2 ∧ run.state.made = s.made + 1 ∧
      run.journal.reports = [⟨s.estimate.advance.1, stage s.tree stop.id⟩] := by
  obtain ⟨hestimate, hmade, hquiet⟩ := @progress_enter lookup stop.chain stop.id stop.node
    ((s.tree.path? stop.id).getD "")
    { s with index := s.index.visit stop.id stop.node ((s.tree.path? stop.id).getD "") }
  simp [Stop.call, visit, Call.run_map, Run.state, Run.journal, hestimate, hmade, hquiet, stage]

/-- A pass that may make no more reports than it needs is not cancelled. -/
theorem tour_of_le {n : Nat} {stops : List Stop} {s : Pass} (h : s.made + stops.length ≤ n) :
    (tour lookup (some n) stops).run s = (tour lookup none stops).run s := by
  induction stops generalizing s with
  | nil => rfl
  | cons stop rest ih =>
    rw [List.length_cons] at h
    rw [run_tour_cons, run_tour_none_cons, if_neg (by simp [isCancelled]; omega)]
    apply Run.bind_congr
    apply ih
    rw [(progress_visit stop s).2.1]
    omega

/-- Else it makes the visits that it may report on, and no other. -/
theorem tour_of_lt {n : Nat} {stops : List Stop} {s : Pass} (hn : s.made ≤ n)
    (h : n < s.made + stops.length) :
    (tour lookup (some n) stops).run s =
      ((tour lookup none (stops.take (n - s.made))).run s).bind
        fun _ t => .done t [] .cancelled := by
  induction stops generalizing s with
  | nil =>
    rw [List.length_nil] at h
    omega
  | cons stop rest ih =>
    rw [List.length_cons] at h
    have hmade := (@progress_visit lookup stop s).2.1
    rw [run_tour_cons]
    by_cases hc : n ≤ s.made
    · rw [if_pos (by simpa [isCancelled] using hc), show n - s.made = 0 by omega, List.take_zero]
      rfl
    · rw [if_neg (by simpa [isCancelled] using hc), show n - s.made = n - (s.made + 1) + 1 by omega,
        List.take_succ_cons, run_tour_none_cons, Run.bind_assoc]
      apply Run.bind_congr
      rw [ih (by omega) (by omega), hmade]

/-! Where the visits of a pass lead. -/

/-- The stop is a node of the hierarchy, to be seen from the top. -/
structure Stop.At (stop : Stop) (tree : Tree) : Prop where
  found : tree.node? stop.id = some stop.node
  opened : tree.openAbove stop.id = stop.chain.reverse
  connected : tree.Connected stop.id

/-- Each stop is a node of the hierarchy that the visits before it leave. -/
inductive OnWay (lookup : Lookup) : Pass → List Stop → Prop
  | nil {s : Pass} : OnWay lookup s []
  | cons {s : Pass} {stop : Stop} {rest : List Stop} (here : stop.At s.tree)
      (onward : OnWay lookup ((stop.call lookup).run s).state rest) :
      OnWay lookup s (stop :: rest)

theorem OnWay.append {s : Pass} {a b : List Stop} (ha : OnWay lookup s a)
    (hb : OnWay lookup ((tour lookup none a).run s).state b) : OnWay lookup s (a ++ b) := by
  induction ha with
  | nil => exact hb
  | cons here _ ih =>
    rw [run_tour_none_cons, Run.state_bind] at hb
    exact .cons here (ih hb)

theorem OnWay.take {s : Pass} {stops : List Stop} (h : OnWay lookup s stops) (n : Nat) :
    OnWay lookup s (stops.take n) := by
  induction h generalizing n with
  | nil =>
    rw [List.take_nil]
    exact .nil
  | cons here _ ih =>
    cases n with
    | zero => exact .nil
    | succ n => exact .cons here (ih n)

section Noted

variable {s : Pass} {stop : Stop} (h : stop.At s.tree)

/-- What is left of a visit, wherever it is abandoned: its node is noted. -/
def Noted (lookup : Lookup) (s : Pass) (stop : Stop) (t : Pass) : Prop :=
  t.index = InstanceIndex.note s.tree s.index stop.id ∧
    Elaborator.Grows lookup s.elaborator t.elaborator

include h

theorem meets_enter_noted :
    let path := (s.tree.path? stop.id).getD ""
    ((enter lookup stop.chain stop.id stop.node path).run
      { s with index := s.index.visit stop.id stop.node path }).Meets (Noted lookup s stop)
      fun _ t => Noted lookup s stop t := by
  have hreenters : s.tree.reenters stop.id = stop.node.definitionId.any (· ∈ stop.chain) := by
    simp [Tree.reenters, h.found, h.opened]
  unfold enter
  cases hd : stop.node.definitionId with
  | none => simp [Noted, InstanceIndex.note, h.found, hreenters, hd, Elaborator.Grows.refl]
  | some d =>
    by_cases hmem : d ∈ stop.chain
    · simp [Noted, InstanceIndex.note, h.found, hreenters, hd, hmem, Call.emit, Call.run_map,
        Elaborator.Grows.refl]
    · have hnote : InstanceIndex.note s.tree s.index stop.id =
          s.index.visit stop.id stop.node ((s.tree.path? stop.id).getD "") := by
        simp [InstanceIndex.note, h.found, hreenters, hd, hmem]
      simp only [if_neg hmem]
      have hexpand : ((expand lookup stop.id).run { s with
          index := s.index.visit stop.id stop.node ((s.tree.path? stop.id).getD "") }).Meets
          (Noted lookup s stop) fun _ t => Noted lookup s stop t := by
        apply Run.Meets.within
        apply (Elaborator.meets_expand_grows lookup s.elaborator stop.id).imp
        · intro e he
          exact ⟨hnote.symm, he⟩
        · intro cs e he
          exact ⟨hnote.symm, he.1⟩
      apply hexpand.bind
      intro cs t ht
      simpa using ht

theorem meets_noted : ((stop.call lookup).run s).Meets (Noted lookup s stop)
    fun _ t => Noted lookup s stop t := by
  unfold Stop.call visit
  simp only [Call.run_bind, Call.run_gets, Run.bind_done, Run.after_nil, run_modifyIndex]
  apply (meets_enter_noted h).bind
  intro site t ht
  rw [Call.run_bind, run_report, Run.bind_done, Run.meets_after]
  have hpause : ((Call.pause : Call Pass Unit).run
      { t with estimate := t.estimate.advance.2, made := t.made + 1 }).Meets (Noted lookup s stop)
      fun _ t => Noted lookup s stop t := Call.meets_pause ht ht
  apply hpause.bind
  intro _ u hu
  simpa using hu

end Noted

/-- What every visit on the way keeps is kept by the tour. -/
theorem OnWay.meets {keep : Pass → Prop}
    (step : ∀ (s : Pass) (stop : Stop), keep s → stop.At s.tree →
      ((stop.call lookup).run s).Meets keep fun _ t => keep t)
    {s : Pass} {stops : List Stop} (way : OnWay lookup s stops) (hs : keep s)
    (cancelAfter : Option Nat) :
    ((tour lookup cancelAfter stops).run s).Meets keep fun _ t => keep t := by
  induction way with
  | nil =>
    rw [tour, Call.run_pure, Run.meets_done]
    exact hs
  | @cons s stop rest here onward ih =>
    rw [run_tour_cons]
    split
    · rw [Run.meets_done]
      exact hs
    · have hvisit := step s stop hs here
      exact hvisit.bind_at (ih hvisit.2)

/-- What a visit leaves to go on with can be seen from the top too. -/
theorem connected_visit {s : Pass} {stop : Stop} (h : stop.At s.tree) {c : NodeId}
    (hc : c ∈ ((stop.call lookup).run s).value.2) :
    ((stop.call lookup).run s).state.tree.Connected c := by
  obtain ⟨-, -, ⟨-, hvalue, -⟩ | ⟨d, -, -, hvalue, hleft⟩⟩ := visit_cases lookup h.found h.opened
  · rw [Stop.call, hvalue] at hc
    cases hc
  · rw [Stop.call, hvalue] at hc
    have hexp := Elaborator.expansion_expand lookup s.elaborator stop.id
    have hconnected := (h.connected.mono hexp.extends).child (hexp.recorded h.found) hc
    rw [Stop.call, tree, hleft]
    exact hconnected

theorem grows_visit (stop : Stop) (s : Pass) :
    Elaborator.Grows lookup s.elaborator ((stop.call lookup).run s).state.elaborator :=
  (meets_visit (fun _ _ h step => h.tail step) (.refl s.elaborator) _ _ _).2

theorem grows_tour (stops : List Stop) (s : Pass) :
    Elaborator.Grows lookup s.elaborator ((tour lookup none stops).run s).state.elaborator := by
  induction stops generalizing s with
  | nil => exact .refl _
  | cons stop rest ih =>
    rw [run_tour_none_cons, Run.state_bind]
    exact (grows_visit stop s).trans (ih _)

theorem extends_tour (stops : List Stop) (s : Pass) :
    s.tree.Extends ((tour lookup none stops).run s).state.tree :=
  (grows_tour stops s).extends

theorem wellFormed_tour {s : Pass} (hs : s.tree.WellFormed) (stops : List Stop) :
    ((tour lookup none stops).run s).state.tree.WellFormed :=
  (grows_tour stops s).wellFormed hs

/-- The sweep of one scope is a tour, if that is so of the sweeps below it. -/
theorem exists_tour_sweepWith {below : Option Nat → List DefId → List NodeId → Call Pass Ending}
    (hbelow : ∀ chain ids s, s.tree.WellFormed → s.tree.Under chain ids →
      (∀ id ∈ ids, s.tree.Connected id) → ((below none chain ids).run s).value = .finished →
      ∃ stops, OnWay lookup s stops ∧
        ∀ cancelAfter, (below cancelAfter chain ids).run s = (tour lookup cancelAfter stops).run s)
    {chain : List DefId} {ids : List NodeId} {s : Pass} (hs : s.tree.WellFormed)
    (hunder : s.tree.Under chain ids) (hseen : ∀ id ∈ ids, s.tree.Connected id)
    (h : ((sweepWith lookup none (below none) chain ids).run s).value = .finished) :
    ∃ stops, OnWay lookup s stops ∧ ∀ cancelAfter,
      (sweepWith lookup cancelAfter (below cancelAfter) chain ids).run s =
        (tour lookup cancelAfter stops).run s := by
  induction ids generalizing s with
  | nil => exact ⟨[], .nil, fun _ => rfl⟩
  | cons id rest ih =>
    obtain ⟨hlt, hopen⟩ := hunder id List.mem_cons_self
    obtain ⟨node, found⟩ := Tree.exists_node? hlt
    have here : (Stop.mk chain id node).At s.tree :=
      ⟨found, hopen, hseen id List.mem_cons_self⟩
    obtain ⟨hgrows, hsite⟩ := visit_under lookup hs found hopen
    have hsites := fun c hc => @connected_visit lookup s _ here c hc
    rw [run_sweepWith_cons, if_neg (by simp [isCancelled]), found] at h
    dsimp only [Stop.call] at h hsites
    rw [Run.value_bind, Run.value_bind] at h
    -- the sweep below the node came to its end, so it is a tour and the next one starts after it
    cases hend : ((below none ((visit lookup chain id node).run s).value.1
        ((visit lookup chain id node).run s).value.2).run
        ((visit lookup chain id node).run s).state).value with
    | cancelled =>
      rw [hend] at h
      cases h
    | outOfRoom =>
      rw [hend] at h
      cases h
    | finished =>
      rw [hend] at h
      have hvisited := hgrows.wellFormed hs
      obtain ⟨low, hlow, hlowRun⟩ := hbelow _ _ _ hvisited hsite hsites hend
      rw [hlowRun] at h
      have hgrows' := hgrows.trans (@grows_tour lookup low ((visit lookup chain id node).run s).state)
      have hm := hgrows'.wellFormed hs
      obtain ⟨high, hhigh, hhighRun⟩ := ih hm
        (Tree.Under.mono hgrows'.extends hs hm fun r hr => hunder r (List.mem_cons_of_mem _ hr))
        (fun r hr => (hseen r (List.mem_cons_of_mem _ hr)).mono hgrows'.extends) h
      refine ⟨⟨chain, id, node⟩ :: (low ++ high), .cons here (hlow.append hhigh), ?_⟩
      intro cancelAfter
      rw [run_sweepWith_cons, run_tour_cons]
      split
      · rfl
      rw [found]
      apply Run.bind_congr
      rw [hlowRun, run_tour_append]
      apply Run.bind_congr
      cases hvalue : ((tour lookup cancelAfter low).run
          ((visit lookup chain id node).run s).state).value with
      | cancelled => rfl
      | outOfRoom => rfl
      | finished =>
        rw [tour_of_finished hvalue]
        exact hhighRun cancelAfter

theorem exists_tour_sweep {room : Nat} {chain : List DefId} {ids : List NodeId} {s : Pass}
    (hs : s.tree.WellFormed) (hunder : s.tree.Under chain ids)
    (hseen : ∀ id ∈ ids, s.tree.Connected id)
    (h : ((sweep lookup none room chain ids).run s).value = .finished) :
    ∃ stops, OnWay lookup s stops ∧ ∀ cancelAfter,
      (sweep lookup cancelAfter room chain ids).run s = (tour lookup cancelAfter stops).run s := by
  induction room generalizing chain ids s with
  | zero =>
    cases ids with
    | nil => exact ⟨[], .nil, fun _ => rfl⟩
    | cons id rest => cases h
  | succ room ih =>
    exact @exists_tour_sweepWith lookup (fun cancelAfter => sweep lookup cancelAfter room)
      (fun _ _ _ hs hunder hseen h => ih hs hunder hseen h) chain ids s hs hunder hseen h

/-! What a tour leaves. -/

section OnWay

variable {s : Pass} {stops : List Stop} (hs : s.tree.WellFormed) (way : OnWay lookup s stops)

include way

theorem OnWay.present {stop : Stop} (h : stop ∈ stops) :
    stop.id.index < ((tour lookup none stops).run s).state.tree.size := by
  induction way with
  | nil => cases h
  | @cons s first rest here _ ih =>
    obtain rfl | h := List.mem_cons.1 h
    · exact Tree.lt_size_of_node? ((extends_tour (stop :: rest) s).node here.found)
    · rw [run_tour_none_cons, Run.state_bind]
      exact ih h

include hs

/-- The index holds a note of each visit. -/
theorem OnWay.noted :
    let run := (tour lookup none stops).run s
    run.state.index = (stops.map (·.id)).foldl (InstanceIndex.note run.state.tree) s.index := by
  induction way with
  | nil => rfl
  | @cons s stop rest here onward ih =>
    have hnoted := ih ((grows_visit stop s).wellFormed hs)
    have hfirst := note_of_extends (@extends_tour lookup (stop :: rest) s) hs (wellFormed_tour hs _)
      (Tree.lt_size_of_node? here.found) s.index
    have hvisit := (visit_cases lookup here.found here.opened).1
    rw [run_tour_none_cons, Run.state_bind] at hfirst
    dsimp only at hnoted ⊢
    rw [run_tour_none_cons, Run.state_bind, hnoted, List.map_cons, List.foldl_cons, hfirst]
    exact congrArg (List.foldl _ · _) hvisit

/-- Each visit was reported, as the estimate had it. -/
theorem OnWay.reported :
    let run := (tour lookup none stops).run s
    run.journal.reports = s.estimate.announce (stops.map fun stop => stage run.state.tree stop.id) ∧
      run.state.estimate = s.estimate.after stops.length := by
  induction way with
  | nil => exact ⟨rfl, rfl⟩
  | @cons s stop rest here onward ih =>
    obtain ⟨hreports, hestimate⟩ := ih ((grows_visit stop s).wellFormed hs)
    obtain ⟨hnext, -, hreport⟩ := @progress_visit lookup stop s
    have hfirst := stage_of_extends (@extends_tour lookup (stop :: rest) s) hs (wellFormed_tour hs _)
      (Tree.lt_size_of_node? here.found)
    rw [run_tour_none_cons, Run.state_bind] at hfirst
    dsimp only at hreports ⊢
    rw [run_tour_none_cons, Run.state_bind, Run.journal_bind, Journal.reports_append, hreport,
      hreports, hestimate, hnext, List.map_cons, Estimate.announce, hfirst]
    exact ⟨rfl, rfl⟩

theorem OnWay.trail :
    ((tour lookup none stops).run s).state.index.trail.toList =
      s.index.trail.toList ++ stops.map (·.id) := by
  rw [way.noted hs]
  apply InstanceIndex.trail_notes
  intro v hv
  obtain ⟨stop, hstop, rfl⟩ := List.mem_map.1 hv
  exact way.present hstop

end OnWay

end Pass

namespace Indexer

variable {lookup : Lookup} {scale : UInt32} {i : Indexer}

/-- Nobody cancelling it, a build makes a whole tour and one more report. -/
theorem build_of_tour {stops : List Pass.Stop}
    (htour : sweeping lookup scale none i =
      (Pass.tour lookup none stops).run (Pass.start i.elaborator scale)) :
    let run := (build lookup scale none).run i
    let swept := (Pass.tour lookup none stops).run (Pass.start i.elaborator scale)
    run.value = .complete ∧ run.state.elaborator = swept.state.elaborator ∧
      run.state.index = { swept.state.index with status := .complete } ∧
      run.journal.reports =
        swept.journal.reports ++ [⟨swept.state.estimate.finish.1, .complete⟩] := by
  have hout : (sweeping lookup scale none i).value.outcome = some (.complete, .complete) := by
    rw [htour, Pass.value_tour_none]
    rfl
  have hbuild := build_of_outcome hout
  rw [htour] at hbuild
  exact hbuild

/-- A build is a tour of the hierarchy, cancelled or not. -/
theorem exists_tour (lookup : Lookup) (scale : UInt32) (hi : i.elaborator.tree.WellFormed) :
    ∃ stops, Pass.OnWay lookup (Pass.start i.elaborator scale) stops ∧ ∀ cancelAfter,
      sweeping lookup scale cancelAfter i =
        (Pass.tour lookup cancelAfter stops).run (Pass.start i.elaborator scale) :=
  Pass.exists_tour_sweep hi (under_root hi)
    (fun _ hid => List.mem_singleton.1 hid ▸ Tree.connected_root _) (finished_sweeping lookup i scale)

end Indexer

end DesignHierarchy
