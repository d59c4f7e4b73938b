import DesignHierarchy.Proofs.Browsing

/-! Cancelled passes. A pass that may make `n` reports makes the first `n` visits
of the pass that nobody cancels, and one final report. Only if there was more to
visit it counts as cancelled, so it is complete if its last visit was the last. -/
namespace DesignHierarchy

namespace Pass

variable {lookup : Lookup} {s : Pass} {stops : List Stop}

theorem length_reports_tour (stops : List Stop) (s : Pass) :
    ((tour lookup none stops).run s).journal.reports.length = stops.length := by
  induction stops generalizing s with
  | nil => rfl
  | cons stop rest ih =>
    rw [run_tour_none_cons, Run.journal_bind, Journal.reports_append, (progress_visit stop s).2.2,
      List.length_append, ih, List.length_singleton, List.length_cons, Nat.add_comm]

/-- A tour is its first visits and then the others. -/
theorem run_tour_split (n : Nat) (stops : List Stop) (s : Pass) :
    (tour lookup none stops).run s =
      ((tour lookup none (stops.take n)).run s).bind fun _ =>
        (tour lookup none (stops.drop n)).run := by
  have happend := @run_tour_append lookup none (stops.take n) (stops.drop n) s
  rw [List.take_append_drop] at happend
  rw [happend]
  apply Run.bind_congr
  rw [value_tour_none]
  rfl

/-- A tour that may make `n` reports makes the first `n` visits. -/
theorem run_tour_some (h : s.made = 0) (n : Nat) (stops : List Stop) :
    (tour lookup (some n) stops).run s =
      ((tour lookup none (stops.take n)).run s).bind fun _ t =>
        .done t [] (if n < stops.length then .cancelled else .finished) := by
  by_cases hn : n < stops.length
  · rw [tour_of_lt (by omega) (by omega), h, Nat.sub_zero]
    simp only [hn, if_true]
  · rw [tour_of_le (by omega), List.take_of_length_le (by omega)]
    simp only [hn, if_false]
    rw [← @value_tour_none lookup stops s]
    exact (Run.bind_pure _).symm.trans (Run.bind_congr rfl)

theorem reports_tour_take (n : Nat) (stops : List Stop) (s : Pass) :
    ((tour lookup none (stops.take n)).run s).journal.reports =
      ((tour lookup none stops).run s).journal.reports.take (min n stops.length) := by
  rw [run_tour_split n stops s, Run.journal_bind, Journal.reports_append]
  exact (List.take_left' (by rw [length_reports_tour, List.length_take])).symm

/-- The first visits are noted as they are when all are made. -/
theorem OnWay.noted_take (hs : s.tree.WellFormed) (way : OnWay lookup s stops) (n : Nat) :
    ((tour lookup none (stops.take n)).run s).state.index =
      ((stops.map (·.id)).take n).foldl
        (InstanceIndex.note ((tour lookup none stops).run s).state.tree) s.index := by
  have hext : ((tour lookup none (stops.take n)).run s).state.tree.Extends
      ((tour lookup none stops).run s).state.tree := by
    rw [run_tour_split n stops s, Run.state_bind]
    exact extends_tour _ _
  have hpresent : ∀ v ∈ (stops.take n).map (·.id),
      v.index < ((tour lookup none (stops.take n)).run s).state.tree.size := by
    intro v hv
    obtain ⟨stop, hstop, rfl⟩ := List.mem_map.1 hv
    exact (way.take n).present hstop
  rw [(way.take n).noted hs, ← List.map_take]
  exact (foldl_note_of_extends hext (wellFormed_tour hs _) (wellFormed_tour hs _) hpresent _).symm

end Pass

namespace Indexer

variable {lookup : Lookup} {scale : UInt32} {i : Indexer}

/-- What a build that may make `n` reports comes to, in terms of the stops of the full one. -/
theorem build_some_of_tour {stops : List Pass.Stop}
    (htour : ∀ cancelAfter, sweeping lookup scale cancelAfter i =
      (Pass.tour lookup cancelAfter stops).run (Pass.start i.elaborator scale)) (n : Nat) :
    let run := (build lookup scale (some n)).run i
    let swept := (Pass.tour lookup none (stops.take n)).run (Pass.start i.elaborator scale)
    let status := if n < stops.length then Status.cancelled else .complete
    run.value = status ∧ run.state.index = { swept.state.index with status } ∧
      ∃ last : Report, run.journal.reports = swept.journal.reports ++ [last] ∧
        last.stage.message =
          if status = .complete then "Indexing complete" else "Indexing cancelled" := by
  intro run swept status
  have hsweep := htour (some n)
  rw [Pass.run_tour_some rfl] at hsweep
  have hout : (sweeping lookup scale (some n) i).value.outcome =
      some (status, if n < stops.length then .cancelled else .complete) := by
    rw [hsweep, Run.value_bind]
    dsimp only [status, Run.value]
    split <;> rfl
  obtain ⟨hvalue, -, hindex, hreports⟩ := build_of_outcome hout
  rw [hsweep, Run.state_bind] at hindex
  rw [hsweep, Run.journal_bind] at hreports
  refine ⟨hvalue, hindex, _, by simpa [Run.journal] using hreports, ?_⟩
  dsimp only [status]
  split <;> rfl

/-- A build that is cancelled after `n` reports is the beginning of the full one: it makes the
first `n` visits, notes the instances found there and reports on them as the full one does, and
it counts as cancelled just if there were more visits to make. -/
theorem build_cut_short (reached : i.elaborator.tree.Reached) (lookup : Lookup)
    (scale : UInt32) (n : Nat) :
    let full := (build lookup scale none).run i
    let cut := (build lookup scale (some n)).run i
    let visits := full.state.index.trail.toList
    cut.value = (if n < full.state.index.visited then .cancelled else .complete) ∧
    cut.state.index.visited = min n full.state.index.visited ∧
    cut.state.index =
      { (visits.take n).foldl (InstanceIndex.note full.state.elaborator.tree)
          (.opened i.elaborator.tree.top) with status := cut.value } ∧
    (∃ last : Report, cut.journal.reports =
        full.journal.reports.take (min n full.state.index.visited) ++ [last] ∧
      last.stage.message =
        if cut.value = .complete then "Indexing complete" else "Indexing cancelled") ∧
    (cut.state.index.isComplete ↔ cut.value = .complete) ∧
    (full.state.index.visited ≤ n → cut = full) := by
  intro full cut visits
  have hi : (Pass.start i.elaborator scale).tree.WellFormed := reached.wellFormed
  obtain ⟨stops, way, htour⟩ := exists_tour lookup scale hi
  obtain ⟨-, hleft, hfull, hreports⟩ := build_of_tour (htour none)
  obtain ⟨hvalue, hcut, last, hcutReports, hmessage⟩ := build_some_of_tour htour n
  have htrail : visits = stops.map (·.id) := by
    rw [show visits = full.state.index.trail.toList from rfl, hfull]
    exact way.trail hi
  have hvisited : full.state.index.visited = stops.length := by
    rw [InstanceIndex.visited, ← Array.length_toList]
    exact (congrArg List.length htrail).trans (List.length_map _)
  have hindex : cut.state.index = { (visits.take n).foldl
      (InstanceIndex.note full.state.elaborator.tree) (.opened i.elaborator.tree.top) with
      status := cut.value } := by
    rw [hcut, way.noted_take hi n, hvalue, htrail, hleft]
    rfl
  rw [hvisited]
  refine ⟨hvalue, ?visited, hindex, ⟨last, ?reports, ?message⟩, ?isComplete, ?whole⟩
  case visited =>
    have hcutTrail := (way.take n).trail hi
    rw [hcut, InstanceIndex.visited, ← Array.length_toList, hcutTrail]
    simp [Pass.start, InstanceIndex.opened]
  case reports =>
    rw [hcutReports, hreports, Pass.reports_tour_take,
      List.take_append_of_le_length (by rw [Pass.length_reports_tour]; exact Nat.min_le_right _ _)]
  case message => rw [hmessage, hvalue]
  case isComplete => rw [InstanceIndex.isComplete, hindex, decide_eq_true_eq]
  case whole =>
    intro hle
    have hsame : sweeping lookup scale (some n) i = sweeping lookup scale none i := by
      rw [htour, htour]
      exact Pass.tour_of_le (by simpa [Pass.start] using hle)
    rw [show cut = _ from run_build, show full = _ from run_build, hsame]

/-- Three nodes are visited under the self-nesting top, so two reports are too few and three are
enough. -/
theorem build_cut_short_selfNesting :
    let full := (build .selfNesting 64 none).run .browsedOnce
    let cut (n : Nat) := (build .selfNesting 64 (some n)).run .browsedOnce
    full.state.index.visited = 3 ∧ (cut 2).value = .cancelled ∧ (cut 2).state.index.visited = 2 ∧
      (∃ last : Report, (cut 2).journal.reports = full.journal.reports.take 2 ++ [last] ∧
        last.stage.message = "Indexing cancelled") ∧
      cut 3 = full := by
  intro full cut
  have reached : Indexer.browsedOnce.elaborator.tree.Reached :=
    .call (.ofTop .selfNesting) (.expand .root (Call.leaves_run _ _))
  have visited : full.state.index.visited = 3 := by
    simp only [full, run_build]
    decide +kernel
  obtain ⟨hvalue, hvisited, -, ⟨last, hreports, hmessage⟩, -, -⟩ :=
    build_cut_short reached .selfNesting 64 2
  obtain ⟨-, -, -, -, -, whole⟩ := build_cut_short reached .selfNesting 64 3
  rw [visited] at hvalue hvisited hreports
  rw [hvalue] at hmessage
  exact ⟨visited, hvalue, hvisited, ⟨last, hreports, hmessage⟩, whole (by rw [visited])⟩

end Indexer

end DesignHierarchy
