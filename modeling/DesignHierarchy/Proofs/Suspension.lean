import DesignHierarchy.Proofs.Cancel

/-! Abandoned builds. A pass gives way once after each report and, if the lookup
suspends, once in each question that it asks. Wherever it is abandoned, the visit
it is at has been noted already, and it has been reported unless a question of
that visit is still open. -/
namespace DesignHierarchy

namespace Journal

@[simp] theorem asked_nil : asked [] = [] := rfl

@[simp] theorem asked_asked (name : String) (j : Journal) :
    asked (.asked name :: j) = name :: asked j := rfl

@[simp] theorem asked_event (event : Event) (j : Journal) :
    asked (.event event :: j) = asked j := rfl

@[simp] theorem asked_report (report : Report) (j : Journal) :
    asked (.report report :: j) = asked j := rfl

/-- The last thing that was done was to report progress. -/
def EndsInReport (journal : Journal) : Prop := ∃ report, journal.getLast? = some (.report report)

/-- The last thing that was done was to ask the workspace, which has not answered yet. -/
def EndsInQuestion (journal : Journal) : Prop := ∃ name, journal.getLast? = some (.asked name)

theorem EndsInReport.append {j : Journal} (h : j.EndsInReport) (earlier : Journal) :
    EndsInReport (earlier ++ j) := by
  obtain ⟨report, hlast⟩ := h
  exact ⟨report, by rw [List.getLast?_append, hlast, Option.some_or]⟩

theorem EndsInQuestion.append {j : Journal} (h : j.EndsInQuestion) (earlier : Journal) :
    EndsInQuestion (earlier ++ j) := by
  obtain ⟨name, hlast⟩ := h
  exact ⟨name, by rw [List.getLast?_append, hlast, Option.some_or]⟩

end Journal

namespace Run

variable {σ τ α β : Type} {suspends : Bool}

/-- The run makes no reports and is suspended only to ask, once in each question if questions
suspend. -/
structure Inquiring (suspends : Bool) (run : Run σ α) : Prop where
  quiet : run.journal.reports = []
  count : run.pauses.length = if suspends then run.journal.asked.length else 0
  asking : ∀ c ∈ run.pauses, c.journal.reports = [] ∧ c.journal.EndsInQuestion

theorem inquiring_done {s : σ} {j : Journal} {a : α} (hreports : j.reports = [])
    (hasked : j.asked = []) : (Run.done s j a).Inquiring suspends where
  quiet := hreports
  count := by simp [pauses, journal, hasked]
  asking := by simp [pauses]

theorem Inquiring.bind {run : Run σ α} {f : α → σ → Run σ β} (first : run.Inquiring suspends)
    (second : (f run.value run.state).Inquiring suspends) : (run.bind f).Inquiring suspends where
  quiet := by rw [journal_bind, Journal.reports_append, first.quiet, second.quiet, List.append_nil]
  count := by
    rw [pauses_bind, List.length_append, List.length_map, journal_bind, Journal.asked_append,
      List.length_append, first.count, second.count]
    split <;> rfl
  asking := by
    intro c hc
    rw [pauses_bind, List.mem_append, List.mem_map] at hc
    obtain hc | ⟨c', hc', rfl⟩ := hc
    · exact first.asking c hc
    · obtain ⟨hreports, hlast⟩ := second.asking c' hc'
      refine ⟨?_, hlast.append run.journal⟩
      rw [Checkpoint.after, Journal.reports_append, first.quiet, hreports, List.append_nil]

theorem Inquiring.within {run : Run σ α} (h : run.Inquiring suspends) (put : σ → τ) :
    (run.within put).Inquiring suspends where
  quiet := by rw [journal_within, h.quiet]
  count := by rw [pauses_within, List.length_map, journal_within, h.count]
  asking := by
    intro c hc
    rw [pauses_within, List.mem_map] at hc
    obtain ⟨c', hc', rfl⟩ := hc
    exact h.asking c' hc'

end Run

namespace Call

variable {σ α : Type} {call : Call σ α} {s : σ}

/-- A call that is abandoned leaves one of its checkpoints. -/
theorem exists_drive_eq {k : Nat} (hpos : 1 ≤ k) (hk : k ≤ (call.run s).pauses.length) :
    ∃ c ∈ (call.run s).pauses, call.drive (some k) s = ⟨c.state, c.journal, none⟩ := by
  obtain ⟨skip, rfl⟩ := Nat.exists_eq_add_of_le' hpos
  refine ⟨(call.run s).pauses[skip], List.getElem_mem hk, ?_⟩
  rw [drive_succ, List.getElem?_eq_getElem hk]

theorem drive_of_length_lt {k : Nat} (hk : (call.run s).pauses.length < k) :
    call.drive (some k) s = call.drive none s := by
  obtain ⟨skip, rfl⟩ := Nat.exists_eq_add_of_le' (Nat.succ_le_of_lt (Nat.zero_lt_of_lt hk))
  rw [drive_succ, List.getElem?_eq_none (Nat.le_of_lt_succ hk)]

end Call

theorem Memo.inquiring_resolve (lookup : Lookup) (name : String) (memo : Memo) :
    ((Memo.resolve lookup name).run memo).Inquiring lookup.suspends := by
  cases hg : memo.get? name with
  | some answer =>
    rw [run_resolve_of_get? hg]
    exact Run.inquiring_done rfl rfl
  | none =>
    obtain ⟨hpauses, hjournal, -⟩ := @run_resolve_of_get?_none lookup _ _ hg
    refine ⟨by rw [hjournal]; rfl, ?_, ?_⟩
    · rw [hpauses, hjournal]
      cases lookup.suspends <;> rfl
    · intro c hc
      rw [hpauses] at hc
      split at hc
      · cases List.mem_singleton.1 hc
        exact ⟨rfl, name, rfl⟩
      · cases hc

namespace Elaborator

theorem inquiring_elaborate (lookup : Lookup) (id : NodeId) (symbol : Symbol) (s : Elaborator) :
    ((elaborate lookup id symbol).run s).Inquiring lookup.suspends := by
  unfold elaborate
  cases symbol.kind with
  | inst =>
    have hresolve : ((resolveInstance lookup symbol).run s).Inquiring lookup.suspends := by
      unfold resolveInstance Memo.resolveInstance
      cases symbol.typeRef with
      | none => exact (Run.inquiring_done rfl rfl).within _
      | some name => exact (Memo.inquiring_resolve lookup name s.memo).within _
    exact hresolve.bind (Run.inquiring_done rfl rfl)
  | _ => exact Run.inquiring_done rfl rfl

theorem inquiring_addChildren (lookup : Lookup) (id : NodeId) (definition : String)
    (symbols : List Symbol) (s : Elaborator) :
    ((addChildren lookup id definition symbols).run s).Inquiring lookup.suspends := by
  induction symbols generalizing s with
  | nil => exact Run.inquiring_done rfl rfl
  | cons symbol rest ih =>
    unfold addChildren
    apply (inquiring_elaborate lookup id symbol s).bind
    simp only [Call.run_bind, Call.run_gets, Call.run_modify, Run.bind_done, Run.after_nil,
      Tree.nextId?_none]
    exact (ih _).bind (Run.inquiring_done rfl rfl)

theorem inquiring_expand (lookup : Lookup) (id : NodeId) (s : Elaborator) :
    ((expand lookup id).run s).Inquiring lookup.suspends := by
  unfold expand
  rw [Call.run_bind, Call.run_gets, Run.bind_done, Run.after_nil]
  split
  · exact Run.inquiring_done rfl rfl
  · exact Run.inquiring_done rfl rfl
  · split
    · exact Run.inquiring_done rfl rfl
    · exact (inquiring_addChildren lookup id _ _ s).bind (Run.inquiring_done rfl rfl)

end Elaborator

namespace Estimate

theorem stages_announce (estimate : Estimate) (stages : List Stage) :
    (estimate.announce stages).map (·.stage) = stages := by
  induction stages generalizing estimate with
  | nil => rfl
  | cons stage rest ih => rw [announce, List.map_cons, ih]

end Estimate

theorem InstanceIndex.status_notes (tree : Tree) (visits : List NodeId) (index : InstanceIndex) :
    (visits.foldl (note tree) index).status = index.status := by
  induction visits generalizing index with
  | nil => rfl
  | cons id rest ih => rw [List.foldl_cons, ih, status_note]

namespace Pass

variable {lookup : Lookup} {s : Pass} {stops : List Stop}

theorem inquiring_enter (lookup : Lookup) (chain : List DefId) (id : NodeId) (node : Node)
    (path : String) (s : Pass) :
    ((enter lookup chain id node path).run s).Inquiring lookup.suspends := by
  unfold enter
  split
  · exact Run.inquiring_done rfl rfl
  · split
    · exact Run.inquiring_done rfl rfl
    · have hexpand : ((expand lookup id).run s).Inquiring lookup.suspends :=
        (Elaborator.inquiring_expand lookup id s.elaborator).within _
      exact hexpand.bind (Run.inquiring_done rfl rfl)

/-- A visit is suspended in its questions, and once more when it has been reported. -/
theorem suspensions_visit (stop : Stop) (s : Pass) :
    let path := (s.tree.path? stop.id).getD ""
    let entered := (enter lookup stop.chain stop.id stop.node path).run
      { s with index := s.index.visit stop.id stop.node path }
    let t := entered.state
    let written := entered.journal ++ [.report ⟨t.estimate.advance.1, .visiting path⟩]
    let run := (stop.call lookup).run s
    run.journal = written ∧ run.pauses = entered.pauses ++
      [⟨{ t with estimate := t.estimate.advance.2, made := t.made + 1 }, written⟩] := by
  simp [Stop.call, visit, Call.run_map, Run.pauses, Run.journal, Checkpoint.after]

theorem length_pauses_visit (stop : Stop) (s : Pass) :
    ((stop.call lookup).run s).pauses.length =
      1 + if lookup.suspends then ((stop.call lookup).run s).journal.asked.length else 0 := by
  obtain ⟨hjournal, hpauses⟩ := @suspensions_visit lookup stop s
  have hentered := inquiring_enter lookup stop.chain stop.id stop.node
    ((s.tree.path? stop.id).getD "")
    { s with index := s.index.visit stop.id stop.node ((s.tree.path? stop.id).getD "") }
  rw [hpauses, hjournal, List.length_append, hentered.count, Journal.asked_append]
  simp [Nat.add_comm]

/-- Where a visit is suspended it has just been reported, or a question is open and there is no
report yet. -/
theorem checkpoint_visit {stop : Stop} {c : Checkpoint Pass}
    (h : c ∈ ((stop.call lookup).run s).pauses) :
    c.journal.EndsInReport ∧ c.journal.reports = ((stop.call lookup).run s).journal.reports ∨
      c.journal.EndsInQuestion ∧ c.journal.reports = [] := by
  obtain ⟨hjournal, hpauses⟩ := @suspensions_visit lookup stop s
  have hentered := inquiring_enter lookup stop.chain stop.id stop.node
    ((s.tree.path? stop.id).getD "")
    { s with index := s.index.visit stop.id stop.node ((s.tree.path? stop.id).getD "") }
  rw [hpauses, List.mem_append, List.mem_singleton] at h
  obtain h | rfl := h
  · obtain ⟨hreports, hlast⟩ := hentered.asking c h
    exact .inr ⟨hlast, hreports⟩
  · rw [hjournal]
    exact .inl ⟨⟨_, List.getLast?_concat⟩, rfl⟩

theorem length_pauses_tour (stops : List Stop) (s : Pass) :
    ((tour lookup none stops).run s).pauses.length = stops.length +
      if lookup.suspends then ((tour lookup none stops).run s).journal.asked.length else 0 := by
  induction stops generalizing s with
  | nil => cases h : lookup.suspends <;> simp [tour, Run.pauses, Run.journal]
  | cons stop rest ih =>
    rw [run_tour_none_cons, Run.pauses_bind, List.length_append, List.length_map,
      length_pauses_visit, ih, Run.journal_bind, Journal.asked_append, List.length_append,
      List.length_cons]
    split <;> omega

/-- A tour that is abandoned has noted the visit it is at. It has reported on the visits so far,
or on all of them but this one, where a question is open. -/
theorem OnWay.checkpoint (way : OnWay lookup s stops) {c : Checkpoint Pass}
    (h : c ∈ ((tour lookup none stops).run s).pauses) :
    ∃ n < stops.length,
      c.state.index = ((tour lookup none (stops.take (n + 1))).run s).state.index ∧
      (c.journal.EndsInReport ∧ c.journal.reports =
          ((tour lookup none (stops.take (n + 1))).run s).journal.reports ∨
        c.journal.EndsInQuestion ∧ c.journal.reports =
          ((tour lookup none (stops.take n)).run s).journal.reports) := by
  induction way generalizing c with
  | nil => cases h
  | @cons s stop rest here onward ih =>
    rw [run_tour_none_cons, Run.pauses_bind, List.mem_append, List.mem_map] at h
    obtain h | ⟨c', hc', rfl⟩ := h
    · -- the first visit is noted in the same way at each of its suspensions and at its end
      have hmeets := @meets_noted lookup s stop here
      refine ⟨0, by simp, ?_, ?_⟩
      · rw [List.take_succ_cons, List.take_zero, run_tour_none_cons, Run.state_bind]
        exact (hmeets.1 c h).1.trans hmeets.2.1.symm
      · rw [List.take_succ_cons, List.take_zero, run_tour_none_cons, Run.journal_bind,
          Journal.reports_append]
        simpa [tour, Run.journal] using checkpoint_visit h
    · obtain ⟨n, hn, hindex, hcases⟩ := ih hc'
      refine ⟨n + 1, by simpa using hn, ?_, ?_⟩
      · rw [List.take_succ_cons, run_tour_none_cons, Run.state_bind]
        exact hindex
      · rw [List.take_succ_cons, List.take_succ_cons, run_tour_none_cons, run_tour_none_cons,
          Run.journal_bind, Run.journal_bind, Journal.reports_append, Journal.reports_append,
          Checkpoint.after, Journal.reports_append]
        obtain ⟨hlast, hreports⟩ | ⟨hlast, hreports⟩ := hcases
        · exact .inl ⟨hlast.append _, by rw [hreports]⟩
        · exact .inr ⟨hlast.append _, by rw [hreports]⟩

/-- A tour reports on visits only. -/
theorem OnWay.visiting (hs : s.tree.WellFormed) (way : OnWay lookup s stops) {report : Report}
    (h : report ∈ ((tour lookup none stops).run s).journal.reports) :
    ∃ path, report.stage = .visiting path := by
  rw [(way.reported hs).1] at h
  have hstage := List.mem_map_of_mem (f := fun report : Report => report.stage) h
  rw [Estimate.stages_announce] at hstage
  obtain ⟨stop, -, hstop⟩ := List.mem_map.1 hstage
  exact ⟨_, hstop.symm⟩

end Pass

namespace Indexer

variable {lookup : Lookup} {scale : UInt32} {i : Indexer}

/-- A full build that made these stops: it visited them, it was suspended where their tour is,
and it wrote one more report. -/
structure Toured (lookup : Lookup) (scale : UInt32) (i : Indexer) (stops : List Pass.Stop) :
    Prop where
  way : Pass.OnWay lookup (Pass.start i.elaborator scale) stops
  trail : ((build lookup scale none).run i).state.index.trail.toList = stops.map (·.id)
  tree : ((build lookup scale none).run i).state.elaborator.tree =
    ((Pass.tour lookup none stops).run (Pass.start i.elaborator scale)).state.tree
  pauses : ((build lookup scale none).run i).pauses =
    ((Pass.tour lookup none stops).run (Pass.start i.elaborator scale)).pauses.map
      fun c => ⟨⟨c.state.elaborator, c.state.index⟩, c.journal⟩
  asked : ((build lookup scale none).run i).journal.asked =
    ((Pass.tour lookup none stops).run (Pass.start i.elaborator scale)).journal.asked
  reports : ∃ last, ((build lookup scale none).run i).journal.reports =
    ((Pass.tour lookup none stops).run (Pass.start i.elaborator scale)).journal.reports ++ [last]

theorem toured_of_tour {stops : List Pass.Stop} (hi : i.elaborator.tree.WellFormed)
    (way : Pass.OnWay lookup (Pass.start i.elaborator scale) stops)
    (htour : sweeping lookup scale none i =
      (Pass.tour lookup none stops).run (Pass.start i.elaborator scale)) :
    Toured lookup scale i stops := by
  obtain ⟨-, hleft, hindex, hreports⟩ := build_of_tour htour
  have hend := @Pass.value_tour_none lookup stops (Pass.start i.elaborator scale)
  refine ⟨way, ?_, congrArg Elaborator.tree hleft, ?_, ?_, ⟨_, hreports⟩⟩
  · rw [hindex]
    exact way.trail hi
  · rw [run_build, htour]
    simp [hend, Pass.run_conclude, Run.pauses]
  · rw [run_build, htour]
    simp [hend, Pass.run_conclude, Run.journal]

theorem exists_toured (lookup : Lookup) (scale : UInt32) (hi : i.elaborator.tree.WellFormed) :
    ∃ stops, Toured lookup scale i stops := by
  obtain ⟨stops, way, htour⟩ := exists_tour lookup scale hi
  exact ⟨stops, toured_of_tour hi way (htour none)⟩

namespace Toured

variable {stops : List Pass.Stop} (h : Toured lookup scale i stops)

include h

theorem visited : ((build lookup scale none).run i).state.index.visited = stops.length := by
  rw [InstanceIndex.visited, ← Array.length_toList, h.trail, List.length_map]

theorem length_pauses :
    let full := (build lookup scale none).run i
    full.pauses.length = full.state.index.visited +
      if lookup.suspends then full.journal.asked.length else 0 := by
  dsimp only
  rw [h.visited, h.pauses, h.asked, List.length_map]
  exact Pass.length_pauses_tour stops _

/-- The reports on the first visits are the first reports of the full build. -/
theorem reports_take {n : Nat} (hn : n ≤ stops.length) :
    ((Pass.tour lookup none (stops.take n)).run (Pass.start i.elaborator scale)).journal.reports =
      ((build lookup scale none).run i).journal.reports.take n := by
  obtain ⟨last, hreports⟩ := h.reports
  have hlength := @Pass.length_reports_tour lookup stops (Pass.start i.elaborator scale)
  rw [Pass.reports_tour_take, hreports, List.take_append_of_le_length (by omega),
    Nat.min_eq_left hn]

variable (hi : (Pass.start i.elaborator scale).tree.WellFormed)

include hi

theorem visiting {n : Nat} (hn : n ≤ stops.length) {report : Report}
    (hreport : report ∈ ((build lookup scale none).run i).journal.reports.take n) :
    ∃ path, report.stage = .visiting path := by
  rw [← h.reports_take hn, Pass.reports_tour_take] at hreport
  exact h.way.visiting hi (List.mem_of_mem_take hreport)

/-- Noting the first visits of the full build. -/
theorem noted_take {n : Nat} (hn : n ≤ stops.length) :
    let full := (build lookup scale none).run i
    let index := ((Pass.tour lookup none (stops.take n)).run
      (Pass.start i.elaborator scale)).state.index
    index = (full.state.index.trail.toList.take n).foldl
        (InstanceIndex.note full.state.elaborator.tree) (.opened i.elaborator.tree.top) ∧
      index.visited = n := by
  dsimp only
  refine ⟨?_, ?_⟩
  · rw [h.way.noted_take hi, h.trail, h.tree]
    rfl
  · rw [InstanceIndex.visited, ← Array.length_toList, (h.way.take n).trail hi]
    simpa [Pass.start, InstanceIndex.opened] using hn

end Toured

/-- A build that is abandoned leaves a beginning of the full one: it is in progress, and each visit
it has come to is noted, and reported on but for the last one perhaps. It has as many
suspensions as visits and questions that suspend. -/
theorem build_abandoned (reached : i.elaborator.tree.Reached) (lookup : Lookup)
    (scale : UInt32) :
    let call := build lookup scale none
    let full := call.run i
    let visits := full.state.index.trail.toList
    full.pauses.length = full.state.index.visited +
      (if lookup.suspends then full.journal.asked.length else 0) ∧
    (∀ k, 1 ≤ k → k ≤ full.pauses.length →
      let left := call.drive (some k) i
      let index := left.state.index
      left.value? = none ∧ index.status = .inProgress ∧ index.isComplete = false ∧
      index.top = some i.elaborator.tree.top ∧
      0 < index.visited ∧ index.visited ≤ full.state.index.visited ∧
      index = (visits.take index.visited).foldl
        (InstanceIndex.note full.state.elaborator.tree) (.opened i.elaborator.tree.top) ∧
      (left.journal.EndsInReport ∧
          left.journal.reports = full.journal.reports.take index.visited ∨
        left.journal.EndsInQuestion ∧
          left.journal.reports = full.journal.reports.take (index.visited - 1)) ∧
      ∀ report ∈ left.journal.reports, ∃ path, report.stage = .visiting path) ∧
    ∀ k, full.pauses.length < k → call.drive (some k) i = call.drive none i := by
  intro call full visits
  have hi : (Pass.start i.elaborator scale).tree.WellFormed := reached.wellFormed
  obtain ⟨stops, toured⟩ := exists_toured lookup scale hi
  refine ⟨toured.length_pauses, ?_, fun k hk => Call.drive_of_length_lt hk⟩
  intro k hpos hk left index
  obtain ⟨c, hc, hdrive⟩ := Call.exists_drive_eq hpos hk
  have hleft : left = ⟨c.state, c.journal, none⟩ := hdrive
  rw [toured.pauses, List.mem_map] at hc
  obtain ⟨c, hc, rfl⟩ := hc
  obtain ⟨n, hn, hindex, hcases⟩ := toured.way.checkpoint hc
  obtain ⟨hnoted, hvisited⟩ := toured.noted_take hi (show n + 1 ≤ stops.length from hn)
  rw [← hindex] at hnoted hvisited
  rw [toured.reports_take hn, toured.reports_take (Nat.le_of_lt hn)] at hcases
  have hstatus : c.state.index.status = .inProgress := by
    rw [hnoted, InstanceIndex.status_notes]
    rfl
  have htop : c.state.index.top = some i.elaborator.tree.top := by
    rw [hnoted, InstanceIndex.top_notes]
    rfl
  have hle : n + 1 ≤ full.state.index.visited := by
    rw [toured.visited]
    exact hn
  rw [show index = left.state.index from rfl, hleft]
  dsimp only
  rw [hvisited]
  refine ⟨rfl, hstatus, by simp [InstanceIndex.isComplete, hstatus], htop, Nat.succ_pos n, hle,
    hnoted, hcases, ?_⟩
  intro report hreport
  obtain ⟨-, heq⟩ | ⟨-, heq⟩ := hcases
  · exact toured.visiting hi hn (heq ▸ hreport)
  · exact toured.visiting hi (Nat.le_of_lt hn) (heq ▸ hreport)

/-- Three visits and one question. The second suspension is inside the question, when the block is
noted and only the top has been reported. -/
theorem build_abandoned_selfNesting :
    let call := build (Workspace.lookup { store := .selfNesting, suspends := true }) 64 none
    let full := call.run .selfNesting
    let left := call.drive (some 2) .selfNesting
    full.pauses.length = 4 ∧ full.state.index.visited = 3 ∧ full.journal.asked = ["m"] ∧
      left.state.index.status = .inProgress ∧ left.state.index.visited = 2 ∧
      left.journal.getLast? = some (.asked "m") ∧
      left.journal.reports = full.journal.reports.take 1 ∧
      call.drive (some 5) .selfNesting = call.drive none .selfNesting := by
  intro call full left
  have asked : full.journal.asked = ["m"] := by
    simp only [full, call, run_build]
    decide +kernel
  have visited : full.state.index.visited = 3 := by
    simp only [full, call, run_build]
    decide +kernel
  have noted : left.state.index.visited = 2 := by
    simp only [left, call, Call.drive, run_build]
    decide +kernel
  have last : left.journal.getLast? = some (.asked "m") := by
    simp only [left, call, Call.drive, run_build]
    decide +kernel
  obtain ⟨count, dropped, longer⟩ := @build_abandoned .selfNesting (.ofTop .selfNesting)
    (Workspace.lookup { store := .selfNesting, suspends := true }) 64
  change full.pauses.length = full.state.index.visited + full.journal.asked.length at count
  rw [visited, asked, List.length_singleton] at count
  obtain ⟨-, hstatus, -, -, -, -, -, hcases, -⟩ := dropped 2 (by decide) (count.symm ▸ by decide)
  change left.journal.EndsInReport ∧ _ ∨ _ ∧
    left.journal.reports = full.journal.reports.take (left.state.index.visited - 1) at hcases
  refine ⟨count, visited, asked, hstatus, noted, last, ?_, longer 5 (count.symm ▸ by decide)⟩
  obtain ⟨⟨report, hreport⟩, -⟩ | ⟨-, hreports⟩ := hcases
  · rw [last] at hreport
    cases hreport
  · rw [hreports, noted]

end Indexer

end DesignHierarchy
