import DesignHierarchy.Proofs.Halting

/-! Progress of a pass. In machine words each step of the estimate could overflow,
divide by zero or be cut off; the same steps in exact arithmetic show that none of
this happens, and so what the reports on visits add up to, whatever the scale. -/
namespace DesignHierarchy

namespace Report

/-- The progress that reports add up to. -/
def total : List Report → Nat
  | [] => 0
  | report :: rest => report.increment.toNat + total rest

theorem total_append (a b : List Report) : total (a ++ b) = total a + total b := by
  induction a with
  | nil => simp [total]
  | cons report rest ih => rw [List.cons_append, total, total, ih, Nat.add_assoc]

end Report

namespace Estimate

/-- A value as a word of a type with so many words, refused if it is none of them. -/
def word? (size : Nat) (value : Int) : Option Nat :=
  if 0 ≤ value ∧ value < size then some value.toNat else none

/-- A quotient, refused if the divisor is zero. -/
def quotient? (a b : Nat) : Option Nat := if b = 0 then none else some (a / b)

/-- Counts one visit in exact arithmetic. Where a word would wrap around, be narrowed with a loss
or fall short of what was reported before, the step is refused. -/
def advance? (estimate : Estimate) : Option (UInt32 × Estimate) := do
  let visited ← word? UInt64.size (estimate.visited.toNat + 1)
  let scaled ← word? UInt64.size (99 * visited)
  let divisor ← word? UInt64.size (visited + estimate.scale.toNat)
  let reached ← word? UInt32.size (← quotient? scaled divisor)
  let increment ← word? UInt32.size (reached - estimate.reported.toNat)
  let reported ← word? UInt32.size (estimate.reported.toNat + increment)
  return (.ofNat increment,
    { estimate with visited := .ofNat visited, reported := .ofNat reported })

def finish? (estimate : Estimate) : Option (UInt32 × Estimate) := do
  let increment ← word? UInt32.size (100 - estimate.reported.toNat)
  return (.ofNat increment, { estimate with reported := 100 })

/-- The reports of a pass in exact arithmetic, if no step is refused. -/
def reports? (estimate : Estimate) : List Stage → Option (List Report)
  | [] => some []
  | stage :: rest => do
    let (increment, next) ← match stage with
      | .visiting _ => estimate.advance?
      | _ => estimate.finish?
    return ⟨increment, stage⟩ :: (← next.reports? rest)

theorem word?_eq {size n : Nat} {value : Int} (h : value = n) (hn : n < size) :
    word? size value = some n := by
  subst h
  unfold word?
  rw [if_pos ⟨Int.natCast_nonneg n, Int.ofNat_lt.2 hn⟩, Int.toNat_natCast]

/-- The percentage that so many visits come to. -/
def level (scale : UInt32) (visits : Nat) : Nat := 99 * visits / (visits + scale.toNat)

theorem level_le (scale : UInt32) (visits : Nat) : level scale visits ≤ 99 := by
  apply Nat.div_le_of_le_mul
  omega

theorem level_le_succ (scale : UInt32) (visits : Nat) :
    level scale visits ≤ level scale (visits + 1) := by
  have hle := level_le scale visits
  have hquotient : level scale visits * (visits + scale.toNat) ≤ 99 * visits :=
    Nat.div_mul_le_self _ _
  show level scale visits ≤ 99 * (visits + 1) / (visits + 1 + scale.toNat)
  rw [Nat.le_div_iff_mul_le (by omega)]
  calc level scale visits * (visits + 1 + scale.toNat)
      = level scale visits * (visits + scale.toNat) + level scale visits := by
        rw [Nat.add_right_comm, Nat.mul_succ]
    _ ≤ 99 * visits + 99 := Nat.add_le_add hquotient hle
    _ = 99 * (visits + 1) := rfl

theorem level_mono (scale : UInt32) {j k : Nat} (h : j ≤ k) : level scale j ≤ level scale k := by
  induction h with
  | refl => exact Nat.le_refl _
  | step _ ih => exact ih.trans (level_le_succ scale _)

/-- An estimate that has counted so many visits, and has reported all that they come to. -/
structure Counts (scale : UInt32) (visits : Nat) (estimate : Estimate) : Prop where
  scale_eq : estimate.scale = scale.toUInt64
  visited : estimate.visited.toNat = visits
  reported : estimate.reported.toNat = level scale visits

theorem counts_start (scale : UInt32) : Counts scale 0 (start scale) where
  scale_eq := rfl
  visited := rfl
  reported := by simp [level, start]

section Step

variable {scale : UInt32} {visits : Nat} {estimate : Estimate} (h : Counts scale visits estimate)
  (room : 99 * (visits + 1) < UInt64.size)

include h room

theorem Counts.toNat_visited : (estimate.visited + 1).toNat = visits + 1 := by
  have hsize : UInt64.size = 18446744073709551616 := rfl
  rw [UInt64.toNat_add, h.visited]
  exact Nat.mod_eq_of_lt (show visits + 1 < UInt64.size by omega)

theorem Counts.toNat_percent :
    (percent (estimate.visited + 1) estimate.scale).toNat = level scale (visits + 1) := by
  have hsize : UInt64.size = 18446744073709551616 := rfl
  have hscale := scale.toNat_lt
  have hle := level_le scale (visits + 1)
  have hscaled : (99 * (estimate.visited + 1)).toNat = 99 * (visits + 1) := by
    rw [UInt64.toNat_mul, h.toNat_visited room]
    exact Nat.mod_eq_of_lt room
  have hdivisor : (estimate.visited + 1 + estimate.scale).toNat = visits + 1 + scale.toNat := by
    rw [UInt64.toNat_add, h.toNat_visited room, h.scale_eq, UInt32.toNat_toUInt64]
    exact Nat.mod_eq_of_lt (by omega)
  rw [percent, UInt64.toNat_toUInt32, UInt64.toNat_div, hscaled, hdivisor]
  exact Nat.mod_eq_of_lt (by rw [← level]; omega)

/-- What was reported is never more than what is reached. -/
theorem Counts.toNat_advance :
    estimate.advance.1.toNat + level scale visits = level scale (visits + 1) := by
  have hreached := h.toNat_percent room
  have hstep := level_le_succ scale visits
  have hforward : ¬ percent (estimate.visited + 1) estimate.scale < estimate.reported := by
    rw [UInt32.lt_iff_toNat_lt, hreached, h.reported]
    omega
  rw [advance, if_neg hforward]
  dsimp only
  rw [UInt32.toNat_sub_of_le _ _ (UInt32.not_lt.1 hforward), hreached, h.reported]
  omega

theorem Counts.step : Counts scale (visits + 1) estimate.advance.2 where
  scale_eq := h.scale_eq
  visited := h.toNat_visited room
  reported := by
    have hle := level_le scale (visits + 1)
    have hstep := h.toNat_advance room
    show (estimate.reported + estimate.advance.1).toNat = _
    rw [UInt32.toNat_add, h.reported, Nat.add_comm, hstep]
    exact Nat.mod_eq_of_lt (by omega)

/-- Nothing is lost in a step. -/
theorem Counts.advance?_eq : estimate.advance? = some estimate.advance := by
  have hsize : UInt64.size = 18446744073709551616 ∧ UInt32.size = 4294967296 := ⟨rfl, rfl⟩
  have hscale := scale.toNat_lt
  have hle := level_le scale (visits + 1)
  have hstep := h.toNat_advance room
  have hnext := h.step room
  have hvisited : word? UInt64.size (estimate.visited.toNat + 1) = some (visits + 1) :=
    word?_eq (by rw [h.visited]; omega) (by omega)
  have hscaled : word? UInt64.size (99 * (visits + 1 : Nat)) = some (99 * (visits + 1)) :=
    word?_eq (by omega) room
  have hdivisor : word? UInt64.size ((visits + 1 : Nat) + estimate.scale.toNat) =
      some (visits + 1 + scale.toNat) :=
    word?_eq (by rw [h.scale_eq, UInt32.toNat_toUInt64]; omega) (by omega)
  have hquotient : quotient? (99 * (visits + 1)) (visits + 1 + scale.toNat) =
      some (level scale (visits + 1)) := if_neg (by omega)
  have hreached : word? UInt32.size (level scale (visits + 1)) = some (level scale (visits + 1)) :=
    word?_eq rfl (by omega)
  have hincrement : word? UInt32.size (level scale (visits + 1) - estimate.reported.toNat) =
      some estimate.advance.1.toNat := word?_eq (by rw [h.reported]; omega) (UInt32.toNat_lt _)
  have hreported : word? UInt32.size (estimate.reported.toNat + estimate.advance.1.toNat) =
      some (level scale (visits + 1)) := word?_eq (by rw [h.reported]; omega) (by omega)
  unfold advance?
  refine Option.bind_eq_some_iff.2 ⟨_, hvisited, ?_⟩
  refine Option.bind_eq_some_iff.2 ⟨_, hscaled, ?_⟩
  refine Option.bind_eq_some_iff.2 ⟨_, hdivisor, ?_⟩
  refine Option.bind_eq_some_iff.2 ⟨_, hquotient, ?_⟩
  refine Option.bind_eq_some_iff.2 ⟨_, hreached, ?_⟩
  refine Option.bind_eq_some_iff.2 ⟨_, hincrement, ?_⟩
  refine Option.bind_eq_some_iff.2 ⟨_, hreported, ?_⟩
  rw [← hnext.reported, ← hnext.visited, UInt32.ofNat_toNat, UInt32.ofNat_toNat, UInt64.ofNat_toNat]
  rfl

end Step

section Close

variable {scale : UInt32} {visits : Nat} {estimate : Estimate} (h : Counts scale visits estimate)

include h

theorem Counts.toNat_finish : estimate.finish.1.toNat + level scale visits = 100 := by
  have hle := level_le scale visits
  have hreported : estimate.reported ≤ 100 := by
    rw [UInt32.le_iff_toNat_le, h.reported]
    exact hle.trans (by decide)
  have hrest : estimate.finish.1.toNat = 100 - level scale visits := by
    rw [finish, UInt32.toNat_sub_of_le _ _ hreported, h.reported]
    rfl
  omega

theorem Counts.finish?_eq : estimate.finish? = some estimate.finish := by
  have hfinish := h.toNat_finish
  have hincrement : word? UInt32.size (100 - estimate.reported.toNat) =
      some estimate.finish.1.toNat := word?_eq (by rw [h.reported]; omega) (UInt32.toNat_lt _)
  unfold finish?
  refine Option.bind_eq_some_iff.2 ⟨_, hincrement, ?_⟩
  rw [UInt32.ofNat_toNat]
  rfl

theorem Counts.reports?_closing {stage : Stage} (closing : stage = .complete ∨ stage = .cancelled) :
    estimate.reports? [stage] = some [⟨estimate.finish.1, stage⟩] := by
  obtain rfl | rfl := closing <;> simp [reports?, h.finish?_eq]

end Close

section Run

variable {scale : UInt32} {visits : Nat} {estimate : Estimate} (h : Counts scale visits estimate)

include h

theorem Counts.steps {n : Nat} (room : 99 * (visits + n) < UInt64.size) :
    Counts scale (visits + n) (estimate.after n) := by
  induction n generalizing visits estimate with
  | zero => exact h
  | succ n ih =>
    have hrest := ih (h.step (by omega)) (by omega)
    rwa [Nat.add_right_comm] at hrest

variable (stages : List Stage) (room : 99 * (visits + stages.length) < UInt64.size)

include room

/-- The reports on the first visits add up to what these visits come to. -/
theorem Counts.total_announce {k : Nat} (hk : k ≤ stages.length) :
    Report.total ((estimate.announce stages).take k) + level scale visits =
      level scale (visits + k) := by
  induction stages generalizing visits estimate k with
  | nil =>
    rw [Nat.le_zero.1 hk]
    exact Nat.zero_add _
  | cons stage rest ih =>
    rw [List.length_cons] at room hk
    cases k with
    | zero => exact Nat.zero_add _
    | succ k =>
      have hstep := h.toNat_advance (by omega)
      have hrest := ih (h.step (by omega)) (by omega) (Nat.le_of_succ_le_succ hk)
      have hshift : visits + 1 + k = visits + (k + 1) := by omega
      rw [hshift] at hrest
      rw [announce, List.take_succ_cons, Report.total]
      dsimp only
      omega

/-- Nothing is lost in the reports on visits. -/
theorem Counts.reports?_append (visiting : ∀ stage ∈ stages, ∃ path, stage = .visiting path)
    (closing : List Stage) :
    estimate.reports? (stages ++ closing) =
      ((estimate.after stages.length).reports? closing).map (estimate.announce stages ++ ·) := by
  induction stages generalizing visits estimate with
  | nil => simp [after, announce]
  | cons stage rest ih =>
    rw [List.length_cons] at room
    obtain ⟨path, rfl⟩ := visiting stage List.mem_cons_self
    have hrest := ih (h.step (by omega)) (by omega)
      fun stage hmem => visiting stage (List.mem_cons_of_mem _ hmem)
    rw [List.cons_append, reports?]
    dsimp only
    rw [h.advance?_eq (by omega), Option.bind_eq_bind, Option.bind_some, hrest]
    show _ = Option.map _ ((estimate.advance.2.after rest.length).reports? closing)
    cases (estimate.advance.2.after rest.length).reports? closing <;> rfl

end Run

end Estimate

namespace Pass.Trace

variable {lookup : Lookup} {e : Elaborator} {scale : UInt32} {made pending : List Stop}
  {c : Checkpoint Pass} (h : Trace lookup (.start e scale) made pending c)

include h

theorem visited : c.state.index.visited = made.length + pending.length := by
  rw [InstanceIndex.visited, ← Array.length_toList, h.trail]
  simp [start, InstanceIndex.opened]

theorem length_reports : c.journal.reports.length = made.length := by
  rw [h.reported, ← List.length_map (f := fun report : Report => report.stage),
    Estimate.stages_announce, List.length_map]

theorem visiting {report : Report} (hmem : report ∈ c.journal.reports) :
    ∃ path, report.stage = .visiting path := by
  rw [h.reported] at hmem
  have hstage := List.mem_map_of_mem (f := fun report : Report => report.stage) hmem
  rw [Estimate.stages_announce] at hstage
  obtain ⟨stop, -, hstop⟩ := List.mem_map.1 hstage
  exact ⟨_, hstop.symm⟩

theorem announced :
    (Estimate.start scale).announce (c.journal.reports.map (·.stage)) = c.journal.reports := by
  rw [h.reported, Estimate.stages_announce]
  rfl

variable (room : 99 * (c.state.index.visited + 1) < UInt64.size)

include room

theorem room_reports : 99 * (0 + (c.journal.reports.map (·.stage)).length) < UInt64.size := by
  rw [h.visited] at room
  rw [List.length_map, h.length_reports]
  omega

theorem counts : Estimate.Counts scale made.length ((Estimate.start scale).after made.length) := by
  have hsteps := (Estimate.counts_start scale).steps (h.room_reports room)
  rwa [Nat.zero_add, List.length_map, h.length_reports] at hsteps

theorem total_take {k : Nat} (hk : k ≤ c.journal.reports.length) :
    Report.total (c.journal.reports.take k) = Estimate.level scale k := by
  have htotal := (Estimate.counts_start scale).total_announce (c.journal.reports.map (·.stage))
    (h.room_reports room) (k := k) (by rwa [List.length_map])
  rw [h.announced, Nat.zero_add] at htotal
  simpa [Estimate.level] using htotal

/-- The totals are those of the visits made, so they never go down and never exceed 99. -/
theorem totals :
    let visits := c.journal.reports
    (∀ k ≤ visits.length, Report.total (visits.take k) = 99 * k / (k + scale.toNat)) ∧
    (∀ j k, j ≤ k → k ≤ visits.length →
      Report.total (visits.take j) ≤ Report.total (visits.take k)) ∧
    ∀ k ≤ visits.length, Report.total (visits.take k) ≤ 99 := by
  refine ⟨fun k hk => h.total_take room hk, ?_, ?_⟩
  · intro j k hjk hk
    rw [h.total_take room (hjk.trans hk), h.total_take room hk]
    exact Estimate.level_mono scale hjk
  · intro k hk
    rw [h.total_take room hk]
    exact Estimate.level_le scale k

theorem reports?_eq (closing : List Stage) :
    (Estimate.start scale).reports? (c.journal.reports.map (·.stage) ++ closing) =
      (((Estimate.start scale).after made.length).reports? closing).map
        (c.journal.reports ++ ·) := by
  have hreports := (Estimate.counts_start scale).reports?_append (c.journal.reports.map (·.stage))
    (h.room_reports room) (by
      intro stage hmem
      obtain ⟨report, hreport, rfl⟩ := List.mem_map.1 hmem
      exact h.visiting hreport) closing
  rwa [h.announced, List.length_map, h.length_reports] at hreports

end Pass.Trace

namespace Indexer

/-- However a build stops, and whatever its scale, no step of its progress overflows or is cut off,
and the reports on the first `k` visits add up to `99 k / (k + scale)`. A build that ends makes one
more report, which brings the total to 100. -/
theorem progress_of_build {i : Indexer} (reached : i.elaborator.tree.Reached) (lookup : Lookup)
    (scale : UInt32) (cancelAfter polls : Option Nat) :
    let left := (build lookup scale cancelAfter).drive polls i
    let reports := left.journal.reports
    let n := left.state.index.visited
    (polls = some 0 → reports = []) ∧
    (polls ≠ some 0 → 99 * (n + 1) < UInt64.size →
      (Estimate.start scale).reports? (reports.map (·.stage)) = some reports ∧
      ∃ visits closing, reports = visits ++ closing ∧
        (∀ report ∈ visits, ∃ path, report.stage = .visiting path) ∧
        (∀ k ≤ visits.length, Report.total (visits.take k) = 99 * k / (k + scale.toNat)) ∧
        (∀ j k, j ≤ k → k ≤ visits.length →
          Report.total (visits.take j) ≤ Report.total (visits.take k)) ∧
        (∀ k ≤ visits.length, Report.total (visits.take k) ≤ 99) ∧
        (∀ status, left.value? = some status → visits.length = n ∧
          ∃ last, closing = [last] ∧ 1 ≤ last.increment.toNat ∧ Report.total reports = 100 ∧
            (status = .complete ∧ last.stage = .complete ∨
              status = .cancelled ∧ last.stage = .cancelled)) ∧
        (left.value? = none →
          closing = [] ∧ (visits.length = n ∨ visits.length + 1 = n))) := by
  intro left reports n
  refine ⟨fun unstarted => ?_, fun started room => ?_⟩
  · subst unstarted
    rfl
  obtain ⟨stops, -, halts⟩ := exists_halt lookup scale reached.wellFormed
  have halt : Halt lookup scale i stops left := halts cancelAfter polls started
  clear_value left
  cases halt with
  | @abandoned made pending rest c split pending_le trace =>
    obtain ⟨htotal, hmono, hle⟩ := trace.totals room
    have hexact := trace.reports?_eq room []
    rw [List.append_nil] at hexact
    refine ⟨hexact.trans (congrArg some (List.append_nil _)), c.journal.reports, [],
      (List.append_nil _).symm, fun _ => trace.visiting, htotal, hmono, hle, ?_, ?_⟩
    · intro status hvalue
      cases hvalue
    · intro _
      have hvisited : n = made.length + pending.length := trace.visited
      rw [trace.length_reports]
      exact ⟨rfl, by omega⟩
  | @ended made rest c status stage split trace estimate said =>
    obtain ⟨htotal, hmono, hle⟩ := trace.totals room
    have hcounts := trace.counts room
    have hexact := trace.reports?_eq room [stage]
    rw [← estimate] at hcounts hexact
    have hsaid : status = .complete ∧ stage = .complete ∨
        status = .cancelled ∧ stage = .cancelled := by
      split at said
      · exact .inl (Prod.mk.inj said)
      · exact .inr (Prod.mk.inj said)
    have hreports : reports = c.journal.reports ++ [⟨c.state.estimate.finish.1, stage⟩] := by
      simp [reports]
    have hfinish := hcounts.toNat_finish
    have hlevel := Estimate.level_le scale made.length
    have hbefore := trace.total_take room (Nat.le_refl _)
    rw [List.take_length, trace.length_reports] at hbefore
    refine ⟨?exact, c.journal.reports, _, hreports, fun _ => trace.visiting, htotal, hmono, hle,
      ?ended, fun hvalue => by cases hvalue⟩
    case exact =>
      rw [hcounts.reports?_closing (hsaid.imp And.right And.right)] at hexact
      rw [hreports, List.map_append]
      exact hexact
    case ended =>
      intro said hvalue
      cases hvalue
      have hvisited : n = made.length + 0 := trace.visited
      refine ⟨trace.length_reports.trans hvisited.symm, _, rfl, ?_, ?_, hsaid⟩
      · dsimp only
        omega
      · rw [hreports, Report.total_append, hbefore]
        exact (Nat.add_comm _ _).trans hfinish

/-- Three visits under the self-nesting top, each of which is reported, and what is left. With a
scale of zero the first visit comes to 99 already, and an abandoned build stays there. -/
theorem progress_of_build_selfNesting :
    let whole := (build .selfNesting 2 none).drive none .selfNesting
    let dropped := (build .selfNesting 0 none).drive (some 2) .selfNesting
    whole.journal.reports.map (·.increment) = [33, 16, 10, 41] ∧
      (Estimate.start 2).reports? (whole.journal.reports.map (·.stage)) =
        some whole.journal.reports ∧
      Report.total whole.journal.reports = 100 ∧
      dropped.journal.reports.map (·.increment) = [99, 0] ∧
      Report.total dropped.journal.reports ≤ 99 := by
  intro whole dropped
  have reached : Indexer.selfNesting.elaborator.tree.Reached := .ofTop .selfNesting
  have complete : whole.value? = some .complete := by
    simp only [whole, Call.drive, run_build]
    decide +kernel
  have unfinished : dropped.value? = none := by
    simp only [dropped, Call.drive, run_build]
    decide +kernel
  have few : 99 * (whole.state.index.visited + 1) < UInt64.size ∧
      99 * (dropped.state.index.visited + 1) < UInt64.size := by
    simp only [whole, dropped, Call.drive, run_build]
    decide +kernel
  have hwhole := (progress_of_build reached .selfNesting 2 none none).2
  obtain ⟨exact, _, _, -, -, -, -, -, ended, -⟩ := hwhole (by decide) few.1
  obtain ⟨-, _, -, -, total, -⟩ := ended .complete complete
  have hdropped := (progress_of_build reached .selfNesting 0 none (some 2)).2
  obtain ⟨-, visits, closing, split, -, -, -, le, -, abandoned⟩ := hdropped (by decide) few.2
  obtain ⟨rfl, -⟩ := abandoned unfinished
  rw [List.append_nil] at split
  have hle := le visits.length (Nat.le_refl _)
  rw [List.take_length, ← split] at hle
  refine ⟨?_, exact, total, ?_, hle⟩
  · simp only [whole, Call.drive, run_build]
    decide +kernel
  · simp only [dropped, Call.drive, run_build]
    decide +kernel

end Indexer

end DesignHierarchy
