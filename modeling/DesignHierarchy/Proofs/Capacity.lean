import DesignHierarchy.Proofs.Reach

/-! Hierarchies of limited size. Node ids are 32-bit numbers, so the children that
an expansion finds when there are as many nodes as there may be are dropped, with
a warning. Until then a call under a limit does what it does without one, so all
that is known of hierarchies of any size holds of those below the limit. -/
namespace DesignHierarchy

/-- Some children were dropped. -/
def Journal.LimitReached (journal : Journal) : Prop :=
  ∃ definition, Entry.event (.nodeLimit definition) ∈ journal

namespace Run

variable {σ τ α β : Type} {full : σ → Prop}

/-- The tree is full wherever the call may be left, and children were dropped before. -/
def Overflows (full : σ → Prop) (run : Run σ α) : Prop :=
  (∀ c ∈ run.pauses, full c.state ∧ c.journal.LimitReached) ∧
    full run.state ∧ run.journal.LimitReached

theorem Overflows.bind {run : Run σ α} {f : α → σ → Run σ β} (h : run.Overflows full)
    (remains : ∀ a s, full s → (f a s).Meets full fun _ => full) : (run.bind f).Overflows full := by
  obtain ⟨hpauses, hstate, hjournal⟩ := h
  obtain ⟨hkeep, hend⟩ := remains run.value run.state hstate
  have append (j : Journal) : Journal.LimitReached (run.journal ++ j) :=
    hjournal.imp fun _ hmem => List.mem_append_left _ hmem
  refine ⟨?_, by simpa using hend, by simpa using append _⟩
  intro c hc
  rw [pauses_bind, List.mem_append, List.mem_map] at hc
  obtain hc | ⟨c', hc', rfl⟩ := hc
  · exact hpauses c hc
  · exact ⟨hkeep c' hc', append _⟩

theorem Overflows.after {run : Run σ α} (h : run.Overflows full) (j : Journal) :
    (run.after j).Overflows full := by
  obtain ⟨hpauses, hstate, hjournal⟩ := h
  have append (k : Journal) (hk : k.LimitReached) : Journal.LimitReached (j ++ k) :=
    hk.imp fun _ hmem => List.mem_append_right _ hmem
  refine ⟨?_, by simpa using hstate, by simpa using append _ hjournal⟩
  intro c hc
  rw [pauses_after, List.mem_map] at hc
  obtain ⟨c', hc', rfl⟩ := hc
  exact ⟨(hpauses c' hc').1, append _ (hpauses c' hc').2⟩

theorem Overflows.within {full' : τ → Prop} {put : σ → τ} {run : Run σ α}
    (h : run.Overflows full) (hput : ∀ s, full s → full' (put s)) :
    (run.within put).Overflows full' := by
  obtain ⟨hpauses, hstate, hjournal⟩ := h
  refine ⟨?_, by simpa using hput _ hstate, by simpa using hjournal⟩
  intro c hc
  rw [pauses_within, List.mem_map] at hc
  obtain ⟨c', hc', rfl⟩ := hc
  exact ⟨hput _ (hpauses c' hc').1, (hpauses c' hc').2⟩

/-- The first course is the second one, at least until the tree is full and children are
dropped. -/
inductive UntilFull (full : σ → Prop) : Run σ α → Run σ α → Prop
  | done (s : σ) (j : Journal) (a : α) : UntilFull full (.done s j a) (.done s j a)
  | paused (s : σ) (j : Journal) {resume resume' : Unit → Run σ α}
      (later : UntilFull full (resume ()) (resume' ())) :
      UntilFull full (.paused s j resume) (.paused s j resume')
  | parted {bounded free : Run σ α} (overflows : bounded.Overflows full)
      (remains : free.Meets full fun _ => full) : UntilFull full bounded free

namespace UntilFull

theorem refl (run : Run σ α) : UntilFull full run run := by
  induction run with
  | done s j a => exact .done s j a
  | paused s j resume ih => exact .paused s j (ih ())

theorem after {bounded free : Run σ α} (h : UntilFull full bounded free) (j : Journal) :
    UntilFull full (bounded.after j) (free.after j) := by
  cases h with
  | done s k a => exact .done s (j ++ k) a
  | paused s k later => exact .paused s (j ++ k) later
  | parted overflows remains => exact .parted (overflows.after j) ((meets_after j free).2 remains)

theorem bind {bounded free : Run σ α} {f g : α → σ → Run σ β} (h : UntilFull full bounded free)
    (next : ∀ a s, UntilFull full (f a s) (g a s))
    (remains : ∀ a s, full s →
      (f a s).Meets full (fun _ => full) ∧ (g a s).Meets full fun _ => full) :
    UntilFull full (bounded.bind f) (free.bind g) := by
  induction h with
  | done s j a =>
    rw [bind_done, bind_done]
    exact (next a s).after j
  | paused s j _ ih => exact .paused s j ih
  | parted overflows stays =>
    exact .parted (overflows.bind fun a s hs => (remains a s hs).1)
      (stays.bind fun a s hs => (remains a s hs).2)

/-- What both do first is no reason to part. -/
theorem bind_same (run : Run σ α) {f g : α → σ → Run σ β}
    (next : ∀ a s, UntilFull full (f a s) (g a s)) :
    UntilFull full (run.bind f) (run.bind g) := by
  induction run with
  | done s j a =>
    rw [bind_done, bind_done]
    exact (next a s).after j
  | paused s j resume ih => exact .paused s j (ih ())

theorem within {full' : τ → Prop} {put : σ → τ} {bounded free : Run σ α}
    (h : UntilFull full bounded free) (hput : ∀ s, full s → full' (put s)) :
    UntilFull full' (bounded.within put) (free.within put) := by
  induction h with
  | done s j a => exact .done (put s) j a
  | paused s j _ ih => exact .paused (put s) j ih
  | parted overflows remains =>
    exact .parted (overflows.within hput) (Meets.within (remains.imp hput fun _ => hput))

theorem eq_of_room {bounded free : Run σ α} (h : UntilFull full bounded free)
    (room : ¬ full bounded.state ∨ ¬ full free.state) : bounded = free := by
  induction h with
  | done s j a => rfl
  | paused s j _ ih =>
    congr 1
    funext _
    exact ih room
  | parted overflows remains =>
    obtain room | room := room
    · exact absurd overflows.2.1 room
    · exact absurd remains.2 room

end UntilFull

end Run

namespace Call

variable {σ τ α β : Type} {full : σ → Prop}

/-- The tree is full in both, and the first warned of children that were dropped. -/
structure Parted (full : σ → Prop) (bounded free : Outcome σ α) : Prop where
  filled : full bounded.state
  warned : bounded.journal.LimitReached
  free_filled : full free.state

theorem parted_finish {bounded free : Run σ α} (h : bounded.Overflows full)
    (remains : free.Meets full fun _ => full) (written : Array Entry) :
    Parted full (finish written bounded) (finish written free) := by
  rw [finish_eq, finish_eq]
  exact ⟨h.2.1, h.2.2.imp fun _ hmem => List.mem_append_right _ hmem, remains.2⟩

theorem parted_abandon {bounded free : Run σ α} (h : bounded.Overflows full)
    (remains : free.Meets full fun _ => full) (skip : Nat) (written : Array Entry) :
    Parted full (abandon skip written bounded) (abandon skip written free) := by
  have hbounded : full (abandon skip written bounded).state ∧
      (abandon skip written bounded).journal.LimitReached := by
    rw [abandon_eq]
    split
    · rename_i c hc
      obtain ⟨hfull, hreached⟩ := h.1 c (List.mem_of_getElem? hc)
      exact ⟨hfull, hreached.imp fun _ hmem => List.mem_append_right _ hmem⟩
    · exact ⟨h.2.1, h.2.2.imp fun _ hmem => List.mem_append_right _ hmem⟩
  refine ⟨hbounded.1, hbounded.2, ?_⟩
  rw [abandon_eq]
  split
  · rename_i c hc
    exact remains.1 c (List.mem_of_getElem? hc)
  · exact remains.2

theorem finish_or {bounded free : Run σ α} (h : Run.UntilFull full bounded free)
    (written : Array Entry) :
    finish written bounded = finish written free ∨
      Parted full (finish written bounded) (finish written free) := by
  induction h generalizing written with
  | done s j a => exact .inl rfl
  | paused s j _ ih => exact ih (written ++ j)
  | parted overflows remains => exact .inr (parted_finish overflows remains written)

theorem abandon_or {bounded free : Run σ α} (h : Run.UntilFull full bounded free) (skip : Nat)
    (written : Array Entry) :
    abandon skip written bounded = abandon skip written free ∨
      Parted full (abandon skip written bounded) (abandon skip written free) := by
  induction h generalizing skip written with
  | done s j a => exact .inl rfl
  | paused s j _ ih =>
    cases skip with
    | zero => exact .inl rfl
    | succ skip => exact ih skip (written ++ j)
  | parted overflows remains => exact .inr (parted_abandon overflows remains skip written)

/-- Driven as far, both calls leave the same, or full trees. -/
theorem drive_or {bounded free : Call σ α} {s : σ}
    (h : Run.UntilFull full (bounded.run s) (free.run s)) (polls : Option Nat) :
    bounded.drive polls s = free.drive polls s ∨
      Parted full (bounded.drive polls s) (free.drive polls s) := by
  match polls with
  | none => exact finish_or h #[]
  | some 0 => exact .inl rfl
  | some (skip + 1) => exact abandon_or h skip #[]

theorem drive_eq {bounded free : Call σ α} {s : σ}
    (h : Run.UntilFull full (bounded.run s) (free.run s)) {polls : Option Nat}
    (room : ¬ full (free.drive polls s).state) : bounded.drive polls s = free.drive polls s := by
  obtain hsame | hparted := drive_or h polls
  · exact hsame
  · exact absurd hparted.free_filled room

theorem leaves_iff {bounded free : Call σ α} {s t : σ}
    (h : Run.UntilFull full (bounded.run s) (free.run s)) (room : ¬ full t) :
    bounded.Leaves s t ↔ free.Leaves s t := by
  constructor
  · rintro ⟨polls, rfl⟩
    obtain hsame | hparted := drive_or h polls
    · exact ⟨polls, by rw [hsame]⟩
    · exact absurd hparted.filled room
  · rintro ⟨polls, rfl⟩
    obtain hsame | hparted := drive_or h polls
    · exact ⟨polls, by rw [hsame]⟩
    · exact absurd hparted.free_filled room

/-- A call under a limit and the same call without one. Both keep a full tree full, and the first
makes no tree larger than the limit. -/
structure Bounded (size : σ → Nat) (limit : Nat) (bounded free : Call σ α) : Prop where
  untilFull : ∀ s, Run.UntilFull (limit ≤ size ·) (bounded.run s) (free.run s)
  remains : ∀ s, limit ≤ size s → (bounded.run s).Meets (limit ≤ size ·) fun _ t => limit ≤ size t
  free_remains : ∀ s, limit ≤ size s → (free.run s).Meets (limit ≤ size ·) fun _ t => limit ≤ size t
  fits : ∀ s, size s ≤ limit → (bounded.run s).Meets (size · ≤ limit) fun _ t => size t ≤ limit

namespace Bounded

variable {size : σ → Nat} {limit : Nat}

/-- Only the size of the tree matters for a call that knows of no limit. -/
theorem same {call : Call σ α}
    (h : ∀ s, (call.run s).Meets (size · = size s) fun _ t => size t = size s) :
    Bounded size limit call call where
  untilFull s := .refl (call.run s)
  remains s hs := (h s).imp (fun _ ht => ht ▸ hs) fun _ _ ht => ht ▸ hs
  free_remains s hs := (h s).imp (fun _ ht => ht ▸ hs) fun _ _ ht => ht ▸ hs
  fits s hs := (h s).imp (fun _ ht => ht ▸ hs) fun _ _ ht => ht ▸ hs

theorem bind {bounded free : Call σ α} {f g : α → Call σ β}
    (h : Bounded size limit bounded free) (next : ∀ a, Bounded size limit (f a) (g a)) :
    Bounded size limit (bounded >>= f) (free >>= g) where
  untilFull s := (h.untilFull s).bind (fun a t => (next a).untilFull t) fun a t ht =>
    ⟨(next a).remains t ht, (next a).free_remains t ht⟩
  remains s hs := (h.remains s hs).bind fun a t ht => (next a).remains t ht
  free_remains s hs := (h.free_remains s hs).bind fun a t ht => (next a).free_remains t ht
  fits s hs := (h.fits s hs).bind fun a t ht => (next a).fits t ht

theorem pure (a : α) : Bounded size limit (Pure.pure a) (Pure.pure a : Call σ α) :=
  same fun s => by simp

theorem gets (f : σ → α) : Bounded size limit (gets f) (gets f) := same fun s => by simp

theorem log (entry : Entry) : Bounded size limit (log entry : Call σ Unit) (log entry) :=
  same fun s => by simp

theorem emit (event : Event) : Bounded size limit (emit event : Call σ Unit) (emit event) :=
  log _

theorem pause : Bounded size limit (pause : Call σ Unit) pause :=
  same fun _ => meets_pause rfl rfl

theorem map {bounded free : Call σ α} (f : α → β) (h : Bounded size limit bounded free) :
    Bounded size limit (f <$> bounded) (f <$> free) := by
  rw [map_eq_pure_bind, map_eq_pure_bind]
  exact h.bind fun a => pure (f a)

theorem modify {f : σ → σ} (h : ∀ s, size (f s) = size s) :
    Bounded size limit (modify f) (modify f) := same fun s => by simp [h s]

theorem focus {part : τ → Nat} {opened : σ → τ × (τ → σ)} {bounded free : Call τ α}
    (h : Bounded part limit bounded free) (hopened : ∀ s, part (opened s).1 = size s)
    (hput : ∀ s t, size ((opened s).2 t) = part t) :
    Bounded size limit (focus opened bounded) (focus opened free) where
  untilFull s := by
    rw [run_focus, run_focus]
    exact (h.untilFull _).within fun t ht => (hput s t).symm ▸ ht
  remains s hs := by
    rw [run_focus]
    apply Run.Meets.within
    exact (h.remains _ ((hopened s).symm ▸ hs)).imp (fun t ht => (hput s t).symm ▸ ht)
      fun _ t ht => (hput s t).symm ▸ ht
  free_remains s hs := by
    rw [run_focus]
    apply Run.Meets.within
    exact (h.free_remains _ ((hopened s).symm ▸ hs)).imp (fun t ht => (hput s t).symm ▸ ht)
      fun _ t ht => (hput s t).symm ▸ ht
  fits s hs := by
    rw [run_focus]
    apply Run.Meets.within
    exact (h.fits _ ((hopened s).symm ▸ hs)).imp (fun t ht => (hput s t).symm ▸ ht)
      fun _ t ht => (hput s t).symm ▸ ht

/-- A tree that is left below the limit was below it before. -/
theorem lt_of_leaves {call : Call σ α} (remains : ∀ s, limit ≤ size s →
      (call.run s).Meets (limit ≤ size ·) fun _ t => limit ≤ size t)
    {s t : σ} (room : size t < limit) (left : call.Leaves s t) : size s < limit := by
  by_contra hs
  have hs := Nat.le_of_not_lt hs
  have ht : limit ≤ size t := left.holds hs (remains s hs) fun _ _ ht => ht
  omega

variable {bounded free : Call σ α} (h : Bounded size limit bounded free)

include h

theorem leaves_le {s t : σ} (hs : size s ≤ limit) (left : bounded.Leaves s t) : size t ≤ limit :=
  left.holds hs (h.fits s hs) fun _ _ ht => ht

/-- What the call under a limit leaves below it, the free call leaves too, from below the limit. -/
theorem of_leaves {s t : σ} (room : size t < limit) (left : bounded.Leaves s t) :
    size s < limit ∧ free.Leaves s t :=
  ⟨lt_of_leaves h.remains room left,
    (leaves_iff (h.untilFull s) (Nat.not_le_of_lt room)).1 left⟩

theorem of_free_leaves {s t : σ} (room : size t < limit) (left : free.Leaves s t) :
    size s < limit ∧ bounded.Leaves s t :=
  ⟨lt_of_leaves h.free_remains room left,
    (leaves_iff (h.untilFull s) (Nat.not_le_of_lt room)).2 left⟩

theorem run_eq {s : σ} (room : size (free.run s).state < limit) : bounded.run s = free.run s :=
  (h.untilFull s).eq_of_room (.inr (Nat.not_le_of_lt room))

/-- Wherever it is abandoned, a call under a limit keeps to it. Either it leaves and answers what
it does without a limit, or the tree is full and children were dropped with a warning. -/
theorem drive_cases (s : σ) (fits : size s ≤ limit) (polls : Option Nat) :
    size (bounded.drive polls s).state ≤ limit ∧
      (bounded.drive polls s = free.drive polls s ∨
        size (bounded.drive polls s).state = limit ∧
          (bounded.drive polls s).journal.LimitReached ∧
          limit ≤ size (free.drive polls s).state) := by
  have hle := h.leaves_le fits ⟨polls, rfl⟩
  refine ⟨hle, ?_⟩
  obtain hsame | hparted := drive_or (h.untilFull s) polls
  · exact .inl hsame
  · exact .inr ⟨Nat.le_antisymm hle hparted.filled, hparted.warned, hparted.free_filled⟩

end Bounded

end Call

namespace Elaborator

def nodeCount (e : Elaborator) : Nat := e.tree.size

variable (lookup : Lookup) (limit : Nat)

theorem bounded_elaborate (id : NodeId) (child : Symbol) :
    Call.Bounded nodeCount limit (elaborate lookup id child) (elaborate lookup id child) := by
  apply Call.Bounded.same
  intro s
  exact (meets_elaborate_under lookup s id child).imp (fun t ht => congrArg Tree.size ht)
    fun _ t ht => congrArg Tree.size ht.1

theorem bounded_addChildren (id : NodeId) (definition : String) (symbols : List Symbol) :
    Call.Bounded nodeCount limit (addChildren lookup id definition symbols (some limit))
      (addChildren lookup id definition symbols) := by
  induction symbols with
  | nil => exact Call.Bounded.pure []
  | cons child rest ih =>
    unfold addChildren
    refine (bounded_elaborate lookup limit id child).bind fun node => ?_
    have hadd (s : Elaborator) : nodeCount ⟨s.tree.add node, s.memo⟩ = s.nodeCount + 1 :=
      Tree.size_add s.tree node
    have hrest (fresh : NodeId) := ih.bind fun others => Call.Bounded.pure (fresh :: others)
    refine ⟨fun s => ?untilFull, fun s hs => ?remains, fun s hs => ?free_remains, fun s hs => ?fits⟩
    all_goals simp only [Call.run_bind, Call.run_gets, Call.run_modify, Run.bind_done,
      Run.after_nil, Tree.nextId?_none]
    case untilFull =>
      by_cases hfull : limit ≤ s.nodeCount
      · rw [Tree.nextId?_of_le hfull]
        refine .parted ?_ ((hrest s.tree.nextId).free_remains ⟨s.tree.add node, s.memo⟩ ?_)
        · exact ⟨by simp [Call.emit, Call.run_map, Run.pauses], hfull, definition, List.mem_singleton.2 rfl⟩
        · rw [hadd]
          omega
      · rw [Tree.nextId?_of_lt (Nat.lt_of_not_le hfull)]
        exact (hrest s.tree.nextId).untilFull ⟨s.tree.add node, s.memo⟩
    case remains =>
      rw [Tree.nextId?_of_le hs]
      simpa [Call.emit, Call.run_map] using hs
    case free_remains =>
      exact (hrest s.tree.nextId).free_remains ⟨s.tree.add node, s.memo⟩ (by rw [hadd]; omega)
    case fits =>
      by_cases hfull : limit ≤ s.nodeCount
      · rw [Tree.nextId?_of_le hfull]
        simpa [Call.emit, Call.run_map] using hs
      · rw [Tree.nextId?_of_lt (Nat.lt_of_not_le hfull)]
        exact (hrest s.tree.nextId).fits ⟨s.tree.add node, s.memo⟩ (by rw [hadd]; omega)

theorem bounded_expand (id : NodeId) :
    Call.Bounded nodeCount limit (expand lookup id (some limit)) (expand lookup id) := by
  unfold expand
  refine (Call.Bounded.gets _).bind fun slot => ?_
  have hrecord (children : List NodeId) :
      Call.Bounded nodeCount limit (record id children) (record id children) :=
    Call.Bounded.modify fun s => Tree.size_record s.tree id children
  cases slot with
  | none => exact (Call.Bounded.emit _).bind fun _ => Call.Bounded.pure []
  | some slot =>
    obtain ⟨node, _ | children⟩ := slot
    · dsimp only
      cases node.definition with
      | none => exact (hrecord []).bind fun _ => Call.Bounded.pure []
      | some definition =>
        refine (bounded_addChildren lookup limit id definition.name definition.shown).bind fun children => ?_
        refine (Call.Bounded.emit _).bind fun _ => ?_
        exact (hrecord children).bind fun _ => Call.Bounded.pure children
    · exact Call.Bounded.pure children

/-- With room for the top only, the block in it is dropped. -/
example :
    let e : Elaborator := ⟨.ofTop .selfNesting, ∅⟩
    let run := (expand .selfNesting .root (some 1)).run e
    run.value = [] ∧ run.state.nodeCount = 1 ∧
      run.journal = [.event (.nodeLimit "m"), .event (.expanded "m" 0)] := by
  decide +kernel

theorem bounded_findChild (id : NodeId) (name : String) :
    Call.Bounded nodeCount limit (findChild lookup id name (some limit))
      (findChild lookup id name) :=
  (bounded_expand lookup limit id).bind fun _ => Call.Bounded.gets _

theorem bounded_follow (id : NodeId) (names : List String) :
    Call.Bounded nodeCount limit (follow lookup id names (some limit)) (follow lookup id names) := by
  induction names generalizing id with
  | nil => exact Call.Bounded.pure _
  | cons name rest ih =>
    unfold follow
    refine (bounded_findChild lookup limit id name).bind fun found => ?_
    cases found with
    | none => exact (Call.Bounded.gets _).bind fun _ => Call.Bounded.pure _
    | some child => exact ih child

theorem bounded_relative (names : List String) :
    Call.Bounded nodeCount limit (relative lookup names (some limit)) (relative lookup names) := by
  unfold relative
  cases names with
  | nil => exact Call.Bounded.pure []
  | cons first rest =>
    refine (Call.Bounded.gets _).bind fun top => ?_
    split
    · refine (bounded_findChild lookup limit .root first).bind fun found => ?_
      cases found <;> exact Call.Bounded.pure _
    · exact Call.Bounded.pure _

theorem bounded_resolvePath (path : String) :
    Call.Bounded nodeCount limit (resolvePath lookup path (some limit))
      (resolvePath lookup path) := by
  refine (bounded_relative lookup limit _).bind fun names => ?_
  refine (bounded_follow lookup limit .root names).bind fun answer => ?_
  cases answer with
  | ok id => exact Call.Bounded.pure _
  | error cause => exact (Call.Bounded.emit _).bind fun _ => Call.Bounded.pure _

end Elaborator

namespace Pass

def nodeCount (s : Pass) : Nat := s.tree.size

variable (lookup : Lookup) (limit : Nat)

theorem bounded_modifyIndex (f : InstanceIndex → InstanceIndex) :
    Call.Bounded nodeCount limit (modifyIndex f) (modifyIndex f) :=
  Call.Bounded.modify fun _ => rfl

theorem bounded_report (step : Estimate → UInt32 × Estimate) (stage : Stage) :
    Call.Bounded nodeCount limit (report step stage) (report step stage) := by
  apply Call.Bounded.same
  intro s
  rw [run_report, Run.meets_done]
  rfl

theorem bounded_expand (id : NodeId) :
    Call.Bounded nodeCount limit (expand lookup id (some limit)) (expand lookup id) :=
  (Elaborator.bounded_expand lookup limit id).focus (fun _ => rfl) fun _ _ => rfl

theorem bounded_enter (chain : List DefId) (id : NodeId) (node : Node) (path : String) :
    Call.Bounded nodeCount limit (enter lookup chain id node path (some limit))
      (enter lookup chain id node path) := by
  unfold enter
  cases node.definitionId with
  | none => exact Call.Bounded.pure _
  | some definition =>
    dsimp only
    split
    · refine (bounded_modifyIndex limit _).bind fun _ => ?_
      exact (Call.Bounded.emit _).bind fun _ => Call.Bounded.pure _
    · exact (bounded_expand lookup limit id).bind fun children => Call.Bounded.pure _

theorem bounded_visit (chain : List DefId) (id : NodeId) (node : Node) :
    Call.Bounded nodeCount limit (visit lookup chain id node (some limit))
      (visit lookup chain id node) := by
  refine (Call.Bounded.gets _).bind fun path => ?_
  refine (bounded_modifyIndex limit _).bind fun _ => ?_
  refine (bounded_enter lookup limit chain id node path).bind fun below => ?_
  refine (bounded_report limit _ _).bind fun _ => ?_
  exact Call.Bounded.pause.bind fun _ => Call.Bounded.pure below

variable (cancelAfter : Option Nat)

theorem bounded_turn (path : List DefId) (id : NodeId) (depth : Nat) :
    Call.Bounded nodeCount limit (turn lookup cancelAfter (some limit) path id depth)
      (turn lookup cancelAfter none path id depth) := by
  refine (Call.Bounded.gets _).bind fun cancelled => ?_
  split
  · exact Call.Bounded.pure none
  · refine (Call.Bounded.gets _).bind fun node => ?_
    cases node with
    | none => exact Call.Bounded.pure _
    | some node => exact (bounded_visit lookup limit _ id node).map some

theorem bounded_loop (room : Nat) (stack : Array (NodeId × Nat)) (path : List DefId) :
    Call.Bounded nodeCount limit (loop lookup cancelAfter (some limit) room stack path)
      (loop lookup cancelAfter none room stack path) := by
  induction hagenda : (⟨stack⟩ : Agenda room) using Agenda.wellFounded_shrinks.induction
    generalizing stack path with
  | _ agenda ih =>
    subst hagenda
    unfold loop
    split
    · exact Call.Bounded.pure _
    · rename_i id depth last
      split
      · rename_i hlt
        refine (bounded_turn lookup limit cancelAfter path id depth).bind fun site => ?_
        cases site with
        | none => exact Call.Bounded.pure _
        | some site =>
          exact ih _ (Agenda.shrinks_pop last hlt site.2) _ site.1 rfl
      · exact Call.Bounded.pure _

theorem bounded_body :
    Call.Bounded nodeCount limit (body lookup cancelAfter (some limit)) (body lookup cancelAfter) := by
  have hconclude (status : Status) (stage : Stage) :
      Call.Bounded nodeCount limit (conclude status stage) (conclude status stage) := by
    refine (bounded_modifyIndex limit _).bind fun _ => ?_
    refine (bounded_report limit _ _).bind fun _ => ?_
    refine (Call.Bounded.gets _).bind fun event => ?_
    exact (Call.Bounded.emit event).bind fun _ => Call.Bounded.pure status
  refine (Call.Bounded.gets _).bind fun levels => ?_
  refine (bounded_loop lookup limit cancelAfter levels _ _).bind fun ending => ?_
  cases ending with
  | finished => exact hconclude _ _
  | cancelled => exact hconclude _ _
  | outOfRoom => exact Call.Bounded.pure _

end Pass

namespace Indexer

def nodeCount (i : Indexer) : Nat := i.elaborator.tree.size

theorem bounded_build (lookup : Lookup) (limit : Nat) (scale : UInt32) (cancelAfter : Option Nat) :
    Call.Bounded nodeCount limit (build lookup scale cancelAfter (some limit))
      (build lookup scale cancelAfter) :=
  (Pass.bounded_body lookup limit cancelAfter).focus (fun _ => rfl) fun _ _ => rfl

end Indexer

namespace Elaborator

/-- What can be reached under a top with at most so many nodes. -/
inductive ReachedWithin (limit : Nat) (lookup : Lookup) (top : Symbol) : Elaborator → Prop
  | start : ReachedWithin limit lookup top ⟨.ofTop top, ∅⟩
  | expand {s t : Elaborator} (id : NodeId) (before : ReachedWithin limit lookup top s)
      (left : (expand lookup id (some limit)).Leaves s t) : ReachedWithin limit lookup top t
  | findChild {s t : Elaborator} (id : NodeId) (name : String)
      (before : ReachedWithin limit lookup top s)
      (left : (findChild lookup id name (some limit)).Leaves s t) : ReachedWithin limit lookup top t
  | resolvePath {s t : Elaborator} (path : String) (before : ReachedWithin limit lookup top s)
      (left : (resolvePath lookup path (some limit)).Leaves s t) : ReachedWithin limit lookup top t
  | build {s : Elaborator} {index : InstanceIndex} {j : Indexer} (scale : UInt32)
      (cancelAfter : Option Nat) (before : ReachedWithin limit lookup top s)
      (left : (Indexer.build lookup scale cancelAfter (some limit)).Leaves ⟨s, index⟩ j) :
      ReachedWithin limit lookup top j.elaborator
  | resolve {s : Elaborator} {memo : Memo} (name : String)
      (before : ReachedWithin limit lookup top s) (left : (Memo.resolve lookup name).Leaves s.memo memo) :
      ReachedWithin limit lookup top { s with memo }
  | forget {s : Elaborator} (before : ReachedWithin limit lookup top s) :
      ReachedWithin limit lookup top { s with memo := ∅ }

variable {limit : Nat} {lookup : Lookup} {top : Symbol} {e : Elaborator}

/-- A hierarchy within the limit has no more nodes than that, so its ids are all below it. -/
theorem ReachedWithin.nodeCount_le (h : ReachedWithin limit lookup top e) (positive : 1 ≤ limit) :
    e.nodeCount ≤ limit := by
  induction h with
  | start => exact positive
  | expand id _ left ih => exact (bounded_expand lookup limit id).leaves_le ih left
  | findChild id name _ left ih => exact (bounded_findChild lookup limit id name).leaves_le ih left
  | resolvePath path _ left ih => exact (bounded_resolvePath lookup limit path).leaves_le ih left
  | @build s index j scale cancelAfter _ left ih =>
    have hs : Indexer.nodeCount ⟨s, index⟩ ≤ limit := ih
    exact (Indexer.bounded_build lookup limit scale cancelAfter).leaves_le hs left
  | resolve _ _ _ ih => exact ih
  | forget _ ih => exact ih

/-- Below the limit, it makes no difference which hierarchies can be reached. -/
theorem reachedWithin_iff (room : e.nodeCount < limit) :
    ReachedWithin limit lookup top e ↔ Reached lookup top e := by
  constructor
  · intro h
    induction h with
    | start => exact .start
    | expand id _ left ih =>
      obtain ⟨hlt, hleft⟩ := (bounded_expand lookup limit id).of_leaves room left
      exact .expand id (ih hlt) hleft
    | findChild id name _ left ih =>
      obtain ⟨hlt, hleft⟩ := (bounded_findChild lookup limit id name).of_leaves room left
      exact .findChild id name (ih hlt) hleft
    | resolvePath path _ left ih =>
      obtain ⟨hlt, hleft⟩ := (bounded_resolvePath lookup limit path).of_leaves room left
      exact .resolvePath path (ih hlt) hleft
    | build scale cancelAfter _ left ih =>
      have bounded := Indexer.bounded_build lookup limit scale cancelAfter
      obtain ⟨hlt, hleft⟩ := bounded.of_leaves room left
      exact .build scale cancelAfter (ih hlt) hleft
    | resolve name _ left ih => exact .resolve name (ih room) left
    | forget _ ih => exact .forget (ih room)
  · intro h
    induction h with
    | start => exact .start
    | expand id _ left ih =>
      obtain ⟨hlt, hleft⟩ := (bounded_expand lookup limit id).of_free_leaves room left
      exact .expand id (ih hlt) hleft
    | findChild id name _ left ih =>
      obtain ⟨hlt, hleft⟩ := (bounded_findChild lookup limit id name).of_free_leaves room left
      exact .findChild id name (ih hlt) hleft
    | resolvePath path _ left ih =>
      obtain ⟨hlt, hleft⟩ := (bounded_resolvePath lookup limit path).of_free_leaves room left
      exact .resolvePath path (ih hlt) hleft
    | build scale cancelAfter _ left ih =>
      have bounded := Indexer.bounded_build lookup limit scale cancelAfter
      obtain ⟨hlt, hleft⟩ := bounded.of_free_leaves room left
      exact .build scale cancelAfter (ih hlt) hleft
    | resolve name _ left ih => exact .resolve name (ih room) left
    | forget _ ih => exact .forget (ih room)

end Elaborator

end DesignHierarchy
