import DesignHierarchy.Run

/-! Calls that change a state, write a journal and may be suspended. A call is
driven to its end, or to a suspension where it is abandoned. -/
namespace DesignHierarchy

def Call (σ α : Type) : Type := σ → Run σ α

namespace Call

variable {σ τ α β : Type}

def run (call : Call σ α) (state : σ) : Run σ α := call state

@[ext] theorem ext {s t : Call σ α} (h : ∀ state, s.run state = t.run state) : s = t :=
  funext h

instance : Monad (Call σ) where
  pure a := fun s => .done s [] a
  bind call f := fun s => (call.run s).bind fun a => (f a).run

@[simp] theorem run_pure (a : α) (s : σ) : (pure a : Call σ α).run s = .done s [] a := rfl

@[simp] theorem run_bind (call : Call σ α) (f : α → Call σ β) (s : σ) :
    (call >>= f).run s = (call.run s).bind fun a => (f a).run := rfl

instance : LawfulMonad (Call σ) := by
  refine LawfulMonad.mk' (Call σ) ?_ ?_ ?_
  · intro α x
    apply ext
    intro s
    exact Run.bind_pure _
  · intro α β a f
    apply ext
    intro s
    simp
  · intro α β γ x f g
    apply ext
    intro s
    exact Run.bind_assoc _ _ _

theorem run_map (f : α → β) (call : Call σ α) (s : σ) :
    (f <$> call).run s = (call.run s).bind fun a s => .done s [] (f a) := rfl

/-- Gives way to the surroundings once; the call may be abandoned here. -/
def pause : Call σ Unit := fun s => .paused s [] fun _ => .done s [] ()

/-- Answers with something read off the state. -/
def gets (f : σ → α) : Call σ α := fun s => .done s [] (f s)

def modify (f : σ → σ) : Call σ Unit := fun s => .done (f s) [] ()

def log (entry : Entry) : Call σ Unit := fun s => .done s [entry] ()

def emit (event : Event) : Call σ Unit := log (.event event)

@[simp] theorem run_pause (s : σ) :
    (pause : Call σ Unit).run s = .paused s [] fun _ => .done s [] () := rfl

@[simp] theorem run_gets (f : σ → α) (s : σ) : (gets f).run s = .done s [] (f s) := rfl

@[simp] theorem run_modify (f : σ → σ) (s : σ) : (modify f).run s = .done (f s) [] () := rfl

@[simp] theorem run_log (entry : Entry) (s : σ) : (log entry).run s = .done s [entry] () := rfl

/-- Runs a call on a part of the state. The state is opened into that part and the way to put
it back, so that the part is not held twice while it changes. -/
def focus (opened : σ → τ × (τ → σ)) (call : Call τ α) : Call σ α := fun s =>
  match opened s with
  | (part, put) => (call.run part).within put

@[simp] theorem run_focus (opened : σ → τ × (τ → σ)) (call : Call τ α) (s : σ) :
    (focus opened call).run s = (call.run (opened s).1).within (opened s).2 := rfl

/-- What a call leaves behind, with its answer if it came to its end. -/
structure Outcome (σ α : Type) where
  state : σ
  journal : Journal
  value? : Option α

def finish (written : Array Entry) : Run σ α → Outcome σ α
  | .done s j a => ⟨s, (written ++ j).toList, some a⟩
  | .paused _ j resume => finish (written ++ j) (resume ())

/-- Abandons the call when it is suspended for another `skip + 1` times. -/
def abandon (skip : Nat) (written : Array Entry) : Run σ α → Outcome σ α
  | .done s j a => ⟨s, (written ++ j).toList, some a⟩
  | .paused s j resume =>
    match skip with
    | 0 => ⟨s, (written ++ j).toList, none⟩
    | skip + 1 => abandon skip (written ++ j) (resume ())

/-- Runs a call, abandoning it at its `polls`-th suspension; at zero it is never started. -/
def drive (call : Call σ α) (polls : Option Nat) (s : σ) : Outcome σ α :=
  match polls with
  | none => finish #[] (call.run s)
  | some 0 => ⟨s, [], none⟩
  | some (skip + 1) => abandon skip #[] (call.run s)

theorem finish_eq (written : Array Entry) (run : Run σ α) :
    finish written run = ⟨run.state, written.toList ++ run.journal, some run.value⟩ := by
  induction run generalizing written with
  | done s j a => simp [finish, Run.state, Run.journal, Run.value]
  | paused s j resume ih => simp [finish, Run.state, Run.journal, Run.value, ih ()]

theorem abandon_eq (skip : Nat) (written : Array Entry) (run : Run σ α) :
    abandon skip written run =
      match run.pauses[skip]? with
      | some c => ⟨c.state, written.toList ++ c.journal, none⟩
      | none => ⟨run.state, written.toList ++ run.journal, some run.value⟩ := by
  induction run generalizing skip written with
  | done s j a => simp [abandon, Run.pauses, Run.state, Run.journal, Run.value]
  | paused s j resume ih =>
    cases skip with
    | zero => simp [abandon, Run.pauses]
    | succ skip =>
      rw [abandon, ih ()]
      cases h : (resume ()).pauses[skip]? <;>
        simp [Run.pauses, Run.state, Run.journal, Run.value, h, Checkpoint.after]

@[simp] theorem drive_none (call : Call σ α) (s : σ) :
    call.drive none s = ⟨(call.run s).state, (call.run s).journal, some (call.run s).value⟩ := by
  simp [drive, finish_eq]

@[simp] theorem drive_zero (call : Call σ α) (s : σ) : call.drive (some 0) s = ⟨s, [], none⟩ := rfl

/-- An abandoned call leaves its checkpoint, and one that ends before is not affected. -/
theorem drive_succ (call : Call σ α) (skip : Nat) (s : σ) :
    call.drive (some (skip + 1)) s =
      match (call.run s).pauses[skip]? with
      | some c => ⟨c.state, c.journal, none⟩
      | none => call.drive none s := by
  simp [drive, abandon_eq, finish_eq]

end Call

end DesignHierarchy
