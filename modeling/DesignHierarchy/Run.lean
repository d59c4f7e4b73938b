import DesignHierarchy.Journal

/-! The course of a call that may be suspended on the way. What follows a
suspension is computed only when the call is resumed, so a call abandoned there
costs no more than what it did; the state at that point is what stays. -/
namespace DesignHierarchy

/-- The course of a call. Each journal holds what was written since the suspension before. -/
inductive Run (σ α : Type) where
  | done (state : σ) (journal : Journal) (value : α)
  | paused (state : σ) (journal : Journal) (resume : Unit → Run σ α)

/-- What is left behind when a call is abandoned at a suspension. -/
structure Checkpoint (σ : Type) where
  state : σ
  journal : Journal

namespace Checkpoint

/-- The same checkpoint, seen from a call that had already written `earlier`. -/
def after (earlier : Journal) (c : Checkpoint σ) : Checkpoint σ :=
  { c with journal := earlier ++ c.journal }

@[simp] theorem after_nil (c : Checkpoint σ) : c.after [] = c := rfl

@[simp] theorem after_after (a b : Journal) (c : Checkpoint σ) :
    (c.after b).after a = c.after (a ++ b) := by
  simp [after]

end Checkpoint

namespace Run

variable {σ τ α β γ : Type}

/-- The state at the end. -/
def state : Run σ α → σ
  | .done s _ _ => s
  | .paused _ _ resume => (resume ()).state

def value : Run σ α → α
  | .done _ _ a => a
  | .paused _ _ resume => (resume ()).value

/-- All that is written up to the end. -/
def journal : Run σ α → Journal
  | .done _ j _ => j
  | .paused _ j resume => j ++ (resume ()).journal

/-- One checkpoint for each suspension, in order. -/
def pauses : Run σ α → List (Checkpoint σ)
  | .done .. => []
  | .paused s j resume => ⟨s, j⟩ :: (resume ()).pauses.map (·.after j)

def after (earlier : Journal) : Run σ α → Run σ α
  | .done s j a => .done s (earlier ++ j) a
  | .paused s j resume => .paused s (earlier ++ j) resume

def bind : Run σ α → (α → σ → Run σ β) → Run σ β
  | .done s [] a, f => f a s
  | .done s (e :: j) a, f => (f a s).after (e :: j)
  | .paused s j resume, f => .paused s j fun _ => (resume ()).bind f

/-- The same course on a larger state. -/
def within (put : σ → τ) : Run σ α → Run τ α
  | .done s j a => .done (put s) j a
  | .paused s j resume => .paused (put s) j fun _ => (resume ()).within put

@[simp] theorem after_nil (run : Run σ α) : run.after [] = run := by
  cases run <;> rfl

@[simp] theorem after_after (a b : Journal) (run : Run σ α) :
    (run.after b).after a = run.after (a ++ b) := by
  cases run <;> simp [after]

@[simp] theorem bind_done (s : σ) (j : Journal) (a : α) (f : α → σ → Run σ β) :
    (Run.done s j a).bind f = (f a s).after j := by
  cases j <;> simp [bind]

@[simp] theorem bind_paused (s : σ) (j : Journal) (resume : Unit → Run σ α)
    (f : α → σ → Run σ β) :
    (Run.paused s j resume).bind f = .paused s j fun _ => (resume ()).bind f := rfl

@[simp] theorem state_after (j : Journal) (run : Run σ α) : (run.after j).state = run.state := by
  cases run <;> rfl

@[simp] theorem value_after (j : Journal) (run : Run σ α) : (run.after j).value = run.value := by
  cases run <;> rfl

@[simp] theorem journal_after (j : Journal) (run : Run σ α) :
    (run.after j).journal = j ++ run.journal := by
  cases run <;> simp [after, journal]

@[simp] theorem pauses_after (j : Journal) (run : Run σ α) :
    (run.after j).pauses = run.pauses.map (·.after j) := by
  cases run <;> simp [after, pauses, Checkpoint.after, Function.comp_def]

theorem bind_after (j : Journal) (run : Run σ α) (f : α → σ → Run σ β) :
    (run.after j).bind f = (run.bind f).after j := by
  cases run with
  | done s k a => rw [after, bind_done, bind_done, after_after]
  | paused s k resume => rfl

theorem bind_pure (run : Run σ α) : run.bind (fun a s => .done s [] a) = run := by
  induction run with
  | done s j a => simp [after]
  | paused s j resume ih =>
    rw [bind_paused]
    congr 1
    funext u
    exact ih u

theorem bind_assoc (run : Run σ α) (f : α → σ → Run σ β) (g : β → σ → Run σ γ) :
    (run.bind f).bind g = run.bind fun a s => (f a s).bind g := by
  induction run with
  | done s j a => simp [bind_after]
  | paused s j resume ih =>
    simp only [bind_paused]
    congr 1
    funext u
    exact ih u

@[simp] theorem state_bind (run : Run σ α) (f : α → σ → Run σ β) :
    (run.bind f).state = (f run.value run.state).state := by
  induction run with
  | done s j a => simp [state, value]
  | paused s j resume ih => exact ih ()

@[simp] theorem value_bind (run : Run σ α) (f : α → σ → Run σ β) :
    (run.bind f).value = (f run.value run.state).value := by
  induction run with
  | done s j a => simp [state, value]
  | paused s j resume ih => exact ih ()

@[simp] theorem journal_bind (run : Run σ α) (f : α → σ → Run σ β) :
    (run.bind f).journal = run.journal ++ (f run.value run.state).journal := by
  induction run with
  | done s j a => simp [state, value, journal]
  | paused s j resume ih => simp [state, value, journal, ih ()]

@[simp] theorem pauses_bind (run : Run σ α) (f : α → σ → Run σ β) :
    (run.bind f).pauses =
      run.pauses ++ (f run.value run.state).pauses.map (·.after run.journal) := by
  induction run with
  | done s j a => simp [state, value, journal, pauses]
  | paused s j resume ih => simp [state, value, journal, pauses, ih (), Function.comp_def]

@[simp] theorem state_within (put : σ → τ) (run : Run σ α) :
    (run.within put).state = put run.state := by
  induction run with
  | done s j a => rfl
  | paused s j resume ih => exact ih ()

@[simp] theorem value_within (put : σ → τ) (run : Run σ α) :
    (run.within put).value = run.value := by
  induction run with
  | done s j a => rfl
  | paused s j resume ih => exact ih ()

@[simp] theorem journal_within (put : σ → τ) (run : Run σ α) :
    (run.within put).journal = run.journal := by
  induction run with
  | done s j a => rfl
  | paused s j resume ih => simp [within, journal, ih ()]

@[simp] theorem pauses_within (put : σ → τ) (run : Run σ α) :
    (run.within put).pauses = run.pauses.map fun c => ⟨put c.state, c.journal⟩ := by
  induction run with
  | done s j a => rfl
  | paused s j resume ih => simp [within, pauses, ih (), Checkpoint.after, Function.comp_def]

end Run

end DesignHierarchy
