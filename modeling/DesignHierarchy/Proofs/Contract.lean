import DesignHierarchy.Call

/-! What a call keeps and what it achieves. A call may be abandoned at any of
its suspensions, so a contract has two parts: a condition on every state that an
abandoned call leaves, and one on the answer and the state at the end. -/
namespace DesignHierarchy

namespace Run

variable {σ τ α β : Type} {keep : σ → Prop} {post : α → σ → Prop}

/-- What follows a run matters only for the answer and the state that it gets. -/
theorem bind_congr {run : Run σ α} {f g : α → σ → Run σ β}
    (h : f run.value run.state = g run.value run.state) : run.bind f = run.bind g := by
  induction run with
  | done s j a =>
    rw [bind_done, bind_done]
    exact congrArg (after j) h
  | paused s j resume ih =>
    rw [bind_paused, bind_paused]
    congr 1
    funext _
    exact ih () h

def Meets (keep : σ → Prop) (post : α → σ → Prop) (run : Run σ α) : Prop :=
  (∀ c ∈ run.pauses, keep c.state) ∧ post run.value run.state

@[simp] theorem meets_done (s : σ) (j : Journal) (a : α) :
    (Run.done s j a).Meets keep post ↔ post a s := by
  simp [Meets, pauses, value, state]

@[simp] theorem meets_after (j : Journal) (run : Run σ α) :
    (run.after j).Meets keep post ↔ run.Meets keep post := by
  simp [Meets, Checkpoint.after]

/-- What follows has to meet its part only from where the first part ends. -/
theorem Meets.bind_at {mid : α → σ → Prop} {last : β → σ → Prop} {run : Run σ α}
    {f : α → σ → Run σ β} (first : run.Meets keep mid)
    (second : (f run.value run.state).Meets keep last) : (run.bind f).Meets keep last := by
  refine ⟨?_, by simpa using second.2⟩
  intro c hc
  rw [pauses_bind, List.mem_append, List.mem_map] at hc
  obtain hc | ⟨c', hc', rfl⟩ := hc
  · exact first.1 c hc
  · exact second.1 c' hc'

theorem Meets.bind {mid : α → σ → Prop} {last : β → σ → Prop} {run : Run σ α}
    {f : α → σ → Run σ β} (first : run.Meets keep mid)
    (second : ∀ a s, mid a s → (f a s).Meets keep last) : (run.bind f).Meets keep last :=
  first.bind_at (second _ _ first.2)

theorem Meets.imp {keep' : σ → Prop} {post' : α → σ → Prop} {run : Run σ α}
    (h : run.Meets keep post) (hkeep : ∀ s, keep s → keep' s)
    (hpost : ∀ a s, post a s → post' a s) : run.Meets keep' post' :=
  ⟨fun c hc => hkeep _ (h.1 c hc), hpost _ _ h.2⟩

/-- A contract on a part of the state is one on the whole. -/
theorem Meets.within {keep' : τ → Prop} {post' : α → τ → Prop} {put : σ → τ} {run : Run σ α}
    (h : run.Meets (fun s => keep' (put s)) (fun a s => post' a (put s))) :
    (run.within put).Meets keep' post' := by
  refine ⟨?_, by simpa using h.2⟩
  intro c hc
  rw [pauses_within, List.mem_map] at hc
  obtain ⟨c', hc', rfl⟩ := hc
  exact h.1 c' hc'

end Run

namespace Call

variable {σ α β : Type} {keep : σ → Prop}

theorem meets_pause {post : Unit → σ → Prop} {s : σ} (hkeep : keep s) (hpost : post () s) :
    ((pause : Call σ Unit).run s).Meets keep post :=
  ⟨by simpa [Run.pauses] using hkeep, hpost⟩

/-- The state stays as it was, or the call left it at a suspension or at its end. -/
def Leaves (call : Call σ α) (s t : σ) : Prop := ∃ polls, (call.drive polls s).state = t

theorem leaves_run (call : Call σ α) (s : σ) : call.Leaves s (call.run s).state :=
  ⟨none, by simp⟩

/-- What holds at each suspension and at the end holds of all that a started call leaves. -/
theorem holds_of_started {post : α → σ → Prop} {call : Call σ α} {s : σ} {polls : Option Nat}
    (started : polls ≠ some 0) (hrun : (call.run s).Meets keep post)
    (hpost : ∀ a s, post a s → keep s) : keep (call.drive polls s).state := by
  have hend : keep (call.run s).state := hpost _ _ hrun.2
  match polls with
  | none => simpa using hend
  | some 0 => exact absurd rfl started
  | some (skip + 1) =>
    rw [drive_succ]
    split
    · rename_i c hc
      exact hrun.1 c (List.mem_of_getElem? hc)
    · simpa using hend

/-- What holds at the start, at each suspension and at the end holds of all that a call leaves. -/
theorem Leaves.holds {post : α → σ → Prop} {call : Call σ α} {s t : σ}
    (h : call.Leaves s t) (hs : keep s) (hrun : (call.run s).Meets keep post)
    (hpost : ∀ a s, post a s → keep s) : keep t := by
  obtain ⟨polls, rfl⟩ := h
  by_cases started : polls = some 0
  · subst started
    exact hs
  · exact holds_of_started started hrun hpost

theorem meets_leaves (call : Call σ α) (s : σ) :
    (call.run s).Meets (call.Leaves s) fun _ t => call.Leaves s t := by
  refine ⟨?_, call.leaves_run s⟩
  intro c hc
  obtain ⟨skip, hskip⟩ := List.mem_iff_getElem?.1 hc
  exact ⟨some (skip + 1), by rw [drive_succ, hskip]⟩

/-- What holds at each suspension holds of what an abandoned call leaves. -/
theorem holds_of_abandoned {post : α → σ → Prop} {call : Call σ α} {s : σ}
    (hrun : (call.run s).Meets keep post) {skip : Nat}
    (abandoned : (call.drive (some (skip + 1)) s).value? = none) :
    keep (call.drive (some (skip + 1)) s).state := by
  rw [drive_succ] at abandoned ⊢
  split at abandoned
  · rename_i c hc
    exact hrun.1 c (List.mem_of_getElem? hc)
  · simp at abandoned

end Call

end DesignHierarchy
