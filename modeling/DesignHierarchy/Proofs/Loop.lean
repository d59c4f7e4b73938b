import DesignHierarchy.InstanceIndex.Pass
import DesignHierarchy.Proofs.Contract

/-! The loop of a pass and the recursion it stands for. The stack holds what is
left to visit of each scope on the way down, the deepest on top; whatever is put
on it is taken off before the nodes below it. Each node of the stack brings its
depth, which says how much of the path is its own chain of definitions. -/
namespace DesignHierarchy

namespace Pass

/-- Visits the nodes of one scope, and with `below` what lies under each of them. -/
def sweepWith (lookup : Lookup) (cancelAfter : Option Nat)
    (below : List DefId → List NodeId → Call Pass Ending) (chain : List DefId) :
    List NodeId → Call Pass Ending
  | [] => return .finished
  | id :: rest => do
    if ← Call.gets (·.isCancelled cancelAfter) then return .cancelled
    else
      match ← Call.gets (·.tree.node? id) with
      | none => sweepWith lookup cancelAfter below chain rest
      | some node =>
        let (opened, children) ← visit lookup chain id node
        match ← below opened children with
        | .finished => sweepWith lookup cancelAfter below chain rest
        | ending => return ending

/-- Visits nodes and all that lies under them, at most `room` levels deep. -/
def sweep (lookup : Lookup) (cancelAfter : Option Nat) :
    Nat → List DefId → List NodeId → Call Pass Ending
  | 0, _, [] => return .finished
  | 0, _, _ :: _ => return .outOfRoom
  | room + 1, chain, ids =>
    sweepWith lookup cancelAfter (sweep lookup cancelAfter room) chain ids

/-- Goes on only after a sweep that came to its end. -/
def goOn (next : Pass → Run Pass Ending) : Ending → Pass → Run Pass Ending
  | .finished, s => next s
  | ending, s => .done s [] ending

theorem goOn_bind (first next : Pass → Run Pass Ending) (run : Run Pass Ending) :
    (run.bind (goOn first)).bind (goOn next) =
      run.bind (goOn fun s => (first s).bind (goOn next)) := by
  rw [Run.bind_assoc]
  congr 1
  funext ending s
  cases ending <;> simp [goOn]

theorem run_sweep_nil (lookup : Lookup) (cancelAfter : Option Nat) (room : Nat)
    (chain : List DefId) (s : Pass) :
    (sweep lookup cancelAfter room chain []).run s = .done s [] .finished := by
  cases room <;> rfl

theorem run_sweepWith_cons (lookup : Lookup) (cancelAfter : Option Nat)
    (below : List DefId → List NodeId → Call Pass Ending) (chain : List DefId) (id : NodeId)
    (rest : List NodeId) (s : Pass) :
    (sweepWith lookup cancelAfter below chain (id :: rest)).run s =
      if s.isCancelled cancelAfter then .done s [] .cancelled
      else match s.tree.node? id with
        | none => (sweepWith lookup cancelAfter below chain rest).run s
        | some node =>
          ((visit lookup chain id node).run s).bind fun site m =>
            ((below site.1 site.2).run m).bind
              (goOn (sweepWith lookup cancelAfter below chain rest).run) := by
  rw [sweepWith]
  cases hc : s.isCancelled cancelAfter with
  | true => simp [hc]
  | false =>
    simp only [Call.run_bind, Call.run_gets, Run.bind_done, Run.after_nil, hc, Bool.false_eq_true,
      if_false]
    cases s.tree.node? id with
    | none => rfl
    | some node =>
      dsimp only
      rw [Call.run_bind]
      congr 1
      funext site m
      rw [Call.run_bind]
      congr 1
      funext ending n
      cases ending <;> rfl

/-- Nodes left on the stack when a scope below these definitions is visited. None of them is deeper
than the scope, and so much of the path is still the chain of the scope. -/
structure Fits (stack : Array (NodeId × Nat)) (path chain : List DefId) : Prop where
  shallow : ∀ entry ∈ stack, entry.2 ≤ chain.length
  path_eq : path.take chain.length = chain

namespace Fits

variable {stack : Array (NodeId × Nat)} {path chain : List DefId}

/-- The nodes of the scope itself may be left on the stack too. -/
theorem extend (h : Fits stack path chain) (ids : List NodeId) :
    Fits (Agenda.extend stack chain.length ids) path chain := by
  refine ⟨?_, h.path_eq⟩
  intro entry hentry
  obtain hentry | ⟨id, -, rfl⟩ := Agenda.mem_extend.1 hentry
  · exact h.shallow entry hentry
  · exact Nat.le_refl _

theorem of_push {entry : NodeId × Nat} (h : Fits (stack.push entry) path chain) :
    Fits stack path chain :=
  ⟨fun e he => h.shallow e (Array.mem_push_of_mem _ he), h.path_eq⟩

/-- Cut back to the depth of a node on the stack, the path is part of the chain. -/
theorem take_eq (h : Fits stack path chain) {entry : NodeId × Nat} (hentry : entry ∈ stack) :
    path.take entry.2 = chain.take entry.2 := by
  have hle := h.shallow entry hentry
  calc path.take entry.2 = (path.take chain.length).take entry.2 := by
        rw [List.take_take, Nat.min_eq_left hle]
    _ = chain.take entry.2 := by rw [h.path_eq]

theorem self (h : Fits stack path chain) : Fits stack chain chain :=
  ⟨h.shallow, List.take_length⟩

theorem append (h : Fits stack path chain) (d : DefId) : Fits stack (chain ++ [d]) chain :=
  ⟨h.shallow, List.take_left⟩

/-- One more definition is open in the scope of a node of this scope. -/
theorem enter (h : Fits stack path chain) (d : DefId) :
    Fits stack (chain ++ [d]) (chain ++ [d]) := by
  refine ⟨?_, List.take_length⟩
  intro entry hentry
  have hle := h.shallow entry hentry
  rw [List.length_append]
  omega

end Fits

section Loop

variable (lookup : Lookup) (cancelAfter limit : Option Nat)

theorem run_turn (path : List DefId) (id : NodeId) (depth : Nat) (s : Pass) :
    (turn lookup cancelAfter limit path id depth).run s =
      if s.isCancelled cancelAfter then .done s [] none
      else match s.tree.node? id with
        | none => .done s [] (some (path, []))
        | some node =>
          ((visit lookup (path.take depth) id node limit).run s).bind fun site m =>
            .done m [] (some site) := by
  unfold turn
  cases hc : s.isCancelled cancelAfter with
  | true => simp [hc]
  | false =>
    simp only [Call.run_bind, Call.run_gets, Run.bind_done, Run.after_nil, hc, Bool.false_eq_true,
      if_false]
    cases s.tree.node? id <;> rfl

theorem run_loop_empty (room : Nat) (path : List DefId) (s : Pass) :
    (loop lookup cancelAfter limit room #[] path).run s = .done s [] .finished := by
  rw [loop]
  rfl

theorem run_loop_push (room : Nat) (rest : Array (NodeId × Nat)) (id : NodeId) (depth : Nat)
    (path : List DefId) (s : Pass) :
    (loop lookup cancelAfter limit room (rest.push (id, depth)) path).run s =
      if depth < room then
        ((turn lookup cancelAfter limit path id depth).run s).bind fun site m =>
          match site with
          | none => .done m [] .cancelled
          | some (path, children) =>
            (loop lookup cancelAfter limit room (Agenda.extend rest (depth + 1) children) path).run m
      else .done s [] .outOfRoom := by
  rw [loop]
  split
  · rename_i hlast
    simp at hlast
  · rename_i hlast
    rw [Array.back?_push] at hlast
    cases hlast
    rw [Array.pop_push]
    split
    · rw [Call.run_bind]
      congr 1
      funext site m
      cases site <;> rfl
    · rfl

/-- A visit leaves the path as it is and there is nothing below, or it opens a definition. -/
theorem path_visit (chain : List DefId) (id : NodeId) (node : Node) (s : Pass) :
    let site := ((visit lookup chain id node limit).run s).value
    site = (chain, []) ∨ ∃ d, site.1 = chain ++ [d] := by
  cases hd : node.definitionId with
  | none => simp [visit, enter, hd, Call.run_map, Run.value]
  | some d =>
    by_cases hmem : d ∈ chain
    · simp [visit, enter, hd, hmem, Call.emit, Call.run_map, Run.value]
    · simp [visit, enter, hd, hmem, Call.run_map, Run.value]

/-- Only that part of the path counts which is above some node of the stack. -/
theorem loop_congr {room : Nat} {stack : Array (NodeId × Nat)} {p q chain : List DefId}
    (hp : Fits stack p chain) (hq : Fits stack q chain) :
    loop lookup cancelAfter limit room stack p = loop lookup cancelAfter limit room stack q := by
  apply Call.ext
  intro s
  induction hn : stack.size generalizing stack s with
  | zero =>
    obtain rfl := Array.eq_empty_of_size_eq_zero hn
    rw [run_loop_empty, run_loop_empty]
  | succ n ih =>
    obtain ⟨rest, ⟨id, depth⟩, rfl⟩ := Array.exists_push_of_size_eq_add_one hn
    have htake : p.take depth = q.take depth :=
      (hp.take_eq Array.mem_push_self).trans (hq.take_eq Array.mem_push_self).symm
    rw [run_loop_push, run_loop_push, run_turn, run_turn, htake]
    split
    · split
      · rfl
      split
      · simpa using ih hp.of_push hq.of_push s (by simpa using hn)
      · rfl
    · rfl

variable {lookup cancelAfter}

/-- What is on top of the stack is swept before the loop goes on with the rest. -/
theorem run_loop_extend {room levels : Nat} {base : Array (NodeId × Nat)}
    {path chain : List DefId} (fits : Fits base path chain) (hroom : chain.length + levels = room)
    (ids : List NodeId) (s : Pass) :
    (loop lookup cancelAfter none room (Agenda.extend base chain.length ids) path).run s =
      ((sweep lookup cancelAfter levels chain ids).run s).bind
        (goOn (loop lookup cancelAfter none room base path).run) := by
  induction levels generalizing base path chain ids s with
  | zero =>
    cases ids with
    | nil => simp [run_sweep_nil, goOn]
    | cons id rest =>
      rw [Agenda.extend_cons, run_loop_push, if_neg (by omega)]
      simp [sweep, goOn]
  | succ levels below =>
    rw [sweep]
    induction ids generalizing path s with
    | nil => simp [sweepWith, goOn]
    | cons id rest after =>
      rw [Agenda.extend_cons, run_loop_push, if_pos (by omega), run_turn, run_sweepWith_cons]
      split
      · simp [goOn]
      split
      · simpa using after fits s
      rename_i node _
      rw [fits.path_eq, Run.bind_assoc, Run.bind_assoc]
      apply Run.bind_congr
      simp only [Run.bind_done, Run.after_nil]
      have hsite := path_visit lookup none chain id node s
      generalize ((visit lookup chain id node).run s).value = site at hsite ⊢
      generalize ((visit lookup chain id node).run s).state = m
      -- once the nodes below are done, those left of the scope follow with whatever path there is
      have hnext (p : List DefId) (hp : Fits base p chain) (t : Pass) :
          (loop lookup cancelAfter none room (Agenda.extend base chain.length rest) p).run t =
            ((sweepWith lookup cancelAfter (sweep lookup cancelAfter levels) chain rest).run t).bind
              (goOn (loop lookup cancelAfter none room base path).run) := by
        rw [after hp, loop_congr lookup cancelAfter none hp fits]
      obtain rfl | ⟨d, hd⟩ := hsite
      · rw [Agenda.extend_nil, run_sweep_nil, Run.bind_done, Run.after_nil]
        exact hnext chain fits.self m
      · obtain ⟨opened, children⟩ := site
        obtain rfl := hd
        have hlength : (chain ++ [d]).length = chain.length + 1 := by simp
        rw [goOn_bind, ← hlength, below ((fits.extend rest).enter d) (by omega)]
        congr 2
        funext t
        exact hnext _ (fits.append d) t

/-- The loop of a pass is the sweep of the root. -/
theorem loop_eq_sweep (lookup : Lookup) (cancelAfter : Option Nat) (room : Nat) :
    loop lookup cancelAfter none room #[(.root, 0)] [] = sweep lookup cancelAfter room [] [.root] := by
  apply Call.ext
  intro s
  have hfits : Fits #[] [] [] := ⟨by simp, rfl⟩
  have hempty : goOn (loop lookup cancelAfter none room #[] []).run = fun ending t => .done t [] ending := by
    funext ending t
    cases ending with
    | finished => exact run_loop_empty lookup cancelAfter none room [] t
    | _ => rfl
  rw [← (sweep lookup cancelAfter room [] [.root]).run s |>.bind_pure, ← hempty]
  exact run_loop_extend hfits (Nat.zero_add room) [.root] s

end Loop

end Pass

end DesignHierarchy
