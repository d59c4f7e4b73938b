import DesignHierarchy.Proofs.Sweep
import Mathlib.Logic.Relation

/-! The state of a pass between two turns of its loop. The stack and the path are
kept apart from the hierarchy, which grows meanwhile, and yet they agree with it:
cut back to the depth of any node on the stack, the path is the chain of
definitions that are open above that node. -/
namespace DesignHierarchy

namespace Pass

/-- What the loop holds between two turns. -/
structure Frontier where
  pass : Pass
  stack : Array (NodeId × Nat)
  path : List DefId

namespace Frontier

/-- A pass that is about to visit the root. -/
def start (pass : Pass) : Frontier := ⟨pass, #[(.root, 0)], []⟩

/-- The loop from here on. -/
def resume (lookup : Lookup) (cancelAfter : Option Nat) (room : Nat) (frontier : Frontier) :
    Run Pass Ending :=
  (loop lookup cancelAfter none room frontier.stack frontier.path).run frontier.pass

/-- A turn takes the node on top of the stack, and puts the nodes below it there. -/
inductive Turn (lookup : Lookup) (cancelAfter : Option Nat) : Frontier → Frontier → Prop
  | take {s : Pass} {rest : Array (NodeId × Nat)} {id : NodeId} {depth : Nat}
      {path path' : List DefId} {children : List NodeId}
      (answer : ((turn lookup cancelAfter none path id depth).run s).value = some (path', children)) :
      Turn lookup cancelAfter ⟨s, rest.push (id, depth), path⟩
        ⟨((turn lookup cancelAfter none path id depth).run s).state,
          Agenda.extend rest (depth + 1) children, path'⟩

structure Aligned (frontier : Frontier) : Prop where
  formed : frontier.pass.tree.WellFormed
  ordered : frontier.stack.toList.Pairwise fun lower upper => lower.2 ≤ upper.2
  reached : ∀ entry ∈ frontier.stack, entry.2 ≤ frontier.path.length
  below : ∀ entry ∈ frontier.stack,
    frontier.pass.tree.Under (frontier.path.take entry.2) [entry.1]

/-- Where nobody cancels, the turns go on until the stack is empty. -/
theorem exists_turn (lookup : Lookup) {frontier : Frontier} (left : frontier.stack ≠ #[]) :
    ∃ next, Turn lookup none frontier next := by
  obtain ⟨s, stack, path⟩ := frontier
  obtain ⟨rest, ⟨id, depth⟩, rfl⟩ := Array.eq_push_of_size_ne_zero (mt Array.eq_empty_of_size_eq_zero left)
  obtain ⟨⟨path', children⟩, answer⟩ :
      ∃ site, ((turn lookup none none path id depth).run s).value = some site := by
    rw [run_turn, if_neg (by simp [isCancelled])]
    cases s.tree.node? id with
    | none => exact ⟨_, rfl⟩
    | some node => exact ⟨_, Run.value_bind _ _⟩
  exact ⟨_, .take answer⟩

variable {lookup : Lookup} {cancelAfter : Option Nat}

/-- A loop that comes to its end does so in the same way from either side of a turn. -/
theorem resume_of_turn {room : Nat} {a b : Frontier} (step : Turn lookup cancelAfter a b)
    (ends : (a.resume lookup cancelAfter room).value = .finished) :
    (b.resume lookup cancelAfter room).value = .finished ∧
      (b.resume lookup cancelAfter room).state = (a.resume lookup cancelAfter room).state := by
  cases step with
  | take answer =>
    unfold resume at *
    rw [run_loop_push] at ends ⊢
    split at ends
    · rename_i hlt
      rw [Run.value_bind, answer] at ends
      rw [if_pos hlt, Run.state_bind, answer]
      exact ⟨ends, rfl⟩
    · cases ends

theorem resume_of_turns {room : Nat} {a b : Frontier}
    (turns : Relation.ReflTransGen (Turn lookup cancelAfter) a b)
    (ends : (a.resume lookup cancelAfter room).value = .finished) :
    (b.resume lookup cancelAfter room).value = .finished ∧
      (b.resume lookup cancelAfter room).state = (a.resume lookup cancelAfter room).state := by
  induction turns with
  | refl => exact ⟨ends, rfl⟩
  | tail _ step ih =>
    obtain ⟨hvalue, hstate⟩ := resume_of_turn step ih.1
    exact ⟨hvalue, hstate.trans ih.2⟩

theorem aligned_start {pass : Pass} (h : pass.tree.WellFormed) : (start pass).Aligned where
  formed := h
  ordered := by simp [start]
  reached := by simp [start]
  below := by
    intro entry hentry
    obtain rfl : entry = (.root, 0) := by simpa [start] using hentry
    intro id hid
    obtain rfl := List.mem_singleton.1 hid
    exact ⟨pass.tree.nonempty, h.openAbove_root⟩

/-- A turn that has an answer is a visit. -/
theorem visit_of_turn {s : Pass} {path path' : List DefId} {id : NodeId} {depth : Nat}
    {children : List NodeId} {node : Node} (found : s.tree.node? id = some node)
    (answer : ((Pass.turn lookup cancelAfter none path id depth).run s).value =
      some (path', children)) :
    ((visit lookup (path.take depth) id node).run s).value = (path', children) ∧
      ((Pass.turn lookup cancelAfter none path id depth).run s).state =
        ((visit lookup (path.take depth) id node).run s).state := by
  rw [run_turn, found] at answer ⊢
  by_cases hc : s.isCancelled cancelAfter
  · rw [if_pos hc] at answer
    cases answer
  · rw [if_neg hc, Run.value_bind] at answer
    rw [if_neg hc, Run.state_bind]
    exact ⟨Option.some.inj answer, rfl⟩

/-- Depths still grow towards the top of a stack when deeper nodes are put there. -/
theorem ordered_extend {rest : Array (NodeId × Nat)} {depth : Nat}
    (ordered : rest.toList.Pairwise fun lower upper => lower.2 ≤ upper.2)
    (shallow : ∀ entry ∈ rest, entry.2 ≤ depth) (children : List NodeId) :
    (Agenda.extend rest depth children).toList.Pairwise fun lower upper => lower.2 ≤ upper.2 := by
  rw [Agenda.toList_extend, List.pairwise_append]
  refine ⟨ordered, ?_, ?_⟩
  · rw [List.pairwise_map]
    exact List.pairwise_of_forall fun _ _ => Nat.le_refl _
  · intro lower hlower upper hupper
    obtain ⟨child, -, rfl⟩ := List.mem_map.1 hupper
    exact shallow lower (Array.mem_toList_iff.1 hlower)

/-- The part of the path above the nodes that stay on the stack is as it was, and where there are
nodes below, one more definition is open above them. -/
theorem fits_of_visit {rest : Array (NodeId × Nat)} {path chain path' : List DefId}
    {children : List NodeId} (h : Fits rest path chain)
    (site : (path', children) = (chain, []) ∨ ∃ d, path' = chain ++ [d]) :
    Fits rest path' chain ∧ ∀ child ∈ children, path'.length = chain.length + 1 := by
  obtain site | ⟨d, rfl⟩ := site
  · cases site
    exact ⟨h.self, by simp⟩
  · exact ⟨h.append d, by simp⟩

/-- A turn keeps stack and path in agreement with the hierarchy. -/
theorem Aligned.turn {a b : Frontier} (h : a.Aligned) (step : Turn lookup cancelAfter a b) :
    b.Aligned := by
  cases step with
  | @take s rest id depth path path' children answer =>
    obtain ⟨formed, ordered, reached, below⟩ := h
    dsimp only at formed ordered reached below
    have hlength : (path.take depth).length = depth :=
      List.length_take_of_le (reached _ Array.mem_push_self)
    rw [Array.toList_push, List.pairwise_append] at ordered
    have hshallow : ∀ entry ∈ rest, entry.2 ≤ depth := fun entry hentry =>
      ordered.2.2 entry (Array.mem_toList_iff.2 hentry) _ (List.mem_singleton.2 rfl)
    have hfits : Fits rest path (path.take depth) := by
      refine ⟨?_, by rw [hlength]⟩
      rw [hlength]
      exact hshallow
    -- the turn is a visit, which grows the hierarchy
    obtain ⟨hlt, hopen⟩ := below _ Array.mem_push_self id (List.mem_singleton.2 rfl)
    obtain ⟨node, found⟩ := Tree.exists_node? hlt
    obtain ⟨hvalue, hstate⟩ := visit_of_turn found answer
    obtain ⟨hgrows, hunder⟩ := visit_under lookup formed found hopen
    have hsite := path_visit lookup none (path.take depth) id node s
    have hformed := hgrows.wellFormed formed
    rw [hvalue] at hunder hsite
    obtain ⟨hfits', hdeeper⟩ := fits_of_visit hfits hsite
    rw [hlength] at hdeeper
    have hpath : depth ≤ path'.length := by
      have hle := congrArg List.length hfits'.path_eq
      rw [List.length_take, hlength] at hle
      omega
    refine ⟨hstate ▸ hformed, ?ordered, ?reached, ?below⟩
    case ordered =>
      refine ordered_extend ordered.1 ?_ children
      exact fun entry hentry => Nat.le_succ_of_le (hshallow entry hentry)
    case reached =>
      intro entry hentry
      obtain hentry | ⟨child, hchild, rfl⟩ := Agenda.mem_extend.1 hentry
      · exact Nat.le_trans (hshallow entry hentry) hpath
      · exact Nat.le_of_eq (hdeeper child hchild).symm
    case below =>
      intro entry hentry
      dsimp only
      rw [tree, hstate]
      obtain hentry | ⟨child, hchild, rfl⟩ := Agenda.mem_extend.1 hentry
      · rw [hfits'.take_eq hentry, ← hfits.take_eq hentry]
        exact (below entry (Array.mem_push_of_mem _ hentry)).mono hgrows.extends formed hformed
      · rw [← hdeeper child hchild, List.take_length]
        intro other hother
        rw [List.mem_singleton.1 hother]
        exact hunder child hchild

/-- Whatever turns were taken, stack, path and hierarchy agree. -/
theorem aligned_of_turns {pass : Pass} (h : pass.tree.WellFormed) {frontier : Frontier}
    (turns : Relation.ReflTransGen (Turn lookup cancelAfter) (start pass) frontier) :
    frontier.Aligned := by
  induction turns with
  | refl => exact aligned_start h
  | tail _ step ih => exact ih.turn step

end Frontier

end Pass

end DesignHierarchy
