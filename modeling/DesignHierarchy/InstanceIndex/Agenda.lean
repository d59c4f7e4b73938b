import DesignHierarchy.Ident

/-! What a pass still has to visit: a stack of nodes with their depths. A turn
takes the node on top and may put its children in its place, any number of them
but one level deeper, so with a bound on the depth the turns come to an end. -/
namespace DesignHierarchy

/-- Nodes to visit with their depths, the next one last. Those at depth `room` are too deep. -/
structure Agenda (room : Nat) where
  stack : Array (NodeId × Nat)

namespace Agenda

variable {room : Nat}

/-- Puts nodes on top of a stack, the last one first, so that they are taken in order. -/
def extend (stack : Array (NodeId × Nat)) (depth : Nat) (ids : List NodeId) :
    Array (NodeId × Nat) :=
  stack ++ (ids.reverse.map (·, depth)).toArray

/-- One turn leads from the second agenda to the first. -/
def Shrinks (room : Nat) (after before : Agenda room) : Prop :=
  ∃ rest id depth children, before.stack = rest.push (id, depth) ∧ depth < room ∧
    after.stack = extend rest (depth + 1) children

@[simp] theorem extend_nil (stack : Array (NodeId × Nat)) (depth : Nat) :
    extend stack depth [] = stack := by
  simp [extend]

/-- The first of the nodes is on top. -/
theorem extend_cons (stack : Array (NodeId × Nat)) (depth : Nat) (id : NodeId)
    (rest : List NodeId) :
    extend stack depth (id :: rest) = (extend stack depth rest).push (id, depth) := by
  simp [extend]

theorem mem_extend {stack : Array (NodeId × Nat)} {depth : Nat} {ids : List NodeId}
    {entry : NodeId × Nat} :
    entry ∈ extend stack depth ids ↔ entry ∈ stack ∨ ∃ id ∈ ids, (id, depth) = entry := by
  simp [extend]

theorem toList_extend (stack : Array (NodeId × Nat)) (depth : Nat) (ids : List NodeId) :
    (extend stack depth ids).toList = stack.toList ++ ids.reverse.map (·, depth) := by
  simp [extend]

private theorem acc_append {rest : Array (NodeId × Nat)} {entries : List (NodeId × Nat)}
    (push : ∀ entry ∈ entries, ∀ rest, Acc (Shrinks room) ⟨rest⟩ →
      Acc (Shrinks room) ⟨rest.push entry⟩)
    (h : Acc (Shrinks room) ⟨rest⟩) : Acc (Shrinks room) ⟨rest ++ entries.toArray⟩ := by
  induction entries generalizing rest with
  | nil => simpa using h
  | cons entry entries ih =>
    have happend : rest ++ (entry :: entries).toArray = rest.push entry ++ entries.toArray := by
      simp
    rw [happend]
    exact ih (fun e he => push e (List.mem_cons_of_mem _ he)) (push entry List.mem_cons_self _ h)

-- the induction is on the levels left below the entry
private theorem acc_push (levels : Nat) {id : NodeId} {depth : Nat} (hdepth : room ≤ depth + levels)
    {rest : Array (NodeId × Nat)} (h : Acc (Shrinks room) ⟨rest⟩) :
    Acc (Shrinks room) ⟨rest.push (id, depth)⟩ := by
  induction levels generalizing id depth rest with
  | zero =>
    constructor
    rintro ⟨after⟩ ⟨_, _, _, _, hbefore, hlt, -⟩
    obtain ⟨-, rfl⟩ := Prod.mk.inj (Array.push_eq_push.1 hbefore).1
    omega
  | succ levels ih =>
    constructor
    rintro ⟨after⟩ ⟨_, _, _, children, hbefore, hlt, rfl⟩
    obtain ⟨hentry, rfl⟩ := Array.push_eq_push.1 hbefore
    obtain ⟨-, rfl⟩ := Prod.mk.inj hentry
    refine acc_append ?_ h
    intro entry hentry rest hrest
    obtain ⟨child, -, rfl⟩ := List.mem_map.1 hentry
    exact ih (by omega) hrest

theorem wellFounded_shrinks : WellFounded (Shrinks room) := by
  constructor
  rintro ⟨stack⟩
  have hempty : Acc (Shrinks room) ⟨#[]⟩ := by
    constructor
    rintro _ ⟨_, _, _, _, hbefore, -⟩
    simp at hbefore
  have happend := @acc_append room #[] stack.toList
    (fun _ _ _ hrest => acc_push room (Nat.le_add_left _ _) hrest) hempty
  simpa using happend

instance : WellFoundedRelation (Agenda room) := ⟨Shrinks room, wellFounded_shrinks⟩

theorem shrinks_pop {stack : Array (NodeId × Nat)} {id : NodeId} {depth : Nat}
    (last : stack.back? = some (id, depth)) (hlt : depth < room) (children : List NodeId) :
    Shrinks room ⟨extend stack.pop (depth + 1) children⟩ ⟨stack⟩ := by
  obtain ⟨rest, rfl⟩ := Array.back?_eq_some_iff.1 last
  exact ⟨rest, id, depth, children, rfl, hlt, by simp⟩

end Agenda

end DesignHierarchy
