import DesignHierarchy.Proofs.Elaboration
import Mathlib.Data.List.Find

/-! Walks along names. Resolving a path expands the nodes on its way, and its
answer is the one that the walk without expanding gives on the tree it leaves. -/
namespace DesignHierarchy

namespace Tree

/-- The names to follow from the root: the name of the top may lead them. -/
def relative (tree : Tree) : List String → List String
  | [] => []
  | first :: rest =>
    if tree.top.name = first ∧ tree.child? .root first = none then rest else first :: rest

theorem locate_eq_follow (tree : Tree) (path : String) :
    tree.locate path = tree.follow .root (tree.relative (DottedPath.names path)) := by
  unfold locate relative
  cases DottedPath.names path with
  | nil => rfl
  | cons first rest =>
    dsimp only
    split <;> rfl

theorem WellFormed.node_of_mem {tree : Tree} (h : tree.WellFormed) {id c : NodeId}
    {cs : List NodeId} (hcs : tree.children? id = some cs) (hc : c ∈ cs) :
    ∃ node, tree.node? c = some node := by
  obtain ⟨owner, howner⟩ := node?_of_children? hcs
  obtain ⟨node, hnode, -⟩ := (h.listed howner hcs).node hc
  exact ⟨node, hnode⟩

theorem mem_of_named? {tree : Tree} {name : String} {ids : List NodeId} {id : NodeId}
    (h : tree.named? name ids = some id) :
    id ∈ ids ∧ ∃ node, tree.node? id = some node ∧ node.name = name := by
  refine ⟨List.mem_of_find?_eq_some h, ?_⟩
  have hany := List.find?_some h
  cases hnode : tree.node? id with
  | none => simp [hnode] at hany
  | some node => exact ⟨node, rfl, by simpa [hnode] using hany⟩

section Growth

variable {s t : Tree}

theorem Extends.named? (h : s.Extends t) {ids : List NodeId}
    (hids : ∀ c ∈ ids, ∃ node, s.node? c = some node) (name : String) :
    t.named? name ids = s.named? name ids := by
  apply List.find?_congr
  intro c hc
  obtain ⟨node, hnode⟩ := hids c hc
  rw [hnode, h.node hnode]

theorem Extends.child? (h : s.Extends t) (hs : s.WellFormed) {id : NodeId} {cs : List NodeId}
    (hcs : s.children? id = some cs) (name : String) : t.child? id name = s.child? id name := by
  unfold Tree.child?
  rw [hcs, h.children hcs]
  exact h.named? (fun c hc => hs.node_of_mem hcs hc) name

end Growth

end Tree

namespace Elaborator

theorem value_locate (path : String) (s : Elaborator) :
    ((locate path).run s).value = s.tree.locate path := by
  unfold locate explain
  rw [Call.run_bind, Call.run_gets, Run.bind_done, Run.value_after]
  cases s.tree.locate path <;> rfl

section Contracts

variable {lookup : Lookup} {keep : Elaborator → Prop}
  (closed : ∀ s t, keep s → Step lookup s t → keep t)

include closed

theorem meets_findChild {s : Elaborator} (h : keep s) (id : NodeId) (name : String) :
    ((findChild lookup id name).run s).Meets keep fun found t =>
      keep t ∧ s.tree.Extends t.tree ∧ ∀ node, s.tree.node? id = some node →
        (∃ cs, t.tree.children? id = some cs) ∧ found = t.tree.child? id name := by
  apply (meets_expand closed h id).bind
  rintro cs t ⟨ht, hexp⟩
  rw [Call.run_gets, Run.meets_done]
  refine ⟨ht, hexp.extends, ?_⟩
  intro node hid
  have hcs := hexp.recorded hid
  exact ⟨⟨cs, hcs⟩, by simp [Tree.child?, hcs]⟩

variable (formed : ∀ s, keep s → s.tree.WellFormed)

include formed

theorem meets_follow {s : Elaborator} (h : keep s) {id : NodeId} {node : Node}
    (hid : s.tree.node? id = some node) (names : List String) :
    ((follow lookup id names).run s).Meets keep fun answer t =>
      keep t ∧ s.tree.Extends t.tree ∧ answer = t.tree.follow id names := by
  induction names generalizing s id node with
  | nil =>
    rw [follow, Call.run_pure, Run.meets_done]
    exact ⟨h, .refl _, rfl⟩
  | cons name rest ih =>
    unfold follow
    apply (meets_findChild closed h id name).bind
    rintro found t ⟨ht, hext, hfound⟩
    obtain ⟨⟨cs, hcs⟩, rfl⟩ := hfound node hid
    have hformed := formed t ht
    cases hchild : t.tree.child? id name with
    | none =>
      simp only [Call.run_bind, Call.run_gets, Run.bind_done, Call.run_pure, Run.meets_after,
        Run.meets_done]
      exact ⟨ht, hext, by rw [Tree.follow, hchild]⟩
    | some child =>
      have hmem : t.tree.named? name cs = some child := by simpa [Tree.child?, hcs] using hchild
      obtain ⟨-, node', hnode', -⟩ := Tree.mem_of_named? hmem
      apply (ih ht hnode').imp (fun _ hk => hk)
      rintro answer u ⟨hu, hext', rfl⟩
      refine ⟨hu, hext.trans hext', ?_⟩
      rw [Tree.follow, hext'.child? hformed hcs, hchild]

theorem meets_relative {s : Elaborator} (h : keep s) (names : List String) :
    ((relative lookup names).run s).Meets keep fun answer t =>
      keep t ∧ s.tree.Extends t.tree ∧
        ∀ u : Tree, t.tree.Extends u → answer = u.relative names := by
  cases names with
  | nil =>
    rw [relative, Call.run_pure, Run.meets_done]
    exact ⟨h, .refl _, fun u _ => rfl⟩
  | cons first rest =>
    unfold relative
    rw [Call.run_bind, Call.run_gets, Run.bind_done, Run.after_nil]
    by_cases htop : s.tree.top.name = first
    · rw [if_pos htop]
      apply (meets_findChild closed h .root first).bind
      rintro found t ⟨ht, hext, hfound⟩
      obtain ⟨⟨cs, hcs⟩, rfl⟩ := hfound _ (formed s h).root
      -- the root is expanded now, so a later tree has the same child of this name
      have hlater : ∀ u : Tree, t.tree.Extends u →
          u.relative (first :: rest) =
            if t.tree.child? .root first = none then rest else first :: rest := by
        intro u hu
        have hname : u.top.name = first := by rw [hu.top, hext.top, htop]
        simp [Tree.relative, hname, hu.child? (formed t ht) hcs]
      cases hchild : t.tree.child? .root first with
      | none =>
        rw [Call.run_pure, Run.meets_done]
        exact ⟨ht, hext, fun u hu => by rw [hlater u hu, if_pos hchild]⟩
      | some child =>
        rw [Call.run_pure, Run.meets_done]
        exact ⟨ht, hext, fun u hu => by rw [hlater u hu, if_neg (by simp [hchild])]⟩
    · rw [if_neg htop, Call.run_pure, Run.meets_done]
      refine ⟨h, .refl _, ?_⟩
      intro u hu
      have hname : ¬ u.top.name = first := by rw [hu.top]; exact htop
      simp [Tree.relative, hname]

/-- A path is resolved to what the walk over the tree that is left finds. -/
theorem meets_resolvePath {s : Elaborator} (h : keep s) (path : String) :
    ((resolvePath lookup path).run s).Meets keep fun answer t =>
      keep t ∧ s.tree.Extends t.tree ∧ answer = t.tree.locate path := by
  unfold resolvePath
  apply (meets_relative closed formed h (DottedPath.names path)).bind
  rintro names t ⟨ht, hext, hnames⟩
  apply (meets_follow closed formed ht (formed t ht).root names).bind
  rintro answer u ⟨hu, hext', rfl⟩
  rw [hnames u.tree hext', ← Tree.locate_eq_follow]
  unfold explain
  cases hlocate : u.tree.locate path with
  | ok id =>
    rw [Call.run_pure, Run.meets_done]
    exact ⟨hu, hext.trans hext', hlocate.symm⟩
  | error cause =>
    simp only [Call.emit, Call.run_bind, Call.run_log, Run.bind_done, Call.run_pure,
      Run.meets_after, Run.meets_done]
    exact ⟨hu, hext.trans hext', hlocate.symm⟩

end Contracts

end Elaborator

end DesignHierarchy
