import DesignHierarchy.Proofs.Browsing
import DesignHierarchy.Proofs.Paths

/-! Where a path says which node it means. An index looks paths up as texts, while
a walk reads them name by name and takes the first match; where no name has a dot in
it, siblings have different names and no child of the top is named like the top, both
mean the same node. -/
namespace DesignHierarchy

theorem Node.instanceOf_eq_some_iff {node : Node} {d : DefId} :
    node.instanceOf = some d ↔ node.isInstance ∧ node.definitionId = some d := by
  unfold instanceOf
  split <;> simp_all

namespace Tree

/-- Trees in which a path leads to one place. -/
structure Unambiguous (tree : Tree) : Prop where
  undotted : ∀ {id node}, tree.node? id = some node → '.' ∉ node.name.toList
  distinct : ∀ {id owner cs}, tree.node? id = some owner → tree.children? id = some cs →
    (owner.shown.map (·.name)).Nodup
  apart : tree.child? .root tree.top.name = none

theorem mem_toList {tree : Tree} {slot : Slot} :
    slot ∈ tree.toList ↔ ∃ id, tree.slot? id = some slot := by
  have hget : ∀ i, tree.toList[i]? = tree.slot? ⟨i⟩ := by
    intro i
    rw [toList, List.getElem?_zipWith, Array.getElem?_toList, Array.getElem?_toList, slot?, node?]
    cases tree.nodes[i]? <;> cases tree.children[i]? <;> rfl
  rw [List.mem_iff_getElem?]
  constructor
  · rintro ⟨i, hi⟩
    exact ⟨⟨i⟩, (hget i).symm.trans hi⟩
  · rintro ⟨id, hid⟩
    exact ⟨id.index, (hget id.index).trans hid⟩

theorem unambiguous_iff {tree : Tree} :
    tree.Unambiguous ↔
      (∀ slot ∈ tree.toList, '.' ∉ slot.node.name.toList ∧
        (slot.children.isSome → (slot.node.shown.map (·.name)).Nodup)) ∧
      tree.child? .root tree.top.name = none := by
  constructor
  · intro h
    refine ⟨?_, h.apart⟩
    rintro ⟨node, children⟩ hslot
    obtain ⟨id, hid⟩ := mem_toList.1 hslot
    obtain ⟨hnode, hchildren⟩ := slot?_eq_some.1 hid
    refine ⟨h.undotted hnode, ?_⟩
    intro hsome
    obtain ⟨cs, hcs⟩ := Option.isSome_iff_exists.1 hsome
    exact h.distinct hnode (hchildren.trans hcs)
  · rintro ⟨hslots, apart⟩
    refine ⟨?_, ?_, apart⟩
    · intro id node hnode
      exact (hslots _ (mem_toList.2 ⟨id, slot?_eq_some.2 ⟨hnode, rfl⟩⟩)).1
    · intro id owner cs howner hcs
      exact (hslots _ (mem_toList.2 ⟨id, slot?_eq_some.2 ⟨howner, hcs⟩⟩)).2 rfl

instance (tree : Tree) : Decidable tree.Unambiguous := decidable_of_iff _ unambiguous_iff.symm

namespace Unambiguous

variable {tree : Tree} (plain : tree.Unambiguous)

include plain

theorem relative_top (names : List String) :
    tree.relative (tree.top.name :: names) = names := by
  rw [relative, if_pos ⟨rfl, plain.apart⟩]

theorem undotted_namesTo (id : NodeId) : DottedPath.Undotted (tree.namesTo id) := by
  intro name hname
  obtain ⟨a, -, ha⟩ := List.mem_filterMap.1 (List.mem_reverse.1 hname)
  obtain ⟨node, hnode, rfl⟩ := Option.map_eq_some_iff.1 ha
  exact plain.undotted hnode

variable (formed : tree.WellFormed)

include formed

/-- The names on the way down to a node that can be seen lead to it. -/
theorem follow_of_connected {id : NodeId} (seen : tree.Connected id) :
    ∃ names, tree.namesTo id = tree.top.name :: names ∧ tree.follow .root names = .ok id := by
  obtain ⟨position, hat⟩ := seen
  induction position using List.reverseRecOn generalizing id with
  | nil =>
    cases hat
    exact ⟨[], formed.namesTo_root, rfl⟩
  | append_singleton position i ih =>
    obtain ⟨p, cs, hp, hcs, hi, hparent⟩ := formed.parent?_of_at?_concat hat
    obtain ⟨names, hnames, hfollow⟩ := ih hp
    obtain ⟨owner, howner⟩ := node?_of_children? hcs
    obtain ⟨node, hnode, hlink⟩ := Option.bind_eq_some_iff.1 hparent
    have hchild := child?_of_mem formed howner (plain.distinct howner hcs) hcs
      (List.mem_of_getElem? hi) hnode
    refine ⟨names ++ [node.name], ?_, ?_⟩
    · rw [namesTo_of_parent? formed.parentsFirst hnode hlink, hnames]
      rfl
    · rw [follow_append hfollow, follow, hchild]
      rfl

variable {d : DefId} {path : String} {id : NodeId}

/-- Where an instance is, in words and in the tree. -/
theorem follow_of_instanceAt (hat : tree.InstanceAt d path id) (seen : tree.Connected id) :
    ∃ names, names ≠ [] ∧ DottedPath.Undotted (tree.top.name :: names) ∧
      path = DottedPath.ofNames (tree.top.name :: names) ∧ tree.follow .root names = .ok id := by
  obtain ⟨names, hnames, hfollow⟩ := plain.follow_of_connected formed seen
  obtain ⟨node, hnode, hinst, hpath⟩ := hat
  refine ⟨names, ?_, hnames ▸ plain.undotted_namesTo id, ?_, hfollow⟩
  · rintro rfl
    cases hfollow
    exact formed.ne_root_of_isInstance hnode (Node.instanceOf_eq_some_iff.1 hinst).1 rfl
  · unfold path? at hpath
    split at hpath
    · rw [← Option.some.inj hpath, hnames]
    · cases hpath

/-- An instance is where its path leads when the top is left out of it. -/
theorem follow_of_below (hpath : path ≠ "")
    (hat : tree.InstanceAt d (tree.top.name ++ "." ++ path) id) (seen : tree.Connected id) :
    tree.follow .root (DottedPath.segments path) = .ok id := by
  obtain ⟨names, hne, hdots, heq, hfollow⟩ := plain.follow_of_instanceAt formed hat seen
  rw [DottedPath.ofNames_cons tree.top.name hne, String.append_right_inj] at heq
  rw [heq] at hpath ⊢
  rw [DottedPath.segments_ofNames hne (List.forall_mem_cons.1 hdots).2 hpath]
  exact hfollow

/-- The whole path of an instance starts with the name of the top, and the rest leads there. -/
theorem follow_of_path (hat : tree.InstanceAt d path id) (seen : tree.Connected id) :
    ∃ names, DottedPath.segments path = tree.top.name :: names ∧
      tree.follow .root names = .ok id := by
  obtain ⟨names, hne, hdots, rfl, hfollow⟩ := plain.follow_of_instanceAt formed hat seen
  refine ⟨names, ?_, hfollow⟩
  exact DottedPath.segments_ofNames (List.cons_ne_nil _ _) hdots
    (DottedPath.ofNames_cons_ne_empty tree.top.name hne)

end Unambiguous

end Tree

namespace InstanceIndex

/-- The two readings of a path: below the top, and from the top on. -/
theorem reveal_eq {index : InstanceIndex} {top : Symbol} (htop : index.top = some top)
    (d : DefId) (path : String) :
    index.reveal d path =
      (if DottedPath.stripIndices path = "" then none
        else index.at? d (top.name ++ "." ++ DottedPath.stripIndices path)).or
        (index.at? d (DottedPath.stripIndices path)) := by
  unfold reveal at?
  rw [htop]
  cases index.entries.get? d with
  | none => simp
  | some roster => simp

theorem at?_of_reveal {index : InstanceIndex} {top : Symbol} (htop : index.top = some top)
    {d : DefId} {path : String} {id : NodeId} (h : index.reveal d path = some id) :
    (DottedPath.stripIndices path ≠ "" ∧
        index.at? d (top.name ++ "." ++ DottedPath.stripIndices path) = some id) ∨
      index.at? d (DottedPath.stripIndices path) = some id := by
  rw [reveal_eq htop] at h
  obtain hbelow | ⟨-, hfrom⟩ := Option.or_eq_some_iff.1 h
  · split at hbelow
    · cases hbelow
    · rename_i hpath
      exact .inl ⟨hpath, hbelow⟩
  · exact .inr hfrom

namespace TellsOf

variable {index : InstanceIndex} {tree : Tree} (tells : index.TellsOf tree) {d : DefId}
  {path : String} {id : NodeId} (h : index.reveal d path = some id)

include tells h

/-- What the index finds can be seen, and has the path as it is given or below the top. -/
theorem instanceAt_of_reveal :
    tree.Connected id ∧
      ((DottedPath.stripIndices path ≠ "" ∧
          tree.InstanceAt d (tree.top.name ++ "." ++ DottedPath.stripIndices path) id) ∨
        tree.InstanceAt d (DottedPath.stripIndices path) id) := by
  obtain ⟨hpath, hbelow⟩ | hfrom := at?_of_reveal tells.top_eq h
  · obtain ⟨hat, seen⟩ := tells.recorded hbelow
    exact ⟨seen, .inl ⟨hpath, hat⟩⟩
  · obtain ⟨hat, seen⟩ := tells.recorded hfrom
    exact ⟨seen, .inr hat⟩

theorem node_of_reveal : ∃ node, tree.node? id = some node ∧ node.instanceOf = some d := by
  obtain ⟨-, ⟨-, node, hnode, hinst, -⟩ | ⟨node, hnode, hinst, -⟩⟩ := tells.instanceAt_of_reveal h
  · exact ⟨node, hnode, hinst⟩
  · exact ⟨node, hnode, hinst⟩

theorem locate_of_reveal (plain : tree.Unambiguous) (formed : tree.WellFormed) :
    tree.locate path = .ok id := by
  rw [Tree.locate_eq_follow, DottedPath.names]
  obtain ⟨seen, ⟨hpath, hat⟩ | hat⟩ := tells.instanceAt_of_reveal h
  · have hfollow := plain.follow_of_below formed hpath hat seen
    rw [Tree.relative_of_follow hfollow]
    exact hfollow
  · obtain ⟨names, hnames, hfollow⟩ := plain.follow_of_path formed hat seen
    rw [hnames, plain.relative_top]
    exact hfollow

end TellsOf

end InstanceIndex

end DesignHierarchy
