import DesignHierarchy.Proofs.Contract
import DesignHierarchy.Scope.Tree
import Mathlib.Data.List.Basic

/-! The arena behind a hierarchy. Nodes are added and never change, each after
its parent, so the way from a node up to the top is finite and stays what it
was; a node's children are recorded once, all together. -/
namespace DesignHierarchy

namespace Tree

theorem node?_eq_none {tree : Tree} {id : NodeId} : tree.node? id = none ↔ tree.size ≤ id.index :=
  Array.getElem?_eq_none_iff

theorem lt_size_of_node? {tree : Tree} {id : NodeId} {node : Node} (h : tree.node? id = some node) :
    id.index < tree.size := by
  have hne : ¬ tree.size ≤ id.index := by simp [← node?_eq_none, h]
  omega

theorem exists_node? {tree : Tree} {id : NodeId} (h : id.index < tree.size) :
    ∃ node, tree.node? id = some node := by
  have hne : tree.node? id ≠ none := by
    rw [Ne, node?_eq_none]
    omega
  exact Option.ne_none_iff_exists'.1 hne

/-- Where there is a node, there is an entry for its children. -/
theorem exists_row {tree : Tree} {id : NodeId} (h : id.index < tree.size) :
    ∃ known, tree.children[id.index]? = some known := by
  have hlt : id.index < tree.children.size := by
    rw [tree.aligned]
    exact h
  exact ⟨_, Array.getElem?_eq_getElem hlt⟩

theorem slot?_eq_some {tree : Tree} {id : NodeId} {node : Node} {cs : Option (List NodeId)} :
    tree.slot? id = some ⟨node, cs⟩ ↔ tree.node? id = some node ∧ tree.children? id = cs := by
  unfold slot? children?
  cases hnode : tree.node? id with
  | none => simp
  | some found =>
    obtain ⟨known, hknown⟩ := exists_row (lt_size_of_node? hnode)
    simp [hknown]

theorem slot?_eq_none {tree : Tree} {id : NodeId} : tree.slot? id = none ↔ tree.size ≤ id.index := by
  rw [← node?_eq_none]
  cases hnode : tree.node? id with
  | none => simp [slot?, hnode]
  | some node => simp [slot?_eq_some.2 ⟨hnode, rfl⟩]

theorem node?_of_children? {tree : Tree} {id : NodeId} {cs : List NodeId}
    (h : tree.children? id = some cs) : ∃ node, tree.node? id = some node := by
  obtain ⟨hlt, -⟩ := Array.getElem?_eq_some_iff.1 (Option.join_eq_some_iff.1 h)
  exact exists_node? (Nat.lt_of_lt_of_eq hlt tree.aligned)

theorem children?_eq_none {tree : Tree} {id : NodeId} (h : tree.size ≤ id.index) :
    tree.children? id = none := by
  by_contra hsome
  obtain ⟨cs, hcs⟩ := Option.ne_none_iff_exists'.1 hsome
  obtain ⟨node, hnode⟩ := node?_of_children? hcs
  rw [node?_eq_none.2 h] at hnode
  cases hnode

/-- All that is known in the first tree is so in the second. -/
structure Extends (s t : Tree) : Prop where
  node : ∀ {id node}, s.node? id = some node → t.node? id = some node
  children : ∀ {id cs}, s.children? id = some cs → t.children? id = some cs

theorem Extends.refl (t : Tree) : t.Extends t := ⟨id, id⟩

theorem Extends.trans {s t u : Tree} (hst : s.Extends t) (htu : t.Extends u) : s.Extends u :=
  ⟨fun h => htu.node (hst.node h), fun h => htu.children (hst.children h)⟩

theorem Extends.size_le {s t : Tree} (h : s.Extends t) : s.size ≤ t.size := by
  have hpos : 0 < s.size := s.nonempty
  have hlast : (NodeId.mk (s.size - 1)).index < s.size := Nat.sub_one_lt_of_lt hpos
  obtain ⟨node, hnode⟩ := exists_node? hlast
  have hlt := lt_size_of_node? (h.node hnode)
  dsimp only at hlt
  omega

theorem extends_add (tree : Tree) (node : Node) : tree.Extends (tree.add node) where
  node := by
    intro id old h
    have hlt := lt_size_of_node? h
    rw [node?_add, if_neg (by omega)]
    exact h
  children := by
    intro id cs h
    rw [children?_add]
    exact h

theorem extends_record {tree : Tree} {id : NodeId} (cs : List NodeId)
    (h : tree.children? id = none) : tree.Extends (tree.record id cs) where
  node := by
    intro other node hn
    rw [node?_record]
    exact hn
  children := by
    intro other known hk
    have hne : ¬ (id = other ∧ id.index < tree.size) := by
      rintro ⟨rfl, -⟩
      rw [h] at hk
      cases hk
    rw [children?_record, if_neg hne]
    exact hk

theorem map_symbol_node?_root (tree : Tree) : (tree.node? .root).map (·.symbol) = some tree.top := by
  have h := tree.nonempty
  simp [node?, NodeId.root, top, Array.getElem?_eq_getElem h]

theorem Extends.top {s t : Tree} (h : s.Extends t) : t.top = s.top := by
  have hs := map_symbol_node?_root s
  obtain ⟨node, hnode, hsymbol⟩ := Option.map_eq_some_iff.1 hs
  have ht := map_symbol_node?_root t
  rw [h.node hnode] at ht
  rw [← hsymbol]
  exact (Option.some.inj ht).symm

/-! Parents come before their children. -/

def ParentsFirst (tree : Tree) : Prop :=
  ∀ ⦃id node p⦄, tree.node? id = some node → node.parent = some p → p.index < id.index

theorem ParentsFirst.lt {tree : Tree} (h : tree.ParentsFirst) {id p : NodeId}
    (hp : tree.parent? id = some p) : p.index < id.index := by
  obtain ⟨node, hnode, hparent⟩ := Option.bind_eq_some_iff.1 hp
  exact h hnode hparent

theorem lt_size_of_parent? {tree : Tree} {id p : NodeId} (hp : tree.parent? id = some p) :
    id.index < tree.size := by
  obtain ⟨node, hnode, -⟩ := Option.bind_eq_some_iff.1 hp
  exact lt_size_of_node? hnode

/-- Any number of steps that is not smaller than the index reaches the top. -/
theorem climb_eq_climb {tree : Tree} (h : tree.ParentsFirst) (m n : Nat) (id : NodeId)
    (hm : id.index ≤ m) (hn : id.index ≤ n) : tree.climb m id = tree.climb n id := by
  induction m generalizing n id with
  | zero =>
    have hnone : tree.parent? id = none := by
      cases hp : tree.parent? id with
      | none => rfl
      | some p =>
        have := h.lt hp
        omega
    cases n <;> simp [climb, hnone]
  | succ m ih =>
    cases hp : tree.parent? id with
    | none => cases n <;> simp [climb, hp]
    | some p =>
      have hlt := h.lt hp
      cases n with
      | zero => omega
      | succ n =>
        simp only [climb, hp]
        rw [ih n p (by omega) (by omega)]

theorem ancestors_eq {tree : Tree} (h : tree.ParentsFirst) (id : NodeId) :
    tree.ancestors id =
      match tree.parent? id with
      | none => []
      | some p => p :: tree.ancestors p := by
  unfold ancestors
  obtain ⟨n, hn⟩ := Nat.exists_eq_add_of_lt (show 0 < tree.size from tree.nonempty)
  cases hp : tree.parent? id with
  | none => simp [hn, climb, hp]
  | some p =>
    have hlt := h.lt hp
    have hsize := lt_size_of_parent? hp
    rw [show tree.size = n + 1 by omega, climb, hp]
    dsimp only
    rw [climb_eq_climb h n (n + 1) p (by omega) (by omega)]

theorem ancestors_of_parent? {tree : Tree} (h : tree.ParentsFirst) {id p : NodeId}
    (hp : tree.parent? id = some p) : tree.ancestors id = p :: tree.ancestors p := by
  rw [ancestors_eq h, hp]

theorem index_lt_of_mem_ancestors {tree : Tree} (h : tree.ParentsFirst) {id a : NodeId}
    (ha : a ∈ tree.ancestors id) : a.index < id.index := by
  induction hn : id.index using Nat.strongRecOn generalizing id with
  | ind n ih =>
    rw [ancestors_eq h] at ha
    cases hp : tree.parent? id with
    | none => simp [hp] at ha
    | some p =>
      have hlt := h.lt hp
      simp only [hp, List.mem_cons] at ha
      obtain rfl | ha := ha
      · omega
      · have := ih p.index (by omega) ha rfl
        omega

/-- Neither of two nodes lies above the other. -/
def Apart (tree : Tree) (a b : NodeId) : Prop :=
  a ∉ b :: tree.ancestors b ∧ b ∉ a :: tree.ancestors a

theorem mem_ancestors_trans {tree : Tree} (h : tree.ParentsFirst) {a b c : NodeId}
    (hab : a ∈ tree.ancestors b) (hbc : b ∈ tree.ancestors c) : a ∈ tree.ancestors c := by
  induction hn : c.index using Nat.strongRecOn generalizing c with
  | ind n ih =>
    rw [ancestors_eq h] at hbc ⊢
    cases hp : tree.parent? c with
    | none => simp [hp] at hbc
    | some p =>
      have hlt := h.lt hp
      simp only [hp, List.mem_cons] at hbc ⊢
      obtain rfl | hbc := hbc
      · exact .inr hab
      · exact .inr (ih p.index (by omega) hbc rfl)

/-- The nodes above one node lie above each other. -/
theorem not_apart_of_above {tree : Tree} (h : tree.ParentsFirst) {a b v : NodeId}
    (ha : a ∈ v :: tree.ancestors v) (hb : b ∈ v :: tree.ancestors v) : ¬ tree.Apart a b := by
  induction hn : v.index using Nat.strongRecOn generalizing v with
  | ind n ih =>
    intro hapart
    obtain rfl | ha := List.mem_cons.1 ha
    · exact hapart.2 hb
    obtain rfl | hb := List.mem_cons.1 hb
    · exact hapart.1 (List.mem_cons_of_mem _ ha)
    rw [ancestors_eq h] at ha hb
    cases hp : tree.parent? v with
    | none => simp [hp] at ha
    | some p =>
      have hlt := h.lt hp
      simp only [hp] at ha hb
      exact ih p.index (by omega) ha hb rfl hapart

theorem apart_of_siblings {tree : Tree} (h : tree.ParentsFirst) {a b p : NodeId} (hne : a ≠ b)
    (ha : tree.parent? a = some p) (hb : tree.parent? b = some p) : tree.Apart a b := by
  have hlta := h.lt ha
  have hltb := h.lt hb
  -- what lies above a sibling is the parent or lies above it
  have key : ∀ {x y : NodeId}, tree.parent? y = some p → p.index < x.index → x ≠ y →
      x ∉ y :: tree.ancestors y := by
    intro x y hy hlt hxy hmem
    obtain rfl | hmem := List.mem_cons.1 hmem
    · exact hxy rfl
    rw [ancestors_of_parent? h hy] at hmem
    obtain rfl | hmem := List.mem_cons.1 hmem
    · omega
    · have := index_lt_of_mem_ancestors h hmem
      omega
  exact ⟨key hb hlta hne, key ha hltb hne.symm⟩

theorem Extends.parent? {s t : Tree} (h : s.Extends t) {id : NodeId} (hid : id.index < s.size) :
    t.parent? id = s.parent? id := by
  obtain ⟨node, hnode⟩ := exists_node? hid
  unfold Tree.parent?
  rw [hnode, h.node hnode]

theorem Extends.ancestors {s t : Tree} (h : s.Extends t) (hs : s.ParentsFirst)
    (ht : t.ParentsFirst) {id : NodeId} (hid : id.index < s.size) :
    t.ancestors id = s.ancestors id := by
  induction hn : id.index using Nat.strongRecOn generalizing id with
  | ind n ih =>
    rw [ancestors_eq ht, ancestors_eq hs, h.parent? hid]
    cases hp : s.parent? id with
    | none => rfl
    | some p =>
      have hlt := hs.lt hp
      dsimp only
      rw [ih p.index (by omega) (by omega) rfl]

/-- The definitions that are open above a node. -/
def openAbove (tree : Tree) (id : NodeId) : List DefId :=
  (tree.ancestors id).filterMap fun a => (tree.node? a).bind (·.definitionId)

/-- The definition of the node is open above it already. -/
def reenters (tree : Tree) (id : NodeId) : Bool :=
  (tree.node? id).any fun node => node.definitionId.any (· ∈ tree.openAbove id)

theorem openDefinitions_eq {tree : Tree} {id : NodeId} {node : Node} {definition : DefId}
    (hnode : tree.node? id = some node) (hdef : node.definitionId = some definition) :
    tree.openDefinitions id = definition :: tree.openAbove id := by
  simp [openDefinitions, openAbove, hnode, hdef]

theorem openAbove_of_parent? {tree : Tree} (h : tree.ParentsFirst) {id p : NodeId}
    (hp : tree.parent? id = some p) : tree.openAbove id = tree.openDefinitions p := by
  unfold openAbove openDefinitions
  rw [ancestors_of_parent? h hp]

theorem Extends.filterMap_ancestors {s t : Tree} (h : s.Extends t) (hs : s.ParentsFirst)
    (ht : t.ParentsFirst) {id : NodeId} (hid : id.index < s.size) (f : Node → Option β) :
    (t.ancestors id).filterMap (fun a => (t.node? a).bind f) =
      (s.ancestors id).filterMap fun a => (s.node? a).bind f := by
  rw [h.ancestors hs ht hid]
  apply List.filterMap_congr
  intro a ha
  have hlt : a.index < s.size := Nat.lt_trans (index_lt_of_mem_ancestors hs ha) hid
  obtain ⟨node, hnode⟩ := exists_node? hlt
  rw [hnode, h.node hnode]

theorem Extends.openAbove {s t : Tree} (h : s.Extends t) (hs : s.ParentsFirst)
    (ht : t.ParentsFirst) {id : NodeId} (hid : id.index < s.size) :
    t.openAbove id = s.openAbove id :=
  h.filterMap_ancestors hs ht hid _

theorem Extends.openDefinitions {s t : Tree} (h : s.Extends t) (hs : s.ParentsFirst)
    (ht : t.ParentsFirst) {id : NodeId} (hid : id.index < s.size) :
    t.openDefinitions id = s.openDefinitions id := by
  obtain ⟨node, hnode⟩ := exists_node? hid
  have habove := h.openAbove hs ht hid
  unfold Tree.openAbove at habove
  unfold Tree.openDefinitions
  rw [List.filterMap_cons, List.filterMap_cons, habove, hnode, h.node hnode]

theorem Extends.reenters {s t : Tree} (h : s.Extends t) (hs : s.ParentsFirst)
    (ht : t.ParentsFirst) {id : NodeId} (hid : id.index < s.size) :
    t.reenters id = s.reenters id := by
  obtain ⟨node, hnode⟩ := exists_node? hid
  unfold Tree.reenters
  rw [hnode, h.node hnode, h.openAbove hs ht hid]

theorem namesTo_of_parent? {tree : Tree} (h : tree.ParentsFirst) {id p : NodeId} {node : Node}
    (hnode : tree.node? id = some node) (hp : node.parent = some p) :
    tree.namesTo id = tree.namesTo p ++ [node.name] := by
  have hparent : tree.parent? id = some p := by simp [parent?, hnode, hp]
  unfold namesTo
  rw [ancestors_of_parent? h hparent, List.filterMap_cons, hnode]
  simp

theorem Extends.namesTo {s t : Tree} (h : s.Extends t) (hs : s.ParentsFirst)
    (ht : t.ParentsFirst) {id : NodeId} (hid : id.index < s.size) :
    t.namesTo id = s.namesTo id := by
  obtain ⟨node, hnode⟩ := exists_node? hid
  have habove := h.filterMap_ancestors hs ht hid fun node => some node.name
  have hmap : ∀ u : Tree, (fun a => (u.node? a).map (·.name)) =
      fun a => (u.node? a).bind fun node => some node.name := by
    intro u
    funext a
    cases u.node? a <;> rfl
  unfold Tree.namesTo
  rw [List.filterMap_cons, List.filterMap_cons, hmap, hmap, habove, hnode, h.node hnode]

theorem Extends.path? {s t : Tree} (h : s.Extends t) (hs : s.ParentsFirst)
    (ht : t.ParentsFirst) {id : NodeId} (hid : id.index < s.size) :
    t.path? id = s.path? id := by
  have hle := h.size_le
  have hids : s.contains id = true := by simpa [contains] using hid
  have hidt : t.contains id = true := by simp only [contains, decide_eq_true_eq]; omega
  unfold Tree.path?
  rw [hids, hidt, h.namesTo hs ht hid]

end Tree

end DesignHierarchy
