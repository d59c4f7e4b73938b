import DesignHierarchy.Proofs.Browsing
import DesignHierarchy.Proofs.Paths

/-! The way up from a node. Parent links and lists of children say the same thing
twice and are written at different times, and an abandoned call leaves nodes that no
list names; still every node has one line of ancestors, which falls to the root, and
its path is its parent's with one more name. -/
namespace DesignHierarchy

theorem DottedPath.ofNames_concat {names : List String} (h : names ≠ []) (name : String) :
    ofNames (names ++ [name]) = ofNames names ++ "." ++ name := by
  induction names with
  | nil => exact absurd rfl h
  | cons first rest ih =>
    cases rest with
    | nil => rw [List.singleton_append, ofNames_cons first (List.cons_ne_nil _ _)]; rfl
    | cons second rest =>
      rw [List.cons_append, ofNames_cons first (by simp), ih (List.cons_ne_nil _ _),
        ofNames_cons first (List.cons_ne_nil _ _)]
      simp only [String.append_assoc]

theorem Node.kind_under_ne_root (opened : List DefId) (parent : NodeId) (symbol : Symbol)
    (answer : Option Symbol) : (under opened parent symbol answer).kind ≠ .root := by
  unfold under
  split <;> simp

namespace Tree

variable {tree : Tree}

theorem isSome_slot? (tree : Tree) (id : NodeId) : (tree.slot? id).isSome = tree.contains id := by
  rw [Bool.eq_iff_iff, Option.isSome_iff_ne_none, Ne, slot?_eq_none, contains, decide_eq_true_iff]
  omega

theorem contains_iff_exists_node? {id : NodeId} :
    tree.contains id ↔ ∃ node, tree.node? id = some node := by
  rw [contains, decide_eq_true_iff]
  constructor
  · exact exists_node?
  · rintro ⟨node, hnode⟩
    exact lt_size_of_node? hnode

theorem ParentsFirst.contains_parent (h : tree.ParentsFirst) {id p : NodeId} {node : Node}
    (hnode : tree.node? id = some node) (hp : node.parent = some p) : tree.contains p := by
  have hlt := h hnode hp
  have hsize := lt_size_of_node? hnode
  rw [contains, decide_eq_true_iff]
  omega

/-- A node that shows nothing has no children. -/
theorem Listed.eq_nil {id : NodeId} {owner : Node} {cs : List NodeId}
    (h : tree.Listed id owner cs) (bare : owner.definition = none) : cs = [] := by
  have hsymbols := h.symbols
  rw [Node.shown, bare] at hsymbols
  simpa using hsymbols

theorem namesTo_ne_nil {id : NodeId} (h : tree.contains id) : tree.namesTo id ≠ [] := by
  obtain ⟨node, hnode⟩ := contains_iff_exists_node?.1 h
  simp [namesTo, hnode]

/-- The index falls from each ancestor to the next. -/
theorem pairwise_ancestors (h : tree.ParentsFirst) (id : NodeId) :
    (id :: tree.ancestors id).Pairwise fun a b => b.index < a.index := by
  induction hn : id.index using Nat.strongRecOn generalizing id with
  | ind n ih =>
    refine List.pairwise_cons.2 ⟨fun a ha => index_lt_of_mem_ancestors h ha, ?_⟩
    rw [ancestors_eq h]
    cases hp : tree.parent? id with
    | none => exact List.Pairwise.nil
    | some p =>
      have hlt := h.lt hp
      exact ih p.index (by omega) p rfl

namespace WellFormed

variable (h : tree.WellFormed) {id : NodeId} {node : Node} (hnode : tree.node? id = some node)

include h hnode

theorem parent_eq_none_iff : node.parent = none ↔ id = .root := by
  constructor
  · intro hparent
    by_contra hid
    obtain ⟨answer, -, -, -⟩ := h.linked hnode hid
    rw [Node.parent_under] at hparent
    cases hparent
  · rintro rfl
    rw [h.root] at hnode
    cases hnode
    rfl

theorem kind_eq_root_iff : node.kind = .root ↔ id = .root := by
  constructor
  · intro hkind
    by_contra hid
    obtain ⟨answer, -, -, -⟩ := h.linked hnode hid
    exact Node.kind_under_ne_root _ _ _ _ hkind
  · rintro rfl
    rw [h.root] at hnode
    cases hnode
    rfl

omit hnode in
/-- No node is in two lists of children. -/
theorem owner_unique {a b c : NodeId} {as bs : List NodeId} (ha : tree.children? a = some as)
    (hb : tree.children? b = some bs) (hca : c ∈ as) (hcb : c ∈ bs) : a = b := by
  have hparent := h.parent?_of_mem ha hca
  rw [h.parent?_of_mem hb hcb] at hparent
  exact (Option.some.inj hparent).symm

omit hnode in
theorem getLast?_ancestors (hid : tree.contains id) (hne : id ≠ .root) :
    (tree.ancestors id).getLast? = some .root := by
  induction hn : id.index using Nat.strongRecOn generalizing id with
  | ind n ih =>
    obtain ⟨node, hnode⟩ := contains_iff_exists_node?.1 hid
    cases hp : node.parent with
    | none => exact absurd ((h.parent_eq_none_iff hnode).1 hp) hne
    | some p =>
      have hlt := h.parentsFirst hnode hp
      have hcontains := h.parentsFirst.contains_parent hnode hp
      rw [ancestors_of_parent? h.parentsFirst (by simp [parent?, hnode, hp] : _ = some p)]
      by_cases hroot : p = .root
      · rw [hroot, h.ancestors_root]
        rfl
      · rw [List.getLast?_cons, ih p.index (by omega) hcontains hroot rfl]
        rfl

theorem path?_of_parent {p : NodeId} (hp : node.parent = some p) :
    ∃ path, tree.path? p = some path ∧ tree.path? id = some (path ++ "." ++ node.name) := by
  have hid : tree.contains id := contains_iff_exists_node?.2 ⟨node, hnode⟩
  have hcontains := h.parentsFirst.contains_parent hnode hp
  refine ⟨DottedPath.ofNames (tree.namesTo p), by rw [path?, if_pos hcontains], ?_⟩
  rw [path?, if_pos hid, namesTo_of_parent? h.parentsFirst hnode hp,
    DottedPath.ofNames_concat (namesTo_ne_nil hcontains)]

end WellFormed

/-- How the nodes of a reached tree hang together, whatever was abandoned on the way: parents come
earlier, children are consecutive and owned once, and so every line of ancestors ends at the
root. -/
theorem lineage_of_reached (reached : tree.Reached) :
    tree.children.size = tree.nodes.size ∧ (∀ id, (tree.slot? id).isSome = tree.contains id) ∧
    (∀ id node, tree.node? id = some node →
      (node.parent = none ↔ id = .root) ∧ (node.kind = .root ↔ id = .root) ∧
      ∀ p, node.parent = some p → p.index < id.index) ∧
    (∀ id cs, tree.children? id = some cs →
      (∃ start, cs = freshIds start cs.length) ∧ (∀ c ∈ cs, tree.parent? c = some id) ∧
      ∀ node, tree.node? id = some node → node.definition = none → cs = []) ∧
    (∀ a b c as bs, tree.children? a = some as → tree.children? b = some bs →
      c ∈ as → c ∈ bs → a = b) ∧
    ∀ id, tree.contains id →
      (tree.ancestors id = match tree.parent? id with
        | none => []
        | some p => p :: tree.ancestors p) ∧
      (id :: tree.ancestors id).Pairwise (fun a b => b.index < a.index) ∧
      (id ≠ .root → (tree.ancestors id).getLast? = some .root) ∧
      (id = .root → tree.path? id = some tree.top.name) ∧
      ∀ node p, tree.node? id = some node → node.parent = some p →
        ∃ path, tree.path? p = some path ∧ tree.path? id = some (path ++ "." ++ node.name) := by
  have h := reached.wellFormed
  refine ⟨tree.aligned, isSome_slot? tree, ?_, ?_, ?_, ?_⟩
  · intro id node hnode
    exact ⟨h.parent_eq_none_iff hnode, h.kind_eq_root_iff hnode,
      fun p hp => h.parentsFirst hnode hp⟩
  · intro id cs hcs
    obtain ⟨owner, howner⟩ := node?_of_children? hcs
    have hlist := h.listed howner hcs
    refine ⟨hlist.consecutive, hlist.parents, ?_⟩
    intro node hnode bare
    rw [howner] at hnode
    cases hnode
    exact hlist.eq_nil bare
  · intro a b c as bs ha hb hca hcb
    exact h.owner_unique ha hb hca hcb
  · intro id hid
    refine ⟨ancestors_eq h.parentsFirst id, pairwise_ancestors h.parentsFirst id,
      h.getLast?_ancestors hid, ?_, fun node p hnode hp => h.path?_of_parent hnode hp⟩
    rintro rfl
    rw [path?, if_pos hid, h.namesTo_root]
    rfl

end Tree

/-! A module with a port and an instance of itself: where an expansion is abandoned while the
instance is looked up, a node was already made for the port. -/

def Decl.clocked : Decl where
  name := "m"
  kind := .module
  children := [{ name := "clk", kind := .port }, { name := "u", kind := .inst, typeRef := some "m" }]

def Symbol.clocked : Symbol := (Decl.clocked.freeze ⟨0⟩ 0).1

def Lookup.clocked : Lookup :=
  Workspace.lookup { store := Store.load {} ⟨"m.v"⟩ [.clocked], suspends := true }

/-- The root was expanded, and abandoned at the first question. -/
def Elaborator.abandoned : Elaborator :=
  ((expand .clocked .root).drive (some 1) ⟨.ofTop .clocked, ∅⟩).state

theorem Elaborator.reached_abandoned : abandoned.tree.Reached :=
  .call (.ofTop .clocked) (.expand .root ⟨some 1, rfl⟩ :
    Calls .clocked ⟨.ofTop .clocked, ∅⟩ abandoned)

/-- The second try lists new nodes; the port that the first one left still hangs on the root. -/
theorem Tree.lineage_of_reached_retried :
    let tree := ((Elaborator.expand .clocked .root).run .abandoned).state.tree
    tree.children? .root = some [⟨2⟩, ⟨3⟩] ∧ tree.contains ⟨1⟩ ∧
      (tree.ancestors ⟨1⟩).getLast? = some .root ∧
      ∃ path, tree.path? .root = some path ∧ tree.path? ⟨1⟩ = some (path ++ "." ++ "clk") := by
  intro tree
  have reached : tree.Reached :=
    .call Elaborator.reached_abandoned (.expand .root (Call.leaves_run _ _))
  have hcontains : tree.contains ⟨1⟩ := by decide +kernel
  obtain ⟨node, hnode⟩ := Tree.contains_iff_exists_node?.1 hcontains
  have hview : (tree.node? ⟨1⟩).map (fun node => (node.name, node.parent)) =
      some ("clk", some .root) := by decide +kernel
  rw [hnode] at hview
  obtain ⟨hname, hparent⟩ := Prod.mk.inj (Option.some.inj hview)
  obtain ⟨-, -, -, -, -, hline⟩ := lineage_of_reached reached
  obtain ⟨-, -, hlast, -, hpath⟩ := hline ⟨1⟩ hcontains
  obtain ⟨path, hroot, hpath⟩ := hpath node .root hnode hparent
  exact ⟨by decide +kernel, hcontains, hlast (by decide), path, hroot, hname ▸ hpath⟩

end DesignHierarchy
