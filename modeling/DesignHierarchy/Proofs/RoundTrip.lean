import DesignHierarchy.Proofs.ArrayIndices
import DesignHierarchy.Proofs.Retracing
import DesignHierarchy.Proofs.Shortcut

/-! From a node to its path and back. A path is put together from the names on the way
up, and taken apart on the way down; where its names can be told apart the two are
inverse to each other, and the name of the top may be left out. From a path to a node
and back nothing is needed of the names: a node that is revealed at a path has it. -/
namespace DesignHierarchy

namespace Tree

/-- Trees whose paths can be read back. -/
structure Legible (tree : Tree) : Prop where
  plain : ∀ {id node}, tree.node? id = some node →
    '.' ∉ node.name.toList ∧ ¬ DottedPath.HasIndex node.name
  distinct : ∀ {id cs}, tree.children? id = some cs → (cs.map tree.nameAt).Nodup
  expanded : tree.isExpanded .root
  apart : tree.child? .root tree.top.name = none

theorem legible_iff {tree : Tree} :
    tree.Legible ↔
      (∀ slot ∈ tree.toList,
        ('.' ∉ slot.node.name.toList ∧ ¬ DottedPath.HasIndex slot.node.name) ∧
          ∀ cs ∈ slot.children, (cs.map tree.nameAt).Nodup) ∧
      tree.isExpanded .root ∧ tree.child? .root tree.top.name = none := by
  constructor
  · intro h
    refine ⟨?_, h.expanded, h.apart⟩
    rintro ⟨node, children⟩ hslot
    obtain ⟨id, hid⟩ := mem_toList.1 hslot
    obtain ⟨hnode, hchildren⟩ := slot?_eq_some.1 hid
    exact ⟨h.plain hnode, fun cs hcs => h.distinct (hchildren.trans hcs)⟩
  · rintro ⟨hslots, expanded, apart⟩
    refine ⟨?_, ?_, expanded, apart⟩
    · intro id node hnode
      exact (hslots _ (mem_toList.2 ⟨id, slot?_eq_some.2 ⟨hnode, rfl⟩⟩)).1
    · intro id cs hcs
      obtain ⟨node, hnode⟩ := node?_of_children? hcs
      exact (hslots _ (mem_toList.2 ⟨id, slot?_eq_some.2 ⟨hnode, hcs⟩⟩)).2 cs rfl

instance (tree : Tree) : Decidable tree.Legible := decidable_of_iff _ legible_iff.symm

/-- The path is read as this node, walked or resolved, with nothing changed, asked or written. -/
def ReadAs (tree : Tree) (path : String) (id : NodeId) : Prop :=
  ∀ (lookup : Lookup) (memo : Memo),
    (Elaborator.locate path).run ⟨tree, memo⟩ = .done ⟨tree, memo⟩ [] (.ok id) ∧
      (Elaborator.resolvePath lookup path).run ⟨tree, memo⟩ = .done ⟨tree, memo⟩ [] (.ok id)

variable {tree : Tree}

theorem readAs_of_locate (expanded : tree.isExpanded .root) {path : String} {id : NodeId}
    (h : tree.locate path = .ok id) : tree.ReadAs path id := by
  intro lookup memo
  have hlocate : (Elaborator.locate path).run ⟨tree, memo⟩ = .done ⟨tree, memo⟩ [] (.ok id) := by
    rw [Elaborator.run_locate, h, Elaborator.run_explain_ok]
  refine ⟨hlocate, ?_⟩
  rw [Elaborator.run_resolvePath_of_settled (s := ⟨tree, memo⟩) (settled_of_locate expanded h)]
  exact hlocate

theorem Connected.contains (formed : tree.WellFormed) {id : NodeId} (seen : tree.Connected id) :
    tree.contains id := by
  obtain ⟨position, hat⟩ := seen
  cases position using List.reverseRecOn with
  | nil =>
    cases hat
    exact contains_iff_exists_node?.2 ⟨_, formed.root⟩
  | append_singleton position i =>
    obtain ⟨p, cs, -, -, -, hparent⟩ := formed.parent?_of_at?_concat hat
    simpa [Tree.contains] using lt_size_of_parent? hparent

theorem connected_of_follow {id last : NodeId} {names : List String} (seen : tree.Connected id)
    (h : tree.follow id names = .ok last) : tree.Connected last := by
  induction names generalizing id with
  | nil =>
    cases h
    exact seen
  | cons name rest ih =>
    obtain ⟨child, hchild, hrest⟩ := follow_cons h
    obtain ⟨cs, hcs, hmem, -⟩ := mem_of_child? hchild
    exact ih (seen.child hcs hmem) hrest

namespace Legible

variable (legible : tree.Legible) (formed : tree.WellFormed)

include legible formed

theorem unambiguous : tree.Unambiguous where
  undotted := fun hnode => (legible.plain hnode).1
  distinct := by
    intro id owner cs howner hcs
    have hsymbols := congrArg (List.map fun found => (found.map (·.name)).getD "")
      (formed.listed howner hcs).symbols
    rw [List.map_map, List.map_map] at hsymbols
    have hnames : cs.map tree.nameAt = owner.shown.map (·.name) := by
      refine Eq.trans (List.map_congr_left fun c _ => ?_) hsymbols
      cases hc : tree.node? c <;> simp [nameAt, hc, Node.name]
    rw [← hnames]
    exact legible.distinct hcs
  apart := legible.apart

/-- The path of a node that can be seen, and the names in it. -/
theorem exists_names {n : NodeId} (seen : tree.Connected n) :
    ∃ names, tree.path? n = some (DottedPath.ofNames (tree.top.name :: names)) ∧
      DottedPath.Undotted (tree.top.name :: names) ∧
      (∀ name ∈ tree.top.name :: names, ¬ DottedPath.HasIndex name) ∧
      tree.follow .root names = .ok n := by
  have plain := legible.unambiguous formed
  obtain ⟨names, hnames, hfollow⟩ := plain.follow_of_connected formed seen
  refine ⟨names, ?_, hnames ▸ plain.undotted_namesTo n, ?_, hfollow⟩
  · rw [path?, if_pos (seen.contains formed), hnames]
  · rw [← hnames]
    intro name hname
    obtain ⟨a, -, ha⟩ := List.mem_filterMap.1 (List.mem_reverse.1 hname)
    obtain ⟨node, hnode, rfl⟩ := Option.map_eq_some_iff.1 ha
    exact (legible.plain hnode).2

section Names

variable {n : NodeId} {names : List String} (hfollow : tree.follow .root names = .ok n)

include hfollow

theorem locate_ofNames (undotted : DottedPath.Undotted (tree.top.name :: names))
    (unindexed : ∀ name ∈ tree.top.name :: names, ¬ DottedPath.HasIndex name) :
    tree.locate (DottedPath.ofNames (tree.top.name :: names)) = .ok n := by
  rw [locate_eq_follow]
  by_cases hempty : DottedPath.ofNames (tree.top.name :: names) = ""
  · -- only the path of a root without a name is empty
    have hnil : names = [] := by
      by_contra hne
      exact DottedPath.ofNames_cons_ne_empty _ hne hempty
    subst hnil
    rw [hempty]
    exact hfollow
  · rw [DottedPath.names_ofNames (List.cons_ne_nil _ _) undotted unindexed hempty,
      (legible.unambiguous formed).relative_top]
    exact hfollow

omit legible formed in
theorem locate_below (hne : names ≠ []) (undotted : DottedPath.Undotted names)
    (unindexed : ∀ name ∈ names, ¬ DottedPath.HasIndex name)
    (hpath : DottedPath.ofNames names ≠ "") :
    tree.locate (DottedPath.ofNames names) = .ok n := by
  rw [locate_eq_follow, DottedPath.names_ofNames hne undotted unindexed hpath,
    relative_of_follow hfollow]
  exact hfollow

end Names

end Legible

/-- In a legible tree no two nodes that can be seen have the same path, and the path of each is read
as this node. Without the name of the top it is read so too, unless nothing is left of it. -/
theorem roundTrip_of_reached (reached : tree.Reached) (legible : tree.Legible) :
    (∀ m n, tree.Connected m → tree.Connected n → tree.path? m = tree.path? n → m = n) ∧
    ∀ n, tree.Connected n → ∃ path, tree.path? n = some path ∧ tree.ReadAs path n ∧
      (n ≠ .root → ∃ rest, path = tree.top.name ++ "." ++ rest ∧
        (rest ≠ "" → tree.ReadAs rest n)) := by
  have formed := reached.wellFormed
  refine ⟨?_, ?_⟩
  · intro m n hm hn hpath
    obtain ⟨names, hpathm, hdots, -, hfollow⟩ := legible.exists_names formed hm
    obtain ⟨names', hpathn, hdots', -, hfollow'⟩ := legible.exists_names formed hn
    rw [hpathm, hpathn, Option.some_inj] at hpath
    have hnames := DottedPath.ofNames_inj (List.cons_ne_nil _ _) (List.cons_ne_nil _ _) hdots hdots'
      hpath
    cases hnames
    rw [hfollow] at hfollow'
    exact Except.ok.inj hfollow'
  · intro n hn
    obtain ⟨names, hpath, undotted, unindexed, hfollow⟩ := legible.exists_names formed hn
    refine ⟨_, hpath, readAs_of_locate legible.expanded
      (legible.locate_ofNames formed hfollow undotted unindexed), ?_⟩
    intro hroot
    have hne : names ≠ [] := by
      rintro rfl
      cases hfollow
      exact hroot rfl
    refine ⟨DottedPath.ofNames names, DottedPath.ofNames_cons _ hne, fun hrest => ?_⟩
    exact readAs_of_locate legible.expanded (Legible.locate_below hfollow hne
      (List.forall_mem_cons.1 undotted).2 (List.forall_mem_cons.1 unindexed).2 hrest)

/-- In the self-nesting design, the block inside the recursive instance is found again by its path,
with the name of the top and without. -/
theorem roundTrip_of_reached_selfNesting :
    let tree := ((Elaborator.resolvePath .selfNesting "m.b.u.b").run ⟨.ofTop .selfNesting, ∅⟩).state.tree
    tree.Legible ∧ (tree.node? ⟨2⟩).any (·.isRecursive) ∧ tree.path? ⟨3⟩ = some "m.b.u.b" ∧
      tree.ReadAs "m.b.u.b" ⟨3⟩ ∧ tree.ReadAs "b.u.b" ⟨3⟩ := by
  intro tree
  have reached : tree.Reached :=
    @Reached.call .selfNesting ⟨.ofTop .selfNesting, ∅⟩ _ (.ofTop .selfNesting)
      (.resolvePath "m.b.u.b" (Call.leaves_run _ _))
  have legible : tree.Legible := by decide +kernel
  have seen : tree.Connected ⟨3⟩ := ⟨[0, 0, 0], by decide +kernel⟩
  have hpath : tree.path? ⟨3⟩ = some "m.b.u.b" := by decide +kernel
  have htop : tree.top.name = "m" := by decide +kernel
  obtain ⟨path, hfound, hread, hbelow⟩ := (roundTrip_of_reached reached legible).2 ⟨3⟩ seen
  rw [hpath] at hfound
  cases hfound
  obtain ⟨rest, hrest, hread'⟩ := hbelow (by decide)
  have hsplit : "m.b.u.b" = "m" ++ "." ++ "b.u.b" := by decide
  rw [htop, hsplit, String.append_right_inj] at hrest
  subst hrest
  exact ⟨legible, by decide +kernel, hpath, hread, hread' (by decide)⟩

/-- A walk ends at a node that can be seen, with the names it was given on the way to it. -/
theorem seen_of_locate (formed : tree.WellFormed) {path : String} {id : NodeId}
    (h : tree.locate path = .ok id) :
    tree.Connected id ∧
      tree.namesTo id = tree.top.name :: tree.relative (DottedPath.names path) := by
  rw [locate_eq_follow] at h
  have hnames := namesTo_of_follow formed h
  rw [formed.namesTo_root, List.singleton_append] at hnames
  exact ⟨connected_of_follow tree.connected_root h, hnames⟩

end Tree

namespace Browser

variable {b : Browser} {tree : Tree} {definition : Symbol} {path : String}

/-- Where a walk ends, it is decided whether the node is an instance of the definition. -/
theorem refused_of_instanceAt (shown : b.tree = some tree) {given wanted : String}
    (h : b.instanceAt definition path = .error (.path (.notAnInstanceOf given wanted))) :
    given = path ∧ wanted = definition.name ∧ ∃ id, tree.locate path = .ok id ∧
      ¬ ∃ node, tree.node? id = some node ∧ node.instanceOf = some definition.id := by
  rw [instanceAt_eq shown] at h
  cases hindex : b.index.reveal definition.id path with
  | some found =>
    rw [hindex] at h
    cases h
  | none =>
    rw [hindex] at h
    cases hlocate : tree.locate path with
    | error cause =>
      -- a walk that fails misses a name, and says so
      obtain ⟨stop, before, missing, rest, -, -, -, rfl⟩ := Tree.locate_eq_error_iff.1 hlocate
      rw [Tree.reveal, hlocate] at h
      cases h
    | ok id =>
      have hnot : ¬ ∃ node, tree.node? id = some node ∧ node.instanceOf = some definition.id := by
        intro hnode
        have hfound := Tree.reveal_eq_ok_iff.2 ⟨hlocate, hnode⟩
        dsimp only at h
        rw [hfound] at h
        cases h
      rw [Tree.reveal, hlocate] at h
      dsimp only at h
      split at h
      · cases h
      · cases h
        exact ⟨rfl, rfl, id, rfl, hnot⟩

/-- What is revealed is an instance of the definition with the path, as it is given or below the
top, however much of the tree is indexed. If it is refused that the path leads to an instance, the
path leads to a node that is none. -/
theorem revealed_of_reached (reached : b.Reached) (definition : Symbol) (path : String) :
    let run := (reveal definition path).run b
    (∀ id, run.value = .ok id →
      ∃ tree node, b.tree = some tree ∧ tree.contains id ∧ tree.node? id = some node ∧
        node.isInstance ∧ node.definitionId = some definition.id ∧
        (tree.path? id = some (DottedPath.stripIndices path) ∨
          tree.path? id = some (tree.top.name ++ "." ++ DottedPath.stripIndices path))) ∧
    (∀ given wanted, run.value = .error (.path (.notAnInstanceOf given wanted)) →
      given = path ∧ wanted = definition.name ∧
        ∃ tree id node, b.tree = some tree ∧ tree.locate path = .ok id ∧ tree.Connected id ∧
          tree.namesTo id = tree.top.name :: tree.relative (DottedPath.names path) ∧
          tree.node? id = some node ∧
          ¬ (node.isInstance ∧ node.definitionId = some definition.id)) ∧
    ∀ tree id node, b.tree = some tree → tree.locate path = .ok id → tree.node? id = some node →
      node.isInstance → node.definitionId = some definition.id → ∃ found, run.value = .ok found := by
  have coherent := reached.coherent
  intro run
  have hvalue : run.value = b.instanceAt definition path := value_reveal b definition path
  rw [hvalue]
  cases shown : b.tree with
  | none =>
    have hblank : b.instanceAt definition path = .error .noTopSelected := by
      rw [instanceAt, shown]
    simp [hblank]
  | some tree =>
    refine ⟨?_, ?_, ?_⟩
    · intro id h
      obtain ⟨⟨node, hnode, hinst⟩, hpath⟩ := instance_of_instanceAt coherent shown h
      obtain ⟨hkind, hdef⟩ := Node.instanceOf_eq_some_iff.1 hinst
      exact ⟨tree, node, rfl, Tree.contains_iff_exists_node?.2 ⟨node, hnode⟩, hnode, hkind, hdef,
        hpath⟩
    · intro given wanted h
      have formed := coherent.formed shown
      obtain ⟨hgiven, hwanted, id, hlocate, hnot⟩ := refused_of_instanceAt shown h
      obtain ⟨seen, hnames⟩ := Tree.seen_of_locate formed hlocate
      obtain ⟨node, hnode⟩ := Tree.contains_iff_exists_node?.1 (seen.contains formed)
      refine ⟨hgiven, hwanted, tree, id, node, rfl, hlocate, seen, hnames, hnode, ?_⟩
      intro hinst
      exact hnot ⟨node, hnode, Node.instanceOf_eq_some_iff.2 hinst⟩
    · rintro _ id node ⟨⟩ hlocate hnode hkind hdef
      have hwalked := Tree.reveal_eq_ok_iff.2
        ⟨hlocate, node, hnode, Node.instanceOf_eq_some_iff.2 ⟨hkind, hdef⟩⟩
      rw [instanceAt_eq shown]
      cases b.index.reveal definition.id path with
      | some found => exact ⟨found, rfl⟩
      | none => exact ⟨id, hwalked⟩

/-- While a pass over the self-nesting design is suspended, the instance that it has met is revealed,
and the block above it is refused. -/
theorem revealed_of_reached_selfNesting :
    let b := ((build .selfNesting .selfNesting none).drive (some 3) {}).state
    b.index.status = .inProgress ∧
      ((reveal .selfNesting "b[0].u").run b).value = .ok ⟨2⟩ ∧
      (b.tree.bind (·.path? ⟨2⟩) = some "b.u" ∨ b.tree.bind (·.path? ⟨2⟩) = some "m.b.u") ∧
      ((reveal .selfNesting "m.b").run b).value =
        .error (.path (.notAnInstanceOf "m.b" "m")) ∧
      ∃ tree id node, b.tree = some tree ∧ tree.Connected id ∧ tree.namesTo id = ["m", "b"] ∧
        tree.node? id = some node ∧
        ¬ (node.isInstance ∧ node.definitionId = some Symbol.selfNesting.id) := by
  intro b
  have reached : Reached b :=
    @Reached.call .selfNesting _ _ (.start 64) (.build .selfNesting none ⟨some 3, rfl⟩)
  have status : b.index.status = .inProgress := by
    simp only [b, Call.drive, run_build, Indexer.run_build]
    decide +kernel
  have found : ((reveal .selfNesting "b[0].u").run b).value = .ok ⟨2⟩ := by
    simp only [b, Call.drive, run_build, Indexer.run_build]
    decide +kernel
  have refused : ((reveal .selfNesting "m.b").run b).value =
      .error (.path (.notAnInstanceOf "m.b" "m")) := by
    simp only [b, Call.drive, run_build, Indexer.run_build]
    decide +kernel
  have hnames : b.tree.map (fun tree => tree.top.name :: tree.relative (DottedPath.names "m.b")) =
      some ["m", "b"] := by
    simp only [b, Call.drive, run_build, Indexer.run_build]
    decide +kernel
  have hstrip : DottedPath.stripIndices "b[0].u" = "b.u" := by decide
  have htop : b.tree.map (·.top.name) = some "m" := by
    simp only [b, Call.drive, run_build, Indexer.run_build]
    decide +kernel
  obtain ⟨tree, node, shown, -, -, -, -, hpath⟩ :=
    (revealed_of_reached reached .selfNesting "b[0].u").1 ⟨2⟩ found
  obtain ⟨-, -, tree', id, node', shown', -, seen, hnamesTo, hnode, hnot⟩ :=
    (revealed_of_reached reached .selfNesting "m.b").2.1 _ _ refused
  rw [shown, Option.map_some, Option.some_inj] at htop
  rw [shown', Option.map_some, Option.some_inj] at hnames
  rw [hstrip, htop] at hpath
  refine ⟨status, found, ?_, refused, tree', id, node', shown', seen, hnamesTo.trans hnames, hnode,
    hnot⟩
  rw [shown]
  exact hpath

end Browser

end DesignHierarchy
