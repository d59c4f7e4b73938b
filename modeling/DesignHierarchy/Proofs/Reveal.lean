import DesignHierarchy.Proofs.Unambiguous

/-! Two ways to an instance: the index looks a whole path up among those it has
recorded, and path resolution walks down name by name, expanding what it needs.
Where paths are unambiguous, the index finds just the instances that a walk
finds outside of what was cut off. -/
namespace DesignHierarchy

namespace Lookup

/-- A symbol of the design under a top. -/
def Declares (lookup : Lookup) (top symbol : Symbol) : Prop :=
  symbol ∈ top.walk ∨
    ∃ name definition, lookup.definition? name = some definition ∧ symbol ∈ definition.walk

/-- Designs in which a path leads to one place. -/
structure Unambiguous (lookup : Lookup) (top : Symbol) : Prop where
  undotted : ∀ symbol, lookup.Declares top symbol → '.' ∉ symbol.name.toList
  distinct : ∀ symbol, lookup.Declares top symbol → (symbol.shown.map (·.name)).Nodup
  apart : top.name ∉ top.shown.map (·.name)

variable {lookup : Lookup} {top : Symbol}

theorem Declares.child {symbol child : Symbol} (h : lookup.Declares top symbol)
    (hc : child ∈ symbol.children) : lookup.Declares top child := by
  obtain h | ⟨name, definition, hfind, h⟩ := h
  · exact .inl (Symbol.mem_walk_of_mem_children h hc)
  · exact .inr ⟨name, definition, hfind, Symbol.mem_walk_of_mem_children h hc⟩

theorem Declares.scope {symbol definition : Symbol} (h : lookup.Declares top symbol)
    (hscope : symbol.scope (lookup.answer symbol) = some definition) :
    lookup.Declares top definition := by
  unfold Symbol.scope at hscope
  split at hscope
  · cases hscope
    exact h
  · obtain ⟨name, -, hfind⟩ := Option.bind_eq_some_iff.1 hscope
    exact .inr ⟨name, definition, hfind, definition.mem_walk_self⟩
  · cases hscope

end Lookup

namespace Elaborator.Sound

variable {lookup : Lookup} {top : Symbol} {e : Elaborator} (sound : Sound lookup top e)

include sound

theorem declares {id : NodeId} {node : Node} (hnode : e.tree.node? id = some node) :
    lookup.Declares top node.symbol ∧
      ∀ definition, node.definition = some definition → lookup.Declares top definition := by
  refine sound.nodeInduction (motive := fun node => lookup.Declares top node.symbol ∧
    ∀ definition, node.definition = some definition → lookup.Declares top definition)
    ?root ?below hnode
  case root =>
    have htop : lookup.Declares top top := .inl top.mem_walk_self
    refine ⟨htop, ?_⟩
    intro definition hdef
    cases hdef
    exact htop
  case below =>
    intro id node owner scope hnode hid hscope hshown ih
    have hsymbol := (ih.2 scope hscope).child (Symbol.mem_children_of_mem_shown hshown)
    refine ⟨hsymbol, ?_⟩
    intro definition hdef
    rw [sound.answered hnode hid] at hdef
    exact hsymbol.scope hdef

variable (plain : lookup.Unambiguous top)

include plain

theorem distinct_shown {id : NodeId} {node : Node} (hnode : e.tree.node? id = some node) :
    (node.shown.map (·.name)).Nodup := by
  cases hdef : node.definition with
  | none => simp [Node.shown, hdef]
  | some definition =>
    rw [Node.shown_of_definition hdef]
    exact plain.distinct _ ((sound.declares hnode).2 definition hdef)

theorem child?_top : e.tree.child? .root top.name = none := by
  cases hchild : e.tree.child? .root top.name with
  | none => rfl
  | some child =>
    obtain ⟨cs, hcs, hmem, node, hnode, hname⟩ := Tree.mem_of_child? hchild
    obtain ⟨found, hfound, -, hshown⟩ := (sound.formed.listed sound.formed.root hcs).node hmem
    rw [hnode] at hfound
    cases hfound
    rw [Node.shown_of_definition rfl, sound.top_eq] at hshown
    exact absurd (List.mem_map.2 ⟨node.symbol, hshown, hname⟩) plain.apart

theorem unambiguous : e.tree.Unambiguous where
  undotted := fun hnode => plain.undotted _ (sound.declares hnode).1
  distinct := fun howner _ => sound.distinct_shown plain howner
  apart := by
    rw [sound.top_eq]
    exact sound.child?_top plain

theorem relative_top (names : List String) : e.tree.relative (top.name :: names) = names := by
  rw [← sound.top_eq]
  exact (sound.unambiguous plain).relative_top names

omit plain in
theorem relative_of_ne {first : String} (hne : top.name ≠ first) (rest : List String) :
    e.tree.relative (first :: rest) = first :: rest := by
  rw [Tree.relative, sound.top_eq, if_neg (fun h => hne h.1)]

end Elaborator.Sound

namespace Indexer

theorem Built.connected {lookup : Lookup} {i : Indexer} {run : Run Indexer Status}
    {visits : List NodeId} (built : Built lookup i run visits)
    (hi : i.elaborator.tree.WellFormed) {v : NodeId} (hv : v ∈ visits) :
    run.state.elaborator.tree.Connected v :=
  built.visitInduction hi (Tree.connected_root _) (fun _ _ _ _ _ hcs hc seen => seen.child hcs hc) hv

theorem Built.tells {lookup : Lookup} {i : Indexer} {run : Run Indexer Status}
    {visits : List NodeId} (built : Built lookup i run visits)
    (hi : i.elaborator.tree.WellFormed) : run.state.index.TellsOf run.state.elaborator.tree where
  top_eq := built.top
  recorded := by
    intro d path id hat
    obtain ⟨hid, hat⟩ := built.at? hat
    exact ⟨hat, built.connected hi hid⟩

section Unambiguous

variable {lookup : Lookup} {top : Symbol} (plain : lookup.Unambiguous top) {i : Indexer}
  (hi : i.elaborator.tree.WellFormed) {run : Run Indexer Status} {visits : List NodeId}
  (built : Built lookup i run visits) (sound : run.state.elaborator.Sound lookup top)

include plain hi built sound

/-- The node that is recorded under a path is the one there. -/
theorem at?_eq_some_iff {d : DefId} {path : String} {id : NodeId} :
    run.state.index.at? d path = some id ↔
      id ∈ visits ∧ run.state.elaborator.tree.InstanceAt d path id := by
  constructor
  · exact built.at?
  · rintro ⟨hid, hat⟩
    obtain ⟨other, hother⟩ := Option.isSome_iff_exists.1 (built.isSome_at? hid hat)
    obtain ⟨hat', seen'⟩ := (built.tells hi).recorded hother
    have clear := sound.unambiguous plain
    obtain ⟨names, -, hdots, hpath, hfollow⟩ :=
      clear.follow_of_instanceAt sound.formed hat (built.connected hi hid)
    obtain ⟨names', -, hdots', hpath', hfollow'⟩ :=
      clear.follow_of_instanceAt sound.formed hat' seen'
    have hnames := DottedPath.ofNames_inj (List.cons_ne_nil _ _) (List.cons_ne_nil _ _) hdots hdots'
      (hpath.symm.trans hpath')
    cases hnames
    rw [hfollow] at hfollow'
    cases hfollow'
    exact hother

theorem locate_of_reveal {d : DefId} {path : String} {id : NodeId}
    (h : run.state.index.reveal d path = some id) :
    id ∈ visits ∧ (∃ node, run.state.elaborator.tree.node? id = some node ∧
      node.instanceOf = some d) ∧ run.state.elaborator.tree.locate path = .ok id := by
  have tells := built.tells hi
  refine ⟨?_, tells.node_of_reveal h,
    tells.locate_of_reveal h (sound.unambiguous plain) sound.formed⟩
  obtain ⟨-, hbelow⟩ | hfrom := InstanceIndex.at?_of_reveal tells.top_eq h
  · exact (built.at? hbelow).1
  · exact (built.at? hfrom).1

section Later

variable {e : Elaborator} (hext : run.state.elaborator.tree.Extends e.tree)
  (later : e.Sound lookup top)

include hext later

omit plain sound in
/-- A walk on a later tree stays among the visited nodes until it passes one that was cut off. -/
theorem visited_of_follow {v id : NodeId} (hv : v ∈ visits) {names : List String}
    (h : e.tree.follow v names = .ok id)
    (hcut : ∀ a ∈ e.tree.ancestors id, a ∉ run.state.index.cut) : id ∈ visits := by
  induction names generalizing v with
  | nil =>
    cases h
    exact hv
  | cons name rest ih =>
    obtain ⟨child, hchild, hrest⟩ := Tree.follow_cons h
    obtain ⟨cs, hcs, hmem, -⟩ := Tree.mem_of_child? hchild
    have hre : run.state.elaborator.tree.reenters v = false := by
      have hnot := hcut v (Tree.mem_ancestors_of_follow later.formed h)
      rw [← Array.mem_toList_iff, built.cut, List.mem_filter] at hnot
      simpa [hv] using hnot
    obtain ⟨node, hnode⟩ := Tree.exists_node? (built.present hv)
    have hdef : node.definition.isSome := by
      obtain ⟨_, -, -, hshown⟩ := (later.formed.listed (hext.node hnode) hcs).node hmem
      obtain ⟨definition, hdef, -⟩ := Node.definition_of_mem_shown hshown
      simp [hdef]
    obtain ⟨known, hknown, hall⟩ := built.children_mem hi hv hnode hdef hre
    rw [hext.children hknown] at hcs
    cases hcs
    exact ih (hall child hmem) hrest

omit plain sound in
theorem instanceAt_of_follow {id : NodeId} {names : List String}
    (h : e.tree.follow .root names = .ok id) {node : Node} (hnode : e.tree.node? id = some node)
    {d : DefId} (hinst : node.instanceOf = some d)
    (hcut : ∀ a ∈ e.tree.ancestors id, a ∉ run.state.index.cut) :
    id ∈ visits ∧ run.state.elaborator.tree.InstanceAt d
      (DottedPath.ofNames (top.name :: names)) id := by
  have hid := visited_of_follow hi built hext later built.root_mem h hcut
  have hlt := built.present hid
  obtain ⟨found, hfound⟩ := Tree.exists_node? hlt
  rw [hext.node hfound] at hnode
  cases hnode
  have hnames := Tree.namesTo_of_follow later.formed h
  rw [later.formed.namesTo_root, later.top_eq, List.singleton_append,
    hext.namesTo (built.wellFormed hi).parentsFirst later.formed.parentsFirst hlt] at hnames
  refine ⟨hid, node, hfound, hinst, ?_⟩
  simp [Tree.path?, Tree.contains, hlt, hnames]

theorem reveal_of_locate {d : DefId} {path : String} {id : NodeId}
    (h : e.tree.locate path = .ok id) {node : Node} (hnode : e.tree.node? id = some node)
    (hinst : node.instanceOf = some d)
    (hcut : ∀ a ∈ e.tree.ancestors id, a ∉ run.state.index.cut) :
    run.state.index.reveal d path = some id := by
  have htop : run.state.index.top = some top := by rw [built.top, sound.top_eq]
  rw [InstanceIndex.reveal_eq htop]
  rw [Tree.locate_eq_follow, DottedPath.names] at h
  generalize DottedPath.stripIndices path = path at h ⊢
  have hround := DottedPath.ofNames_segments path
  cases hnames : DottedPath.segments path with
  | nil =>
    -- the empty path leads to the root, which is no instance
    rw [hnames] at h
    cases h
    rw [later.formed.root] at hnode
    cases hnode
    cases hinst
  | cons first rest =>
    have hpath : path ≠ "" := by
      rintro rfl
      cases hnames
    rw [hnames] at h hround
    rw [if_neg hpath]
    by_cases hfirst : top.name = first
    · subst hfirst
      rw [later.relative_top plain] at h
      have hat := instanceAt_of_follow hi built hext later h hnode hinst hcut
      rw [hround] at hat
      -- the reading below the top is tried first, but the top has no child of its own name
      have hbelow : run.state.index.at? d (top.name ++ "." ++ path) = none := by
        cases hother : run.state.index.at? d (top.name ++ "." ++ path) with
        | none => rfl
        | some other =>
          rw [← sound.top_eq] at hother
          obtain ⟨hat', seen⟩ := (built.tells hi).recorded hother
          have hfollow := (sound.unambiguous plain).follow_of_below sound.formed hpath hat' seen
          rw [hnames] at hfollow
          obtain ⟨child, hchild, -⟩ := Tree.follow_cons hfollow
          rw [sound.child?_top plain] at hchild
          cases hchild
      rw [hbelow, (at?_eq_some_iff plain hi built sound).2 hat]
      rfl
    · rw [later.relative_of_ne hfirst] at h
      have hat := instanceAt_of_follow hi built hext later h hnode hinst hcut
      rw [DottedPath.ofNames_cons top.name (List.cons_ne_nil _ _), hround] at hat
      rw [(at?_eq_some_iff plain hi built sound).2 hat]
      rfl

end Later

end Unambiguous

/-- After a complete build the index and path resolution agree on the instances that were not cut
off, and these are found without expanding anything. -/
theorem reveal_iff_resolvePath {lookup : Lookup} {top : Symbol} (plain : lookup.Unambiguous top)
    {i : Indexer} (reached : Elaborator.Reached lookup top i.elaborator) {scale : UInt32}
    {cancelAfter : Option Nat} :
    let run := (build lookup scale cancelAfter).run i
    run.value = .complete → ∀ (d : DefId) (path : String) (id : NodeId),
      let resolved := (Elaborator.resolvePath lookup path).run run.state.elaborator
      (run.state.index.reveal d path = some id ↔
        resolved.value = .ok id ∧
          (∃ node, resolved.state.tree.node? id = some node ∧ node.isInstance ∧
            node.definitionId = some d) ∧
          ∀ a ∈ resolved.state.tree.ancestors id, a ∉ run.state.index.cut) ∧
      (run.state.index.reveal d path = some id →
        ((Elaborator.locate path).run run.state.elaborator).value = .ok id) := by
  intro run complete d path id resolved
  have hi := reached.sound.formed
  obtain ⟨visits, built⟩ := exists_built hi complete
  have sound := reached.sound.grows built.traverses.grows
  have hresolved := Elaborator.meets_resolvePath (fun _ _ hk step => step.sound hk)
    (fun _ hk => hk.formed) sound path
  obtain ⟨-, later, hext, hanswer⟩ := hresolved
  refine ⟨⟨?_, ?_⟩, ?_⟩
  · intro h
    obtain ⟨hid, ⟨node, hnode, hinst⟩, hlocate⟩ := locate_of_reveal plain hi built sound h
    obtain ⟨cs, hcs⟩ := built.root_expanded hi
    refine ⟨?_, ⟨node, hext.node hnode, Node.instanceOf_eq_some_iff.1 hinst⟩, ?_⟩
    · exact hanswer.trans (Tree.locate_of_extends sound.formed hext hcs hlocate)
    · -- a visited node lies under no node that was cut off
      intro a ha hcut
      rw [hext.ancestors sound.formed.parentsFirst later.formed.parentsFirst (built.present hid)] at ha
      rw [← Array.mem_toList_iff, built.cut, List.mem_filter, (built.above hi hid ha).2] at hcut
      cases hcut.2
  · rintro ⟨hvalue, ⟨node, hnode, hinst⟩, hcut⟩
    exact reveal_of_locate plain hi built sound hext later (hanswer.symm.trans hvalue) hnode
      (Node.instanceOf_eq_some_iff.2 hinst) hcut
  · intro h
    obtain ⟨-, -, hlocate⟩ := locate_of_reveal plain hi built sound h
    rw [Elaborator.value_locate]
    exact hlocate

theorem reveal_iff_resolvePath_selfNesting :
    let indexer := ((build .selfNesting 64 none).run .selfNesting).state
    let resolved := (Elaborator.resolvePath .selfNesting "b.u").run indexer.elaborator
    resolved.value = .ok ⟨2⟩ ∧
      ((Elaborator.locate "b.u").run indexer.elaborator).value = .ok ⟨2⟩ := by
  have declared : ∀ symbol, Lookup.selfNesting.Declares .selfNesting symbol →
      symbol ∈ Symbol.selfNesting.walk := by
    intro symbol h
    obtain h | ⟨name, definition, hfind, h⟩ := h
    · exact h
    · have hpool : ∀ answer ∈ Lookup.selfNesting.pool, answer = .selfNesting := by decide
      rw [hpool _ (Lookup.definition?_mem_pool hfind)] at h
      exact h
  have plain : Lookup.selfNesting.Unambiguous .selfNesting := by
    refine ⟨fun symbol h => ?_, fun symbol h => ?_, by decide⟩
    · have hall : ∀ s ∈ Symbol.selfNesting.walk, '.' ∉ s.name.toList := by decide
      exact hall symbol (declared symbol h)
    · have hall : ∀ s ∈ Symbol.selfNesting.walk, (s.shown.map (·.name)).Nodup := by decide
      exact hall symbol (declared symbol h)
  have fresh : Elaborator.Reached .selfNesting .selfNesting Indexer.selfNesting.elaborator := .start
  have complete := (build_of_finished (finished_sweeping .selfNesting .selfNesting 64)).1
  have hreveal : ((build .selfNesting 64 none).run .selfNesting).state.index.reveal ⟨⟨0⟩, 0⟩ "b.u" =
      some ⟨2⟩ := by
    rw [run_build]
    decide +kernel
  obtain ⟨hiff, hlocate⟩ := reveal_iff_resolvePath plain fresh complete ⟨⟨0⟩, 0⟩ "b.u" ⟨2⟩
  exact ⟨(hiff.1 hreveal).1, hlocate hreveal⟩

end Indexer

end DesignHierarchy
