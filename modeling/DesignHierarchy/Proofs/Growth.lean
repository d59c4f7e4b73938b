import DesignHierarchy.Proofs.Lineage

/-! Between two selections a tree only grows. Calls go on over it, each run to its
end or left on the way, in a workspace that may be another one each time; what was
once shown stays as it was. A retry does not take up what an abandoned expansion
left: it makes all of its nodes anew, and only then are they listed. -/
namespace DesignHierarchy

namespace Tree

/-- An expansion of the node was begun: nodes hang on it that no list names. -/
def Begun (s : Tree) (id : NodeId) (t : Tree) : Prop :=
  ∃ nodes, t = s.addAll nodes ∧ ∀ node ∈ nodes, node.parent = some id

theorem Begun.refl (s : Tree) (id : NodeId) : s.Begun id s := ⟨[], rfl, by simp⟩

theorem Begun.add_left {s t : Tree} {id : NodeId} {node : Node} (hp : node.parent = some id)
    (h : (s.add node).Begun id t) : s.Begun id t := by
  obtain ⟨nodes, rfl, hparents⟩ := h
  refine ⟨node :: nodes, rfl, ?_⟩
  simpa [hp] using hparents

end Tree

namespace Elaborator

variable {lookup : Lookup} {s : Elaborator}

/-- All that is added hangs on the node. -/
theorem meets_addChildren_begun (lookup : Lookup) (s : Elaborator) (id : NodeId)
    (definition : String) (symbols : List Symbol) :
    ((addChildren lookup id definition symbols).run s).Meets (fun t => s.tree.Begun id t.tree)
      fun _ t => s.tree.Begun id t.tree := by
  induction symbols generalizing s with
  | nil => exact ⟨by simp [addChildren, Run.pauses], .refl s.tree id⟩
  | cons symbol rest ih =>
    unfold addChildren
    have hfirst := (meets_elaborate_under lookup s id symbol).imp
      (fun t (ht : t.tree = s.tree) => show s.tree.Begun id t.tree from ht ▸ .refl s.tree id)
      fun _ _ h => h
    apply hfirst.bind
    rintro node t ⟨htree, hparent⟩
    simp only [Call.run_bind, Call.run_gets, Call.run_modify, Run.bind_done, Run.after_nil,
      Tree.nextId?_none]
    have hrest := (ih ⟨t.tree.add node, t.memo⟩).imp (fun _ h => h.add_left hparent)
      fun _ _ h => h.add_left hparent
    rw [htree] at hrest
    rw [htree]
    apply hrest.bind
    intro cs u hu
    rw [Call.run_pure, Run.meets_done]
    exact hu

/-- Wherever an expansion is suspended, the node is not expanded yet. -/
theorem meets_expand_begun (lookup : Lookup) (s : Elaborator) (id : NodeId) :
    ((expand lookup id).run s).Meets
      (fun t => s.tree.children? id = none ∧ s.tree.Begun id t.tree) fun _ _ => True := by
  unfold expand
  rw [Call.run_bind, Call.run_gets, Run.bind_done, Run.after_nil]
  cases hslot : s.tree.slot? id with
  | none => simp [Call.emit, Call.run_map]
  | some slot =>
    obtain ⟨owner, children⟩ := slot
    cases children with
    | some cs => simp
    | none =>
      have hnone := (Tree.slot?_eq_some.1 hslot).2
      cases hdef : owner.definition with
      | none => simp [hdef, record, Call.run_map]
      | some definition =>
        simp only [hdef]
        apply ((meets_addChildren_begun lookup s id definition.name definition.shown).imp
          (fun _ h => ⟨hnone, h⟩) fun _ _ h => h).bind
        intro cs t _
        simp [Call.emit, record, Call.run_map]

theorem run_expand_of_children? {id : NodeId} {cs : List NodeId}
    (h : s.tree.children? id = some cs) : (expand lookup id).run s = .done s [] cs := by
  obtain ⟨node, hnode⟩ := Tree.node?_of_children? h
  unfold expand
  rw [Call.run_bind, Call.run_gets, Run.bind_done, Run.after_nil, Tree.slot?_eq_some.2 ⟨hnode, h⟩]
  rfl

theorem Expansion.eq_freshIds {t : Elaborator} {id : NodeId} {cs : List NodeId} {owner : Node}
    (h : Expansion s id cs t) (unlisted : s.tree.slot? id = some ⟨owner, none⟩) :
    cs = Tree.freshIds s.tree.size owner.shown.length := by
  obtain ⟨hnode, hnone⟩ := Tree.slot?_eq_some.1 unlisted
  cases h with
  | foreign absent =>
    rw [absent] at hnode
    cases hnode
  | known recorded =>
    rw [recorded] at hnone
    cases hnone
  | fresh memo slot symbols =>
    rw [slot] at unlisted
    cases unlisted
    rw [← symbols, List.length_map]

end Elaborator

namespace Browser

/-- The tree on show has all that `tree` has. -/
def Shows (b : Browser) (tree : Tree) : Prop :=
  ∃ shown, b.tree = some shown ∧ tree.Extends shown ∧ shown.WellFormed

variable {lookup : Lookup} {b : Browser} {tree : Tree}

theorem Shows.kept {later : Tree} (h : b.Shows tree) (shown : b.tree = some later) :
    tree.Extends later ∧ later.WellFormed := by
  obtain ⟨found, hfound, hkept⟩ := h
  rw [hfound] at shown
  cases shown
  exact hkept

theorem shows_of_grows {s tree : Tree} {b : Browser} {e : Elaborator} (h : b.Shows s)
    (shown : b.tree = some tree) (grows : Elaborator.Grows lookup ⟨tree, b.memo⟩ e) :
    (Browser.mk (some e.tree) e.memo b.index b.scale).Shows s := by
  obtain ⟨hext, hformed⟩ := h.kept shown
  exact ⟨e.tree, rfl, hext.trans grows.extends, grows.wellFormed hformed⟩

theorem meets_children_shows (shown : b.tree = some tree) (formed : tree.WellFormed)
    (id : Option NodeId) :
    ((children lookup id).run b).Meets (·.Shows tree) fun _ c => c.Shows tree :=
  meets_children (fun _ _ _ h shown grows => shows_of_grows h shown grows)
    ⟨tree, shown, .refl tree, formed⟩ id

/-- Where the top is on show already, nothing is selected. -/
theorem meets_resolvePath_shows (shown : b.tree = some tree) (formed : tree.WellFormed)
    {top : Symbol} (same : top.id = tree.top.id) (path : String) :
    ((resolvePath lookup top path).run b).Meets (·.Shows tree) fun _ c => c.Shows tree := by
  have htop : b.top.map (·.id) = some top.id := by simp [Browser.top, shown, same]
  rw [run_resolvePath, if_neg (by simp [htop]), Run.bind_done, Run.after_nil, shown]
  apply (meets_onTree (fun _ _ _ h shown grows => shows_of_grows h shown grows)
    ⟨tree, shown, .refl tree, formed⟩ shown
    (Elaborator.meets_resolvePath_grows lookup formed path)).bind
  intro answer c hc
  rw [Run.meets_done]
  exact hc

end Browser

namespace Tree

/-- What becomes of a tree while its top stays selected. -/
inductive Grown (s : Tree) : Tree → Prop
  | refl : Grown s s
  | call {lookup : Lookup} {e f : Elaborator} (before : Grown s e.tree)
      (left : Elaborator.Calls lookup e f) : Grown s f.tree
  | children {lookup : Lookup} {b c : Browser} {t u : Tree} (before : Grown s t)
      (shown : b.tree = some t) (id : Option NodeId)
      (left : (Browser.children lookup id).Leaves b c) (shown' : c.tree = some u) : Grown s u
  | resolvePath {lookup : Lookup} {b c : Browser} {t u : Tree} (before : Grown s t)
      (shown : b.tree = some t) (top : Symbol) (same : top.id = t.top.id) (path : String)
      (left : (Browser.resolvePath lookup top path).Leaves b c) (shown' : c.tree = some u) :
      Grown s u

/-- Whatever is called meanwhile, the tree is kept. -/
theorem Grown.keeps {s t : Tree} (h : s.Grown t) (hs : s.WellFormed) :
    s.Extends t ∧ t.WellFormed := by
  induction h with
  | refl => exact ⟨.refl s, hs⟩
  | call _ left ih =>
    have grows := left.grows ih.2
    exact ⟨ih.1.trans grows.extends, grows.wellFormed ih.2⟩
  | children _ shown id left shown' ih =>
    have hshows := left.holds ⟨_, shown, .refl _, ih.2⟩
      (Browser.meets_children_shows shown ih.2 id) fun _ _ h => h
    obtain ⟨hext, hformed⟩ := hshows.kept shown'
    exact ⟨ih.1.trans hext, hformed⟩
  | resolvePath _ shown top same path left shown' ih =>
    have hshows := left.holds ⟨_, shown, .refl _, ih.2⟩
      (Browser.meets_resolvePath_shows shown ih.2 same path) fun _ _ h => h
    obtain ⟨hext, hformed⟩ := hshows.kept shown'
    exact ⟨ih.1.trans hext, hformed⟩

end Tree

namespace Browser

/-- The tree on show has grown from a top since that was selected. -/
def Growing (b : Browser) : Prop :=
  ∀ tree, b.tree = some tree → ∃ top, (Tree.ofTop top).Grown tree

theorem growing_of_eq {b : Browser} {top : Symbol} {tree : Tree} (shown : b.tree = some tree)
    (grown : (Tree.ofTop top).Grown tree) : b.Growing := by
  intro other hother
  rw [shown] at hother
  cases hother
  exact ⟨top, grown⟩

theorem Calls.growing {lookup : Lookup} {s t : Browser} (left : Calls lookup s t)
    (h : s.Growing) : t.Growing := by
  cases left with
  | select top left =>
    exact left.holds h (meets_select (fun top _ => growing_of_eq rfl .refl) s top) fun _ _ h => h
  | children id left =>
    cases shown : s.tree with
    | some tree =>
      obtain ⟨top, before⟩ := h tree shown
      exact fun _ shown' => ⟨top, .children before shown id left shown'⟩
    | none =>
      have hblank : ((Browser.children lookup id).run s).Meets (·.tree = none)
          fun _ t => t.tree = none := by
        refine meets_children ?_ shown id
        intro s tree e hs shown
        rw [hs] at shown
        cases shown
      have hnone : t.tree = none := left.holds shown hblank fun _ _ h => h
      intro tree shown'
      rw [hnone] at shown'
      cases shown'
  | build top cancelAfter left =>
    have hleaves := (Indexer.build lookup s.scale cancelAfter).meets_leaves ⟨⟨.ofTop top, ∅⟩, {}⟩
    exact left.holds h (meets_build (hleaves.imp
      (fun _ hj => growing_of_eq rfl (.call .refl (.build s.scale cancelAfter hj)))
      fun _ _ hj => growing_of_eq rfl (.call .refl (.build s.scale cancelAfter hj)))) fun _ _ h => h
  | resolvePath top path left =>
    by_cases same : s.top.map (·.id) = some top.id
    · obtain ⟨tree, shown, hid⟩ : ∃ tree, s.tree = some tree ∧ tree.top.id = top.id := by
        simpa [Browser.top] using same
      obtain ⟨top', before⟩ := h tree shown
      exact fun _ shown' => ⟨top', .resolvePath before shown top hid.symm path left shown'⟩
    · have hmeets : ((Browser.resolvePath lookup top path).run s).Meets Growing
          fun _ t => t.Growing := by
        rw [run_resolvePath, if_pos same, run_select, Run.bind_done, Run.meets_after]
        have hleaves := (Elaborator.resolvePath lookup path).meets_leaves ⟨.ofTop top, ∅⟩
        apply (Run.Meets.within (hleaves.imp
          (fun _ he => growing_of_eq rfl (.call .refl (.resolvePath path he)))
          fun _ _ he => growing_of_eq rfl (.call .refl (.resolvePath path he)))).bind
        intro answer u hu
        rw [Run.meets_done]
        exact hu
      exact left.holds h hmeets fun _ _ h => h

theorem Reached.growing {b : Browser} (h : Reached b) : b.Growing := by
  induction h with
  | start scale => exact fun _ shown => by cases shown
  | call _ left ih => exact left.growing ih

end Browser

namespace Tree

/-- Between two selections of a top nothing is lost: nodes, their paths and their children stay. A
node is expanded once, and an expansion that is abandoned leaves nothing but new nodes that hang on
it. -/
theorem kept_of_grown {top : Symbol} {s t : Tree} (reached : (ofTop top).Grown s)
    (grown : s.Grown t) :
    (∀ id, s.contains id → t.contains id ∧ t.node? id = s.node? id ∧
      t.ancestors id = s.ancestors id ∧ t.path? id = s.path? id ∧
      ∀ cs, s.children? id = some cs → t.children? id = some cs) ∧
    ∀ lookup memo id,
      let call := Elaborator.expand lookup id
      (∀ node definition, t.node? id = some node → node.definition = some definition →
        t.children? id = none →
          (call.run ⟨t, memo⟩).value = freshIds t.size definition.shown.length) ∧
      (t.contains id → ∀ lookup' later, (call.run ⟨t, memo⟩).state.tree.Grown later.tree →
        (Elaborator.expand lookup' id).run later = .done later [] (call.run ⟨t, memo⟩).value) ∧
      ∀ skip, (call.drive (some (skip + 1)) ⟨t, memo⟩).value? = none →
        (call.drive (some (skip + 1)) ⟨t, memo⟩).state.tree.children? id = none ∧
        ∃ nodes, (call.drive (some (skip + 1)) ⟨t, memo⟩).state.tree = t.addAll nodes ∧
          ∀ node ∈ nodes, node.parent = some id := by
  have hs := (reached.keeps (wellFormed_ofTop top)).2
  obtain ⟨hext, ht⟩ := grown.keeps hs
  refine ⟨?_, ?_⟩
  · intro id hid
    obtain ⟨node, hnode⟩ := contains_iff_exists_node?.1 hid
    have hlt := lt_size_of_node? hnode
    exact ⟨contains_iff_exists_node?.2 ⟨node, hext.node hnode⟩, by rw [hnode, hext.node hnode],
      hext.ancestors hs.parentsFirst ht.parentsFirst hlt,
      hext.path? hs.parentsFirst ht.parentsFirst hlt, fun _ hcs => hext.children hcs⟩
  · intro lookup memo id call
    have hexpansion := Elaborator.expansion_expand lookup ⟨t, memo⟩ id
    refine ⟨?_, ?_, ?_⟩
    · intro node definition hnode hdef hnone
      rw [← Node.shown_of_definition hdef]
      exact hexpansion.eq_freshIds (slot?_eq_some.2 ⟨hnode, hnone⟩)
    · intro hid lookup' later hlater
      obtain ⟨node, hnode⟩ := contains_iff_exists_node?.1 hid
      have hexpanded := (Elaborator.grows_expand lookup ⟨t, memo⟩ id).wellFormed ht
      exact Elaborator.run_expand_of_children?
        ((hlater.keeps hexpanded).1.children (hexpansion.recorded hnode))
    · intro skip abandoned
      obtain ⟨hnone, nodes, htree, hparents⟩ :=
        Call.holds_of_abandoned (Elaborator.meets_expand_begun lookup ⟨t, memo⟩ id) abandoned
      refine ⟨?_, nodes, htree, hparents⟩
      rw [htree, children?_addAll]
      exact hnone

/-- A browser was asked for what is under the clocked module, and abandoned. The second try makes
new nodes for the port and the instance, and asking in an empty workspace then gives these. -/
theorem kept_of_grown_retried :
    let selected := ((Browser.select .clocked).run {}).state
    let b := ((Browser.children .clocked (some .root)).drive (some 1) selected).state
    ∃ tree, b.tree = some tree ∧ tree.children? .root = none ∧
      let retried := (Elaborator.expand .clocked .root).run ⟨tree, b.memo⟩
      retried.value = [⟨2⟩, ⟨3⟩] ∧ retried.state.tree.path? ⟨1⟩ = tree.path? ⟨1⟩ ∧
      (Elaborator.expand (Workspace.lookup {}) .root).run retried.state =
        .done retried.state [] [⟨2⟩, ⟨3⟩] := by
  intro selected b
  have hselected : Browser.Reached selected :=
    @Browser.Reached.call .clocked _ _ (.start 64) (.select .clocked (Call.leaves_run _ _))
  have reached : b.Reached := .call hselected (.children (some .root) ⟨some 1, rfl⟩)
  have hview : b.tree.map (fun tree => (tree.children? .root, tree.size, tree.contains ⟨1⟩,
      (tree.node? .root).bind (·.definition))) =
      some (none, 2, true, some .clocked) := by decide +kernel
  obtain ⟨tree, shown, hview⟩ := Option.map_eq_some_iff.1 hview
  simp only [Prod.mk.injEq] at hview
  obtain ⟨hnone, hsize, hcontains, hdef⟩ := hview
  obtain ⟨node, hnode, hdef⟩ := Option.bind_eq_some_iff.1 hdef
  obtain ⟨top, grown⟩ := reached.growing tree shown
  refine ⟨tree, shown, hnone, ?_⟩
  obtain ⟨hfresh, hagain, -⟩ := (kept_of_grown grown .refl).2 .clocked b.memo .root
  have hvalue := hfresh node .clocked hnode hdef hnone
  rw [hsize] at hvalue
  have hroot : tree.contains .root := contains_iff_exists_node?.2 ⟨node, hnode⟩
  have hretried : tree.Grown ((Elaborator.expand .clocked .root).run ⟨tree, b.memo⟩).state.tree :=
    @Grown.call tree _ ⟨tree, b.memo⟩ _ .refl (.expand .root (Call.leaves_run _ _))
  refine ⟨hvalue, ((kept_of_grown grown hretried).1 ⟨1⟩ hcontains).2.2.2.1, ?_⟩
  rw [hagain hroot _ _ .refl, hvalue]
  rfl

end Tree

end DesignHierarchy
