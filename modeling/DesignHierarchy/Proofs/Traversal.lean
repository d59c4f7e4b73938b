import DesignHierarchy.Proofs.Elaboration

/-! The pre-order of a hierarchy that is expanded on the way. A node is followed
by all that lies under its children, unless it has no definition or one that is
open above it. -/
namespace DesignHierarchy

/-- Nodes of a tree above which just the definitions of the chain are open, the topmost first. -/
def Tree.Under (tree : Tree) (chain : List DefId) (ids : List NodeId) : Prop :=
  ∀ id ∈ ids, id.index < tree.size ∧ tree.openAbove id = chain.reverse

namespace Tree

theorem Under.mono {s t : Tree} (hext : s.Extends t) (hs : s.WellFormed) (ht : t.WellFormed)
    {chain : List DefId} {ids : List NodeId} (h : s.Under chain ids) : t.Under chain ids := by
  intro id hid
  obtain ⟨hlt, hopen⟩ := h id hid
  have hle := hext.size_le
  refine ⟨by omega, ?_⟩
  rw [hext.openAbove hs.parentsFirst ht.parentsFirst hlt]
  exact hopen

end Tree

namespace Elaborator

/-- Above the children of a node, its definition is open and those that are open above it. -/
theorem under_expand (lookup : Lookup) {s : Elaborator} {chain : List DefId} {id : NodeId}
    {node : Node} {d : DefId} (hs : s.tree.WellFormed) (found : s.tree.node? id = some node)
    (hopen : s.tree.openAbove id = chain.reverse) (hd : node.definitionId = some d) :
    ((expand lookup id).run s).state.tree.Under (chain ++ [d])
      ((expand lookup id).run s).value := by
  have hgrows := grows_expand lookup s id
  have he := hgrows.wellFormed hs
  have found' := hgrows.extends.node found
  intro c hc
  have hparent := (he.listed found' ((expansion_expand lookup s id).recorded found)).parents c hc
  refine ⟨Tree.lt_size_of_parent? hparent, ?_⟩
  rw [Tree.openAbove_of_parent? he.parentsFirst hparent, Tree.openDefinitions_eq found' hd,
    hgrows.extends.openAbove hs.parentsFirst he.parentsFirst (Tree.lt_size_of_node? found), hopen]
  simp

/-- Traversing `ids` below the definitions of the chain visits these nodes, in this order, and
leaves the second elaborator. -/
inductive Traverses (lookup : Lookup) :
    List DefId → List NodeId → Elaborator → List NodeId → Elaborator → Prop
  | nil {chain : List DefId} {s : Elaborator} : Traverses lookup chain [] s [] s
  | leave {chain : List DefId} {id : NodeId} {rest visits : List NodeId} {s t : Elaborator}
      {node : Node} (found : s.tree.node? id = some node)
      (shut : ∀ d, node.definitionId = some d → d ∈ chain)
      (after : Traverses lookup chain rest s visits t) :
      Traverses lookup chain (id :: rest) s (id :: visits) t
  | enter {chain : List DefId} {id : NodeId} {rest below visits : List NodeId}
      {s m t : Elaborator} {node : Node} {d : DefId} (found : s.tree.node? id = some node)
      (definition : node.definitionId = some d) (unopened : d ∉ chain)
      (under : Traverses lookup (chain ++ [d]) ((expand lookup id).run s).value
        ((expand lookup id).run s).state below m)
      (after : Traverses lookup chain rest m visits t) :
      Traverses lookup chain (id :: rest) s (id :: (below ++ visits)) t

namespace Traverses

variable {lookup : Lookup} {chain : List DefId} {ids visits : List NodeId} {s t : Elaborator}

theorem unique {visits' : List NodeId} {t' : Elaborator}
    (h : Traverses lookup chain ids s visits t) (h' : Traverses lookup chain ids s visits' t') :
    visits = visits' ∧ t = t' := by
  induction h generalizing visits' t' with
  | nil =>
    cases h'
    exact ⟨rfl, rfl⟩
  | leave found shut _ ih =>
    cases h' with
    | leave _ _ after =>
      obtain ⟨rfl, rfl⟩ := ih after
      exact ⟨rfl, rfl⟩
    | enter found' definition unopened =>
      rw [found] at found'
      cases found'
      exact absurd (shut _ definition) unopened
  | enter found definition unopened _ _ ihBelow ihAfter =>
    cases h' with
    | leave found' shut =>
      rw [found] at found'
      cases found'
      exact absurd (shut _ definition) unopened
    | enter found' definition' _ under after =>
      rw [found] at found'
      cases found'
      rw [definition] at definition'
      cases definition'
      obtain ⟨rfl, rfl⟩ := ihBelow under
      obtain ⟨rfl, rfl⟩ := ihAfter after
      exact ⟨rfl, rfl⟩

theorem grows (h : Traverses lookup chain ids s visits t) : Grows lookup s t := by
  induction h with
  | nil => exact .refl _
  | leave _ _ _ ih => exact ih
  | enter _ _ _ _ _ ihBelow ihAfter => exact (grows_expand _ _ _).trans (ihBelow.trans ihAfter)

theorem present (h : Traverses lookup chain ids s visits t) {v : NodeId} (hv : v ∈ visits) :
    v.index < t.tree.size := by
  induction h with
  | nil => cases hv
  | leave found _ after ih =>
    obtain rfl | hv := List.mem_cons.1 hv
    · exact Tree.lt_size_of_node? (after.grows.extends.node found)
    · exact ih hv
  | enter found _ _ under after ihBelow ihAfter =>
    have hext := ((grows_expand _ _ _).trans (under.grows.trans after.grows)).extends
    rw [List.mem_cons, List.mem_append] at hv
    obtain rfl | hv | hv := hv
    · exact Tree.lt_size_of_node? (hext.node found)
    · have hle := after.grows.extends.size_le
      have := ihBelow hv
      omega
    · exact ihAfter hv

theorem mem_of_mem (h : Traverses lookup chain ids s visits t) {id : NodeId} (hid : id ∈ ids) :
    id ∈ visits := by
  induction h with
  | nil => cases hid
  | leave _ _ _ ih =>
    obtain rfl | hid := List.mem_cons.1 hid
    · exact List.mem_cons_self
    · exact List.mem_cons_of_mem _ (ih hid)
  | enter _ _ _ _ _ _ ihAfter =>
    obtain rfl | hid := List.mem_cons.1 hid
    · exact List.mem_cons_self
    · exact List.mem_cons_of_mem _ (List.mem_append_right _ (ihAfter hid))

/-- Induction over a traversal of a well-formed tree, with what is known at each node. -/
theorem formedInduction
    {motive : List DefId → List NodeId → Elaborator → List NodeId → Elaborator → Prop}
    (nil : ∀ chain s, motive chain [] s [] s)
    (leave : ∀ chain id rest visits s t node, s.tree.WellFormed → s.tree.node? id = some node →
      s.tree.openAbove id = chain.reverse → (∀ d, node.definitionId = some d → d ∈ chain) →
      s.tree.Under chain rest → Traverses lookup chain rest s visits t →
      motive chain rest s visits t → motive chain (id :: rest) s (id :: visits) t)
    (enter : ∀ chain id rest below visits s e m t node d cs, s.tree.WellFormed →
      s.tree.node? id = some node → s.tree.openAbove id = chain.reverse →
      node.definitionId = some d → d ∉ chain → Expansion s id cs e → Grows lookup s e →
      e.tree.Under (chain ++ [d]) cs → Traverses lookup (chain ++ [d]) cs e below m →
      m.tree.Under chain rest → Traverses lookup chain rest m visits t →
      motive (chain ++ [d]) cs e below m → motive chain rest m visits t →
      motive chain (id :: rest) s (id :: (below ++ visits)) t)
    (h : Traverses lookup chain ids s visits t) (hs : s.tree.WellFormed)
    (hunder : s.tree.Under chain ids) : motive chain ids s visits t := by
  induction h with
  | nil => exact nil _ _
  | leave found shut after ih =>
    have hrest := fun id hid => hunder id (List.mem_cons_of_mem _ hid)
    exact leave _ _ _ _ _ _ _ hs found (hunder _ List.mem_cons_self).2 shut hrest after (ih hs hrest)
  | @enter chain id rest below visits s m t node d found definition unopened under after ihBelow
      ihAfter =>
    have hgrows := grows_expand lookup s id
    have hexp := expansion_expand lookup s id
    have he := hgrows.wellFormed hs
    have hopen := (hunder id List.mem_cons_self).2
    have hcs := under_expand lookup hs found hopen definition
    have hrest : s.tree.Under chain rest := fun r hr => hunder r (List.mem_cons_of_mem _ hr)
    have hm := under.grows.wellFormed he
    have hrest' := hrest.mono (hgrows.trans under.grows).extends hs hm
    exact enter _ _ _ _ _ _ _ _ _ _ _ _ hs found hopen definition unopened hexp hgrows hcs under
      hrest' after (ihBelow he hcs) (ihAfter hm hrest')

/-- A visited node that is not cut off is expanded, and its children are visited. Said of every
later tree, so that the parts of a traversal need no transport. -/
theorem covers (h : Traverses lookup chain ids s visits t) (hs : s.tree.WellFormed)
    (hunder : s.tree.Under chain ids) {u : Tree} (hu : t.tree.Extends u) (hwf : u.WellFormed)
    {v : NodeId} (hv : v ∈ visits) {node : Node} (hnode : u.node? v = some node)
    (hdef : node.definition.isSome) (hre : u.reenters v = false) :
    ∃ cs, u.children? v = some cs ∧ ∀ c ∈ cs, c ∈ visits := by
  refine formedInduction (motive := fun _ _ _ visits t => t.tree.Extends u → v ∈ visits →
    ∃ cs, u.children? v = some cs ∧ ∀ c ∈ cs, c ∈ visits) ?nil ?leave ?enter h hs hunder hu hv
  case nil => simp
  case leave =>
    intro chain id rest visits s t found hs hfound hopen shut _ after ih hu hv
    have hext := after.grows.extends.trans hu
    obtain rfl | hv := List.mem_cons.1 hv
    · exfalso
      rw [hext.node hfound] at hnode
      cases hnode
      obtain ⟨definition, hsome⟩ := Option.isSome_iff_exists.1 hdef
      have hd : node.definitionId = some definition.id := by simp [Node.definitionId, hsome]
      rw [hext.reenters hs.parentsFirst hwf.parentsFirst (Tree.lt_size_of_node? hfound)] at hre
      simp [Tree.reenters, hfound, hd, hopen, shut _ hd] at hre
    · obtain ⟨cs, hcs, hmem⟩ := ih hu hv
      exact ⟨cs, hcs, fun c hc => List.mem_cons_of_mem _ (hmem c hc)⟩
  case enter =>
    intro chain id rest below visits s e m t found d cs hs hfound hopen hd hnew hexp hgrows _ under _
      after ihBelow ihAfter hu hv
    have hm := after.grows.extends.trans hu
    rw [List.mem_cons, List.mem_append] at hv
    obtain rfl | hv | hv := hv
    · refine ⟨cs, (under.grows.extends.trans hm).children (hexp.recorded hfound), ?_⟩
      intro c hc
      exact List.mem_cons_of_mem _ (List.mem_append_left _ (under.mem_of_mem hc))
    · obtain ⟨ds, hds, hmem⟩ := ihBelow hm hv
      exact ⟨ds, hds, fun c hc => List.mem_cons_of_mem _ (List.mem_append_left _ (hmem c hc))⟩
    · obtain ⟨ds, hds, hmem⟩ := ihAfter hu hv
      exact ⟨ds, hds, fun c hc => List.mem_cons_of_mem _ (List.mem_append_right _ (hmem c hc))⟩

/-- A visited node is one of those the traversal was started at, or among the children of a
visited node that was entered. -/
theorem origin (h : Traverses lookup chain ids s visits t) (hs : s.tree.WellFormed)
    (hunder : s.tree.Under chain ids) {u : Tree} (hu : t.tree.Extends u) (hwf : u.WellFormed)
    {v : NodeId} (hv : v ∈ visits) :
    v ∈ ids ∨ ∃ p ∈ visits, u.reenters p = false ∧ ∃ cs, u.children? p = some cs ∧ v ∈ cs := by
  refine formedInduction (motive := fun _ ids _ visits t => t.tree.Extends u → v ∈ visits →
    v ∈ ids ∨ ∃ p ∈ visits, u.reenters p = false ∧ ∃ cs, u.children? p = some cs ∧ v ∈ cs)
    ?nil ?leave ?enter h hs hunder hu hv
  case nil => simp
  case leave =>
    intro chain id rest visits s t node hs found hopen shut _ after ih hu hv
    obtain rfl | hv := List.mem_cons.1 hv
    · exact .inl List.mem_cons_self
    · obtain hin | ⟨p, hp, hrest⟩ := ih hu hv
      · exact .inl (List.mem_cons_of_mem _ hin)
      · exact .inr ⟨p, List.mem_cons_of_mem _ hp, hrest⟩
  case enter =>
    intro chain id rest below visits s e m t node d cs hs found hopen hd hnew hexp hgrows hcs under _
      after ihBelow ihAfter hu hv
    have hm := after.grows.extends.trans hu
    rw [List.mem_cons, List.mem_append] at hv
    obtain rfl | hv | hv := hv
    · exact .inl List.mem_cons_self
    · right
      obtain hin | ⟨p, hp, hrest⟩ := ihBelow hm hv
      · -- a child of the node that was just entered
        have he := under.grows.extends.trans hm
        refine ⟨id, List.mem_cons_self, ?_, cs, he.children (hexp.recorded found), hin⟩
        rw [(hgrows.extends.trans he).reenters hs.parentsFirst hwf.parentsFirst
          (Tree.lt_size_of_node? found)]
        simp [Tree.reenters, found, hd, hopen, hnew]
      · exact ⟨p, List.mem_cons_of_mem _ (List.mem_append_left _ hp), hrest⟩
    · obtain hin | ⟨p, hp, hrest⟩ := ihAfter hu hv
      · exact .inl (List.mem_cons_of_mem _ hin)
      · exact .inr ⟨p, List.mem_cons_of_mem _ (List.mem_append_right _ hp), hrest⟩

/-- Everything that is visited lies at or below a node that the traversal was started at. -/
theorem start_above (h : Traverses lookup chain ids s visits t) (hs : s.tree.WellFormed)
    (hunder : s.tree.Under chain ids) {u : Tree} (hu : t.tree.Extends u) (hwf : u.WellFormed)
    {v : NodeId} (hv : v ∈ visits) : ∃ id ∈ ids, id ∈ v :: u.ancestors v := by
  induction hn : v.index using Nat.strongRecOn generalizing v with
  | ind n ih =>
    obtain hin | ⟨p, hp, -, cs, hcs, hmem⟩ := h.origin hs hunder hu hwf hv
    · exact ⟨v, hin, List.mem_cons_self⟩
    · have hparent := hwf.parent?_of_mem hcs hmem
      have hlt := hwf.parentsFirst.lt hparent
      obtain ⟨id, hid, hmem⟩ := ih p.index (by omega) hp rfl
      refine ⟨id, hid, ?_⟩
      rw [Tree.ancestors_of_parent? hwf.parentsFirst hparent]
      exact List.mem_cons_of_mem _ hmem

/-- No node is visited twice, when the traversal is started at nodes that lie apart. -/
theorem nodup (h : Traverses lookup chain ids s visits t) (hs : s.tree.WellFormed)
    (hunder : s.tree.Under chain ids) {u : Tree} (hu : t.tree.Extends u) (hwf : u.WellFormed)
    (hids : ids.Pairwise u.Apart) : visits.Nodup := by
  have hpf := hwf.parentsFirst
  refine formedInduction (motive := fun _ ids _ visits t => t.tree.Extends u →
    ids.Pairwise u.Apart → visits.Nodup) ?nil ?leave ?enter h hs hunder hu hids
  case nil => simp
  case leave =>
    intro chain id rest visits s t node hs found hopen shut hrest after ih hu hids
    rw [List.pairwise_cons] at hids
    refine List.nodup_cons.2 ⟨?_, ih hu hids.2⟩
    intro hmem
    obtain ⟨r, hr, habove⟩ := after.start_above hs hrest hu hwf hmem
    exact (hids.1 r hr).2 habove
  case enter =>
    intro chain id rest below visits s e m t node d cs hs found hopen hd hnew hexp hgrows hcs under
      hrest after ihBelow ihAfter hu hids
    rw [List.pairwise_cons] at hids
    have hm := after.grows.extends.trans hu
    have he := hgrows.wellFormed hs
    have hlist := he.listed (hgrows.extends.node found) (hexp.recorded found)
    have hparents : ∀ c ∈ cs, u.parent? c = some id := by
      intro c hc
      rw [(under.grows.extends.trans hm).parent? (hcs c hc).1]
      exact hlist.parents c hc
    have hapart : cs.Pairwise u.Apart := by
      apply hlist.nodup.imp_of_mem
      intro a b ha hb hne
      exact Tree.apart_of_siblings hpf hne (hparents a ha) (hparents b hb)
    -- all that is visited below the node has it among its ancestors, and nothing else has
    have hbelow : ∀ v ∈ below, id ∈ u.ancestors v := by
      intro v hv
      obtain ⟨c, hc, habove⟩ := under.start_above he hcs hm hwf hv
      have hid : id ∈ u.ancestors c := by
        rw [Tree.ancestors_of_parent? hpf (hparents c hc)]
        exact List.mem_cons_self
      obtain rfl | habove := List.mem_cons.1 habove
      · exact hid
      · exact Tree.mem_ancestors_trans hpf hid habove
    have hafter : ∀ v ∈ visits, id ∉ v :: u.ancestors v := by
      intro v hv hid
      obtain ⟨r, hr, habove⟩ := after.start_above (under.grows.wellFormed he) hrest hu hwf hv
      exact Tree.not_apart_of_above hpf hid habove (hids.1 r hr)
    refine List.nodup_cons.2 ⟨?_, List.nodup_append'.2 ⟨ihBelow hm hapart, ihAfter hu hids.2, ?_⟩⟩
    · intro hmem
      obtain hmem | hmem := List.mem_append.1 hmem
      · have := Tree.index_lt_of_mem_ancestors hpf (hbelow id hmem)
        omega
      · exact hafter id hmem List.mem_cons_self
    · intro v hv hv'
      exact hafter v hv' (List.mem_cons_of_mem _ (hbelow v hv))

/-- Nodes without children get theirs in the traversal, so it visits all that it adds. -/
theorem size_add_length (h : Traverses lookup chain ids s visits t) (hs : s.tree.WellFormed)
    (hunder : s.tree.Under chain ids) (hids : ids.Nodup)
    (hbare : ∀ id ∈ ids, (s.tree.children? id).getD [] = []) :
    t.tree.size + ids.length = s.tree.size + visits.length ∧
      ∀ x, x.index < s.tree.size → x ∉ ids → t.tree.children? x = s.tree.children? x := by
  refine formedInduction (motive := fun _ ids s visits t => ids.Nodup →
    (∀ id ∈ ids, id.index < s.tree.size) → (∀ id ∈ ids, (s.tree.children? id).getD [] = []) →
    t.tree.size + ids.length = s.tree.size + visits.length ∧
      ∀ x, x.index < s.tree.size → x ∉ ids → t.tree.children? x = s.tree.children? x)
    ?nil ?leave ?enter h hs hunder hids (fun id hid => (hunder id hid).1) hbare
  case nil => simp
  case leave =>
    intro chain id rest visits s t node hs found hopen shut hrest after ih hids hold hbare
    obtain ⟨hsize, hsame⟩ := ih (List.nodup_cons.1 hids).2
      (fun r hr => hold r (List.mem_cons_of_mem _ hr))
      fun r hr => hbare r (List.mem_cons_of_mem _ hr)
    refine ⟨by simp only [List.length_cons]; omega, ?_⟩
    intro x hx hmem
    exact hsame x hx fun hr => hmem (List.mem_cons_of_mem _ hr)
  case enter =>
    intro chain id rest below visits s e m t node d cs hs found hopen hd hnew hexp hgrows hcs under
      hrest after ihBelow ihAfter hids hold hbare
    rw [List.nodup_cons] at hids
    obtain ⟨hlevel, hfresh, hother⟩ := hexp.level (hbare id List.mem_cons_self)
    have hlist := (hgrows.wellFormed hs).listed (hgrows.extends.node found) (hexp.recorded found)
    obtain ⟨hsizeBelow, hsameBelow⟩ := ihBelow hlist.nodup (fun c hc => (hcs c hc).1)
      fun c hc => by simp [(hfresh c hc).2]
    -- a node that was there before is not among the new children
    have hkept : ∀ x, x.index < s.tree.size → x ≠ id →
        m.tree.children? x = s.tree.children? x := by
      intro x hx hne
      rw [hsameBelow x (by omega), hother x hne]
      intro hc
      have := (hfresh x hc).1
      omega
    obtain ⟨hsizeAfter, hsameAfter⟩ := ihAfter hids.2 (fun r hr => (hrest r hr).1) fun r hr => by
      rw [hkept r (hold r (List.mem_cons_of_mem _ hr)) fun he => hids.1 (he ▸ hr)]
      exact hbare r (List.mem_cons_of_mem _ hr)
    refine ⟨by simp only [List.length_cons, List.length_append]; omega, ?_⟩
    intro x hx hmem
    rw [List.mem_cons, not_or] at hmem
    have hle := (hgrows.trans under.grows).extends.size_le
    rw [hsameAfter x (by omega) hmem.2, hkept x hx hmem.1]

end Traverses

end Elaborator

end DesignHierarchy
