import DesignHierarchy.Browser
import DesignHierarchy.Proofs.Tour

/-! Browsing while the workspace changes. The lookup may be another one at each
call, so nodes need not agree with it any more, but trees stay well formed and the
index of a browser tells only of the tree on show: it is empty, or each instance it
records is a node that can be seen from the top. -/
namespace DesignHierarchy

namespace Elaborator

section Grows

variable {lookup : Lookup} {s : Elaborator}

theorem meets_findChild_grows (lookup : Lookup) (s : Elaborator) (id : NodeId) (name : String) :
    ((findChild lookup id name).run s).Meets (Grows lookup s) fun _ t => Grows lookup s t :=
  (meets_findChild (fun _ _ h step => h.tail step) (.refl s) id name).imp (fun _ h => h)
    fun _ _ h => h.1

theorem meets_resolvePath_grows (lookup : Lookup) (hs : s.tree.WellFormed) (path : String) :
    ((resolvePath lookup path).run s).Meets (Grows lookup s) fun _ t => Grows lookup s t :=
  (meets_resolvePath (fun _ _ h step => h.tail step) (fun _ h => h.wellFormed hs) (.refl s)
    path).imp (fun _ h => h) fun _ _ h => h.1

end Grows

/-- What a call on a hierarchy may leave, while the workspace answers in one way. -/
inductive Calls (lookup : Lookup) (s : Elaborator) : Elaborator → Prop
  | expand {t : Elaborator} (id : NodeId) (left : (expand lookup id).Leaves s t) :
      Calls lookup s t
  | findChild {t : Elaborator} (id : NodeId) (name : String)
      (left : (findChild lookup id name).Leaves s t) : Calls lookup s t
  | resolvePath {t : Elaborator} (path : String) (left : (resolvePath lookup path).Leaves s t) :
      Calls lookup s t
  | build {index : InstanceIndex} {j : Indexer} (scale : UInt32) (cancelAfter : Option Nat)
      (left : (Indexer.build lookup scale cancelAfter).Leaves ⟨s, index⟩ j) :
      Calls lookup s j.elaborator

theorem Calls.grows {lookup : Lookup} {s t : Elaborator} (h : Calls lookup s t)
    (hs : s.tree.WellFormed) : Grows lookup s t := by
  cases h with
  | expand id left =>
    exact left.holds (.refl s) (meets_expand_grows lookup s id) fun _ _ h => h.1
  | findChild id name left =>
    exact left.holds (.refl s) (meets_findChild_grows lookup s id name) fun _ _ h => h
  | resolvePath path left =>
    exact left.holds (.refl s) (meets_resolvePath_grows lookup hs path) fun _ _ h => h
  | @build index j scale cancelAfter left =>
    have hmeets := @Indexer.meets_build lookup (Grows lookup s) (fun _ _ h step => h.tail step)
      ⟨s, index⟩ (.refl s) scale cancelAfter
    exact left.holds (.refl s) hmeets fun _ _ h => h

end Elaborator

namespace Tree

/-- A tree that calls can reach from a top, over workspaces and memories of any kind. -/
inductive Reached : Tree → Prop
  | ofTop (top : Symbol) : Reached (.ofTop top)
  | call {lookup : Lookup} {s t : Elaborator} (before : Reached s.tree)
      (left : Elaborator.Calls lookup s t) : Reached t.tree

theorem Reached.wellFormed {tree : Tree} (h : Reached tree) : tree.WellFormed := by
  induction h with
  | ofTop top => exact wellFormed_ofTop top
  | call _ left ih => exact (left.grows ih).wellFormed ih

theorem InstanceAt.mono {s t : Tree} {d : DefId} {path : String} {id : NodeId}
    (h : s.InstanceAt d path id) (hext : s.Extends t) (hs : s.WellFormed) (ht : t.WellFormed) :
    t.InstanceAt d path id := by
  obtain ⟨node, hnode, hinst, hpath⟩ := h
  refine ⟨node, hext.node hnode, hinst, ?_⟩
  rw [hext.path? hs.parentsFirst ht.parentsFirst (lt_size_of_node? hnode)]
  exact hpath

end Tree

namespace InstanceIndex

/-- The index is one of this tree: what it records are nodes that can be seen from the top. -/
structure TellsOf (index : InstanceIndex) (tree : Tree) : Prop where
  top_eq : index.top = some tree.top
  recorded : ∀ {d path id}, index.at? d path = some id →
    tree.InstanceAt d path id ∧ tree.Connected id

theorem tellsOf_opened (tree : Tree) : (opened tree.top).TellsOf tree where
  top_eq := rfl
  recorded := by
    intro d path id h
    simp [at?, opened] at h

theorem TellsOf.mono {index : InstanceIndex} {s t : Tree} (h : index.TellsOf s)
    (hext : s.Extends t) (hs : s.WellFormed) (ht : t.WellFormed) : index.TellsOf t where
  top_eq := by rw [hext.top, h.top_eq]
  recorded := by
    intro d path id hat
    obtain ⟨hinst, hseen⟩ := h.recorded hat
    exact ⟨hinst.mono hext hs ht, hseen.mono hext⟩

theorem TellsOf.note {index : InstanceIndex} {tree : Tree} (h : index.TellsOf tree) {id : NodeId}
    {node : Node} (found : tree.node? id = some node) (seen : tree.Connected id) :
    (note tree index id).TellsOf tree where
  top_eq := by rw [top_note, h.top_eq]
  recorded := by
    intro d path other hat
    rw [at?_note found] at hat
    split at hat
    · rename_i hinst
      cases hat
      exact ⟨⟨node, found, hinst⟩, seen⟩
    · exact h.recorded hat

theorem status_note (tree : Tree) (index : InstanceIndex) (id : NodeId) :
    (note tree index id).status = index.status := by
  unfold note
  split
  · rfl
  · rename_i node _
    unfold visit
    cases node.instanceOf <;> dsimp only <;> split <;> rfl

end InstanceIndex

namespace Pass

/-- A pass under way: its index is no longer empty and tells of the tree it has come to. -/
structure UnderWay (s : Pass) : Prop where
  formed : s.tree.WellFormed
  status : s.index.status = .inProgress
  tells : s.index.TellsOf s.tree

theorem underWay_start {e : Elaborator} (h : e.tree.WellFormed) (scale : UInt32) :
    (start e scale).UnderWay :=
  ⟨h, rfl, InstanceIndex.tellsOf_opened e.tree⟩

theorem UnderWay.noted {lookup : Lookup} {s t : Pass} {stop : Stop} (h : s.UnderWay)
    (here : stop.At s.tree) (noted : Noted lookup s stop t) : t.UnderWay := by
  obtain ⟨hindex, hgrows⟩ := noted
  have ht : t.tree.WellFormed := hgrows.wellFormed h.formed
  refine ⟨ht, ?_, ?_⟩
  · rw [hindex, InstanceIndex.status_note, h.status]
  · rw [hindex]
    exact (h.tells.note here.found here.connected).mono hgrows.extends h.formed ht

end Pass

namespace Indexer

/-- The index tells of the tree, and a pass over it was started. -/
structure Telling (i : Indexer) : Prop where
  formed : i.elaborator.tree.WellFormed
  status : i.index.status ≠ .empty
  tells : i.index.TellsOf i.elaborator.tree

/-- Wherever a build is abandoned or cancelled, its index tells of the tree. -/
theorem meets_build_telling (lookup : Lookup) {i : Indexer} (hi : i.elaborator.tree.WellFormed)
    (scale : UInt32) (cancelAfter : Option Nat) :
    ((build lookup scale cancelAfter).run i).Meets Telling fun _ j => Telling j := by
  have telling : ∀ s : Pass, s.UnderWay → Telling ⟨s.elaborator, s.index⟩ := by
    intro s hs
    exact ⟨hs.formed, by simp [hs.status], hs.tells⟩
  obtain ⟨stops, way, htour⟩ := exists_tour lookup scale hi
  rw [run_build, htour]
  apply Run.Meets.within
  have hmeets := way.meets
    (fun s stop hs here => (Pass.meets_noted here).imp (fun _ ht => Pass.UnderWay.noted hs here ht)
      fun _ _ ht => Pass.UnderWay.noted hs here ht) (Pass.underWay_start hi scale) cancelAfter
  apply (hmeets.imp telling fun _ _ h => h).bind
  intro ending s hs
  cases ending with
  | outOfRoom =>
    rw [Call.run_pure, Run.meets_done]
    exact telling s hs
  | finished =>
    rw [Pass.run_conclude, Run.meets_done]
    exact ⟨hs.formed, by simp, hs.tells.top_eq, hs.tells.recorded⟩
  | cancelled =>
    rw [Pass.run_conclude, Run.meets_done]
    exact ⟨hs.formed, by simp, hs.tells.top_eq, hs.tells.recorded⟩

end Indexer

namespace Browser

theorem run_select (top : Symbol) (s : Browser) :
    (select top).run s =
      .done { s with tree := some (.ofTop top), memo := ∅, index := {} }
        [.event (.topSelected top.name top.id)] () := rfl

theorem run_build (lookup : Lookup) (top : Symbol) (cancelAfter : Option Nat) (b : Browser) :
    (build lookup top cancelAfter).run b =
      (((Indexer.build lookup b.scale cancelAfter).run ⟨⟨.ofTop top, ∅⟩, {}⟩).within fun j =>
        ⟨some j.elaborator.tree, j.elaborator.memo, j.index, b.scale⟩).after
          [.event (.topSelected top.name top.id)] := by
  rw [build, Call.run_bind, run_select, Run.bind_done]
  rfl

theorem run_onTree (tree : Tree) (call : Call Elaborator α) (s : Browser) :
    (onTree tree call).run s = (call.run ⟨tree, s.memo⟩).within
      fun e => ⟨some e.tree, e.memo, s.index, s.scale⟩ := rfl

theorem run_resolvePath (lookup : Lookup) (top : Symbol) (path : String) (s : Browser) :
    (resolvePath lookup top path).run s =
      (if s.top.map (·.id) ≠ some top.id then (select top).run s else .done s [] ()).bind
        fun _ t => match t.tree with
          | none => .done t [] (.error .noTopSelected)
          | some tree => ((onTree tree (Elaborator.resolvePath lookup path)).run t).bind
              fun answer u => .done u [] (answer.mapError .path) := by
  have hwalk : ∀ t : Browser, (do
      match ← Call.gets (·.tree) with
      | none => return .error .noTopSelected
      | some tree => return (← onTree tree (Elaborator.resolvePath lookup path)).mapError .path :
        Call Browser (Except BrowseError NodeId)).run t =
      match t.tree with
      | none => .done t [] (.error .noTopSelected)
      | some tree => ((onTree tree (Elaborator.resolvePath lookup path)).run t).bind
          fun answer u => .done u [] (answer.mapError .path) := by
    intro t
    rw [Call.run_bind, Call.run_gets, Run.bind_done, Run.after_nil]
    cases t.tree <;> rfl
  unfold resolvePath
  rw [Call.run_bind, Call.run_gets, Run.bind_done, Run.after_nil]
  dsimp only
  split
  · rw [Call.run_bind]
    congr 1
    funext _ t
    exact hwalk t
  · rw [Run.bind_done, Run.after_nil]
    exact hwalk s

/-- What a call on a browser may leave, while the workspace answers in one way. -/
inductive Calls (lookup : Lookup) (s t : Browser) : Prop
  | select (top : Symbol) (left : (select top).Leaves s t)
  | children (id : Option NodeId) (left : (children lookup id).Leaves s t)
  | build (top : Symbol) (cancelAfter : Option Nat) (left : (build lookup top cancelAfter).Leaves s t)
  | resolvePath (top : Symbol) (path : String) (left : (resolvePath lookup top path).Leaves s t)

/-! Calls with a limited number of nodes. -/

section Limit

/-- The number of nodes of the tree on show. -/
def nodeCount (b : Browser) : Nat := (b.tree.map (·.size)).getD 0

variable (lookup : Lookup) (limit : Nat) (b : Browser)

theorem untilFull_onTree {bounded free : Call Elaborator α} (tree : Tree)
    (h : Call.Bounded Elaborator.nodeCount limit bounded free) :
    Run.UntilFull (limit ≤ nodeCount ·) ((onTree tree bounded).run b) ((onTree tree free).run b) := by
  rw [run_onTree, run_onTree]
  exact (h.untilFull _).within fun _ he => he

theorem untilFull_children (id : Option NodeId) :
    Run.UntilFull (limit ≤ nodeCount ·) ((children lookup id (some limit)).run b)
      ((children lookup id).run b) := by
  unfold children
  rw [Call.run_bind, Call.run_bind]
  apply Run.UntilFull.bind_same
  intro shown s
  cases shown with
  | none => exact .refl _
  | some tree =>
    cases id with
    | none => exact .refl _
    | some id =>
      dsimp only
      split
      · rw [Call.run_map, Call.run_map]
        apply (untilFull_onTree limit s tree (Elaborator.bounded_expand lookup limit id)).bind
        · exact fun _ _ => .refl _
        · exact fun _ _ ht => ⟨(Run.meets_done _ _ _).2 ht, (Run.meets_done _ _ _).2 ht⟩
      · exact .refl _

/-- A build starts over, so it is as if nothing had been on show. -/
theorem untilFull_build (top : Symbol) (cancelAfter : Option Nat) :
    Run.UntilFull (limit ≤ nodeCount ·) ((build lookup top cancelAfter (some limit)).run b)
      ((build lookup top cancelAfter).run b) := by
  unfold build
  rw [Call.run_bind, Call.run_bind]
  apply Run.UntilFull.bind_same
  intro _ s
  rw [Call.run_bind, Call.run_bind]
  apply Run.UntilFull.bind_same
  intro scale t
  rw [Call.run_focus, Call.run_focus]
  exact ((Indexer.bounded_build lookup limit scale cancelAfter).untilFull _).within fun _ hi => hi

theorem untilFull_resolvePath (top : Symbol) (path : String) :
    Run.UntilFull (limit ≤ nodeCount ·) ((resolvePath lookup top path (some limit)).run b)
      ((resolvePath lookup top path).run b) := by
  let walk (bound : Option Nat) : Call Browser (Except BrowseError NodeId) := do
    match ← Call.gets (·.tree) with
    | none => return .error .noTopSelected
    | some tree =>
      return (← onTree tree (Elaborator.resolvePath lookup path bound)).mapError .path
  have hwalk (t : Browser) :
      Run.UntilFull (limit ≤ nodeCount ·) ((walk (some limit)).run t) ((walk none).run t) := by
    simp only [walk, Call.run_bind]
    apply Run.UntilFull.bind_same
    intro shown u
    cases shown with
    | none => exact .refl _
    | some tree =>
      apply (untilFull_onTree limit u tree (Elaborator.bounded_resolvePath lookup limit path)).bind
      · exact fun _ _ => .refl _
      · exact fun _ _ ht => ⟨(Run.meets_done _ _ _).2 ht, (Run.meets_done _ _ _).2 ht⟩
  unfold resolvePath
  rw [Call.run_bind, Call.run_bind]
  apply Run.UntilFull.bind_same
  intro current s
  dsimp only
  split
  · rw [Call.run_bind, Call.run_bind]
    apply Run.UntilFull.bind_same
    exact fun _ t => hwalk t
  · exact hwalk s

variable {lookup limit}

/-- What a call may leave with at most so many nodes in a tree. -/
inductive CallsWithin (limit : Nat) (lookup : Lookup) (s t : Browser) : Prop
  | select (top : Symbol) (left : (select top).Leaves s t)
  | children (id : Option NodeId) (left : (children lookup id (some limit)).Leaves s t)
  | build (top : Symbol) (cancelAfter : Option Nat)
      (left : (build lookup top cancelAfter (some limit)).Leaves s t)
  | resolvePath (top : Symbol) (path : String)
      (left : (resolvePath lookup top path (some limit)).Leaves s t)

/-- Where the tree on show is left below the limit, it makes no difference. -/
theorem callsWithin_iff {s t : Browser} (room : t.nodeCount < limit) :
    CallsWithin limit lookup s t ↔ Calls lookup s t := by
  have hroom : ¬ limit ≤ t.nodeCount := Nat.not_le_of_lt room
  constructor
  · intro h
    cases h with
    | select top left => exact .select top left
    | children id left =>
      exact .children id ((Call.leaves_iff (untilFull_children lookup limit s id) hroom).1 left)
    | build top cancelAfter left =>
      exact .build top cancelAfter
        ((Call.leaves_iff (untilFull_build lookup limit s top cancelAfter) hroom).1 left)
    | resolvePath top path left =>
      exact .resolvePath top path
        ((Call.leaves_iff (untilFull_resolvePath lookup limit s top path) hroom).1 left)
  · intro h
    cases h with
    | select top left => exact .select top left
    | children id left =>
      exact .children id ((Call.leaves_iff (untilFull_children lookup limit s id) hroom).2 left)
    | build top cancelAfter left =>
      exact .build top cancelAfter
        ((Call.leaves_iff (untilFull_build lookup limit s top cancelAfter) hroom).2 left)
    | resolvePath top path left =>
      exact .resolvePath top path
        ((Call.leaves_iff (untilFull_resolvePath lookup limit s top path) hroom).2 left)

end Limit

/-- A browser that calls can reach, with a workspace that may change between them. -/
inductive Reached : Browser → Prop
  | start (scale : UInt32) : Reached { scale }
  | call {lookup : Lookup} {s t : Browser} (before : Reached s) (left : Calls lookup s t) :
      Reached t

section Contracts

variable {lookup : Lookup} {keep : Browser → Prop}
  (grow : ∀ s tree e, keep s → s.tree = some tree → Elaborator.Grows lookup ⟨tree, s.memo⟩ e →
    keep ⟨some e.tree, e.memo, s.index, s.scale⟩)

include grow

theorem meets_onTree {s : Browser} (h : keep s) {tree : Tree} (shown : s.tree = some tree)
    {call : Call Elaborator α}
    (hcall : (call.run ⟨tree, s.memo⟩).Meets (Elaborator.Grows lookup ⟨tree, s.memo⟩)
      fun _ e => Elaborator.Grows lookup ⟨tree, s.memo⟩ e) :
    ((onTree tree call).run s).Meets keep fun _ t => keep t := by
  rw [run_onTree]
  apply Run.Meets.within
  exact hcall.imp (fun e grows => grow s tree e h shown grows)
    fun _ e grows => grow s tree e h shown grows

theorem meets_children {s : Browser} (h : keep s) (id : Option NodeId) :
    ((children lookup id).run s).Meets keep fun _ t => keep t := by
  unfold children
  rw [Call.run_bind, Call.run_gets, Run.bind_done, Run.after_nil]
  cases shown : s.tree with
  | none => simpa using h
  | some tree =>
    cases id with
    | none => simpa using h
    | some id =>
      dsimp only
      split
      · rw [Call.run_map]
        have hexpand := (Elaborator.meets_expand_grows lookup ⟨tree, s.memo⟩ id).imp (fun _ he => he)
          fun _ _ he => he.1
        apply (meets_onTree grow h shown hexpand).bind
        intro cs t ht
        rw [Run.meets_done]
        exact ht
      · simpa using h

variable (fresh : ∀ top scale, keep ⟨some (.ofTop top), ∅, {}, scale⟩)

include fresh

omit grow in
theorem meets_select (s : Browser) (top : Symbol) :
    ((select top).run s).Meets keep fun _ t => keep t := by
  rw [run_select, Run.meets_done]
  exact fresh top s.scale

omit grow fresh in
/-- A build starts from a new tree, with nothing remembered. -/
theorem meets_build {s : Browser} {top : Symbol} {cancelAfter : Option Nat}
    (h : ((Indexer.build lookup s.scale cancelAfter).run ⟨⟨.ofTop top, ∅⟩, {}⟩).Meets
      (fun j => keep ⟨some j.elaborator.tree, j.elaborator.memo, j.index, s.scale⟩)
      fun _ j => keep ⟨some j.elaborator.tree, j.elaborator.memo, j.index, s.scale⟩) :
    ((build lookup top cancelAfter).run s).Meets keep fun _ t => keep t := by
  rw [build, Call.run_bind, run_select, Run.bind_done, Run.meets_after, Call.run_bind,
    Call.run_gets, Run.bind_done, Run.after_nil]
  exact Run.Meets.within h

theorem meets_resolvePath (formed : ∀ s tree, keep s → s.tree = some tree → tree.WellFormed)
    {s : Browser} (h : keep s) (top : Symbol) (path : String) :
    ((resolvePath lookup top path).run s).Meets keep fun _ t => keep t := by
  rw [run_resolvePath]
  -- whether or not another top is selected first, what is kept holds where the walk starts
  have hselect : (if s.top.map (·.id) ≠ some top.id then (select top).run s
      else .done s [] ()).Meets keep fun _ t => keep t := by
    split
    · exact meets_select fresh s top
    · rw [Run.meets_done]
      exact h
  apply hselect.bind
  intro _ t ht
  cases shown : t.tree with
  | none =>
    rw [Run.meets_done]
    exact ht
  | some tree =>
    apply (meets_onTree grow ht shown
      (Elaborator.meets_resolvePath_grows lookup (formed t tree ht shown) path)).bind
    intro answer u hu
    rw [Run.meets_done]
    exact hu

end Contracts

/-- The index is empty, or it tells of the tree on show. -/
inductive Coherent : Browser → Prop
  | blank {memo : Memo} {scale : UInt32} : Coherent ⟨none, memo, {}, scale⟩
  | unindexed {tree : Tree} {memo : Memo} {scale : UInt32} (formed : tree.WellFormed) :
      Coherent ⟨some tree, memo, {}, scale⟩
  | indexed {tree : Tree} {memo : Memo} {index : InstanceIndex} {scale : UInt32}
      (formed : tree.WellFormed) (status : index.status ≠ .empty) (tells : index.TellsOf tree) :
      Coherent ⟨some tree, memo, index, scale⟩

namespace Coherent

variable {lookup : Lookup} {s : Browser}

theorem formed (h : Coherent s) {tree : Tree} (shown : s.tree = some tree) : tree.WellFormed := by
  cases h with
  | blank => cases shown
  | unindexed formed =>
    cases shown
    exact formed
  | indexed formed _ _ =>
    cases shown
    exact formed

/-- Growing the tree on show harms no index. -/
theorem grow (h : Coherent s) {tree : Tree} (shown : s.tree = some tree) {e : Elaborator}
    (grows : Elaborator.Grows lookup ⟨tree, s.memo⟩ e) :
    Coherent ⟨some e.tree, e.memo, s.index, s.scale⟩ := by
  have he := grows.wellFormed (h.formed shown)
  cases h with
  | blank => cases shown
  | unindexed _ => exact .unindexed he
  | indexed formed status tells =>
    cases shown
    exact .indexed he status (tells.mono grows.extends formed he)

end Coherent

theorem Calls.coherent {lookup : Lookup} {s t : Browser} (left : Calls lookup s t)
    (h : Coherent s) : Coherent t := by
  have fresh : ∀ top scale, Coherent ⟨some (.ofTop top), ∅, {}, scale⟩ :=
    fun top _ => .unindexed (Tree.wellFormed_ofTop top)
  have grow : ∀ s tree e, Coherent s → s.tree = some tree →
      Elaborator.Grows lookup ⟨tree, s.memo⟩ e → Coherent ⟨some e.tree, e.memo, s.index, s.scale⟩ :=
    fun _ _ _ hs shown grows => hs.grow shown grows
  cases left with
  | select top left => exact left.holds h (meets_select fresh s top) fun _ _ ht => ht
  | children id left => exact left.holds h (meets_children grow h id) fun _ _ ht => ht
  | build top cancelAfter left =>
    have htelling := @Indexer.meets_build_telling lookup ⟨⟨.ofTop top, ∅⟩, {}⟩
      (Tree.wellFormed_ofTop top) s.scale cancelAfter
    exact left.holds h (meets_build (htelling.imp
      (fun _ hj => .indexed hj.formed hj.status hj.tells)
      fun _ _ hj => .indexed hj.formed hj.status hj.tells)) fun _ _ ht => ht
  | resolvePath top path left =>
    exact left.holds h (meets_resolvePath grow fresh (fun _ _ hs shown => hs.formed shown) h top path)
      fun _ _ ht => ht

theorem Reached.coherent {b : Browser} (h : Reached b) : Coherent b := by
  induction h with
  | start scale => exact .blank
  | call _ left ih => exact left.coherent ih

/-- The index of a browser never holds a stale node: without a top or a pass it is empty, and
else it has the top on show, and each instance it records is a node of the tree on show that has
that definition and that path and can be seen from the top. -/
theorem index_of_reached {b : Browser} (reached : Reached b) :
    (b.tree = none ∨ b.index.status = .empty →
      b.index.entries = ∅ ∧ b.index.top = none ∧ b.index.visited = 0 ∧ b.index.truncated = 0) ∧
    ∀ tree, b.tree = some tree → b.index.status ≠ .empty →
      b.index.top = some tree.top ∧
      ∀ d path id, (path, id) ∈ b.index.instancesOf d →
        tree.contains id ∧
        (∃ node, tree.node? id = some node ∧ node.isInstance ∧ node.definitionId = some d) ∧
        tree.path? id = some path ∧ ∃ position, tree.at? position = some id := by
  cases reached.coherent with
  | blank => exact ⟨fun _ => ⟨rfl, rfl, rfl, rfl⟩, fun _ shown => by cases shown⟩
  | unindexed _ => exact ⟨fun _ => ⟨rfl, rfl, rfl, rfl⟩, fun _ _ begun => absurd rfl begun⟩
  | indexed _ status tells =>
    refine ⟨fun blank => ?_, ?_⟩
    · obtain blank | blank := blank
      · cases blank
      · exact absurd blank status
    · intro tree shown _
      cases shown
      refine ⟨tells.top_eq, ?_⟩
      intro d path id hmem
      obtain ⟨⟨node, hnode, hinst, hpath⟩, seen⟩ :=
        tells.recorded (InstanceIndex.mem_instancesOf.1 hmem)
      obtain ⟨hkind, hdef⟩ : node.isInstance ∧ node.definitionId = some d := by
        simpa [Node.instanceOf] using hinst
      exact ⟨by simpa [Tree.contains] using Tree.lt_size_of_node? hnode,
        ⟨node, hnode, hkind, hdef⟩, hpath, seen⟩

/-- A pass over the self-nesting design, abandoned when it had just found the inner instance. -/
theorem index_of_reached_selfNesting :
    let b := ((build .selfNesting .selfNesting none).drive (some 3) {}).state
    b.index.status = .inProgress ∧ b.index.instancesOf Symbol.selfNesting.id = [("m.b.u", ⟨2⟩)] ∧
      ∃ tree, b.tree = some tree ∧ b.index.top = some tree.top ∧
        tree.path? ⟨2⟩ = some "m.b.u" ∧ ∃ position, tree.at? position = some ⟨2⟩ := by
  intro b
  have reached : Reached b :=
    @Reached.call .selfNesting _ _ (.start 64) (.build .selfNesting none ⟨some 3, rfl⟩)
  have status : b.index.status = .inProgress := by
    simp only [b, Call.drive, run_build, Indexer.run_build]
    decide +kernel
  have found : b.index.instancesOf Symbol.selfNesting.id = [("m.b.u", ⟨2⟩)] := by
    simp only [b, Call.drive, run_build, Indexer.run_build]
    decide +kernel
  obtain ⟨tree, shown⟩ : ∃ tree, b.tree = some tree := by
    rw [← Option.isSome_iff_exists]
    simp only [b, Call.drive, run_build, Indexer.run_build]
    decide +kernel
  obtain ⟨top_eq, recorded⟩ := (index_of_reached reached).2 tree shown (by simp [status])
  obtain ⟨-, -, hpath, seen⟩ := recorded _ "m.b.u" ⟨2⟩ (by rw [found]; exact List.mem_singleton.2 rfl)
  exact ⟨status, found, tree, shown, top_eq, hpath, seen⟩

end Browser

end DesignHierarchy
