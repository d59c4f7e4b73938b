import DesignHierarchy.Proofs.Unambiguous

/-! The index as a shortcut. A browser asks its index for an instance before it walks
the tree on show. Either way the answer is an instance of the definition that has the
path; but of several with one path the index knows the one met last, and a walk takes
the first at each step, so they may answer differently where paths are ambiguous. -/
namespace DesignHierarchy

namespace Tree

/-- The instance of a definition at a path, for a browser without an index. -/
def reveal (tree : Tree) (definition : Symbol) (path : String) : Except BrowseError NodeId :=
  match tree.locate path with
  | .error cause => .error (.path cause)
  | .ok id =>
    if (tree.node? id).any (·.instanceOf = some definition.id) then .ok id
    else .error (.path (.notAnInstanceOf path definition.name))

variable {tree : Tree} {path : String} {id : NodeId}

theorem reveal_eq_ok_iff {definition : Symbol} :
    tree.reveal definition path = .ok id ↔ tree.locate path = .ok id ∧
      ∃ node, tree.node? id = some node ∧ node.instanceOf = some definition.id := by
  unfold reveal
  cases tree.locate path with
  | error cause => simp
  | ok found =>
    dsimp only
    split
    · rename_i hinst
      rw [Option.any_eq_true] at hinst
      constructor
      · intro h
        cases h
        exact ⟨rfl, by simpa using hinst⟩
      · rintro ⟨h, -⟩
        cases h
        rfl
    · rename_i hinst
      constructor
      · intro h
        cases h
      · rintro ⟨h, node, hnode, hdef⟩
        cases h
        simp [hnode, hdef] at hinst

/-- A walk ends where the path as it is given leads, or the path below the top. -/
theorem path?_of_locate (formed : tree.WellFormed) (h : tree.locate path = .ok id)
    (hid : tree.contains id) (hne : id ≠ .root) :
    tree.path? id = some (DottedPath.stripIndices path) ∨
      tree.path? id = some (tree.top.name ++ "." ++ DottedPath.stripIndices path) := by
  have hround := DottedPath.ofNames_segments (DottedPath.stripIndices path)
  rw [locate_eq_follow, DottedPath.names] at h
  have hnames := namesTo_of_follow formed h
  rw [formed.namesTo_root, List.singleton_append] at hnames
  rw [path?, if_pos hid, hnames]
  cases hsegments : DottedPath.segments (DottedPath.stripIndices path) with
  | nil =>
    rw [hsegments] at h
    cases h
    exact absurd rfl hne
  | cons first rest =>
    rw [hsegments] at hround
    unfold relative
    dsimp only
    split
    · rename_i htop
      left
      rw [htop.1, hround]
    · right
      rw [DottedPath.ofNames_cons _ (List.cons_ne_nil _ _), hround]

end Tree

namespace Browser

variable {b : Browser} {tree : Tree}

/-- The same browser, with nothing in its index. -/
def unindexed (b : Browser) : Browser := { b with index := {} }

theorem run_reveal (b : Browser) (definition : Symbol) (path : String) :
    (reveal definition path).run b = (explain path (b.instanceAt definition path)).run b := by
  unfold reveal
  rw [Call.run_bind, Call.run_gets, Run.bind_done, Run.after_nil]

theorem value_reveal (b : Browser) (definition : Symbol) (path : String) :
    ((reveal definition path).run b).value = b.instanceAt definition path := by
  rw [run_reveal]
  unfold explain
  split
  · rename_i cause h
    rw [h]
    rfl
  · rfl

/-- What is written is decided by the answer. -/
theorem journal_reveal_congr {c : Browser} {definition : Symbol} {path : String}
    (h : b.instanceAt definition path = c.instanceAt definition path) :
    ((reveal definition path).run b).journal = ((reveal definition path).run c).journal := by
  rw [run_reveal, run_reveal, h]
  unfold explain
  split <;> rfl

theorem instanceAt_eq (shown : b.tree = some tree) (definition : Symbol) (path : String) :
    b.instanceAt definition path =
      match b.index.reveal definition.id path with
      | some id => .ok id
      | none => tree.reveal definition path := by
  unfold instanceAt
  rw [shown]
  rfl

theorem instanceAt_unindexed (shown : b.tree = some tree) (definition : Symbol) (path : String) :
    b.unindexed.instanceAt definition path = tree.reveal definition path :=
  instanceAt_eq (b := b.unindexed) shown definition path

section Coherent

variable (coherent : b.Coherent) (shown : b.tree = some tree) {definition : Symbol} {path : String}

include coherent shown

/-- An index that finds anything tells of the tree on show. -/
theorem tells_of_reveal {id : NodeId} (h : b.index.reveal definition.id path = some id) :
    b.index.TellsOf tree := by
  cases coherent with
  | blank => cases shown
  | unindexed _ => cases h
  | indexed _ _ tells =>
    cases shown
    exact tells

/-- The index does no harm just where it finds what a walk finds. -/
theorem instanceAt_eq_reveal_iff :
    b.instanceAt definition path = tree.reveal definition path ↔
      ∀ id, b.index.reveal definition.id path = some id → tree.locate path = .ok id := by
  rw [instanceAt_eq shown]
  cases hindex : b.index.reveal definition.id path with
  | none => simp
  | some found =>
    have hnode := (tells_of_reveal coherent shown hindex).node_of_reveal hindex
    constructor
    · rintro h id ⟨⟩
      exact (Tree.reveal_eq_ok_iff.1 h.symm).1
    · intro h
      exact (Tree.reveal_eq_ok_iff.2 ⟨h found rfl, hnode⟩).symm

theorem instance_of_instanceAt {id : NodeId} (h : b.instanceAt definition path = .ok id) :
    (∃ node, tree.node? id = some node ∧ node.instanceOf = some definition.id) ∧
      (tree.path? id = some (DottedPath.stripIndices path) ∨
        tree.path? id = some (tree.top.name ++ "." ++ DottedPath.stripIndices path)) := by
  rw [instanceAt_eq shown] at h
  cases hindex : b.index.reveal definition.id path with
  | some found =>
    rw [hindex] at h
    cases h
    have tells := tells_of_reveal coherent shown hindex
    refine ⟨tells.node_of_reveal hindex, ?_⟩
    obtain ⟨-, ⟨-, node, -, -, hpath⟩ | ⟨node, -, -, hpath⟩⟩ := tells.instanceAt_of_reveal hindex
    · exact .inr hpath
    · exact .inl hpath
  | none =>
    rw [hindex] at h
    obtain ⟨hlocate, node, hnode, hinst⟩ := Tree.reveal_eq_ok_iff.1 h
    have formed := coherent.formed shown
    have hcontains : tree.contains id := by simpa [Tree.contains] using Tree.lt_size_of_node? hnode
    exact ⟨⟨node, hnode, hinst⟩, Tree.path?_of_locate formed hlocate hcontains
      (formed.ne_root_of_isInstance hnode (Node.instanceOf_eq_some_iff.1 hinst).1)⟩

end Coherent

/-- With an index, an instance is found as by a walk just where the index, if it finds a node, finds
the one that the walk ends at. So where paths are unambiguous the index changes nothing. -/
theorem reveal_of_reached (reached : b.Reached) (shown : b.tree = some tree) (definition : Symbol)
    (path : String) :
    let indexed := (reveal definition path).run b
    let walked := (reveal definition path).run b.unindexed
    walked.value = tree.reveal definition path ∧
      (indexed.value = walked.value ↔
        ∀ id, b.index.reveal definition.id path = some id → tree.locate path = .ok id) ∧
      (indexed.value = walked.value → indexed.journal = walked.journal) ∧
      (∀ id, indexed.value = .ok id →
        (∃ node, tree.node? id = some node ∧ node.isInstance ∧
          node.definitionId = some definition.id) ∧
        (tree.path? id = some (DottedPath.stripIndices path) ∨
          tree.path? id = some (tree.top.name ++ "." ++ DottedPath.stripIndices path))) ∧
      (tree.Unambiguous → indexed.value = walked.value) := by
  have coherent := reached.coherent
  have hwalked := instanceAt_unindexed shown definition path
  have hiff := @instanceAt_eq_reveal_iff b tree coherent shown definition path
  intro indexed walked
  simp only [indexed, walked, value_reveal]
  refine ⟨hwalked, by rw [hwalked]; exact hiff, journal_reveal_congr, ?_, ?_⟩
  · intro id h
    obtain ⟨⟨node, hnode, hinst⟩, hpath⟩ := instance_of_instanceAt coherent shown h
    exact ⟨⟨node, hnode, Node.instanceOf_eq_some_iff.1 hinst⟩, hpath⟩
  · intro plain
    rw [hwalked]
    refine hiff.2 fun id h => ?_
    exact (tells_of_reveal coherent shown h).locate_of_reveal h plain (coherent.formed shown)

end Browser

/-! A top with instances of one cell under it. -/

def Decl.cell : Decl where
  name := "cell"
  kind := .module

def Decl.cellNamed (name : String) : Decl where
  name := name
  kind := .inst
  typeRef := some "cell"

def Decl.topOver (children : List Decl) : Decl where
  name := "top"
  kind := .module
  children := children

def Symbol.cell : Symbol := (Decl.cell.freeze ⟨0⟩ 0).1

def Symbol.topOver (children : List Decl) : Symbol := ((Decl.topOver children).freeze ⟨0⟩ 1).1

def Lookup.cellAndTop (children : List Decl) : Lookup :=
  Workspace.lookup { store := Store.load {} ⟨"top.v"⟩ [.cell, .topOver children] }

namespace Browser

/-- A browser that has indexed all that is under the top. -/
def overTop (children : List Decl) : Browser :=
  ((build (.cellAndTop children) (.topOver children) none).run {}).state

theorem reached_overTop (children : List Decl) : (overTop children).Reached :=
  .call (.start 64) (.build (.topOver children) none (Call.leaves_run _ _))

/-- The index finds no other cell than a walk does when the two have different names. -/
theorem reveal_of_reached_apart :
    let b := overTop [.cellNamed "u", .cellNamed "v"]
    ((reveal .cell "top.v").run b).value = .ok ⟨2⟩ ∧
      ((reveal .cell "top.v").run b.unindexed).value = .ok ⟨2⟩ := by
  intro b
  have hplain : b.tree.map (fun tree => decide tree.Unambiguous) = some true := by
    simp only [b, overTop, run_build, Indexer.run_build]
    decide +kernel
  obtain ⟨tree, shown, hplain⟩ := Option.map_eq_some_iff.1 hplain
  obtain ⟨-, -, -, -, hsame⟩ := reveal_of_reached (reached_overTop _) shown .cell "top.v"
  have hindexed : ((reveal .cell "top.v").run b).value = .ok ⟨2⟩ := by
    simp only [b, overTop, run_build, Indexer.run_build]
    decide +kernel
  exact ⟨hindexed, (hsame (of_decide_eq_true hplain)).symm.trans hindexed⟩

/-- Where paths are ambiguous, the index and a walk may differ: of two siblings with one name, the
index finds the last and a walk the first, and past a child named like the top only the index takes
that name for the top's. -/
theorem reveal_ne_walked :
    (∃ b, b = overTop [.cellNamed "u", .cellNamed "u"] ∧
      b.Reached ∧ b.tree.any (·.isExpanded .root) ∧
      ((reveal .cell "top.u").run b).value = .ok ⟨2⟩ ∧
      ((reveal .cell "top.u").run b.unindexed).value = .ok ⟨1⟩) ∧
    (∃ b, b = overTop [.cellNamed "top", .cellNamed "u"] ∧
      b.Reached ∧ b.tree.any (·.isExpanded .root) ∧
      ((reveal .cell "top.u").run b).value = .ok ⟨2⟩ ∧
      ((reveal .cell "top.u").run b.unindexed).value =
        .error (.path (.segmentNotFound "u" "top"))) ∧
    ∃ b, b = overTop [.cellNamed "u.v"] ∧
      b.Reached ∧ b.tree.any (·.isExpanded .root) ∧
      ((reveal .cell "top.u.v").run b).value = .ok ⟨1⟩ ∧
      ((reveal .cell "top.u.v").run b.unindexed).value =
        .error (.path (.segmentNotFound "u" "top")) := by
  refine ⟨⟨_, rfl, reached_overTop _, ?_⟩, ⟨_, rfl, reached_overTop _, ?_⟩,
    _, rfl, reached_overTop _, ?_⟩
  all_goals simp only [overTop, run_build, Indexer.run_build]
  all_goals decide +kernel

end Browser

end DesignHierarchy
