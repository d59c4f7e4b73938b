import DesignHierarchy.Proofs.Growth

/-! Paths walked again. A walk searches one node after the other for the next name,
and resolving a path expands just these. Where all of them are expanded, the walk is
settled: resolving the path is reading it off the tree, nothing has to be asked, and
no later tree gives another answer, found or missed. -/
namespace DesignHierarchy

namespace Tree

variable {tree : Tree}

theorem isExpanded_iff {id : NodeId} : tree.isExpanded id ↔ ∃ cs, tree.children? id = some cs :=
  Option.isSome_iff_exists

theorem Extends.isExpanded {later : Tree} (h : tree.Extends later) {id : NodeId}
    (hid : tree.isExpanded id) : later.isExpanded id := by
  obtain ⟨cs, hcs⟩ := isExpanded_iff.1 hid
  exact isExpanded_iff.2 ⟨cs, h.children hcs⟩

theorem Extends.nameAt {later : Tree} (h : tree.Extends later) {id : NodeId} {node : Node}
    (hid : tree.node? id = some node) : later.nameAt id = tree.nameAt id := by
  rw [Tree.nameAt, Tree.nameAt, hid, h.node hid]

/-- The nodes that are searched when names are followed from a node. -/
def searched (tree : Tree) (id : NodeId) : List String → List NodeId
  | [] => []
  | name :: rest =>
    id :: match tree.child? id name with
      | some child => tree.searched child rest
      | none => []

/-- A leading name of the top is first searched for in the root. -/
def probed (tree : Tree) : List String → List NodeId
  | [] => []
  | first :: _ => if tree.top.name = first then [.root] else []

theorem Extends.probed {later : Tree} (h : tree.Extends later) (names : List String) :
    later.probed names = tree.probed names := by
  unfold Tree.probed
  rw [h.top]

/-- The nodes that a walk searches for the names of a path. -/
def searchedFor (tree : Tree) (path : String) : List NodeId :=
  tree.probed (DottedPath.names path) ++
    tree.searched .root (tree.relative (DottedPath.names path))

/-- A walk along the path needs no node that is not expanded yet. -/
def Settled (tree : Tree) (path : String) : Prop :=
  ∀ id ∈ tree.searchedFor path, tree.isExpanded id

theorem searched_cons_of_child? {id child : NodeId} {name : String} (rest : List String)
    (h : tree.child? id name = some child) :
    tree.searched id (name :: rest) = id :: tree.searched child rest := by
  rw [searched, h]

theorem searched_cons_of_missing {id : NodeId} {name : String} (rest : List String)
    (h : tree.child? id name = none) : tree.searched id (name :: rest) = [id] := by
  rw [searched, h]

section Growth

variable (formed : tree.WellFormed) {later : Tree} (hext : tree.Extends later)

include formed hext

/-- What was searched stays so, and what was found or missed there too. -/
theorem follow_of_searched {id : NodeId} {names : List String}
    (h : ∀ n ∈ tree.searched id names, tree.isExpanded n) :
    later.follow id names = tree.follow id names ∧
      later.searched id names = tree.searched id names := by
  induction names generalizing id with
  | nil => exact ⟨rfl, rfl⟩
  | cons name rest ih =>
    have hid : tree.isExpanded id := h id List.mem_cons_self
    obtain ⟨cs, hcs⟩ := isExpanded_iff.1 hid
    have hlater := hext.child? formed hcs name
    cases hchild : tree.child? id name with
    | some child =>
      rw [searched_cons_of_child? rest hchild] at h
      obtain ⟨hfollow, hsearched⟩ := ih fun n hn => h n (List.mem_cons_of_mem _ hn)
      rw [follow, follow, searched, searched, hlater, hchild]
      exact ⟨hfollow, congrArg (id :: ·) hsearched⟩
    | none =>
      obtain ⟨node, hnode⟩ := node?_of_children? hcs
      rw [follow, follow, searched, searched, hlater, hchild]
      exact ⟨by rw [notFound, notFound, hext.nameAt hnode], rfl⟩

theorem relative_of_probed {names : List String}
    (h : ∀ n ∈ tree.probed names, tree.isExpanded n) :
    later.relative names = tree.relative names := by
  cases names with
  | nil => rfl
  | cons first rest =>
    by_cases htop : tree.top.name = first
    · have hroot : tree.isExpanded .root := h .root (by simp [probed, htop])
      obtain ⟨cs, hcs⟩ := isExpanded_iff.1 hroot
      rw [relative, relative, hext.top, hext.child? formed hcs]
    · rw [relative, relative, hext.top, if_neg (fun h => htop h.1), if_neg (fun h => htop h.1)]

/-- No later tree answers a settled path in another way. -/
theorem Settled.kept {path : String} (settled : tree.Settled path) :
    later.Settled path ∧ later.locate path = tree.locate path := by
  have hrelative := relative_of_probed formed hext fun n hn =>
    settled n (List.mem_append_left _ hn)
  obtain ⟨hfollow, hsearched⟩ := follow_of_searched formed hext fun n hn =>
    settled n (List.mem_append_right _ hn)
  refine ⟨?_, ?_⟩
  · intro id hid
    rw [searchedFor, hext.probed, hrelative, hsearched] at hid
    exact hext.isExpanded (settled id hid)
  · rw [locate_eq_follow, locate_eq_follow, hrelative, hfollow]

end Growth

end Tree

namespace Elaborator

variable {lookup : Lookup} {s : Elaborator}

theorem run_locate (path : String) (s : Elaborator) :
    (locate path).run s = (explain path (s.tree.locate path)).run s := by
  unfold locate
  rw [Call.run_bind, Call.run_gets, Run.bind_done, Run.after_nil]

theorem run_explain_ok (path : String) (id : NodeId) (s : Elaborator) :
    (explain path (.ok id)).run s = .done s [] (.ok id) := rfl

/-! Where nothing has to be expanded, a call only reads the tree. -/

theorem run_findChild_of_isExpanded {id : NodeId} (h : s.tree.isExpanded id) (name : String) :
    (findChild lookup id name).run s = .done s [] (s.tree.child? id name) := by
  obtain ⟨cs, hcs⟩ := Tree.isExpanded_iff.1 h
  unfold findChild
  rw [Call.run_bind, run_expand_of_children? hcs, Run.bind_done, Run.after_nil, Call.run_gets,
    Tree.child?, hcs, Option.bind_some]

theorem run_follow_of_searched {id : NodeId} {names : List String}
    (h : ∀ n ∈ s.tree.searched id names, s.tree.isExpanded n) :
    (follow lookup id names).run s = .done s [] (s.tree.follow id names) := by
  induction names generalizing id with
  | nil => rfl
  | cons name rest ih =>
    have hid : s.tree.isExpanded id := h id List.mem_cons_self
    unfold follow Tree.follow
    rw [Call.run_bind, run_findChild_of_isExpanded hid, Run.bind_done, Run.after_nil]
    cases hchild : s.tree.child? id name with
    | none => rfl
    | some child =>
      rw [Tree.searched_cons_of_child? rest hchild] at h
      exact ih fun n hn => h n (List.mem_cons_of_mem _ hn)

theorem run_relative_of_probed {names : List String}
    (h : ∀ n ∈ s.tree.probed names, s.tree.isExpanded n) :
    (relative lookup names).run s = .done s [] (s.tree.relative names) := by
  cases names with
  | nil => rfl
  | cons first rest =>
    unfold relative
    rw [Call.run_bind, Call.run_gets, Run.bind_done, Run.after_nil]
    by_cases htop : s.tree.top.name = first
    · have hroot : s.tree.isExpanded .root := h .root (by simp [Tree.probed, htop])
      rw [if_pos htop, Call.run_bind, run_findChild_of_isExpanded hroot, Run.bind_done,
        Run.after_nil, Tree.relative]
      cases hchild : s.tree.child? .root first with
      | none => rw [if_pos ⟨htop, rfl⟩, Call.run_pure]
      | some child => rw [if_neg (by simp), Call.run_pure]
    · rw [if_neg htop, Call.run_pure, Tree.relative, if_neg fun h => htop h.1]

theorem run_resolvePath_of_settled {path : String} (settled : s.tree.Settled path) :
    (resolvePath lookup path).run s = (locate path).run s := by
  have hrelative := @run_relative_of_probed lookup s _ fun n hn =>
    settled n (List.mem_append_left _ hn)
  have hfollow := @run_follow_of_searched lookup s _ _ fun n hn =>
    settled n (List.mem_append_right _ hn)
  unfold resolvePath
  rw [Call.run_bind, hrelative, Run.bind_done, Run.after_nil, Call.run_bind, hfollow,
    Run.bind_done, Run.after_nil, run_locate, Tree.locate_eq_follow]

/-- Resolving a settled path changes nothing and asks for nothing. -/
theorem reads_of_settled (lookup : Lookup) {path : String} (settled : s.tree.Settled path) :
    let run := (resolvePath lookup path).run s
    run.value = s.tree.locate path ∧ run.state = s ∧ run.journal.asked = [] ∧ run.pauses = [] := by
  dsimp only
  rw [run_resolvePath_of_settled settled, run_locate]
  cases s.tree.locate path <;> exact ⟨rfl, rfl, rfl, rfl⟩

end Elaborator

/-! What a resolution expands. -/

namespace Tree

/-- The later tree is well formed and has all that the first one has, and these nodes are expanded
in it besides. -/
structure ExpandedAt (s : Tree) (ids : List NodeId) (t : Tree) : Prop where
  kept : s.Extends t
  formed : t.WellFormed
  isExpanded_iff : ∀ id, t.isExpanded id ↔ s.isExpanded id ∨ id ∈ ids

theorem ExpandedAt.refl {s : Tree} (formed : s.WellFormed) : s.ExpandedAt [] s :=
  ⟨.refl s, formed, by simp⟩

theorem ExpandedAt.trans {s t u : Tree} {a b : List NodeId} (hst : s.ExpandedAt a t)
    (htu : t.ExpandedAt b u) : s.ExpandedAt (a ++ b) u where
  kept := hst.kept.trans htu.kept
  formed := htu.formed
  isExpanded_iff := by
    intro id
    rw [htu.isExpanded_iff, hst.isExpanded_iff, List.mem_append, or_assoc]

end Tree

namespace Elaborator

variable {s : Elaborator}

theorem Expansion.isExpanded_iff {t : Elaborator} {id : NodeId} {cs : List NodeId} {node : Node}
    (h : Expansion s id cs t) (hid : s.tree.node? id = some node) (x : NodeId) :
    t.tree.isExpanded x ↔ s.tree.isExpanded x ∨ x ∈ [id] := by
  have hrecorded := h.recorded hid
  rw [List.mem_singleton]
  by_cases hx : x = id
  · subst hx
    simp [Tree.isExpanded, hrecorded]
  · have hsame : t.tree.children? x = s.tree.children? x := by
      cases h with
      | foreign => rfl
      | known => rfl
      | fresh => rw [Tree.children?_record, if_neg (fun h => hx h.1.symm), Tree.children?_addAll]
    simp [Tree.isExpanded, hsame, hx]

section Formed

variable (lookup : Lookup) (formed : s.tree.WellFormed)

include formed

theorem findChild_expands {id : NodeId} {node : Node} (hid : s.tree.node? id = some node)
    (name : String) :
    let run := (findChild lookup id name).run s
    s.tree.ExpandedAt [id] run.state.tree ∧ run.value = run.state.tree.child? id name := by
  have hexpansion := expansion_expand lookup s id
  have hformed := (grows_expand lookup s id).wellFormed formed
  dsimp only
  unfold findChild
  rw [Call.run_bind, Run.state_bind, Run.value_bind, Call.run_gets, Run.state, Run.value]
  refine ⟨⟨hexpansion.extends, hformed, hexpansion.isExpanded_iff hid⟩, ?_⟩
  rw [Tree.child?, hexpansion.recorded hid, Option.bind_some]

theorem follow_expands {id : NodeId} {node : Node} (hid : s.tree.node? id = some node)
    (names : List String) :
    let left := ((follow lookup id names).run s).state.tree
    s.tree.ExpandedAt (left.searched id names) left := by
  induction names generalizing s id node with
  | nil => exact .refl formed
  | cons name rest ih =>
    obtain ⟨hfirst, hvalue⟩ := findChild_expands lookup formed hid name
    dsimp only
    unfold follow
    rw [Call.run_bind, Run.state_bind, hvalue]
    generalize ((findChild lookup id name).run s).state = t at hfirst
    cases hchild : t.tree.child? id name with
    | none =>
      change s.tree.ExpandedAt (t.tree.searched id (name :: rest)) t.tree
      rw [Tree.searched_cons_of_missing rest hchild]
      exact hfirst
    | some child =>
      obtain ⟨cs, hcs, -, node', hnode', -⟩ := Tree.mem_of_child? hchild
      have hrest := ih hfirst.formed hnode'
      -- the child that was found is still the first of its name when the walk is over
      have hstill := hrest.kept.child? hfirst.formed hcs name
      rw [hchild] at hstill
      change s.tree.ExpandedAt
        (((follow lookup child rest).run t).state.tree.searched id (name :: rest)) _
      rw [Tree.searched_cons_of_child? rest hstill]
      exact hfirst.trans hrest

theorem relative_expands (names : List String) :
    let run := (relative lookup names).run s
    s.tree.ExpandedAt (s.tree.probed names) run.state.tree ∧
      ∀ later, run.state.tree.Extends later → run.value = later.relative names := by
  have hmeets := @meets_relative lookup (fun e => e.tree.WellFormed)
    (fun _ _ h step => step.wellFormed h) (fun _ h => h) s formed names
  refine ⟨?_, hmeets.2.2.2⟩
  cases names with
  | nil => exact .refl formed
  | cons first rest =>
    unfold relative
    rw [Call.run_bind, Call.run_gets, Run.bind_done, Run.after_nil, Tree.probed]
    by_cases htop : s.tree.top.name = first
    · obtain ⟨hfirst, -⟩ := findChild_expands lookup formed formed.root first
      rw [if_pos htop, if_pos htop, Call.run_bind, Run.state_bind]
      cases ((findChild lookup .root first).run s).value <;> exact hfirst
    · rw [if_neg htop, if_neg htop]
      exact .refl formed

/-- Resolving a path expands the nodes that the walk along it searches, and no others. -/
theorem resolvePath_expands (path : String) :
    let left := ((resolvePath lookup path).run s).state.tree
    s.tree.ExpandedAt (left.searchedFor path) left := by
  obtain ⟨hprobe, hnames⟩ := relative_expands lookup formed (DottedPath.names path)
  dsimp only
  unfold resolvePath
  rw [Call.run_bind, Run.state_bind, Call.run_bind, Run.state_bind]
  generalize ((relative lookup (DottedPath.names path)).run s).state = t at hprobe hnames
  generalize ((relative lookup (DottedPath.names path)).run s).value = names at hnames
  have hwalk := follow_expands lookup hprobe.formed hprobe.formed.root names
  have hexplain : ∀ answer (u : Elaborator), ((explain path answer).run u).state = u := by
    intro answer u
    cases answer <;> rfl
  rw [hexplain]
  generalize ((follow lookup .root names).run t).state = u at hwalk
  obtain rfl := hnames u.tree hwalk.kept
  have hall := hprobe.trans hwalk
  rw [Tree.searchedFor, hall.kept.probed]
  exact hall

end Formed

/-- A resolved path can be read off the tree that is left, and a second resolution changes nothing
and asks for nothing. The first one expanded the nodes in which it searched for a name, and no
others. -/
theorem resolvePath_retraced (reached : s.tree.Reached) (lookup : Lookup) (path : String) :
    let run := (resolvePath lookup path).run s
    let left := run.state.tree
    ((locate path).run run.state).value = run.value ∧
    (∀ (lookup' : Lookup) (memo : Memo),
      let again := (resolvePath lookup' path).run ⟨left, memo⟩
      again.value = run.value ∧ again.state = ⟨left, memo⟩ ∧
        again.journal.asked = [] ∧ again.pauses = []) ∧
    (∀ id, left.isExpanded id ↔ s.tree.isExpanded id ∨ id ∈ left.searchedFor path) ∧
    (DottedPath.stripIndices path = "" → run = .done s [] (.ok .root)) := by
  intro run left
  have formed := reached.wellFormed
  have expands := resolvePath_expands lookup formed path
  have hanswer := @meets_resolvePath lookup (fun e => e.tree.WellFormed)
    (fun _ _ h step => step.wellFormed h) (fun _ h => h) s formed path
  have hvalue : left.locate path = run.value := hanswer.2.2.2.symm
  refine ⟨(value_locate path run.state).trans hvalue, ?_, expands.isExpanded_iff, ?_⟩
  · intro lookup' memo
    have settled : left.Settled path := fun id hid => (expands.isExpanded_iff id).2 (.inr hid)
    obtain ⟨hread, hstill⟩ := reads_of_settled (s := ⟨left, memo⟩) lookup' settled
    exact ⟨hread.trans hvalue, hstill⟩
  · intro hempty
    have hnames : DottedPath.names path = [] := by
      rw [DottedPath.names, hempty, DottedPath.segments, if_pos rfl]
    have settled : s.tree.Settled path := by
      intro id hid
      rw [Tree.searchedFor, hnames] at hid
      cases hid
    have hlocate : s.tree.locate path = .ok .root := by
      rw [Tree.locate, hnames]
    change (resolvePath lookup path).run s = _
    rw [run_resolvePath_of_settled settled, run_locate, hlocate, run_explain_ok]

/-- After an abandoned expansion of the clocked module, a path is resolved that misses its last
name. The root is searched twice, once for the name of the top, and then the inner instance; in an
empty workspace the path is missed in the same way. -/
theorem resolvePath_retraced_abandoned :
    let run := (resolvePath .clocked "m.u[7].v").run .abandoned
    run.value = .error (.segmentNotFound "v" "u") ∧
      run.state.tree.searchedFor "m.u[7].v" = [.root, .root, ⟨3⟩] ∧
      Elaborator.abandoned.tree.isExpanded .root = false ∧ run.state.tree.isExpanded ⟨3⟩ ∧
      ((locate "m.u[7].v").run run.state).value = .error (.segmentNotFound "v" "u") ∧
      ((resolvePath (Workspace.lookup {}) "m.u[7].v").run ⟨run.state.tree, ∅⟩).value =
        .error (.segmentNotFound "v" "u") := by
  intro run
  have hvalue : run.value = .error (.segmentNotFound "v" "u") := by decide +kernel
  have hsearched : run.state.tree.searchedFor "m.u[7].v" = [.root, .root, ⟨3⟩] := by decide +kernel
  obtain ⟨hlocate, hagain, hexpanded, -⟩ :=
    resolvePath_retraced reached_abandoned .clocked "m.u[7].v"
  refine ⟨hvalue, hsearched, by decide +kernel, (hexpanded ⟨3⟩).2 (.inr ?_),
    hlocate.trans hvalue, (hagain _ ∅).1.trans hvalue⟩
  exact hsearched ▸ by simp

end Elaborator

/-! What is located stays located. -/

namespace Tree

variable {tree : Tree}

/-- A walk along the path comes to a node that has no child of the next name. -/
def FailsIn (tree : Tree) (path : String) (stop : NodeId) (cause : PathError) : Prop :=
  ∃ before missing rest, tree.relative (DottedPath.names path) = before ++ missing :: rest ∧
    tree.follow .root before = .ok stop ∧ tree.child? stop missing = none ∧
    cause = .segmentNotFound missing (tree.nameAt stop)

/-- Names that could not be followed are followed up to a node that lacks the next one. -/
theorem exists_missing_of_follow {id : NodeId} {names : List String} {cause : PathError}
    (h : tree.follow id names = .error cause) :
    ∃ before missing rest stop, names = before ++ missing :: rest ∧
      tree.follow id before = .ok stop ∧ tree.child? stop missing = none ∧
      cause = .segmentNotFound missing (tree.nameAt stop) := by
  induction names generalizing id with
  | nil => cases h
  | cons name rest ih =>
    cases hchild : tree.child? id name with
    | none =>
      rw [follow, hchild] at h
      cases h
      exact ⟨[], name, rest, id, rfl, rfl, hchild, rfl⟩
    | some child =>
      rw [follow, hchild] at h
      obtain ⟨before, missing, after, stop, hnames, hfollow, hmissing, hcause⟩ := ih h
      refine ⟨name :: before, missing, after, stop, by rw [hnames]; rfl, ?_, hmissing, hcause⟩
      rw [follow, hchild]
      exact hfollow

theorem locate_eq_error_iff {path : String} {cause : PathError} :
    tree.locate path = .error cause ↔ ∃ stop, tree.FailsIn path stop cause := by
  rw [locate_eq_follow]
  constructor
  · intro h
    obtain ⟨before, missing, rest, stop, hfails⟩ := exists_missing_of_follow h
    exact ⟨stop, before, missing, rest, hfails⟩
  · rintro ⟨stop, before, missing, rest, hnames, hfollow, hmissing, rfl⟩
    rw [hnames, follow_append hfollow, follow, hmissing]
    rfl

theorem isExpanded_of_child? {id child : NodeId} {name : String}
    (h : tree.child? id name = some child) : tree.isExpanded id := by
  obtain ⟨cs, hcs, -⟩ := mem_of_child? h
  exact isExpanded_iff.2 ⟨cs, hcs⟩

theorem isExpanded_of_follow {id last : NodeId} {names : List String}
    (h : tree.follow id names = .ok last) : ∀ n ∈ tree.searched id names, tree.isExpanded n := by
  induction names generalizing id with
  | nil => simp [searched]
  | cons name rest ih =>
    obtain ⟨child, hchild, hrest⟩ := follow_cons h
    rw [searched_cons_of_child? rest hchild]
    exact List.forall_mem_cons.2 ⟨isExpanded_of_child? hchild, ih hrest⟩

theorem searched_append {id mid : NodeId} {names : List String}
    (h : tree.follow id names = .ok mid) (more : List String) :
    tree.searched id (names ++ more) = tree.searched id names ++ tree.searched mid more := by
  induction names generalizing id with
  | nil =>
    cases h
    rfl
  | cons name rest ih =>
    obtain ⟨child, hchild, hrest⟩ := follow_cons h
    rw [List.cons_append, searched_cons_of_child? _ hchild, searched_cons_of_child? _ hchild,
      ih hrest, List.cons_append]

section Root

variable (expanded : tree.isExpanded .root) {path : String}

include expanded

theorem settled_of_searched
    (h : ∀ n ∈ tree.searched .root (tree.relative (DottedPath.names path)), tree.isExpanded n) :
    tree.Settled path := by
  intro id hid
  obtain hid | hid := List.mem_append.1 hid
  · have hroot : id = .root := by
      unfold probed at hid
      split at hid
      · cases hid
      · split at hid
        · exact List.mem_singleton.1 hid
        · cases hid
    rw [hroot]
    exact expanded
  · exact h id hid

theorem settled_of_locate {id : NodeId} (h : tree.locate path = .ok id) : tree.Settled path := by
  rw [locate_eq_follow] at h
  exact settled_of_searched expanded (isExpanded_of_follow h)

/-- A miss is final where the children of the node are known. -/
theorem settled_of_failsIn {stop : NodeId} {cause : PathError}
    (fails : tree.FailsIn path stop cause) (hstop : tree.isExpanded stop) : tree.Settled path := by
  obtain ⟨before, missing, rest, hnames, hfollow, hmissing, -⟩ := fails
  apply settled_of_searched expanded
  rw [hnames, searched_append hfollow, searched_cons_of_missing rest hmissing]
  intro n hn
  obtain hn | hn := List.mem_append.1 hn
  · exact isExpanded_of_follow hfollow n hn
  · rw [List.mem_singleton.1 hn]
    exact hstop

end Root

/-- Once the root is expanded, a node that the walk finds is the one that resolving the path finds,
on this tree and on every tree that it grows into. A walk that fails in an expanded node fails in
the same way ever after. -/
theorem located_of_grown (reached : tree.Reached) (expanded : tree.isExpanded .root)
    (path : String) :
    (∀ id, tree.locate path = .ok id → ∀ later, tree.Grown later →
      later.locate path = .ok id ∧ ∀ (lookup : Lookup) (memo : Memo),
        (Elaborator.resolvePath lookup path).run ⟨later, memo⟩ = .done ⟨later, memo⟩ [] (.ok id)) ∧
    (∀ cause, tree.locate path = .error cause ↔ ∃ stop, tree.FailsIn path stop cause) ∧
    ∀ stop cause, tree.FailsIn path stop cause → tree.isExpanded stop →
      ∀ later, tree.Grown later →
        later.locate path = .error cause ∧ ∀ (lookup : Lookup) (memo : Memo),
          (Elaborator.resolvePath lookup path).run ⟨later, memo⟩ =
            .done ⟨later, memo⟩ [.event (cause.event path)] (.error cause) := by
  have formed := reached.wellFormed
  -- on a later tree, resolving a settled path is to explain what was located on the first one
  have hlater : tree.Settled path → ∀ later, tree.Grown later →
      later.locate path = tree.locate path ∧ ∀ (lookup : Lookup) (memo : Memo),
        (Elaborator.resolvePath lookup path).run ⟨later, memo⟩ =
          (Elaborator.explain path (tree.locate path)).run ⟨later, memo⟩ := by
    intro settled later grown
    obtain ⟨hsettled, hlocate⟩ := settled.kept formed (grown.keeps formed).1
    refine ⟨hlocate, fun lookup memo => ?_⟩
    rw [Elaborator.run_resolvePath_of_settled (s := ⟨later, memo⟩) hsettled, Elaborator.run_locate,
      hlocate]
  refine ⟨?_, fun _ => locate_eq_error_iff, ?_⟩
  · intro id h
    have hfound := hlater (settled_of_locate expanded h)
    rw [h] at hfound
    exact hfound
  · intro stop cause fails hstop
    have hmissed := hlater (settled_of_failsIn expanded fails hstop)
    rw [locate_eq_error_iff.2 ⟨stop, fails⟩] at hmissed
    exact hmissed

/-- Under the clocked module the inner instance was found, and then an expansion of it abandoned,
which left a node for its port. The instance is still found and what the root lacks still missed, in
an empty workspace too. -/
theorem located_of_grown_abandoned :
    let tree := ((Elaborator.expand .clocked .root).run ⟨.ofTop .clocked, ∅⟩).state.tree
    let later := ((Elaborator.expand .clocked ⟨2⟩).drive (some 1) ⟨tree, ∅⟩).state.tree
    tree.size = 3 ∧ later.size = 4 ∧ tree.isExpanded .root ∧ tree.locate "m.u" = .ok ⟨2⟩ ∧
      later.locate "m.u" = .ok ⟨2⟩ ∧ tree.FailsIn "m.x" .root (.segmentNotFound "x" "m") ∧
      later.locate "m.x" = .error (.segmentNotFound "x" "m") ∧
      (Elaborator.resolvePath (Workspace.lookup {}) "m.u").run ⟨later, ∅⟩ =
        .done ⟨later, ∅⟩ [] (.ok ⟨2⟩) := by
  intro tree later
  have reached : tree.Reached :=
    @Reached.call .clocked ⟨.ofTop .clocked, ∅⟩ _ (.ofTop .clocked)
      (.expand .root (Call.leaves_run _ _))
  have grown : tree.Grown later :=
    @Grown.call tree .clocked ⟨tree, ∅⟩ _ .refl (.expand ⟨2⟩ ⟨some 1, rfl⟩)
  have expanded : tree.isExpanded .root := by decide +kernel
  have found : tree.locate "m.u" = .ok ⟨2⟩ := by decide +kernel
  have fails : tree.FailsIn "m.x" .root (.segmentNotFound "x" "m") :=
    ⟨[], "x", [], by decide +kernel, rfl, by decide +kernel, by decide +kernel⟩
  obtain ⟨hkept, hresolved⟩ := (located_of_grown reached expanded "m.u").1 ⟨2⟩ found later grown
  have hmissed := (located_of_grown reached expanded "m.x").2.2 .root _ fails expanded later grown
  exact ⟨by decide +kernel, by decide +kernel, expanded, found, hkept, fails, hmissed.1,
    hresolved _ ∅⟩

end Tree

end DesignHierarchy
