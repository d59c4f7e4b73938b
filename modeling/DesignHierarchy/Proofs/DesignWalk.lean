import DesignHierarchy.Proofs.Browsing
import DesignHierarchy.Proofs.Places

/-! Paths over a design. A path is walked over symbols alone, from declared child to
definition to declared child, and a browser resolves it to what this walk comes to,
whatever nodes, answers and instances its history has left it with. -/
namespace DesignHierarchy

/-- A symbol as a walk comes to it. -/
structure Occurrence where
  symbol : Symbol
  /-- Where the walk goes on. -/
  definition : Option Symbol
  /-- The names on the way to it, with that of the top. -/
  names : List String

namespace Occurrence

def ofTop (top : Symbol) : Occurrence := ⟨top, some top, [top.name]⟩

def shown (here : Occurrence) : List Symbol := (here.definition.map (·.shown)).getD []

/-- A child goes on in its own definition: a block in itself, an instance in what the lookup gives
for its type. -/
def enter (lookup : Lookup) (here : Occurrence) (child : Symbol) : Occurrence :=
  ⟨child, child.scope (lookup.answer child), here.names ++ [child.name]⟩

/-- The first shown child with this name. -/
def child? (lookup : Lookup) (here : Occurrence) (name : String) : Option Occurrence :=
  (here.shown.find? (·.name = name)).map (here.enter lookup)

def follow (lookup : Lookup) (here : Occurrence) : List String → Except PathError Occurrence
  | [] => .ok here
  | name :: rest =>
    match here.child? lookup name with
    | some next => next.follow lookup rest
    | none => .error (.segmentNotFound name here.symbol.name)

theorem child?_ofTop_eq_none {lookup : Lookup} {top : Symbol} {name : String} :
    (ofTop top).child? lookup name = none ↔ ∀ child ∈ top.shown, child.name ≠ name := by
  simp [child?, shown, ofTop]

end Occurrence

/-- The names to follow from the top, without a leading name of its own. -/
def Symbol.relative (top : Symbol) : List String → List String
  | [] => []
  | first :: rest =>
    if first = top.name ∧ ∀ child ∈ top.shown, child.name ≠ first then rest else first :: rest

/-- Walks a path over the design under `top`. -/
def Lookup.walk (lookup : Lookup) (top : Symbol) (path : String) : Except PathError Occurrence :=
  (Occurrence.ofTop top).follow lookup (top.relative (DottedPath.names path))

def Place.occurrence (place : Place) : Occurrence := ⟨place.symbol, place.definition, place.names⟩

theorem Place.occurrence_child (lookup : Lookup) (place : Place) (symbol : Symbol) :
    (place.child lookup symbol).occurrence = place.occurrence.enter lookup symbol := by
  unfold child
  cases hkind : symbol.kind <;> simp [occurrence, Occurrence.enter, Symbol.scope, hkind]

namespace Tree

/-- What stands at a node, as a walk comes to it. -/
def occurrence? (tree : Tree) (id : NodeId) : Option Occurrence :=
  (tree.place? id).map (·.occurrence)

theorem Extends.occurrence? {s t : Tree} (h : s.Extends t) (hs : s.WellFormed) (ht : t.WellFormed)
    {id : NodeId} {here : Occurrence} (hid : s.occurrence? id = some here) :
    t.occurrence? id = some here := by
  obtain ⟨place, hplace, rfl⟩ := Option.map_eq_some_iff.1 hid
  obtain ⟨node, hnode, -⟩ := Option.map_eq_some_iff.1 hplace
  rw [Tree.occurrence?, h.place? hs.parentsFirst ht.parentsFirst (lt_size_of_node? hnode), hplace]
  rfl

theorem node?_of_occurrence? {tree : Tree} {id : NodeId} {here : Occurrence}
    (h : tree.occurrence? id = some here) :
    ∃ node, tree.node? id = some node ∧ node.symbol = here.symbol ∧
      node.definition = here.definition ∧ tree.path? id = some (DottedPath.ofNames here.names) := by
  obtain ⟨place, hplace, rfl⟩ := Option.map_eq_some_iff.1 h
  have hpath := path?_of_place? hplace
  obtain ⟨node, hnode, rfl⟩ := Option.map_eq_some_iff.1 hplace
  exact ⟨node, hnode, rfl, rfl, hpath⟩

theorem named?_eq (tree : Tree) (name : String) (ids : List NodeId) :
    tree.named? name ids =
      ids.find? fun id => (tree.occurrence? id).any (·.symbol.name = name) := by
  unfold named?
  congr 1
  funext id
  unfold occurrence? place?
  cases tree.node? id <;> rfl

end Tree

namespace Elaborator

variable {lookup : Lookup} {top : Symbol} {s : Elaborator}

section Sound

variable (sound : s.Sound lookup top)

include sound

theorem Sound.occurrence?_root : s.tree.occurrence? .root = some (.ofTop top) := by
  rw [Tree.occurrence?, sound.place?_root]
  rfl

/-- In a tree, the first child of a name is where the walk goes next. -/
theorem Sound.occurrence?_child {id : NodeId} {here : Occurrence}
    (hid : s.tree.occurrence? id = some here) {cs : List NodeId}
    (hcs : s.tree.children? id = some cs) (name : String) :
    (s.tree.child? id name).map s.tree.occurrence? = (here.child? lookup name).map some := by
  obtain ⟨place, hplace, rfl⟩ := Option.map_eq_some_iff.1 hid
  have hplaces : cs.map s.tree.occurrence? =
      place.shown.map fun child => some (place.occurrence.enter lookup child) := by
    have hmap := congrArg (List.map (Option.map (·.occurrence)))
      (sound.places_of_children hplace hcs)
    rw [List.map_map, List.map_map, Place.children, List.map_map] at hmap
    refine hmap.trans (List.map_congr_left fun child _ => ?_)
    exact congrArg some (place.occurrence_child lookup child)
  have hfind := congrArg (List.find? fun found => found.any (·.symbol.name = name)) hplaces
  rw [List.find?_map, List.find?_map] at hfind
  rw [Tree.child?, hcs, Option.bind_some, Tree.named?_eq, Occurrence.child?, Option.map_map]
  exact hfind

end Sound

theorem closed_sound (s t : Elaborator) (h : s.Sound lookup top) (step : Step lookup s t) :
    t.Sound lookup top :=
  step.sound h

/-- Following names expands what the walk passes, and comes to where the walk comes to. -/
theorem meets_follow_walk (sound : s.Sound lookup top) {id : NodeId} {here : Occurrence}
    (hid : s.tree.occurrence? id = some here) (names : List String) :
    ((follow lookup id names).run s).Meets (Sound lookup top) fun answer t =>
      t.Sound lookup top ∧
        answer.map t.tree.occurrence? = (here.follow lookup names).map some := by
  induction names generalizing s id here with
  | nil =>
    rw [follow, Call.run_pure, Run.meets_done]
    exact ⟨sound, congrArg Except.ok hid⟩
  | cons name rest ih =>
    unfold follow
    apply (meets_findChild closed_sound sound id name).bind
    rintro found t ⟨ht, hext, hfound⟩
    obtain ⟨node, hnode, -⟩ := Tree.node?_of_occurrence? hid
    obtain ⟨⟨cs, hcs⟩, rfl⟩ := hfound node hnode
    -- the children are recorded now, so a name that the tree misses is one that the walk misses
    have hthere := hext.occurrence? sound.formed ht.formed hid
    have hstep := ht.occurrence?_child hthere hcs name
    unfold Occurrence.follow
    cases hchild : t.tree.child? id name with
    | none =>
      rw [hchild, Option.map_none, eq_comm, Option.map_eq_none_iff] at hstep
      obtain ⟨node', hnode', hsymbol, -⟩ := Tree.node?_of_occurrence? hthere
      simp only [Call.run_bind, Call.run_gets, Run.bind_done, Call.run_pure, Run.meets_after,
        Run.meets_done, hstep]
      refine ⟨ht, ?_⟩
      simp [Except.map, Tree.notFound, Tree.nameAt, hnode', Node.name, hsymbol]
    | some c =>
      rw [hchild, Option.map_some, eq_comm] at hstep
      obtain ⟨next, hnext, hc⟩ := Option.map_eq_some_iff.1 hstep
      rw [hnext]
      exact ih ht hc.symm

theorem meets_relative_walk (sound : s.Sound lookup top) (names : List String) :
    ((relative lookup names).run s).Meets (Sound lookup top) fun answer t =>
      t.Sound lookup top ∧ answer = top.relative names := by
  cases names with
  | nil =>
    rw [relative, Call.run_pure, Run.meets_done]
    exact ⟨sound, rfl⟩
  | cons first rest =>
    unfold relative
    rw [Call.run_bind, Call.run_gets, Run.bind_done, Run.after_nil, sound.top_eq]
    by_cases htop : top.name = first
    · rw [if_pos htop]
      apply (meets_findChild closed_sound sound .root first).bind
      rintro found t ⟨ht, -, hfound⟩
      obtain ⟨⟨cs, hcs⟩, rfl⟩ := hfound _ sound.formed.root
      have hstep := ht.occurrence?_child ht.occurrence?_root hcs first
      have hnone : t.tree.child? .root first = none ↔ ∀ child ∈ top.shown, child.name ≠ first := by
        rw [← Occurrence.child?_ofTop_eq_none, ← Option.map_eq_none_iff, hstep,
          Option.map_eq_none_iff]
      cases hchild : t.tree.child? .root first with
      | none =>
        rw [Call.run_pure, Run.meets_done]
        exact ⟨ht, (if_pos ⟨htop.symm, hnone.1 hchild⟩).symm⟩
      | some child =>
        rw [Call.run_pure, Run.meets_done]
        refine ⟨ht, (if_neg fun h => ?_).symm⟩
        rw [hnone.2 h.2] at hchild
        cases hchild
    · rw [if_neg htop, Call.run_pure, Run.meets_done]
      exact ⟨sound, (if_neg fun h => htop h.1.symm).symm⟩

theorem meets_resolvePath_walk (sound : s.Sound lookup top) (path : String) :
    ((resolvePath lookup path).run s).Meets (Sound lookup top) fun answer t =>
      t.Sound lookup top ∧
        answer.map t.tree.occurrence? = (lookup.walk top path).map some := by
  unfold resolvePath
  apply (meets_relative_walk sound (DottedPath.names path)).bind
  rintro names t ⟨ht, rfl⟩
  apply (meets_follow_walk ht ht.occurrence?_root _).bind
  rintro answer u ⟨hu, hwalk⟩
  unfold explain
  cases answer with
  | ok id =>
    rw [Call.run_pure, Run.meets_done]
    exact ⟨hu, hwalk⟩
  | error cause =>
    simp only [Call.emit, Call.run_bind, Call.run_log, Run.bind_done, Call.run_pure,
      Run.meets_after, Run.meets_done]
    exact ⟨hu, hwalk⟩

/-- Only the answers of a lookup matter, not whether it suspends. -/
theorem Sound.congr {other : Lookup} (same : other.find = lookup.find) (h : s.Sound other top) :
    s.Sound lookup top := by
  have hdefinition : other.definition? = lookup.definition? := by
    funext name
    rw [Lookup.definition?, Lookup.definition?, same]
  refine ⟨h.formed, h.top_eq, ?_, ?_⟩
  · intro name answer hanswer
    rw [h.remembered hanswer, hdefinition]
  · intro id node hnode hid
    rw [h.answered hnode hid, Lookup.answer, Lookup.answer, hdefinition]

end Elaborator

namespace Browser

variable {lookup : Lookup}

/-- A browser that calls can reach while each name is answered in one way; the searches may
suspend at some times and not at others. -/
inductive ReachedOver (lookup : Lookup) : Browser → Prop
  | start (scale : UInt32) : ReachedOver lookup { scale }
  | call {other : Lookup} {s t : Browser} (same : other.find = lookup.find)
      (before : ReachedOver lookup s) (left : Calls other s t) : ReachedOver lookup t

/-- The tree on show is one of its top under this lookup, and what is remembered are its
answers. -/
def Faithful (lookup : Lookup) (b : Browser) : Prop :=
  ∀ tree, b.tree = some tree → Elaborator.Sound lookup tree.top ⟨tree, b.memo⟩

theorem faithful_of_sound {top : Symbol} {e : Elaborator} (h : e.Sound lookup top)
    (index : InstanceIndex) (scale : UInt32) :
    Faithful lookup ⟨some e.tree, e.memo, index, scale⟩ := by
  intro tree shown
  cases shown
  rw [h.top_eq]
  exact h

theorem Calls.faithful {s t : Browser} (left : Calls lookup s t) (h : Faithful lookup s) :
    Faithful lookup t := by
  have fresh : ∀ top scale, Faithful lookup ⟨some (.ofTop top), ∅, {}, scale⟩ :=
    fun top scale => faithful_of_sound (Elaborator.sound_ofTop lookup top) {} scale
  have grow : ∀ s tree e, Faithful lookup s → s.tree = some tree →
      Elaborator.Grows lookup ⟨tree, s.memo⟩ e →
      Faithful lookup ⟨some e.tree, e.memo, s.index, s.scale⟩ :=
    fun s tree _ hs shown grows => faithful_of_sound ((hs tree shown).grows grows) s.index s.scale
  cases left with
  | select top left => exact left.holds h (meets_select fresh s top) fun _ _ ht => ht
  | children id left => exact left.holds h (meets_children grow h id) fun _ _ ht => ht
  | build top cancelAfter left =>
    have hsound := @Indexer.meets_build lookup _ Elaborator.closed_sound ⟨⟨.ofTop top, ∅⟩, {}⟩
      (Elaborator.sound_ofTop lookup top) s.scale cancelAfter
    exact left.holds h (meets_build (hsound.imp (fun j hj => faithful_of_sound hj j.index s.scale)
      fun _ j hj => faithful_of_sound hj j.index s.scale)) fun _ _ ht => ht
  | resolvePath top path left =>
    exact left.holds h
      (meets_resolvePath grow fresh (fun _ tree hs shown => (hs tree shown).formed) h top path)
      fun _ _ ht => ht

theorem ReachedOver.faithful {b : Browser} (h : ReachedOver lookup b) : Faithful lookup b := by
  induction h with
  | start scale =>
    intro tree shown
    cases shown
  | call same _ left ih =>
    -- the invariant is carried over to the lookup of this call and back
    intro tree shown
    exact (left.faithful (fun tree shown => (ih tree shown).congr same.symm) tree shown).congr same

/-- Where the walk of a path starts: the top is on show, whether or not it had to be selected. -/
theorem run_resolvePath_of_faithful {b : Browser} (h : Faithful lookup b) {top : Symbol}
    (known : ∀ current, b.top = some current → current.id = top.id → current = top)
    (path : String) :
    ∃ tree t j, Elaborator.Sound lookup top ⟨tree, t.memo⟩ ∧
      (resolvePath lookup top path).run b =
        (((onTree tree (Elaborator.resolvePath lookup path)).run t).bind
          fun answer u => .done u [] (answer.mapError .path)).after j := by
  rw [run_resolvePath]
  split
  · rw [run_select, Run.bind_done]
    exact ⟨.ofTop top, _, _, Elaborator.sound_ofTop lookup top, rfl⟩
  · rename_i hid
    rw [ne_eq, not_not] at hid
    obtain ⟨current, hcurrent, hid⟩ := Option.map_eq_some_iff.1 hid
    have htop := known current hcurrent hid
    obtain ⟨tree, shown, rfl⟩ := Option.map_eq_some_iff.1 hcurrent
    rw [Run.bind_done, shown, ← htop]
    exact ⟨tree, b, [], h tree shown, rfl⟩

/-- The browser's answer is that of the walk, with a node for what the walk comes to. -/
theorem resolvePath_cases {b : Browser} (h : Faithful lookup b) {top : Symbol}
    (known : ∀ current, b.top = some current → current.id = top.id → current = top)
    (path : String) :
    let run := (resolvePath lookup top path).run b
    (∃ id found tree, run.value = .ok id ∧ lookup.walk top path = .ok found ∧
      run.state.tree = some tree ∧ tree.occurrence? id = some found) ∨
    ∃ cause, run.value = .error (.path cause) ∧ lookup.walk top path = .error cause := by
  obtain ⟨tree, t, j, sound, hrun⟩ := run_resolvePath_of_faithful h known path
  have hwalk := (Elaborator.meets_resolvePath_walk sound path).2.2
  dsimp only
  rw [hrun, Run.value_after, Run.state_after, Run.value_bind, Run.state_bind, run_onTree,
    Run.value_within, Run.state_within]
  cases hanswer : ((Elaborator.resolvePath lookup path).run ⟨tree, t.memo⟩).value with
  | ok id =>
    cases hfound : lookup.walk top path with
    | ok found =>
      rw [hanswer, hfound] at hwalk
      exact .inl ⟨id, found, _, rfl, rfl, rfl, Except.ok.inj hwalk⟩
    | error cause =>
      rw [hanswer, hfound] at hwalk
      cases hwalk
  | error cause =>
    cases hfound : lookup.walk top path with
    | ok found =>
      rw [hanswer, hfound] at hwalk
      cases hwalk
    | error other =>
      rw [hanswer, hfound] at hwalk
      cases hwalk
      exact .inr ⟨cause, rfl, rfl⟩

/-- A browser resolves a path to what the walk over the design comes to, whatever was called
before and wherever it was abandoned, and whatever limit its tree stays below. -/
theorem resolvePath_eq_walk {b : Browser} (reached : ReachedOver lookup b) {top : Symbol}
    (known : ∀ current, b.top = some current → current.id = top.id → current = top)
    (path : String) :
    let run := (resolvePath lookup top path).run b
    ((∃ id, run.value = .ok id) ↔ ∃ found, lookup.walk top path = .ok found) ∧
    (∀ found, lookup.walk top path = .ok found →
      ∃ id node, run.value = .ok id ∧ run.state.node? id = some node ∧
        node.symbol = found.symbol ∧ node.definition = found.definition ∧
        run.state.path? id = some (DottedPath.ofNames found.names)) ∧
    (∀ cause, lookup.walk top path = .error cause → run.value = .error (.path cause)) ∧
    ∀ limit, run.state.nodeCount < limit →
      (resolvePath lookup top path (some limit)).run b = run := by
  intro run
  have hlimit (limit : Nat) (room : run.state.nodeCount < limit) :
      (resolvePath lookup top path (some limit)).run b = run :=
    (untilFull_resolvePath lookup limit b top path).eq_of_room (.inr (Nat.not_le_of_lt room))
  obtain ⟨id, found, tree, hvalue, hwalk, shown, hfound⟩ | ⟨cause, hvalue, hwalk⟩ :=
    resolvePath_cases reached.faithful known path
  · obtain ⟨node, hnode, hsymbol, hdefinition, hpath⟩ := Tree.node?_of_occurrence? hfound
    have hstate : run.state.tree = some tree := shown
    refine ⟨⟨fun _ => ⟨found, hwalk⟩, fun _ => ⟨id, hvalue⟩⟩, ?_, ?_, hlimit⟩
    · intro other hother
      rw [hwalk] at hother
      cases hother
      exact ⟨id, node, hvalue, by rw [node?, hstate]; exact hnode, hsymbol, hdefinition,
        by rw [path?, hstate]; exact hpath⟩
    · intro cause hcause
      rw [hwalk] at hcause
      cases hcause
  · have hrun : run.value = .error (.path cause) := hvalue
    refine ⟨?_, ?_, ?_, hlimit⟩
    all_goals
      rw [hrun, hwalk]
      simp

/-- After an abandoned pass, a path leads through the inner instance to the block in it, where the
pass has not been. -/
theorem resolvePath_eq_walk_selfNesting :
    let b := ((build .selfNesting .selfNesting none).drive (some 3) {}).state
    let run := (resolvePath .selfNesting .selfNesting "m.b[0].u.b").run b
    b.index.status = .inProgress ∧
      ∃ id node, run.value = .ok id ∧ run.state.node? id = some node ∧
        node.symbol.id = ⟨⟨0⟩, 1⟩ ∧ run.state.path? id = some "m.b.u.b" := by
  intro b run
  have reached : ReachedOver .selfNesting b :=
    @ReachedOver.call _ .selfNesting _ _ rfl (.start 64) (.build .selfNesting none ⟨some 3, rfl⟩)
  have status : b.index.status = .inProgress := by
    simp only [b, Call.drive, run_build, Indexer.run_build]
    decide +kernel
  have shown : b.top = some .selfNesting := by
    simp only [b, Call.drive, run_build, Indexer.run_build]
    decide +kernel
  have hwalk : (Lookup.selfNesting.walk .selfNesting "m.b[0].u.b").map
      (fun found => (found.symbol.id, DottedPath.ofNames found.names)) =
        .ok (⟨⟨0⟩, 1⟩, "m.b.u.b") := by decide +kernel
  obtain ⟨-, hok, -, -⟩ := resolvePath_eq_walk reached
    (fun current hcurrent _ => Option.some.inj (hcurrent.symm.trans shown)) "m.b[0].u.b"
  cases hfound : Lookup.selfNesting.walk .selfNesting "m.b[0].u.b" with
  | error cause =>
    rw [hfound] at hwalk
    cases hwalk
  | ok found =>
    rw [hfound] at hwalk
    obtain ⟨hid, hnames⟩ := Prod.mk.inj (Except.ok.inj hwalk)
    obtain ⟨id, node, hvalue, hnode, hsymbol, -, hpath⟩ := hok found hfound
    exact ⟨status, id, node, hvalue, hnode, by rw [hsymbol, hid], by rw [hpath, hnames]⟩

end Browser

end DesignHierarchy
