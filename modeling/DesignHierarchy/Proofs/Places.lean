import DesignHierarchy.Proofs.Capacity
import Mathlib.Data.List.Induction

/-! One elaboration of a design. A list of child positions has its place there
whether or not a node was ever made for it, and a hierarchy that calls can reach
shows nothing else: the order in which nodes were made, what was remembered and
what abandoned calls left behind cannot be seen from the top. -/
namespace DesignHierarchy

/-- What stands at a place of an elaborated design. -/
structure Place where
  symbol : Symbol
  /-- Whose children are shown there. -/
  definition : Option Symbol
  kind : NodeKind
  /-- The definitions that are open above it, the nearest first. -/
  above : List DefId
  /-- The names on the way down to it, with its own. -/
  names : List String

namespace Place

def ofTop (top : Symbol) : Place := ⟨top, some top, .root, [], [top.name]⟩

def definitionId (place : Place) : Option DefId := place.definition.map (·.id)

/-- The definitions that are open above its children. -/
def opened (place : Place) : List DefId := place.definitionId.toList ++ place.above

def shown (place : Place) : List Symbol := (place.definition.map (·.shown)).getD []

/-- The place of a symbol that is shown here. -/
def child (lookup : Lookup) (place : Place) (symbol : Symbol) : Place :=
  let names := place.names ++ [symbol.name]
  match symbol.kind with
  | .block => ⟨symbol, some symbol, .block, place.opened, names⟩
  | .inst =>
    let definition := lookup.answer symbol
    let recursive := definition.any fun symbol => symbol.id ∈ place.opened
    ⟨symbol, definition, .inst symbol.typeRef recursive, place.opened, names⟩
  | _ => ⟨symbol, none, .leaf, place.opened, names⟩

def children (lookup : Lookup) (place : Place) : List Place :=
  place.shown.map (place.child lookup)

/-- The place at a list of child positions, counted from the top. -/
def at? (lookup : Lookup) (top : Symbol) (position : List Nat) : Option Place :=
  position.foldlM (fun place i => (place.children lookup)[i]?) (.ofTop top)

theorem at?_concat (lookup : Lookup) (top : Symbol) (position : List Nat) (i : Nat) :
    at? lookup top (position ++ [i]) =
      (at? lookup top position).bind fun place => (place.children lookup)[i]? := by
  simp [at?]

/-- The definition at the place is open above it already. -/
def reenters (place : Place) : Bool := place.definitionId.any (· ∈ place.above)

def path (place : Place) : String := DottedPath.ofNames place.names

end Place

namespace Tree

/-- What stands at a node. -/
def place? (tree : Tree) (id : NodeId) : Option Place :=
  (tree.node? id).map fun node =>
    ⟨node.symbol, node.definition, node.kind, tree.openAbove id, tree.namesTo id⟩

/-- The node at a list of child positions, if the children on the way are recorded. -/
def at? (tree : Tree) (position : List Nat) : Option NodeId :=
  position.foldlM (fun id i => (tree.children? id).bind (·[i]?)) .root

/-- The node can be seen from the top. -/
def Connected (tree : Tree) (id : NodeId) : Prop := ∃ position, tree.at? position = some id

theorem at?_concat (tree : Tree) (position : List Nat) (i : Nat) :
    tree.at? (position ++ [i]) =
      (tree.at? position).bind fun id => (tree.children? id).bind (·[i]?) := by
  simp [at?]

theorem connected_root (tree : Tree) : tree.Connected .root := ⟨[], rfl⟩

theorem Connected.child {tree : Tree} {id c : NodeId} {cs : List NodeId} (h : tree.Connected id)
    (hcs : tree.children? id = some cs) (hc : c ∈ cs) : tree.Connected c := by
  obtain ⟨position, hposition⟩ := h
  obtain ⟨i, hi⟩ := List.getElem?_of_mem hc
  refine ⟨position ++ [i], ?_⟩
  rw [at?_concat, hposition, Option.bind_some, hcs]
  exact hi

theorem Extends.at? {s t : Tree} (h : s.Extends t) {position : List Nat} {id : NodeId}
    (hid : s.at? position = some id) : t.at? position = some id := by
  induction position using List.reverseRecOn generalizing id with
  | nil => exact hid
  | append_singleton position i ih =>
    rw [Tree.at?_concat] at hid ⊢
    obtain ⟨parent, hparent, hid⟩ := Option.bind_eq_some_iff.1 hid
    obtain ⟨cs, hcs, hid⟩ := Option.bind_eq_some_iff.1 hid
    rw [ih hparent, Option.bind_some, h.children hcs]
    exact hid

theorem Connected.mono {s t : Tree} (h : s.Extends t) {id : NodeId} (hid : s.Connected id) :
    t.Connected id := by
  obtain ⟨position, hposition⟩ := hid
  exact ⟨position, h.at? hposition⟩

theorem place?_of_node? {tree : Tree} {id : NodeId} {node : Node} (h : tree.node? id = some node) :
    tree.place? id =
      some ⟨node.symbol, node.definition, node.kind, tree.openAbove id, tree.namesTo id⟩ := by
  rw [place?, h, Option.map_some]

theorem openDefinitions_of_place? {tree : Tree} {id : NodeId} {place : Place}
    (h : tree.place? id = some place) : tree.openDefinitions id = place.opened := by
  obtain ⟨node, hnode, rfl⟩ := Option.map_eq_some_iff.1 h
  cases hd : node.definition <;>
    simp [openDefinitions, openAbove, Place.opened, Place.definitionId, Node.definitionId, hnode, hd]

theorem reenters_of_place? {tree : Tree} {id : NodeId} {place : Place}
    (h : tree.place? id = some place) : tree.reenters id = place.reenters := by
  obtain ⟨node, hnode, rfl⟩ := Option.map_eq_some_iff.1 h
  simp [reenters, hnode, Place.reenters, Place.definitionId, Node.definitionId]

theorem path?_of_place? {tree : Tree} {id : NodeId} {place : Place}
    (h : tree.place? id = some place) : tree.path? id = some place.path := by
  obtain ⟨node, hnode, rfl⟩ := Option.map_eq_some_iff.1 h
  simp [path?, contains, lt_size_of_node? hnode, Place.path]

theorem Extends.place? {s t : Tree} (h : s.Extends t) (hs : s.ParentsFirst) (ht : t.ParentsFirst)
    {id : NodeId} (hid : id.index < s.size) : t.place? id = s.place? id := by
  obtain ⟨node, hnode⟩ := exists_node? hid
  rw [place?_of_node? hnode, place?_of_node? (h.node hnode), h.openAbove hs ht hid,
    h.namesTo hs ht hid]

end Tree

/-- The answer to its type matters to a node only through what the node shows. -/
theorem Node.under_congr {opened : List DefId} {parent : NodeId} {symbol : Symbol}
    {a b : Option Symbol} (h : symbol.scope a = symbol.scope b) :
    under opened parent symbol a = under opened parent symbol b := by
  cases hkind : symbol.kind with
  | inst =>
    have hab : a = b := by simpa [Symbol.scope, hkind] using h
    rw [hab]
  | _ => simp [under, hkind]

namespace Tree.WellFormed

variable {tree : Tree} {id : NodeId} {node : Node} (h : tree.WellFormed)
  (hnode : tree.node? id = some node)

include h hnode

theorem ne_root_of_parent {p : NodeId} (hparent : node.parent = some p) : id ≠ .root := by
  rintro rfl
  rw [h.root] at hnode
  cases hnode
  cases hparent

theorem ne_root_of_isInstance (hinst : node.isInstance) : id ≠ .root := by
  rintro rfl
  rw [h.root] at hnode
  cases hnode
  cases hinst

/-- An instance is marked as recursive where its definition is open above it. -/
theorem isRecursive_eq (hinst : node.isInstance) : node.isRecursive = tree.reenters id := by
  cases h.linked hnode (h.ne_root_of_isInstance hnode hinst) with
  | @intro p owner symbol answer _ _ _ =>
    have hp : tree.parent? id = some p := by simp [parent?, hnode]
    have hkind : symbol.kind = .inst := by simpa using hinst
    rw [reenters, hnode, openAbove_of_parent? h.parentsFirst hp]
    simp [Node.under, Node.isRecursive, Node.definitionId, hkind, Option.any_map]

omit hnode in
theorem parent?_of_at?_concat {position : List Nat} {i : Nat} {c : NodeId}
    (hat : tree.at? (position ++ [i]) = some c) :
    ∃ p cs, tree.at? position = some p ∧ tree.children? p = some cs ∧ cs[i]? = some c ∧
      tree.parent? c = some p := by
  rw [at?_concat] at hat
  obtain ⟨p, hp, hat⟩ := Option.bind_eq_some_iff.1 hat
  obtain ⟨cs, hcs, hat⟩ := Option.bind_eq_some_iff.1 hat
  exact ⟨p, cs, hp, hcs, hat, h.parent?_of_mem hcs (List.mem_of_getElem? hat)⟩

omit hnode in
/-- No node is seen at two places. -/
theorem at?_inj {a b : List Nat} {c : NodeId} (ha : tree.at? a = some c) (hb : tree.at? b = some c) :
    a = b := by
  have hroot : tree.parent? .root = none := by simp [parent?, h.root]
  induction a using List.reverseRecOn generalizing b c with
  | nil =>
    cases ha
    cases b using List.reverseRecOn with
    | nil => rfl
    | append_singleton b j =>
      obtain ⟨p, cs, -, -, -, hp⟩ := h.parent?_of_at?_concat hb
      rw [hroot] at hp
      cases hp
  | append_singleton a i ih =>
    obtain ⟨p, cs, hpa, hcs, hi, hp⟩ := h.parent?_of_at?_concat ha
    cases b using List.reverseRecOn with
    | nil =>
      cases hb
      rw [hroot] at hp
      cases hp
    | append_singleton b j =>
      obtain ⟨q, ds, hqb, hds, hj, hq⟩ := h.parent?_of_at?_concat hb
      rw [hp] at hq
      cases hq
      rw [hcs] at hds
      cases hds
      obtain ⟨owner, howner⟩ := node?_of_children? hcs
      have hlt := (List.getElem?_eq_some_iff.1 hi).1
      have hij : i = j := (List.getElem?_inj hlt (h.listed howner hcs).nodup).1 (hi.trans hj.symm)
      rw [ih hpa hqb, hij]

end Tree.WellFormed

namespace Elaborator

section Sound

variable {lookup : Lookup} {top : Symbol} {e : Elaborator} (sound : e.Sound lookup top)

include sound

theorem Sound.place?_root : e.tree.place? .root = some (.ofTop top) := by
  rw [Tree.place?_of_node? sound.formed.root, sound.formed.openAbove_root,
    sound.formed.namesTo_root, sound.top_eq]
  rfl

/-- A node below another is the one that the lookup makes of its symbol. -/
theorem Sound.eq_under {id p : NodeId} {node : Node} (hnode : e.tree.node? id = some node)
    (hparent : node.parent = some p) :
    node = .under (e.tree.openDefinitions p) p node.symbol (lookup.answer node.symbol) := by
  have hroot := sound.formed.ne_root_of_parent hnode hparent
  have hanswered := sound.answered hnode hroot
  obtain ⟨answer, -, -, -⟩ := sound.formed.linked hnode hroot
  rw [Node.parent_under] at hparent
  cases hparent
  rw [Node.definition_under, Node.symbol_under] at hanswered
  rw [Node.symbol_under]
  exact Node.under_congr hanswered

/-- A node stands where its parent and its symbol put it. -/
theorem Sound.place?_child {id c : NodeId} {node : Node} {place : Place}
    (hplace : e.tree.place? id = some place) (hnode : e.tree.node? c = some node)
    (hparent : node.parent = some id) :
    e.tree.place? c = some (place.child lookup node.symbol) := by
  have hpf := sound.formed.parentsFirst
  have hopen := Tree.openDefinitions_of_place? hplace
  have habove : e.tree.openAbove c = place.opened := by
    rw [Tree.openAbove_of_parent? hpf (by simpa [Tree.parent?, hnode] using hparent), hopen]
  have hnames : e.tree.namesTo c = place.names ++ [node.symbol.name] := by
    rw [Tree.namesTo_of_parent? hpf hnode hparent]
    obtain ⟨owner, -, rfl⟩ := Option.map_eq_some_iff.1 hplace
    rfl
  have heq := sound.eq_under hnode hparent
  rw [hopen] at heq
  rw [Tree.place?_of_node? hnode, habove, hnames]
  generalize node.symbol = symbol at heq ⊢
  subst heq
  cases hkind : symbol.kind <;> simp [Node.under, Place.child, hkind]

/-- A recorded list of children holds a node for each place under its owner, in order. -/
theorem Sound.places_of_children {id : NodeId} {place : Place} {cs : List NodeId}
    (hplace : e.tree.place? id = some place) (hcs : e.tree.children? id = some cs) :
    cs.map e.tree.place? = (place.children lookup).map some := by
  obtain ⟨owner, howner, hshown⟩ : ∃ owner, e.tree.node? id = some owner ∧
      owner.shown = place.shown := by
    obtain ⟨owner, howner, rfl⟩ := Option.map_eq_some_iff.1 hplace
    exact ⟨owner, howner, rfl⟩
  have hlist := sound.formed.listed howner hcs
  have hchild : ∀ c ∈ cs, e.tree.place? c =
      ((e.tree.node? c).map (·.symbol)).map (place.child lookup) := by
    intro c hc
    obtain ⟨node, hnode, hparent, -⟩ := hlist.node hc
    rw [sound.place?_child hplace hnode hparent, hnode]
    rfl
  have hsymbols := congrArg (List.map (Option.map (place.child lookup))) hlist.symbols
  rw [List.map_map, List.map_map] at hsymbols
  rw [List.map_congr_left hchild, Place.children, List.map_map, ← hshown]
  exact hsymbols

/-- What can be seen from the top is the elaboration of the design. -/
theorem Sound.place?_of_at? {position : List Nat} {id : NodeId}
    (h : e.tree.at? position = some id) :
    ∃ place, e.tree.place? id = some place ∧ Place.at? lookup top position = some place := by
  induction position using List.reverseRecOn generalizing id with
  | nil =>
    cases h
    exact ⟨_, sound.place?_root, rfl⟩
  | append_singleton position i ih =>
    rw [Tree.at?_concat] at h
    obtain ⟨parent, hparent, h⟩ := Option.bind_eq_some_iff.1 h
    obtain ⟨cs, hcs, h⟩ := Option.bind_eq_some_iff.1 h
    obtain ⟨place, hplace, hat⟩ := ih hparent
    have hplaces := congrArg (·[i]?) (sound.places_of_children hplace hcs)
    simp only [List.getElem?_map, h, Option.map_some] at hplaces
    obtain ⟨child, hchild, hid⟩ := Option.map_eq_some_iff.1 hplaces.symm
    refine ⟨child, hid.symm, ?_⟩
    rw [Place.at?_concat, hat]
    exact hchild

theorem Sound.isSome_at?_concat {position : List Nat} {id : NodeId} {cs : List NodeId}
    (h : e.tree.at? position = some id) (hcs : e.tree.children? id = some cs) (i : Nat) :
    (Place.at? lookup top (position ++ [i])).isSome = decide (i < cs.length) := by
  obtain ⟨place, hplace, hat⟩ := sound.place?_of_at? h
  have hlength := congrArg List.length (sound.places_of_children hplace hcs)
  rw [List.length_map, List.length_map] at hlength
  rw [Place.at?_concat, hat, Option.bind_some, hlength, Bool.eq_iff_iff]
  simp

theorem Sound.isRecursive_eq {id : NodeId} {node : Node} (hnode : e.tree.node? id = some node)
    (hinst : node.isInstance) : node.isRecursive = e.tree.reenters id :=
  sound.formed.isRecursive_eq hnode hinst

end Sound

variable {lookup : Lookup} {top : Symbol} {e : Elaborator}

/-- Calls can make a node for every place. -/
theorem exists_at?_of_reached (reached : Reached lookup top e) {position : List Nat} {place : Place}
    (h : Place.at? lookup top position = some place) :
    ∃ t id, Reached lookup top t ∧ e.tree.Extends t.tree ∧ t.tree.at? position = some id := by
  induction position using List.reverseRecOn generalizing place with
  | nil => exact ⟨e, .root, reached, .refl _, rfl⟩
  | append_singleton position i ih =>
    have hconcat := h
    rw [Place.at?_concat] at hconcat
    obtain ⟨parent, hparent, -⟩ := Option.bind_eq_some_iff.1 hconcat
    obtain ⟨s, id, hs, hext, hid⟩ := ih hparent
    obtain ⟨_, hplace, -⟩ := hs.sound.place?_of_at? hid
    obtain ⟨node, hnode, -⟩ := Option.map_eq_some_iff.1 hplace
    have ht := Reached.expand id hs (Call.leaves_run _ _)
    have hexp := expansion_expand lookup s id
    have hcs := hexp.recorded hnode
    have hlt := ht.sound.isSome_at?_concat (hexp.extends.at? hid) hcs i
    rw [h, Option.isSome_some, eq_comm, decide_eq_true_eq] at hlt
    refine ⟨_, ((expand lookup id).run s).value[i], ht, hext.trans hexp.extends, ?_⟩
    rw [Tree.at?_concat, hexp.extends.at? hid, Option.bind_some, hcs]
    exact List.getElem?_eq_getElem hlt

/-- A hierarchy that calls can reach shows a part of one elaboration of the design, and calls can
show the rest. Below a limit to the number of nodes it can be reached under that limit as well. -/
theorem places_of_reached (reached : Reached lookup top e) :
    (∀ position id, e.tree.at? position = some id →
      ∃ place, e.tree.place? id = some place ∧ Place.at? lookup top position = some place) ∧
    (∀ a b id, e.tree.at? a = some id → e.tree.at? b = some id → a = b) ∧
    (∀ id node, e.tree.node? id = some node → node.isInstance →
      (node.isRecursive ↔ ∃ definition a above, node.definition = some definition ∧
        a ∈ e.tree.ancestors id ∧ e.tree.node? a = some above ∧
        above.definitionId = some definition.id)) ∧
    (∀ id place cs, e.tree.place? id = some place → e.tree.children? id = some cs →
      cs.map e.tree.place? = (place.children lookup).map some) ∧
    (∀ position place, Place.at? lookup top position = some place →
      ∃ t id, Reached lookup top t ∧ e.tree.Extends t.tree ∧ t.tree.at? position = some id) ∧
    ∀ limit, e.nodeCount < limit → ReachedWithin limit lookup top e := by
  have sound := reached.sound
  refine ⟨fun _ _ => sound.place?_of_at?, fun _ _ _ => sound.formed.at?_inj, ?_,
    fun _ _ _ => sound.places_of_children, fun _ _ => exists_at?_of_reached reached,
    fun _ room => (reachedWithin_iff room).2 reached⟩
  intro id node hnode hinst
  rw [sound.isRecursive_eq hnode hinst, Tree.reenters, hnode]
  cases hdef : node.definition with
  | none => simp [Node.definitionId, hdef]
  | some definition =>
    simp [Node.definitionId, hdef, Tree.openAbove, Option.bind_eq_some_iff]

/-- Below a block, the top is found again and marked. -/
theorem places_of_reached_selfNesting :
    let s := Indexer.browsedOnce.elaborator
    let t := ((expand .selfNesting ⟨1⟩).run s).state
    t.tree.at? [0, 0] = some ⟨2⟩ ∧
      (∃ place, t.tree.place? ⟨2⟩ = some place ∧
        Place.at? .selfNesting .selfNesting [0, 0] = some place) ∧
      ∃ u id, Reached .selfNesting .selfNesting u ∧ t.tree.Extends u.tree ∧
        u.tree.at? [0, 0, 0, 0] = some id := by
  intro s t
  have fresh : Reached .selfNesting .selfNesting Indexer.selfNesting.elaborator := .start
  have browsed : Reached .selfNesting .selfNesting t :=
    .expand ⟨1⟩ (.expand .root fresh (Call.leaves_run _ _)) (Call.leaves_run _ _)
  have hat : t.tree.at? [0, 0] = some ⟨2⟩ := by decide +kernel
  obtain ⟨hplaces, -, -, -, hall, -⟩ := places_of_reached browsed
  obtain ⟨place, hplace⟩ : ∃ place, Place.at? .selfNesting .selfNesting [0, 0, 0, 0] = some place :=
    Option.isSome_iff_exists.1 (by decide +kernel)
  exact ⟨hat, hplaces _ _ hat, hall _ _ hplace⟩

end Elaborator

end DesignHierarchy
