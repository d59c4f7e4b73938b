import DesignHierarchy.Proofs.Build
import DesignHierarchy.Proofs.Loaded
import DesignHierarchy.Workspace.Basic

/-! Scopes and what is opened in them, as a graph over the loaded symbols. A
build cuts off the nodes whose definition is open above them, by the path and not
by the definition; a definition that is cut off was entered higher up, so every
definition that is instantiated anywhere below the top has an instance in the
index. -/
namespace DesignHierarchy

namespace Store

/-- The loaded files alone answer. -/
def asLookup (store : Store) (suspends : Bool) : Lookup :=
  Workspace.lookup { store, suspends }

def BlockEdge (scope block : Symbol) : Prop :=
  block ∈ scope.children ∧ block.kind = .block

def InstanceEdge (store : Store) (scope definition : Symbol) : Prop :=
  ∃ child ∈ scope.children, child.kind = .inst ∧ child.typeRef.bind store.lookup = some definition

def Edge (store : Store) (scope target : Symbol) : Prop :=
  BlockEdge scope target ∨ store.InstanceEdge scope target

def Reaches (store : Store) : Symbol → Symbol → Prop :=
  Relation.ReflTransGen store.Edge

/-- Somewhere below the top there is an instance of the definition. -/
def Instantiates (store : Store) (top definition : Symbol) : Prop :=
  ∃ scope, store.Reaches top scope ∧ store.InstanceEdge scope definition

variable {store : Store}

theorem Consistent.mem_of_edge (h : store.Consistent) {scope target : Symbol}
    (hscope : scope ∈ store.symbols) (hedge : store.Edge scope target) :
    target ∈ store.symbols := by
  obtain ⟨hmem, -⟩ | ⟨child, -, -, hresolved⟩ := hedge
  · exact mem_symbols_of_mem_children hscope hmem
  · obtain ⟨name, -, hname⟩ := Option.bind_eq_some_iff.1 hresolved
    exact (h.lookup hname).1

theorem Consistent.mem_of_reaches (h : store.Consistent) {top scope : Symbol}
    (htop : top ∈ store.symbols) (hreaches : store.Reaches top scope) : scope ∈ store.symbols := by
  induction hreaches with
  | refl => exact htop
  | tail _ hedge ih => exact h.mem_of_edge ih hedge

/-- The table of names holds definitions only, so every answer of the store is one. -/
theorem Consistent.answer_asLookup (h : store.Consistent) (suspends : Bool) (symbol : Symbol) :
    (store.asLookup suspends).answer symbol = symbol.typeRef.bind store.lookup := by
  unfold Lookup.answer
  congr 1
  funext name
  have hfind : (store.asLookup suspends).find name = store.lookup name := by
    simp [asLookup, Workspace.lookup, Workspace.find]
  rw [Lookup.definition?, hfind]
  cases hl : store.lookup name with
  | none => rfl
  | some symbol => simp [(h.lookup hl).2]

end Store

namespace Elaborator

section Graph

variable {store : Store} (consistent : store.Consistent) {suspends : Bool} {top : Symbol}
  {e : Elaborator} (sound : Sound (store.asLookup suspends) top e)

include consistent sound

/-- A node that opens a scope adds an edge to the way down from the top. -/
theorem edge_of_node {id : NodeId} {node : Node} (hnode : e.tree.node? id = some node)
    (hid : id ≠ .root) {scope target : Symbol} (hshown : node.symbol ∈ scope.shown)
    (hdef : node.definition = some target) :
    if node.symbol.kind = .inst then store.InstanceEdge scope target
    else Store.BlockEdge scope target := by
  have hmem := Symbol.mem_children_of_mem_shown hshown
  rw [sound.answered hnode hid, consistent.answer_asLookup] at hdef
  cases hkind : node.symbol.kind with
  | inst =>
    rw [if_pos rfl]
    simp only [Symbol.scope, hkind] at hdef
    exact ⟨node.symbol, hmem, hkind, hdef⟩
  | block =>
    simp only [Symbol.scope, hkind] at hdef
    cases hdef
    exact ⟨hmem, hkind⟩
  | _ => simp [Symbol.scope, hkind] at hdef

theorem reaches_of_node {id : NodeId} {node : Node} (hnode : e.tree.node? id = some node)
    {scope : Symbol} (hdef : node.definition = some scope) : store.Reaches top scope := by
  refine sound.nodeInduction (motive := fun node => ∀ scope, node.definition = some scope →
    store.Reaches top scope) ?root ?below hnode scope hdef
  case root =>
    intro scope hdef
    cases hdef
    exact .refl
  case below =>
    intro id node owner outer hnode hid houter hshown ih scope hdef
    have hedge := edge_of_node consistent sound hnode hid hshown hdef
    apply (ih outer houter).tail
    split at hedge
    · exact .inr hedge
    · exact .inl hedge

/-- Each symbol that a recorded node shows has its node. -/
theorem child_of_shown {id : NodeId} {node : Node} (hnode : e.tree.node? id = some node)
    {scope : Symbol} (hdef : node.definition = some scope) {cs : List NodeId}
    (hcs : e.tree.children? id = some cs) {symbol : Symbol} (hshown : symbol ∈ scope.shown) :
    ∃ c ∈ cs, ∃ child, e.tree.node? c = some child ∧
      child.definition = symbol.scope (symbol.typeRef.bind store.lookup) ∧
      child.isInstance = decide (symbol.kind = .inst) := by
  have hlist := sound.formed.listed hnode hcs
  rw [← Node.shown_of_definition hdef] at hshown
  obtain ⟨c, hc, child, hchild, rfl⟩ := hlist.mem_of_shown hshown
  have hroot : c ≠ .root := by
    rintro rfl
    have hlt := sound.formed.parentsFirst.lt (hlist.parents _ hc)
    exact absurd hlt (Nat.not_lt_zero _)
  obtain ⟨-, -, -, -, -, -, -, -, hinst⟩ := sound.declared hchild hroot
  refine ⟨c, hc, child, hchild, ?_, hinst⟩
  rw [sound.answered hchild hroot, consistent.answer_asLookup]

theorem child_of_block {id : NodeId} {node : Node} (hnode : e.tree.node? id = some node)
    {scope block : Symbol} (hdef : node.definition = some scope) {cs : List NodeId}
    (hcs : e.tree.children? id = some cs) (hedge : Store.BlockEdge scope block) :
    ∃ c ∈ cs, ∃ child, e.tree.node? c = some child ∧ child.definition = some block := by
  obtain ⟨hmem, hkind⟩ := hedge
  have hshown : block ∈ scope.shown := List.mem_filter.2 ⟨hmem, by simp [hkind, Kind.isExcluded]⟩
  obtain ⟨c, hc, child, hchild, hscope, -⟩ :=
    child_of_shown consistent sound hnode hdef hcs hshown
  exact ⟨c, hc, child, hchild, by simpa [Symbol.scope, hkind] using hscope⟩

theorem child_of_instance {id : NodeId} {node : Node} (hnode : e.tree.node? id = some node)
    {scope definition : Symbol} (hdef : node.definition = some scope) {cs : List NodeId}
    (hcs : e.tree.children? id = some cs) (hedge : store.InstanceEdge scope definition) :
    ∃ c ∈ cs, ∃ child, e.tree.node? c = some child ∧ child.definition = some definition ∧
      child.instanceOf = some definition.id := by
  obtain ⟨symbol, hmem, hkind, hresolved⟩ := hedge
  have hshown : symbol ∈ scope.shown := List.mem_filter.2 ⟨hmem, by simp [hkind, Kind.isExcluded]⟩
  obtain ⟨c, hc, child, hchild, hscope, hinst⟩ :=
    child_of_shown consistent sound hnode hdef hcs hshown
  have hdefinition : child.definition = some definition := by
    simpa [Symbol.scope, hkind, hresolved] using hscope
  refine ⟨c, hc, child, hchild, hdefinition, ?_⟩
  simp [Node.instanceOf, Node.definitionId, hinst, hkind, hdefinition]

end Graph

end Elaborator

namespace Indexer

/-- Some visited node opens the scope, and was entered. -/
def Enters (tree : Tree) (visits : List NodeId) (scope : Symbol) : Prop :=
  ∃ v ∈ visits, ∃ node, tree.node? v = some node ∧ node.definition = some scope ∧
    tree.reenters v = false

section Complete

variable {store : Store} (consistent : store.Consistent) {suspends : Bool} {top : Symbol}
  (declared : top ∈ store.symbols) {i : Indexer} (hi : i.elaborator.tree.WellFormed)
  {run : Run Indexer Status} {visits : List NodeId}
  (built : Built (store.asLookup suspends) i run visits)
  (sound : run.state.elaborator.Sound (store.asLookup suspends) top)

include consistent declared hi built sound

/-- A visited node that is cut off has its definition entered above it. -/
theorem enters_of_visited {v : NodeId} (hv : v ∈ visits) {node : Node}
    (hnode : run.state.elaborator.tree.node? v = some node) {scope : Symbol}
    (hdef : node.definition = some scope) : Enters run.state.elaborator.tree visits scope := by
  cases hre : run.state.elaborator.tree.reenters v with
  | false => exact ⟨v, hv, node, hnode, hdef, hre⟩
  | true =>
    have hopen : scope.id ∈ run.state.elaborator.tree.openAbove v := by
      simpa [Tree.reenters, hnode, Node.definitionId, hdef] using hre
    obtain ⟨a, ha, hid⟩ := List.mem_filterMap.1 hopen
    obtain ⟨above, habove, hid⟩ := Option.bind_eq_some_iff.1 hid
    obtain ⟨open', hopen', hid⟩ := Option.map_eq_some_iff.1 hid
    -- the ids of loaded symbols are distinct, so it is the same definition
    have hsame : open' = scope := by
      apply consistent.eq_of_id_eq _ _ hid
      · exact consistent.mem_of_reaches declared
          (Elaborator.reaches_of_node consistent sound habove hopen')
      · exact consistent.mem_of_reaches declared
          (Elaborator.reaches_of_node consistent sound hnode hdef)
    subst hsame
    obtain ⟨hvisited, hentered⟩ := built.above hi hv ha
    exact ⟨a, hvisited, above, habove, hopen', hentered⟩

theorem enters_of_reaches {scope : Symbol} (hreaches : store.Reaches top scope) :
    Enters run.state.elaborator.tree visits scope := by
  induction hreaches with
  | refl =>
    have hroot := sound.formed.root
    rw [sound.top_eq] at hroot
    exact enters_of_visited consistent declared hi built sound built.root_mem hroot rfl
  | tail _ hedge ih =>
    obtain ⟨v, hv, node, hnode, hdef, hre⟩ := ih
    obtain ⟨cs, hcs, hmem⟩ := built.children_mem hi hv hnode (by simp [hdef]) hre
    obtain hblock | hinst := hedge
    · obtain ⟨c, hc, child, hchild, hopens⟩ :=
        Elaborator.child_of_block consistent sound hnode hdef hcs hblock
      exact enters_of_visited consistent declared hi built sound (hmem c hc) hchild hopens
    · obtain ⟨c, hc, child, hchild, hopens, -⟩ :=
        Elaborator.child_of_instance consistent sound hnode hdef hcs hinst
      exact enters_of_visited consistent declared hi built sound (hmem c hc) hchild hopens

theorem mem_definitions_of_instantiates {definition : Symbol}
    (h : store.Instantiates top definition) : definition.id ∈ run.state.index.definitions := by
  obtain ⟨scope, hreaches, hedge⟩ := h
  obtain ⟨v, hv, node, hnode, hdef, hre⟩ :=
    enters_of_reaches consistent declared hi built sound hreaches
  obtain ⟨cs, hcs, hmem⟩ := built.children_mem hi hv hnode (by simp [hdef]) hre
  obtain ⟨c, hc, child, hchild, -, hinst⟩ :=
    Elaborator.child_of_instance consistent sound hnode hdef hcs hedge
  exact built.mem_definitions.2 ⟨c, hmem c hc, child, hchild, hinst⟩

omit declared hi in
theorem instantiates_of_mem_definitions {d : DefId} (h : d ∈ run.state.index.definitions) :
    ∃ definition, store.Instantiates top definition ∧ definition.id = d := by
  obtain ⟨v, hv, node, hnode, hinst⟩ := built.mem_definitions.1 h
  unfold Node.instanceOf at hinst
  split at hinst
  · rename_i his
    obtain ⟨definition, hdef, rfl⟩ := Option.map_eq_some_iff.1 hinst
    have hroot : v ≠ .root := by
      rintro rfl
      rw [sound.formed.root] at hnode
      cases hnode
      cases his
    obtain ⟨p, owner, scope, -, -, howner, hscope, hshown, hkind⟩ := sound.declared hnode hroot
    have hedge := Elaborator.edge_of_node consistent sound hnode hroot hshown hdef
    rw [if_pos (by simpa [his] using hkind)] at hedge
    exact ⟨definition,
      ⟨scope, Elaborator.reaches_of_node consistent sound howner hscope, hedge⟩, rfl⟩
  · cases hinst

end Complete

/-- The index names just the definitions that are instantiated somewhere below the top: cutting
off recursive nodes hides none, and neither does a limit that the tree stays below. -/
theorem definitions_of_build {store : Store} (loaded : Store.Reached store) {top : Symbol}
    (declared : top ∈ store.symbols) {suspends : Bool} {i : Indexer}
    (reached : Elaborator.Reached (store.asLookup suspends) top i.elaborator) {scale : UInt32}
    {cancelAfter : Option Nat} :
    let run := (build (store.asLookup suspends) scale cancelAfter).run i
    run.value = .complete →
      (∀ d, d ∈ run.state.index.definitions ↔
        ∃ definition, store.Instantiates top definition ∧ definition.id = d) ∧
      (∀ definition, store.Instantiates top definition →
        run.state.index.instancesOf definition.id ≠ []) ∧
      ∀ limit, run.state.nodeCount < limit →
        (build (store.asLookup suspends) scale cancelAfter (some limit)).run i = run := by
  intro run complete
  have consistent := loaded.consistent
  have hi := reached.sound.formed
  obtain ⟨visits, built⟩ := exists_built hi complete
  have sound := reached.sound.grows built.traverses.grows
  have complete' : ∀ definition, store.Instantiates top definition →
      definition.id ∈ run.state.index.definitions :=
    fun _ h => mem_definitions_of_instantiates consistent declared hi built sound h
  refine ⟨?_, fun definition h => built.instancesOf_ne_nil (complete' definition h),
    fun limit room => (bounded_build _ limit scale cancelAfter).run_eq room⟩
  intro d
  constructor
  · exact instantiates_of_mem_definitions consistent built sound
  · rintro ⟨definition, h, rfl⟩
    exact complete' definition h

/-- The top itself is recorded, where it is instantiated again. -/
theorem definitions_of_build_selfNesting :
    let index := ((build (Store.selfNesting.asLookup false) 64 none).run .selfNesting).state.index
    Symbol.selfNesting.id ∈ index.definitions ∧ index.instancesOf Symbol.selfNesting.id ≠ [] := by
  have loaded : Store.Reached .selfNesting := .load _ _ .empty
  have declared : Symbol.selfNesting ∈ Store.selfNesting.symbols := by decide
  have fresh : Elaborator.Reached (Store.selfNesting.asLookup false) .selfNesting
      Indexer.selfNesting.elaborator := .start
  have complete := (build_of_finished
    (finished_sweeping (Store.selfNesting.asLookup false) .selfNesting 64)).1
  have hinst : Store.selfNesting.Instantiates .selfNesting .selfNesting := by
    obtain ⟨block, hblock, hkind, hedge⟩ : ∃ block ∈ Symbol.selfNesting.children,
        block.kind = .block ∧ ∃ child ∈ block.children, child.kind = .inst ∧
          child.typeRef.bind Store.selfNesting.lookup = some .selfNesting := by decide
    exact ⟨block, .single (.inl ⟨hblock, hkind⟩), hedge⟩
  obtain ⟨hmem, hinstances, -⟩ := definitions_of_build loaded declared fresh complete
  exact ⟨(hmem _).2 ⟨_, hinst, rfl⟩, hinstances _ hinst⟩

end Indexer

end DesignHierarchy
