import DesignHierarchy.Proofs.DesignWalk
import DesignHierarchy.Proofs.Precedence
import DesignHierarchy.Proofs.ScopeGraph
import DesignHierarchy.Proofs.Shortcut

/-! The natural tops of a design. Candidates are found by reading the types that
instances are written with, nodes by resolving these types while a hierarchy grows;
still no node under any top opens a candidate, not even one that an abandoned
expansion left behind. -/
namespace DesignHierarchy

namespace Store

variable {store : Store}

theorem mem_instantiated {name : String} :
    name ∈ store.instantiated ↔
      ∃ symbol ∈ store.symbols, symbol.kind = .inst ∧ symbol.typeRef = some name := by
  unfold instantiated
  rw [List.mem_filterMap]
  refine exists_congr fun symbol => and_congr_right fun _ => ?_
  split
  · rename_i hkind
    simp [hkind]
  · rename_i hkind
    simp [hkind]

theorem mem_topCandidates {symbol : Symbol} :
    symbol ∈ store.topCandidates ↔
      symbol ∈ store.definitions ∧ symbol.kind = .module ∧ symbol.name ∉ store.instantiated := by
  simp [topCandidates]

/-- The symbols of a store are those declared at some depth of a loaded file. -/
theorem mem_symbols_iff_within {symbol : Symbol} :
    symbol ∈ store.symbols ↔
      ∃ source ∈ store.sources, ∃ root ∈ source.symbols, symbol.Within root := by
  rw [symbols, List.mem_flatMap]
  simp only [Symbol.mem_walkAll_iff_within]

/-- What an instance is resolved to is no candidate, since the instance names it. -/
theorem Reached.not_candidate_of_instanceEdge (loaded : Reached store) {scope definition : Symbol}
    (declared : scope ∈ store.symbols) (edge : store.InstanceEdge scope definition) :
    definition.id ∉ store.topCandidates.map (·.id) := by
  obtain ⟨child, hchild, hkind, hresolved⟩ := edge
  obtain ⟨name, htype, hname⟩ := Option.bind_eq_some_iff.1 hresolved
  have hfirst := (loaded.lookup_eq_some_iff name definition).1 hname
  intro hmem
  obtain ⟨candidate, hcandidate, hid⟩ := List.mem_map.1 hmem
  obtain ⟨hdeclared, -, hunused⟩ := mem_topCandidates.1 hcandidate
  -- ids tell loaded symbols apart, so the candidate would be the definition itself
  have hsame : candidate = definition := loaded.consistent.eq_of_id_eq
    (mem_definitions.1 hdeclared).1 (mem_definitions.1 hfirst.declared).1 hid
  rw [hsame, hfirst.name_eq] at hunused
  exact hunused (mem_instantiated.2
    ⟨child, mem_symbols_of_mem_children declared hchild, hkind, htype⟩)

end Store

/-- Whatever was called and abandoned, an instance in the hierarchy opens no candidate. -/
theorem Elaborator.Sound.not_candidate {store : Store} (loaded : store.Reached) {suspends : Bool}
    {top : Symbol} {e : Elaborator} (sound : e.Sound (store.asLookup suspends) top)
    (declared : top ∈ store.symbols) {id : NodeId} {node : Node}
    (hnode : e.tree.node? id = some node) (hinst : node.isInstance) {definition : Symbol}
    (hdef : node.definition = some definition) :
    definition.id ∉ store.topCandidates.map (·.id) := by
  have consistent := loaded.consistent
  have hroot := sound.formed.ne_root_of_isInstance hnode hinst
  obtain ⟨p, owner, scope, -, -, howner, hscope, hshown, hkind⟩ := sound.declared hnode hroot
  have hedge := edge_of_node consistent sound hnode hroot hshown hdef
  rw [if_pos (by simpa [hinst] using hkind)] at hedge
  exact loaded.not_candidate_of_instanceEdge
    (consistent.mem_of_reaches declared (reaches_of_node consistent sound howner hscope)) hedge

namespace Store

/-- No instance of a hierarchy has a candidate as its definition, whatever is called on its tree or
on a browser that shows it. A module is no candidate only because some loaded instance is written
with its name. -/
theorem candidates_of_reached {store : Store} (loaded : store.Reached) :
    (∀ suspends top e, top ∈ store.symbols → Elaborator.Reached (store.asLookup suspends) top e →
      ∀ id node definition, e.tree.node? id = some node → node.isInstance →
        node.definition = some definition → definition.id ∉ store.topCandidates.map (·.id)) ∧
    (∀ suspends b tree, Browser.ReachedOver (store.asLookup suspends) b → b.tree = some tree →
      tree.top ∈ store.symbols →
      ∀ id node definition, tree.node? id = some node → node.isInstance →
        node.definition = some definition → definition.id ∉ store.topCandidates.map (·.id)) ∧
    ∀ definition ∈ store.definitions, definition.kind = .module →
      (definition ∉ store.topCandidates ↔
        ∃ source ∈ store.sources, ∃ root ∈ source.symbols, ∃ symbol, Symbol.Within symbol root ∧
          symbol.kind = .inst ∧ symbol.typeRef = some definition.name) := by
  refine ⟨?trees, ?browsers, ?named⟩
  case trees =>
    intro suspends top e declared reached id node definition hnode hinst hdef
    exact reached.sound.not_candidate loaded declared hnode hinst hdef
  case browsers =>
    intro suspends b tree reached shown declared id node definition hnode hinst hdef
    exact (reached.faithful tree shown).not_candidate loaded declared hnode hinst hdef
  case named =>
    intro definition hdeclared hkind
    have hiff : definition ∉ store.topCandidates ↔ definition.name ∈ store.instantiated := by
      simp [mem_topCandidates, hdeclared, hkind]
    rw [hiff, mem_instantiated]
    simp only [mem_symbols_iff_within]
    constructor
    · rintro ⟨symbol, ⟨source, hsource, root, hroot, hwithin⟩, hinst⟩
      exact ⟨source, hsource, root, hroot, symbol, hwithin, hinst⟩
    · rintro ⟨source, hsource, root, hroot, symbol, hwithin, hinst⟩
      exact ⟨symbol, ⟨source, hsource, root, hroot, hwithin⟩, hinst⟩

/-- The root of the top is expanded, and abandoned when its second instance is looked up. The node
that is left for the first opens the cell, which is no candidate for it. -/
theorem candidates_of_reached_abandoned :
    let children : List Decl :=
      [.cellNamed "u", { name := "v", kind := .inst, typeRef := some "x" }]
    let store := Store.load {} ⟨"top.v"⟩ [.cell, .topOver children]
    let e := ((Elaborator.expand (store.asLookup true) .root).drive (some 2)
      ⟨.ofTop (.topOver children), ∅⟩).state
    store.topCandidates.map (·.name) = ["top"] ∧ e.tree.children? .root = none ∧
      (∃ node, e.tree.node? ⟨1⟩ = some node ∧ node.isInstance ∧ node.definition = some .cell ∧
        Symbol.cell.id ∉ store.topCandidates.map (·.id)) ∧
      ∃ source ∈ store.sources, ∃ root ∈ source.symbols, ∃ symbol, Symbol.Within symbol root ∧
        symbol.kind = .inst ∧ symbol.typeRef = some "cell" := by
  intro children store e
  have loaded : store.Reached := .load _ _ .empty
  have declared : Symbol.topOver children ∈ store.symbols := by decide +kernel
  have reached : Elaborator.Reached (store.asLookup true) (.topOver children) e :=
    .expand .root .start ⟨some 2, rfl⟩
  obtain ⟨trees, -, named⟩ := candidates_of_reached loaded
  have hview : (e.tree.node? ⟨1⟩).map (fun node => (node.isInstance, node.definition)) =
      some (true, some .cell) := by decide +kernel
  obtain ⟨node, hnode, hview⟩ := Option.map_eq_some_iff.1 hview
  obtain ⟨hinst, hdef⟩ := Prod.mk.inj hview
  refine ⟨by decide +kernel, by decide +kernel, ⟨node, hnode, hinst, hdef,
    trees true _ e declared reached ⟨1⟩ node .cell hnode hinst hdef⟩, ?_⟩
  exact (named .cell (by decide +kernel) rfl).1 (by decide +kernel)

end Store

end DesignHierarchy
