import DesignHierarchy.Proofs.Arena
import Mathlib.Data.List.Nodup

/-! Well-formed hierarchies. Every node but the root stands for a shown child of
its parent's definition, and a recorded list of children holds one node for each
of them, in the order of their declarations. -/
namespace DesignHierarchy

namespace Symbol

/-- The symbol whose children a node for this symbol shows; the answer to its type matters to
an instance only. -/
def scope (symbol : Symbol) (answer : Option Symbol) : Option Symbol :=
  match symbol.kind with
  | .block => some symbol
  | .inst => answer
  | _ => none

theorem mem_children_of_mem_shown {symbol child : Symbol} (h : child ∈ symbol.shown) :
    child ∈ symbol.children :=
  (List.mem_filter.1 h).1

end Symbol

namespace Node

/-- The node for a symbol declared in the scope at `parent`, where the definitions `opened`
are open. -/
def under (opened : List DefId) (parent : NodeId) (symbol : Symbol) (answer : Option Symbol) :
    Node :=
  match symbol.kind with
  | .block => ⟨symbol, some symbol, some parent, .block⟩
  | .inst =>
    ⟨symbol, answer, some parent, .inst symbol.typeRef (answer.any fun d => d.id ∈ opened)⟩
  | _ => ⟨symbol, none, some parent, .leaf⟩

section

variable (opened : List DefId) (parent : NodeId) (symbol : Symbol) (answer : Option Symbol)

@[simp] theorem symbol_under : (under opened parent symbol answer).symbol = symbol := by
  unfold under
  split <;> rfl

@[simp] theorem parent_under : (under opened parent symbol answer).parent = some parent := by
  unfold under
  split <;> rfl

@[simp] theorem definition_under :
    (under opened parent symbol answer).definition = symbol.scope answer := by
  unfold under Symbol.scope
  split <;> rfl

@[simp] theorem isInstance_under :
    (under opened parent symbol answer).isInstance = decide (symbol.kind = .inst) := by
  cases h : symbol.kind <;> simp [under, isInstance, h]

end

/-- What a node shows when it is expanded. -/
def shown (node : Node) : List Symbol := (node.definition.map (·.shown)).getD []

theorem shown_of_definition {node : Node} {definition : Symbol}
    (h : node.definition = some definition) : node.shown = definition.shown := by
  simp [shown, h]

theorem definition_of_mem_shown {node : Node} {symbol : Symbol} (h : symbol ∈ node.shown) :
    ∃ definition, node.definition = some definition ∧ symbol ∈ definition.shown := by
  unfold shown at h
  cases hd : node.definition with
  | none => simp [hd] at h
  | some definition => exact ⟨definition, rfl, by simpa [hd] using h⟩

end Node

namespace Tree

/-- A node that stands where its parent's definition declares its symbol. -/
inductive Linked (tree : Tree) (id : NodeId) : Node → Prop
  | intro {p : NodeId} {owner : Node} {symbol : Symbol} (answer : Option Symbol)
      (lt : p.index < id.index) (at_parent : tree.node? p = some owner)
      (declared : symbol ∈ owner.shown) :
      Linked tree id (.under (tree.openDefinitions p) p symbol answer)

/-- The children of a node: consecutive nodes, one for each symbol that it shows. -/
structure Listed (tree : Tree) (id : NodeId) (owner : Node) (cs : List NodeId) : Prop where
  symbols : cs.map (fun c => (tree.node? c).map (·.symbol)) = owner.shown.map some
  parents : ∀ c ∈ cs, tree.parent? c = some id
  consecutive : ∃ start, cs = (List.range' start cs.length).map NodeId.mk

structure WellFormed (tree : Tree) : Prop where
  root : tree.node? .root = some ⟨tree.top, some tree.top, none, .root⟩
  linked : ∀ {id node}, tree.node? id = some node → id ≠ .root → tree.Linked id node
  listed : ∀ {id owner cs}, tree.node? id = some owner → tree.children? id = some cs →
    tree.Listed id owner cs

namespace WellFormed

variable {tree : Tree}

theorem parentsFirst (h : tree.WellFormed) : tree.ParentsFirst := by
  intro id node p hnode hp
  by_cases hid : id = .root
  · subst hid
    rw [h.root] at hnode
    cases hnode
    cases hp
  · obtain ⟨answer, hlt, -, -⟩ := h.linked hnode hid
    rw [Node.parent_under] at hp
    cases hp
    exact hlt

theorem ancestors_root (h : tree.WellFormed) : tree.ancestors .root = [] := by
  rw [ancestors_eq h.parentsFirst]
  simp [parent?, h.root]

theorem openAbove_root (h : tree.WellFormed) : tree.openAbove .root = [] := by
  simp [openAbove, h.ancestors_root]

theorem reenters_root (h : tree.WellFormed) : tree.reenters .root = false := by
  simp [reenters, h.root, h.openAbove_root]

theorem namesTo_root (h : tree.WellFormed) : tree.namesTo .root = [tree.top.name] := by
  simp [namesTo, h.ancestors_root, h.root, Node.name]

end WellFormed

theorem Listed.nodup {tree : Tree} {id : NodeId} {owner : Node} {cs : List NodeId}
    (h : tree.Listed id owner cs) : cs.Nodup := by
  obtain ⟨start, hcs⟩ := h.consecutive
  rw [hcs]
  refine List.Nodup.map ?_ List.nodup_range'
  intro a b hab
  cases hab
  rfl

theorem Listed.node {tree : Tree} {id c : NodeId} {owner : Node} {cs : List NodeId}
    (h : tree.Listed id owner cs) (hc : c ∈ cs) :
    ∃ node, tree.node? c = some node ∧ node.parent = some id ∧ node.symbol ∈ owner.shown := by
  obtain ⟨node, hnode, hp⟩ := Option.bind_eq_some_iff.1 (h.parents c hc)
  refine ⟨node, hnode, hp, ?_⟩
  have hm : some node.symbol ∈ owner.shown.map some := by
    rw [← h.symbols]
    exact List.mem_map.2 ⟨c, hc, by simp [hnode]⟩
  simpa using hm

theorem Listed.mem_of_shown {tree : Tree} {id : NodeId} {owner : Node} {cs : List NodeId}
    {symbol : Symbol} (h : tree.Listed id owner cs) (hs : symbol ∈ owner.shown) :
    ∃ c ∈ cs, ∃ node, tree.node? c = some node ∧ node.symbol = symbol := by
  have hm : some symbol ∈ cs.map fun c => (tree.node? c).map (·.symbol) := by
    rw [h.symbols]
    exact List.mem_map_of_mem hs
  obtain ⟨c, hc, hsome⟩ := List.mem_map.1 hm
  obtain ⟨node, hnode, hsymbol⟩ := Option.map_eq_some_iff.1 hsome
  exact ⟨c, hc, node, hnode, hsymbol⟩

theorem WellFormed.parent?_of_mem {tree : Tree} (h : tree.WellFormed) {id c : NodeId}
    {cs : List NodeId} (hcs : tree.children? id = some cs) (hc : c ∈ cs) :
    tree.parent? c = some id := by
  obtain ⟨owner, howner⟩ := node?_of_children? hcs
  exact (h.listed howner hcs).parents c hc

section Growth

variable {s t : Tree} (h : s.Extends t)

include h

theorem Linked.mono (hs : s.ParentsFirst) (ht : t.ParentsFirst) {id : NodeId} {node : Node}
    (hl : s.Linked id node) : t.Linked id node := by
  obtain ⟨answer, hlt, hp, hdecl⟩ := hl
  rw [← h.openDefinitions hs ht (lt_size_of_node? hp)]
  exact .intro answer hlt (h.node hp) hdecl

theorem Listed.mono {id : NodeId} {owner : Node} {cs : List NodeId}
    (hl : s.Listed id owner cs) : t.Listed id owner cs where
  symbols := by
    rw [← hl.symbols]
    apply List.map_congr_left
    intro c hc
    obtain ⟨node, hnode, -⟩ := hl.node hc
    rw [hnode, h.node hnode]
  parents := by
    intro c hc
    rw [h.parent? (lt_size_of_parent? (hl.parents c hc))]
    exact hl.parents c hc
  consecutive := hl.consecutive

end Growth

theorem ParentsFirst.add {tree : Tree} (h : tree.ParentsFirst) {node : Node}
    (hnode : ∀ p, node.parent = some p → p.index < tree.size) : (tree.add node).ParentsFirst := by
  intro id found p hfound hp
  rw [node?_add] at hfound
  split at hfound
  · cases hfound
    have := hnode p hp
    omega
  · exact h hfound hp

theorem ParentsFirst.record {tree : Tree} (h : tree.ParentsFirst) (id : NodeId)
    (cs : List NodeId) : (tree.record id cs).ParentsFirst := by
  intro other node p hnode hp
  rw [node?_record] at hnode
  exact h hnode hp

theorem wellFormed_ofTop (top : Symbol) : (ofTop top).WellFormed where
  root := rfl
  linked := by
    intro id node hnode hid
    have hlt := lt_size_of_node? hnode
    rw [size_ofTop] at hlt
    cases id
    exact absurd (congrArg NodeId.mk (Nat.lt_one_iff.1 hlt)) hid
  listed := by
    intro id owner cs howner hcs
    have hlt := lt_size_of_node? howner
    rw [size_ofTop] at hlt
    have hid : id = .root := by
      cases id
      exact congrArg NodeId.mk (Nat.lt_one_iff.1 hlt)
    subst hid
    cases hcs

namespace WellFormed

variable {tree : Tree} {id : NodeId} {owner : Node}

theorem add (h : tree.WellFormed) (howner : tree.node? id = some owner) {symbol : Symbol}
    (hsymbol : symbol ∈ owner.shown) (answer : Option Symbol) :
    (tree.add (.under (tree.openDefinitions id) id symbol answer)).WellFormed := by
  have hlt := lt_size_of_node? howner
  have hext := extends_add tree (.under (tree.openDefinitions id) id symbol answer)
  have hpf := h.parentsFirst
  have hpf' : (tree.add (.under (tree.openDefinitions id) id symbol answer)).ParentsFirst := by
    apply hpf.add
    intro p hp
    rw [Node.parent_under] at hp
    cases hp
    exact hlt
  refine ⟨?_, ?_, ?_⟩
  · rw [hext.top]
    exact hext.node h.root
  · intro other node hnode hother
    rw [node?_add] at hnode
    split at hnode
    · rename_i hsize
      cases hnode
      rw [← hsize] at hlt
      have hlink := Linked.intro answer hlt (hext.node howner) hsymbol
      rw [hext.openDefinitions hpf hpf' (hsize ▸ hlt)] at hlink
      exact hlink
    · exact (h.linked hnode hother).mono hext hpf hpf'
  · intro other found cs hfound hcs
    rw [children?_add] at hcs
    obtain ⟨node, hnode⟩ := node?_of_children? hcs
    rw [hext.node hnode] at hfound
    cases hfound
    exact (h.listed hnode hcs).mono hext

theorem record (h : tree.WellFormed) (howner : tree.node? id = some owner)
    (hopen : tree.children? id = none) {cs : List NodeId} (hcs : tree.Listed id owner cs) :
    (tree.record id cs).WellFormed := by
  have hext := extends_record cs hopen
  have hpf := h.parentsFirst
  refine ⟨?_, ?_, ?_⟩
  · rw [hext.top]
    exact hext.node h.root
  · intro other node hnode hother
    rw [node?_record] at hnode
    exact (h.linked hnode hother).mono hext hpf (hpf.record id cs)
  · intro other found known hfound hknown
    rw [node?_record] at hfound
    rw [children?_record] at hknown
    split at hknown
    · rename_i heq
      obtain ⟨rfl, -⟩ := heq
      cases hknown
      rw [howner] at hfound
      cases hfound
      exact hcs.mono hext
    · exact (h.listed hfound hknown).mono hext

end WellFormed

end Tree

end DesignHierarchy
