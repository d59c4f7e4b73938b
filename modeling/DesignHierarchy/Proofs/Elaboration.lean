import DesignHierarchy.Proofs.Hierarchy
import DesignHierarchy.Scope.Locate
import Mathlib.Logic.Relation

/-! What an elaborator can do. All operations are made of three elementary
changes: an answer is remembered, a node is attached to a node that has no
children yet, and the children of such a node are recorded. Whatever these
changes preserve holds wherever an operation ends or is abandoned. -/
namespace DesignHierarchy

namespace Tree

def addAll (tree : Tree) (nodes : List Node) : Tree := nodes.foldl add tree

def freshIds (start count : Nat) : List NodeId := (List.range' start count).map NodeId.mk

@[simp] theorem length_freshIds (start count : Nat) : (freshIds start count).length = count := by
  simp [freshIds]

theorem mem_freshIds {start count : Nat} {id : NodeId} :
    id ∈ freshIds start count ↔ start ≤ id.index ∧ id.index < start + count := by
  cases id
  simp [freshIds, List.mem_range'_1]

theorem freshIds_succ (start count : Nat) :
    freshIds start (count + 1) = ⟨start⟩ :: freshIds (start + 1) count := by
  simp [freshIds, List.range'_succ]

@[simp] theorem size_addAll (tree : Tree) (nodes : List Node) :
    (tree.addAll nodes).size = tree.size + nodes.length := by
  induction nodes generalizing tree with
  | nil => rfl
  | cons node rest ih =>
    have h := ih (tree.add node)
    rw [size_add] at h
    rw [List.length_cons]
    change ((tree.add node).addAll rest).size = _
    omega

@[simp] theorem children?_addAll (tree : Tree) (nodes : List Node) (id : NodeId) :
    (tree.addAll nodes).children? id = tree.children? id := by
  induction nodes generalizing tree with
  | nil => rfl
  | cons node rest ih => exact (ih (tree.add node)).trans (children?_add tree node id)

theorem extends_addAll (tree : Tree) (nodes : List Node) : tree.Extends (tree.addAll nodes) := by
  induction nodes generalizing tree with
  | nil => exact .refl tree
  | cons node rest ih => exact (extends_add tree node).trans (ih (tree.add node))

theorem map_node?_freshIds (tree : Tree) (nodes : List Node) :
    (freshIds tree.size nodes.length).map (tree.addAll nodes).node? = nodes.map some := by
  induction nodes generalizing tree with
  | nil => rfl
  | cons node rest ih =>
    have hnode : (tree.add node).node? ⟨tree.size⟩ = some node := by simp
    have hrest := ih (tree.add node)
    rw [size_add] at hrest
    rw [List.length_cons, freshIds_succ, List.map_cons, List.map_cons]
    exact congrArg₂ List.cons ((extends_addAll (tree.add node) rest).node hnode) hrest

theorem listed_freshIds {tree : Tree} {id : NodeId} {owner : Node} {nodes : List Node}
    (hsymbols : nodes.map (·.symbol) = owner.shown) (hparents : ∀ n ∈ nodes, n.parent = some id) :
    (tree.addAll nodes).Listed id owner (freshIds tree.size nodes.length) where
  symbols := by
    have h := congrArg (List.map (Option.map (·.symbol))) (map_node?_freshIds tree nodes)
    rw [List.map_map, List.map_map] at h
    rw [← hsymbols, List.map_map]
    exact h
  parents := by
    intro c hc
    have hm : (tree.addAll nodes).node? c ∈ nodes.map some := by
      rw [← map_node?_freshIds tree nodes]
      exact List.mem_map_of_mem hc
    obtain ⟨node, hnode, hsome⟩ := List.mem_map.1 hm
    rw [parent?, ← hsome]
    exact hparents node hnode
  consecutive := ⟨tree.size, by simp [freshIds]⟩

end Tree

namespace Memo

/-- The answer is remembered when it is given. -/
theorem meets_resolve {keep : Memo → Prop} {lookup : Lookup} {name : String} {memo : Memo}
    (h : keep memo)
    (learn : memo.get? name = none → keep (memo.insert name (lookup.definition? name))) :
    ((resolve lookup name).run memo).Meets keep
      fun answer after => keep after ∧ after.get? name = some answer := by
  cases hg : memo.get? name with
  | some answer =>
    rw [run_resolve_of_get? hg, Run.meets_done]
    exact ⟨h, hg⟩
  | none =>
    obtain ⟨hpauses, -, hstate, hvalue⟩ := @run_resolve_of_get?_none lookup _ _ hg
    refine ⟨?_, ?_, ?_⟩
    · rw [hpauses]
      intro c hc
      split at hc
      · cases List.mem_singleton.1 hc
        exact h
      · cases hc
    · rw [hstate]
      exact learn hg
    · rw [hstate, hvalue]
      simp

end Memo

namespace Elaborator

/-- The answer that is remembered for the type of an instance. -/
def answer (e : Elaborator) (symbol : Symbol) : Option Symbol :=
  symbol.typeRef.bind fun name => (e.memo.get? name).join

def nodeFor (e : Elaborator) (id : NodeId) (symbol : Symbol) : Node :=
  .under (e.tree.openDefinitions id) id symbol (e.answer symbol)

/-- Nothing needs to be asked before a node for this symbol is made. -/
def Knows (e : Elaborator) (symbol : Symbol) : Prop :=
  ∀ name, symbol.kind = .inst → symbol.typeRef = some name → (e.memo.get? name).isSome

/-- The elementary changes. -/
inductive Step (lookup : Lookup) : Elaborator → Elaborator → Prop
  | learn {e : Elaborator} {name : String} (unknown : e.memo.get? name = none) :
      Step lookup e { e with memo := e.memo.insert name (lookup.definition? name) }
  | attach {e : Elaborator} {id : NodeId} {owner : Node} {symbol : Symbol}
      (unlisted : e.tree.slot? id = some ⟨owner, none⟩) (declared : symbol ∈ owner.shown)
      (known : e.Knows symbol) :
      Step lookup e { e with tree := e.tree.add (e.nodeFor id symbol) }
  | close {e : Elaborator} {id : NodeId} {owner : Node} {cs : List NodeId}
      (unlisted : e.tree.slot? id = some ⟨owner, none⟩) (listed : e.tree.Listed id owner cs) :
      Step lookup e { e with tree := e.tree.record id cs }

theorem Step.extends {lookup : Lookup} {s t : Elaborator} (h : Step lookup s t) :
    s.tree.Extends t.tree := by
  cases h with
  | learn => exact .refl _
  | attach => exact Tree.extends_add _ _
  | close unlisted => exact Tree.extends_record _ (Tree.slot?_eq_some.1 unlisted).2

theorem Step.wellFormed {lookup : Lookup} {s t : Elaborator} (h : Step lookup s t)
    (hs : s.tree.WellFormed) : t.tree.WellFormed := by
  cases h with
  | learn => exact hs
  | attach unlisted declared => exact hs.add (Tree.slot?_eq_some.1 unlisted).1 declared _
  | close unlisted listed =>
    have hslot := Tree.slot?_eq_some.1 unlisted
    exact hs.record hslot.1 hslot.2 listed

/-- What expanding a node comes to: nothing for an absent node, the recorded children if there
are any, and else a new node for each symbol that is shown. -/
inductive Expansion (s : Elaborator) (id : NodeId) : List NodeId → Elaborator → Prop
  | foreign (absent : s.tree.node? id = none) : Expansion s id [] s
  | known {cs : List NodeId} (recorded : s.tree.children? id = some cs) : Expansion s id cs s
  | fresh {owner : Node} {nodes : List Node} (memo : Memo)
      (unlisted : s.tree.slot? id = some ⟨owner, none⟩)
      (symbols : nodes.map (·.symbol) = owner.shown)
      (parents : ∀ n ∈ nodes, n.parent = some id) :
      Expansion s id (Tree.freshIds s.tree.size nodes.length)
        ⟨(s.tree.addAll nodes).record id (Tree.freshIds s.tree.size nodes.length), memo⟩

theorem Expansion.extends {s t : Elaborator} {id : NodeId} {cs : List NodeId}
    (h : Expansion s id cs t) : s.tree.Extends t.tree := by
  cases h with
  | foreign => exact .refl _
  | known => exact .refl _
  | fresh memo unlisted =>
    have hnone := (Tree.slot?_eq_some.1 unlisted).2
    exact (Tree.extends_addAll _ _).trans (Tree.extends_record _ (by simpa using hnone))

theorem Expansion.recorded {s t : Elaborator} {id : NodeId} {cs : List NodeId} {node : Node}
    (h : Expansion s id cs t) (hid : s.tree.node? id = some node) :
    t.tree.children? id = some cs := by
  cases h with
  | foreign absent =>
    rw [absent] at hid
    cases hid
  | known recorded => exact recorded
  | fresh =>
    have hlt := Tree.lt_size_of_node? hid
    rw [Tree.children?_record, if_pos ⟨rfl, by rw [Tree.size_addAll]; omega⟩]

/-- Expanding a node without children adds one level: as many nodes as it has children then, and
no other node gets any. -/
theorem Expansion.level {s t : Elaborator} {id : NodeId} {cs : List NodeId}
    (h : Expansion s id cs t) (bare : (s.tree.children? id).getD [] = []) :
    t.tree.size = s.tree.size + cs.length ∧
      (∀ c ∈ cs, s.tree.size ≤ c.index ∧ t.tree.children? c = none) ∧
      ∀ x, x ≠ id → t.tree.children? x = s.tree.children? x := by
  cases h with
  | foreign => simp
  | known recorded =>
    rw [recorded] at bare
    cases bare
    simp
  | fresh memo unlisted =>
    have hlt := Tree.lt_size_of_node? (Tree.slot?_eq_some.1 unlisted).1
    refine ⟨by simp, ?_, ?_⟩
    · intro c hc
      have hle := (Tree.mem_freshIds.1 hc).1
      have hne : id ≠ c := by
        rintro rfl
        omega
      rw [Tree.children?_record, if_neg (fun h => hne h.1), Tree.children?_addAll]
      exact ⟨hle, by simp [Tree.children?_eq_none hle]⟩
    · intro x hx
      rw [Tree.children?_record, if_neg (fun h => hx h.1.symm), Tree.children?_addAll]

/-- Looking up the definition of a child leaves the tree as it is. -/
theorem meets_elaborate_under (lookup : Lookup) (s : Elaborator) (id : NodeId) (symbol : Symbol) :
    ((elaborate lookup id symbol).run s).Meets (fun t => t.tree = s.tree)
      fun node t => t.tree = s.tree ∧ node.parent = some id := by
  unfold elaborate
  cases symbol.kind with
  | inst =>
    have hresolve : ((resolveInstance lookup symbol).run s).Meets (fun t => t.tree = s.tree)
        fun _ t => t.tree = s.tree := by
      unfold resolveInstance
      rw [Call.run_focus]
      exact Run.Meets.within ⟨fun _ _ => rfl, rfl⟩
    apply hresolve.bind
    intro definition t ht
    simp only [Call.run_bind, Call.run_gets, Run.bind_done, Call.run_pure, Run.after_nil,
      Run.meets_done]
    exact ⟨ht, trivial⟩
  | _ => exact ⟨by simp [Run.pauses], rfl, rfl⟩

section Contracts

variable {lookup : Lookup} {keep : Elaborator → Prop}
  (closed : ∀ s t, keep s → Step lookup s t → keep t)

include closed

theorem meets_resolveInstance {s : Elaborator} (h : keep s) (symbol : Symbol) :
    ((resolveInstance lookup symbol).run s).Meets keep
      fun definition t => keep t ∧ t.tree = s.tree ∧ definition = t.answer symbol ∧ t.Knows symbol := by
  unfold resolveInstance Memo.resolveInstance
  rw [Call.run_focus]
  apply Run.Meets.within
  cases htype : symbol.typeRef with
  | none =>
    refine ⟨by simp [Run.pauses], h, rfl, by simp [answer, htype, Run.value], ?_⟩
    intro name _ hname
    rw [htype] at hname
    cases hname
  | some name =>
    have hresolve := @Memo.meets_resolve (fun memo => keep ⟨s.tree, memo⟩) lookup name s.memo h
      fun hnone => closed _ _ h (.learn hnone)
    apply hresolve.imp (fun _ hm => hm)
    intro found memo hm
    refine ⟨hm.1, rfl, by simp [answer, htype, hm.2], ?_⟩
    intro other _ hother
    rw [htype] at hother
    cases hother
    simp [hm.2]

theorem meets_elaborate {s : Elaborator} (h : keep s) (id : NodeId) (symbol : Symbol) :
    ((elaborate lookup id symbol).run s).Meets keep
      fun node t => keep t ∧ t.tree = s.tree ∧ node = t.nodeFor id symbol ∧ t.Knows symbol := by
  unfold elaborate
  cases hkind : symbol.kind with
  | inst =>
    apply (meets_resolveInstance closed h symbol).bind
    rintro definition t ⟨ht, htree, rfl, hknown⟩
    simp only [Call.run_bind, Call.run_gets, Run.bind_done, Call.run_pure, Run.after_nil,
      Run.meets_done]
    exact ⟨ht, htree, by simp [nodeFor, Node.under, hkind], hknown⟩
  | _ =>
    refine ⟨by simp [Run.pauses], h, rfl, by simp [nodeFor, Node.under, hkind, Run.value], ?_⟩
    intro name hinst
    rw [hkind] at hinst
    cases hinst

theorem meets_addChildren {s : Elaborator} (h : keep s) {id : NodeId} {owner : Node}
    (unlisted : s.tree.slot? id = some ⟨owner, none⟩) (definition : String)
    (symbols : List Symbol) (declared : ∀ symbol ∈ symbols, symbol ∈ owner.shown) :
    ((addChildren lookup id definition symbols).run s).Meets keep fun cs t =>
      keep t ∧ ∃ nodes, t.tree = s.tree.addAll nodes ∧ nodes.map (·.symbol) = symbols ∧
        (∀ n ∈ nodes, n.parent = some id) ∧ cs = Tree.freshIds s.tree.size nodes.length := by
  induction symbols generalizing s with
  | nil => exact ⟨by simp [addChildren, Run.pauses], h, [], rfl, rfl, by simp, rfl⟩
  | cons symbol rest ih =>
    unfold addChildren
    apply (meets_elaborate closed h id symbol).bind
    rintro node t ⟨ht, htree, rfl, hknown⟩
    have hslot : t.tree.slot? id = some ⟨owner, none⟩ := htree ▸ unlisted
    have hadd : keep ⟨t.tree.add (t.nodeFor id symbol), t.memo⟩ :=
      closed _ _ ht (.attach hslot (declared symbol List.mem_cons_self) hknown)
    have hslot' : (t.tree.add (t.nodeFor id symbol)).slot? id = some ⟨owner, none⟩ := by
      have hs := Tree.slot?_eq_some.1 hslot
      exact Tree.slot?_eq_some.2 ⟨(Tree.extends_add _ _).node hs.1, by simpa using hs.2⟩
    simp only [Call.run_bind, Call.run_gets, Call.run_modify, Run.bind_done, Run.after_nil,
      Tree.nextId?_none]
    apply (ih hadd hslot' fun x hx => declared x (List.mem_cons_of_mem _ hx)).bind
    rintro cs u ⟨hu, nodes, htree', hsymbols, hparents, rfl⟩
    rw [Call.run_pure, Run.meets_done]
    refine ⟨hu, t.nodeFor id symbol :: nodes, ?_, ?_, ?_, ?_⟩
    · rw [htree', htree]
      rfl
    · simp [nodeFor, hsymbols]
    · simpa [nodeFor] using hparents
    · rw [List.length_cons, Tree.freshIds_succ, ← htree, ← Tree.size_add t.tree (t.nodeFor id symbol)]
      rfl

theorem meets_expand {s : Elaborator} (h : keep s) (id : NodeId) :
    ((expand lookup id).run s).Meets keep fun cs t => keep t ∧ Expansion s id cs t := by
  unfold expand
  rw [Call.run_bind, Call.run_gets, Run.bind_done, Run.after_nil]
  cases hslot : s.tree.slot? id with
  | none =>
    have hnode : s.tree.node? id = none := Tree.node?_eq_none.2 (Tree.slot?_eq_none.1 hslot)
    simp only [Call.emit, Call.run_bind, Call.run_log, Run.bind_done, Call.run_pure, Run.meets_after,
      Run.meets_done]
    exact ⟨h, .foreign hnode⟩
  | some slot =>
    obtain ⟨owner, children⟩ := slot
    cases children with
    | some cs =>
      rw [Call.run_pure, Run.meets_done]
      exact ⟨h, .known (Tree.slot?_eq_some.1 hslot).2⟩
    | none =>
      cases hdef : owner.definition with
      | none =>
        have hshown : owner.shown = [] := by simp [Node.shown, hdef]
        have hlisted := @Tree.listed_freshIds s.tree id owner [] hshown.symm (by simp)
        simp only [hdef, record, Call.run_bind, Call.run_modify, Run.bind_done, Call.run_pure,
          Run.meets_after, Run.meets_done]
        exact ⟨closed _ _ h (.close hslot hlisted),
          @Expansion.fresh s id owner [] s.memo hslot hshown.symm (by simp)⟩
      | some definition =>
        have hshown := Node.shown_of_definition hdef
        simp only [hdef]
        apply (meets_addChildren closed h hslot definition.name definition.shown (by simp [hshown])).bind
        rintro cs t ⟨ht, nodes, htree, hsymbols, hparents, rfl⟩
        rw [← hshown] at hsymbols
        have hlisted := @Tree.listed_freshIds s.tree id owner nodes hsymbols hparents
        have hslot' : t.tree.slot? id = some ⟨owner, none⟩ := by
          have hs := Tree.slot?_eq_some.1 hslot
          rw [htree]
          exact Tree.slot?_eq_some.2 ⟨(Tree.extends_addAll _ _).node hs.1, by simpa using hs.2⟩
        simp only [Call.emit, record, Call.run_bind, Call.run_log, Call.run_modify, Run.bind_done,
          Call.run_pure, Run.meets_after, Run.meets_done]
        refine ⟨closed _ _ ht (.close hslot' (htree ▸ hlisted)), ?_⟩
        rw [htree]
        exact .fresh t.memo hslot hsymbols hparents

end Contracts

/-- A course of elementary changes. -/
def Grows (lookup : Lookup) : Elaborator → Elaborator → Prop :=
  Relation.ReflTransGen (Step lookup)

section

variable {lookup : Lookup} {s t u : Elaborator}

theorem Grows.refl (s : Elaborator) : Grows lookup s s := Relation.ReflTransGen.refl

theorem Grows.trans (hst : Grows lookup s t) (htu : Grows lookup t u) : Grows lookup s u :=
  Relation.ReflTransGen.trans hst htu

theorem Grows.tail (h : Grows lookup s t) (step : Step lookup t u) : Grows lookup s u :=
  Relation.ReflTransGen.tail h step

/-- What each elementary change preserves is preserved. -/
theorem Grows.preserves {keep : Elaborator → Prop} (h : Grows lookup s t)
    (closed : ∀ s t, keep s → Step lookup s t → keep t) (hs : keep s) : keep t := by
  induction h with
  | refl => exact hs
  | tail _ step ih => exact closed _ _ ih step

theorem Grows.extends (h : Grows lookup s t) : s.tree.Extends t.tree := by
  induction h with
  | refl => exact .refl _
  | tail _ step ih => exact ih.trans step.extends

theorem Grows.wellFormed (h : Grows lookup s t) (hs : s.tree.WellFormed) : t.tree.WellFormed := by
  induction h with
  | refl => exact hs
  | tail _ step ih => exact step.wellFormed ih

end

theorem meets_expand_grows (lookup : Lookup) (s : Elaborator) (id : NodeId) :
    ((expand lookup id).run s).Meets (Grows lookup s) fun cs t =>
      Grows lookup s t ∧ Expansion s id cs t :=
  meets_expand (fun _ _ h step => h.tail step) (.refl s) id

theorem grows_expand (lookup : Lookup) (s : Elaborator) (id : NodeId) :
    Grows lookup s ((expand lookup id).run s).state :=
  (meets_expand_grows lookup s id).2.1

theorem expansion_expand (lookup : Lookup) (s : Elaborator) (id : NodeId) :
    Expansion s id ((expand lookup id).run s).value ((expand lookup id).run s).state :=
  (meets_expand_grows lookup s id).2.2

end Elaborator

end DesignHierarchy
