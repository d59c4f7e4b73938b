import DesignHierarchy.Proofs.Sweep
import DesignHierarchy.Proofs.Walk
import DesignHierarchy.Workspace.Basic

/-! Hierarchies that calls can reach. Under a lookup that answers each name the
same way throughout, whatever is called and wherever it is abandoned, every node
has the definition that the lookup gives for its symbol. -/
namespace DesignHierarchy

/-- The definition an instance written like this elaborates to. -/
def Lookup.answer (lookup : Lookup) (symbol : Symbol) : Option Symbol :=
  symbol.typeRef.bind lookup.definition?

namespace Elaborator

/-- The hierarchy is one of `top` under this lookup. -/
structure Sound (lookup : Lookup) (top : Symbol) (e : Elaborator) : Prop where
  formed : e.tree.WellFormed
  top_eq : e.tree.top = top
  remembered : ∀ {name answer}, e.memo.get? name = some answer → answer = lookup.definition? name
  answered : ∀ {id node}, e.tree.node? id = some node → id ≠ .root →
    node.definition = node.symbol.scope (lookup.answer node.symbol)

theorem sound_ofTop (lookup : Lookup) (top : Symbol) : Sound lookup top ⟨.ofTop top, ∅⟩ where
  formed := Tree.wellFormed_ofTop top
  top_eq := rfl
  remembered := by
    intro name answer h
    simp at h
  answered := by
    intro id node hnode hid
    obtain ⟨answer, hlt, hp, -⟩ := (Tree.wellFormed_ofTop top).linked hnode hid
    have hsize := Tree.lt_size_of_node? hnode
    rw [Tree.size_ofTop] at hsize
    omega

theorem Sound.scope_answer {lookup : Lookup} {top : Symbol} {e : Elaborator}
    (h : Sound lookup top e) {symbol : Symbol} (known : e.Knows symbol) :
    symbol.scope (e.answer symbol) = symbol.scope (lookup.answer symbol) := by
  cases hkind : symbol.kind with
  | inst =>
    cases htype : symbol.typeRef with
    | none => simp [answer, Lookup.answer, htype]
    | some name =>
      obtain ⟨found, hfound⟩ := Option.isSome_iff_exists.1 (known name hkind htype)
      simp [answer, Lookup.answer, htype, hfound, h.remembered hfound]
  | _ => simp [Symbol.scope, hkind]

/-- What is known about a node other than the root. -/
theorem Sound.declared {lookup : Lookup} {top : Symbol} {e : Elaborator}
    (h : Sound lookup top e) {id : NodeId} {node : Node} (hnode : e.tree.node? id = some node)
    (hid : id ≠ .root) :
    ∃ p owner scope, node.parent = some p ∧ p.index < id.index ∧ e.tree.node? p = some owner ∧
      owner.definition = some scope ∧ node.symbol ∈ scope.shown ∧
      node.isInstance = decide (node.symbol.kind = .inst) := by
  obtain ⟨answer, hlt, howner, hshown⟩ := h.formed.linked hnode hid
  obtain ⟨scope, hscope, hmem⟩ := Node.definition_of_mem_shown hshown
  exact ⟨_, _, scope, by simp, hlt, howner, hscope, by simpa using hmem, by simp⟩

/-- Induction over the nodes, from the root down. -/
theorem Sound.nodeInduction {lookup : Lookup} {top : Symbol} {e : Elaborator}
    (h : Sound lookup top e) {motive : Node → Prop}
    (root : motive ⟨top, some top, none, .root⟩)
    (below : ∀ id node owner scope, e.tree.node? id = some node → id ≠ .root →
      owner.definition = some scope → node.symbol ∈ scope.shown → motive owner → motive node)
    {id : NodeId} {node : Node} (hnode : e.tree.node? id = some node) : motive node := by
  induction hn : id.index using Nat.strongRecOn generalizing id node with
  | ind n ih =>
    by_cases hid : id = .root
    · subst hid
      rw [h.formed.root, h.top_eq] at hnode
      cases hnode
      exact root
    · obtain ⟨p, owner, scope, -, hlt, howner, hscope, hshown, -⟩ := h.declared hnode hid
      exact below id node owner scope hnode hid hscope hshown (ih p.index (by omega) howner rfl)

theorem Step.sound {lookup : Lookup} {top : Symbol} {s t : Elaborator} (step : Step lookup s t)
    (h : Sound lookup top s) : Sound lookup top t := by
  refine ⟨step.wellFormed h.formed, by rw [step.extends.top, h.top_eq], ?_, ?_⟩
  · intro name answer hanswer
    cases step with
    | learn unknown =>
      rw [Table.get?_insert] at hanswer
      split at hanswer
      · rename_i heq
        subst heq
        exact (Option.some.inj hanswer).symm
      · exact h.remembered hanswer
    | attach => exact h.remembered hanswer
    | close => exact h.remembered hanswer
  · intro id node hnode hid
    cases step with
    | learn => exact h.answered hnode hid
    | attach unlisted declared known =>
      rw [Tree.node?_add] at hnode
      split at hnode
      · cases hnode
        simpa [nodeFor] using h.scope_answer known
      · exact h.answered hnode hid
    | close =>
      rw [Tree.node?_record] at hnode
      exact h.answered hnode hid

theorem Sound.grows {lookup : Lookup} {top : Symbol} {s t : Elaborator} (h : Sound lookup top s)
    (hgrows : Grows lookup s t) : Sound lookup top t :=
  hgrows.preserves (fun _ _ hk step => step.sound hk) h

end Elaborator

namespace Pass

section Contracts

variable {lookup : Lookup} {keep : Elaborator → Prop}
  (closed : ∀ s t, keep s → Elaborator.Step lookup s t → keep t)

include closed

theorem meets_enter {s : Pass} (h : keep s.elaborator) (chain : List DefId) (id : NodeId)
    (node : Node) (path : String) :
    ((enter lookup chain id node path).run s).Meets (fun t => keep t.elaborator)
      fun _ t => keep t.elaborator := by
  unfold enter
  split
  · simpa using h
  · split
    · simpa [Call.emit, Call.run_map] using h
    · have hexpand : ((expand lookup id).run s).Meets (fun t => keep t.elaborator)
          fun _ t => keep t.elaborator := by
        apply Run.Meets.within
        exact (Elaborator.meets_expand closed h id).imp (fun _ hk => hk) fun _ _ hk => hk.1
      apply hexpand.bind
      intro cs t ht
      simpa using ht

theorem meets_visit {s : Pass} (h : keep s.elaborator) (chain : List DefId) (id : NodeId)
    (node : Node) :
    ((visit lookup chain id node).run s).Meets (fun t => keep t.elaborator)
      fun _ t => keep t.elaborator := by
  unfold visit
  simp only [Call.run_bind, Call.run_gets, Run.bind_done, Run.after_nil, run_modifyIndex]
  have henter := @meets_enter lookup keep closed
    { s with index := s.index.visit id node ((s.tree.path? id).getD "") } h chain id node
    ((s.tree.path? id).getD "")
  apply henter.bind
  intro site t ht
  rw [Call.run_bind, run_report, Run.bind_done, Run.meets_after]
  have hpause : ((Call.pause : Call Pass Unit).run
      { t with estimate := t.estimate.advance.2, made := t.made + 1 }).Meets
      (fun t => keep t.elaborator) fun _ t => keep t.elaborator := Call.meets_pause ht ht
  apply hpause.bind
  intro _ u hu
  simpa using hu

theorem meets_sweepWith {cancelAfter : Option Nat}
    {below : List DefId → List NodeId → Call Pass Ending}
    (hbelow : ∀ chain ids s, keep s.elaborator → ((below chain ids).run s).Meets
      (fun t => keep t.elaborator) fun _ t => keep t.elaborator)
    {s : Pass} (h : keep s.elaborator) (chain : List DefId) (ids : List NodeId) :
    ((sweepWith lookup cancelAfter below chain ids).run s).Meets (fun t => keep t.elaborator)
      fun _ t => keep t.elaborator := by
  induction ids generalizing s with
  | nil => simpa [sweepWith] using h
  | cons id rest ih =>
    rw [run_sweepWith_cons]
    split
    · simpa using h
    split
    · exact ih h
    apply (meets_visit closed h chain id _).bind
    intro site t ht
    apply (hbelow _ _ _ ht).bind
    intro ending u hu
    cases ending with
    | finished => exact ih hu
    | cancelled => simpa [goOn] using hu
    | outOfRoom => simpa [goOn] using hu

theorem meets_sweep {s : Pass} (h : keep s.elaborator) (cancelAfter : Option Nat) (room : Nat)
    (chain : List DefId) (ids : List NodeId) :
    ((sweep lookup cancelAfter room chain ids).run s).Meets (fun t => keep t.elaborator)
      fun _ t => keep t.elaborator := by
  induction room generalizing s chain ids with
  | zero => cases ids <;> simpa [sweep] using h
  | succ room ih => exact meets_sweepWith closed (fun _ _ _ hs => ih hs _ _) h chain ids

theorem meets_body {s : Pass} (h : keep s.elaborator) (cancelAfter : Option Nat) :
    ((body lookup cancelAfter).run s).Meets (fun t => keep t.elaborator)
      fun _ t => keep t.elaborator := by
  unfold body
  simp only [Call.run_bind, Call.run_gets, Run.bind_done, Run.after_nil, loop_eq_sweep]
  apply (meets_sweep closed h cancelAfter _ _ _).bind
  intro ending t ht
  cases ending <;> simpa [run_conclude] using ht

end Contracts

end Pass

namespace Indexer

theorem meets_build {lookup : Lookup} {keep : Elaborator → Prop}
    (closed : ∀ s t, keep s → Elaborator.Step lookup s t → keep t) {i : Indexer}
    (h : keep i.elaborator) (scale : UInt32) (cancelAfter : Option Nat) :
    ((build lookup scale cancelAfter).run i).Meets (fun j => keep j.elaborator)
      fun _ j => keep j.elaborator := by
  apply Run.Meets.within
  exact Pass.meets_body closed h cancelAfter

end Indexer

namespace Elaborator

/-- What can be reached under a top: by calls on the hierarchy and on what is remembered, each
driven to its end or abandoned at a suspension. -/
inductive Reached (lookup : Lookup) (top : Symbol) : Elaborator → Prop
  | start : Reached lookup top ⟨.ofTop top, ∅⟩
  | expand {s t : Elaborator} (id : NodeId) (before : Reached lookup top s)
      (left : (expand lookup id).Leaves s t) : Reached lookup top t
  | findChild {s t : Elaborator} (id : NodeId) (name : String) (before : Reached lookup top s)
      (left : (findChild lookup id name).Leaves s t) : Reached lookup top t
  | resolvePath {s t : Elaborator} (path : String) (before : Reached lookup top s)
      (left : (resolvePath lookup path).Leaves s t) : Reached lookup top t
  | build {s : Elaborator} {index : InstanceIndex} {j : Indexer} (scale : UInt32)
      (cancelAfter : Option Nat) (before : Reached lookup top s)
      (left : (Indexer.build lookup scale cancelAfter).Leaves ⟨s, index⟩ j) :
      Reached lookup top j.elaborator
  | resolve {s : Elaborator} {memo : Memo} (name : String) (before : Reached lookup top s)
      (left : (Memo.resolve lookup name).Leaves s.memo memo) : Reached lookup top { s with memo }
  | forget {s : Elaborator} (before : Reached lookup top s) :
      Reached lookup top { s with memo := ∅ }

theorem Reached.sound {lookup : Lookup} {top : Symbol} {e : Elaborator}
    (h : Reached lookup top e) : e.Sound lookup top := by
  have closed : ∀ s t, Sound lookup top s → Step lookup s t → Sound lookup top t :=
    fun _ _ hk step => step.sound hk
  have formed : ∀ s, Sound lookup top s → s.tree.WellFormed := fun _ hk => hk.formed
  induction h with
  | start => exact sound_ofTop lookup top
  | expand id _ left ih => exact left.holds ih (meets_expand closed ih id) fun _ _ hk => hk.1
  | findChild id name _ left ih =>
    exact left.holds ih (meets_findChild closed ih id name) fun _ _ hk => hk.1
  | resolvePath path _ left ih =>
    exact left.holds ih (meets_resolvePath closed formed ih path) fun _ _ hk => hk.1
  | @build s index j scale cancelAfter _ left ih =>
    exact left.holds ih
      (Indexer.meets_build closed ih scale cancelAfter) fun _ _ hk => hk
  | @resolve s memo name _ left ih =>
    have hresolve := @Memo.meets_resolve (fun memo => Sound lookup top ⟨s.tree, memo⟩) lookup name
      s.memo ih fun hnone => closed _ _ ih (.learn hnone)
    exact left.holds ih hresolve fun _ _ hk => hk.1
  | forget _ ih =>
    refine ⟨ih.formed, ih.top_eq, ?_, ih.answered⟩
    intro name answer hanswer
    simp at hanswer

end Elaborator

/-! A module with an instance of itself inside a block: its hierarchy has no end. -/

def Decl.selfNesting : Decl where
  name := "m"
  kind := .module
  children := [{
    name := "b"
    kind := .block
    children := [{ name := "u", kind := .inst, typeRef := some "m" }] }]

def Symbol.selfNesting : Symbol := (Decl.selfNesting.freeze ⟨0⟩ 0).1

def Store.selfNesting : Store := Store.load {} ⟨"m.v"⟩ [.selfNesting]

def Lookup.selfNesting : Lookup := Workspace.lookup { store := .selfNesting }

def Indexer.selfNesting : Indexer := ⟨⟨.ofTop .selfNesting, ∅⟩, {}⟩

def Indexer.browsedOnce : Indexer :=
  ⟨((Elaborator.expand .selfNesting .root).run Indexer.selfNesting.elaborator).state, {}⟩

end DesignHierarchy
