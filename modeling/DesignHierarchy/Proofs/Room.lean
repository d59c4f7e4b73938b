import DesignHierarchy.Proofs.Reach
import DesignHierarchy.Proofs.Symbols

/-! A pass has room enough. Whatever definition it opens is one of a finite stock
of symbols that is known at its start, and on its way down no definition is
opened twice, so on recursive designs too it comes to its end. -/
namespace DesignHierarchy

/-- Symbols that hold every answer of a lookup, and with a symbol its children. -/
structure Stock (lookup : Lookup) where
  symbols : List Symbol
  answers : ∀ symbol ∈ lookup.pool, symbol ∈ symbols
  children : ∀ symbol ∈ symbols, ∀ child ∈ symbol.children, child ∈ symbols

namespace Stock

variable {lookup : Lookup}

/-- The stock that the room of a pass is measured by. -/
def ofElaborator (lookup : Lookup) (e : Elaborator) : Stock lookup where
  symbols := Symbol.walkAll (lookup.pool ++ e.memo.values.filterMap id ++ e.tree.definitions)
  answers := by
    intro symbol h
    apply Symbol.mem_walkAll_of_mem
    exact List.mem_append_left _ (List.mem_append_left _ h)
  children := fun _ h _ hc => Symbol.mem_walkAll_of_mem_children h hc

/-- Only symbols of the stock are open or remembered. -/
structure Supplies (stock : Stock lookup) (e : Elaborator) : Prop where
  opened : ∀ {id node definition}, e.tree.node? id = some node →
    node.definition = some definition → definition ∈ stock.symbols
  remembered : ∀ {name definition}, e.memo.get? name = some (some definition) →
    definition ∈ stock.symbols

theorem supplies_ofElaborator (lookup : Lookup) (e : Elaborator) :
    (ofElaborator lookup e).Supplies e where
  opened := by
    intro id node definition hnode hdef
    apply Symbol.mem_walkAll_of_mem
    apply List.mem_append_right
    have hmem : node ∈ e.tree.nodes.toList := Array.mem_toList_iff.2 (Array.mem_of_getElem? hnode)
    exact List.mem_filterMap.2 ⟨node, hmem, hdef⟩
  remembered := by
    intro name definition h
    apply Symbol.mem_walkAll_of_mem
    apply List.mem_append_left
    apply List.mem_append_right
    exact List.mem_filterMap.2 ⟨_, Table.mem_values_of_get? h, rfl⟩

theorem Supplies.scope {stock : Stock lookup} {e : Elaborator} (h : stock.Supplies e)
    {symbol definition : Symbol} (hsymbol : symbol ∈ stock.symbols)
    (hscope : symbol.scope (e.answer symbol) = some definition) : definition ∈ stock.symbols := by
  unfold Symbol.scope at hscope
  split at hscope
  · cases hscope
    exact hsymbol
  · obtain ⟨name, -, hjoin⟩ := Option.bind_eq_some_iff.1 hscope
    exact h.remembered (Option.join_eq_some_iff.1 hjoin)
  · cases hscope

theorem Supplies.step {stock : Stock lookup} {s t : Elaborator} (h : stock.Supplies s)
    (step : Elaborator.Step lookup s t) : stock.Supplies t := by
  cases step with
  | @learn name unknown =>
    refine ⟨h.opened, ?_⟩
    intro other definition hanswer
    rw [Table.get?_insert] at hanswer
    split at hanswer
    · exact stock.answers _ (Lookup.definition?_mem_pool (Option.some.inj hanswer))
    · exact h.remembered hanswer
  | @attach id owner symbol unlisted declared known =>
    refine ⟨?_, h.remembered⟩
    intro other node definition hnode hdef
    rw [Tree.node?_add] at hnode
    split at hnode
    · cases hnode
      obtain ⟨scope, hscope, hshown⟩ := Node.definition_of_mem_shown declared
      have howner := h.opened (Tree.slot?_eq_some.1 unlisted).1 hscope
      have hsymbol := stock.children scope howner symbol (Symbol.mem_children_of_mem_shown hshown)
      apply h.scope hsymbol
      simpa [Elaborator.nodeFor] using hdef
    · exact h.opened hnode hdef
  | close unlisted listed =>
    refine ⟨?_, h.remembered⟩
    intro other node definition hnode hdef
    rw [Tree.node?_record] at hnode
    exact h.opened hnode hdef

/-- Definitions that may be open one below the other. -/
structure Opens (stock : Stock lookup) (chain : List DefId) : Prop where
  nodup : chain.Nodup
  subset : chain ⊆ stock.symbols.map (·.id)

theorem opens_nil (stock : Stock lookup) : stock.Opens [] :=
  ⟨List.nodup_nil, List.nil_subset _⟩

theorem Opens.length_le {stock : Stock lookup} {chain : List DefId} (h : stock.Opens chain) :
    chain.length ≤ stock.symbols.length := by
  have hle := h.nodup.length_le_of_subset h.subset
  rwa [List.length_map] at hle

theorem Opens.append {stock : Stock lookup} {chain : List DefId} (h : stock.Opens chain)
    {definition : Symbol} (hdef : definition ∈ stock.symbols) (hnew : definition.id ∉ chain) :
    stock.Opens (chain ++ [definition.id]) where
  nodup := by
    refine List.nodup_append'.2 ⟨h.nodup, List.nodup_singleton _, ?_⟩
    intro d hd hd'
    rw [List.mem_singleton.1 hd'] at hd
    exact hnew hd
  subset := by
    intro d hd
    obtain hd | hd := List.mem_append.1 hd
    · exact h.subset hd
    · rw [List.mem_singleton.1 hd]
      exact List.mem_map_of_mem hdef

end Stock

namespace Pass

variable {lookup : Lookup}

/-- There is nothing to do below a visited node, or one more definition is open there. -/
theorem opens_visit {stock : Stock lookup} {s : Pass} (h : stock.Supplies s.elaborator)
    {chain : List DefId} (hchain : stock.Opens chain) {id : NodeId} {node : Node}
    (found : s.tree.node? id = some node) :
    let site := ((visit lookup chain id node).run s).value
    site.2 = [] ∨ stock.Opens site.1 ∧ site.1.length = chain.length + 1 := by
  obtain ⟨hvalue, -⟩ := run_visit lookup chain id node s
  obtain ⟨-, ⟨-, hvalue', -⟩ | ⟨d, hd, hnew, hvalue', -⟩⟩ := enter_cases lookup chain id node
    ((s.tree.path? id).getD "") { s with index := s.index.visit id node ((s.tree.path? id).getD "") }
  · left
    rw [hvalue, hvalue']
  · right
    obtain ⟨definition, hdef, rfl⟩ := Option.map_eq_some_iff.1 hd
    rw [hvalue, hvalue']
    exact ⟨hchain.append (h.opened found hdef) hnew, by simp⟩

theorem finishes_sweepWith {stock : Stock lookup} {chain : List DefId}
    {below : List DefId → List NodeId → Call Pass Ending}
    (hkeep : ∀ chain ids s, stock.Supplies s.elaborator →
      stock.Supplies ((below chain ids).run s).state.elaborator)
    (hbelow : ∀ opened ids s, stock.Supplies s.elaborator →
      ids = [] ∨ stock.Opens opened ∧ opened.length = chain.length + 1 →
      ((below opened ids).run s).value = .finished)
    (hchain : stock.Opens chain) (ids : List NodeId) {s : Pass} (h : stock.Supplies s.elaborator) :
    ((sweepWith lookup none below chain ids).run s).value = .finished := by
  induction ids generalizing s with
  | nil => rfl
  | cons id rest ih =>
    rw [run_sweepWith_cons, if_neg (by simp [isCancelled])]
    cases found : s.tree.node? id with
    | none => exact ih h
    | some node =>
      have hvisited := (meets_visit (fun _ _ hk step => hk.step step) h chain id node).2
      have hend := hbelow _ _ _ hvisited (opens_visit h hchain found)
      dsimp only
      rw [Run.value_bind, Run.value_bind, hend]
      exact ih (hkeep _ _ _ hvisited)

/-- A level for each symbol of the stock that is not open, and one more, is enough. -/
theorem finishes_sweep {stock : Stock lookup} {room : Nat} {chain : List DefId}
    (hchain : stock.Opens chain) (hroom : stock.symbols.length + 1 ≤ chain.length + room)
    (ids : List NodeId) {s : Pass} (h : stock.Supplies s.elaborator) :
    ((sweep lookup none room chain ids).run s).value = .finished := by
  induction room generalizing chain ids s with
  | zero =>
    -- a chain that leaves no room would hold more definitions than there are
    have hle := hchain.length_le
    omega
  | succ room ih =>
    refine finishes_sweepWith ?_ ?_ hchain ids h
    · intro opened below t ht
      exact (meets_sweep (fun _ _ hk step => hk.step step) ht none room opened below).2
    · intro opened below t ht hcases
      obtain rfl | ⟨hopened, hlength⟩ := hcases
      · rw [run_sweep_nil]
        rfl
      · exact ih hopened (by omega) below ht

theorem sweepWith_stable {cancelAfter : Option Nat}
    {below below' : List DefId → List NodeId → Call Pass Ending}
    (hbelow : ∀ chain ids s, ((below chain ids).run s).value = .finished →
      (below' chain ids).run s = (below chain ids).run s)
    {chain : List DefId} {ids : List NodeId} {s : Pass}
    (h : ((sweepWith lookup cancelAfter below chain ids).run s).value = .finished) :
    (sweepWith lookup cancelAfter below' chain ids).run s =
      (sweepWith lookup cancelAfter below chain ids).run s := by
  induction ids generalizing s with
  | nil => rfl
  | cons id rest ih =>
    rw [run_sweepWith_cons] at h
    rw [run_sweepWith_cons, run_sweepWith_cons]
    by_cases hc : s.isCancelled cancelAfter
    · rw [if_pos hc, if_pos hc]
    rw [if_neg hc] at h
    rw [if_neg hc, if_neg hc]
    cases found : s.tree.node? id with
    | none =>
      rw [found] at h
      exact ih h
    | some node =>
      simp only [found, Run.value_bind] at h
      dsimp only
      apply Run.bind_congr
      generalize ((visit lookup chain id node).run s).value = site at h ⊢
      generalize ((visit lookup chain id node).run s).state = t at h ⊢
      cases hend : ((below site.1 site.2).run t).value with
      | finished =>
        rw [hbelow _ _ _ hend]
        apply Run.bind_congr
        rw [hend] at h ⊢
        exact ih h
      | cancelled =>
        rw [hend] at h
        cases h
      | outOfRoom =>
        rw [hend] at h
        cases h

/-- A sweep that comes to its end makes no use of more room. -/
theorem sweep_stable {cancelAfter : Option Nat} {room levels : Nat} (hle : room ≤ levels)
    {chain : List DefId} {ids : List NodeId} {s : Pass}
    (h : ((sweep lookup cancelAfter room chain ids).run s).value = .finished) :
    (sweep lookup cancelAfter levels chain ids).run s =
      (sweep lookup cancelAfter room chain ids).run s := by
  induction room generalizing levels chain ids s with
  | zero =>
    cases ids with
    | nil => rw [run_sweep_nil, run_sweep_nil]
    | cons id rest => cases h
  | succ room ih =>
    cases levels with
    | zero => omega
    | succ levels => exact sweepWith_stable (fun _ _ _ hend => ih (by omega) hend) h

end Pass

namespace Indexer

theorem finished_sweeping (lookup : Lookup) (i : Indexer) (scale : UInt32) :
    (sweeping lookup scale none i).value = .finished := by
  have hroom : (Stock.ofElaborator lookup i.elaborator).symbols.length + 1 ≤
      ([] : List DefId).length + Pass.room lookup i.elaborator := Nat.le_add_left _ _
  exact Pass.finishes_sweep (Stock.opens_nil _) hroom _
    (Stock.supplies_ofElaborator lookup i.elaborator)

/-- A build that nobody cancels comes to its end, under any lookup and from any hierarchy, and
not because it is confined: with more room it makes the same visits. -/
theorem build_completes (lookup : Lookup) (i : Indexer) (scale : UInt32) :
    let run := (build lookup scale none).run i
    run.value = .complete ∧ run.state.index.status = .complete ∧
      ∀ extra, (Pass.sweep lookup none (Pass.room lookup i.elaborator + extra) [] [.root]).run
        (Pass.start i.elaborator scale) = sweeping lookup scale none i := by
  have hend := finished_sweeping lookup i scale
  obtain ⟨hvalue, -, hindex, -⟩ := build_of_finished hend
  refine ⟨hvalue, by rw [hindex], ?_⟩
  intro extra
  exact Pass.sweep_stable (Nat.le_add_right _ extra) hend

end Indexer

end DesignHierarchy
