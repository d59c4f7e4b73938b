import DesignHierarchy.Proofs.Browsing
import DesignHierarchy.Proofs.Identity

/-! Which top a path is resolved under. A browser compares ids, and a file that is
loaded anew gives its ids to other symbols. So the symbol that is asked for is on
show afterwards unless an earlier holder of its id was on show before, and that
cannot be so while the file of the top on show is left alone. -/
namespace DesignHierarchy

namespace Store

variable {store : Store} {path : SourcePath} {symbol : Symbol}

/-- A load of another file leaves a symbol where it is. -/
theorem Consistent.mem_load_of_other (h : store.Consistent) (loaded : symbol ∈ store.symbols)
    (other : store.fileId? path ≠ some symbol.id.file) (decls : List Decl) :
    symbol ∈ (store.load path decls).symbols := by
  refine (h.mem_symbols_load path decls).2 (.inr ⟨loaded, ?_⟩)
  rw [h.location_file loaded]
  intro heq
  obtain ⟨key, source, hkey, hs⟩ := mem_symbols.1 loaded
  have hid := (h.file hkey hs).1
  cases h.key_of_id hkey (hid.symm.trans heq)
  rw [fileId?, hkey, hid] at other
  exact other rfl

theorem Consistent.mem_or_gone_unload (h : store.Consistent) (loaded : symbol ∈ store.symbols)
    (path : SourcePath) :
    symbol ∈ (store.unload path).symbols ∨ Gone symbol.id.file (store.unload path) := by
  cases hfile : store.fileId? path with
  | none =>
    left
    rw [Store.unload, hfile]
    exact loaded
  | some file =>
    by_cases heq : symbol.id.file = file
    · right
      rw [heq]
      exact h.gone_unload hfile
    · left
      refine (h.mem_symbols_unload hfile).2 ⟨loaded, ?_⟩
      rw [h.location_file loaded]
      exact heq

end Store

namespace Browser

variable {lookup : Lookup} {b : Browser} {store : Store}

/-- Resolving a path in a tree keeps its top. -/
theorem top_onTree_resolvePath {tree : Tree} (formed : tree.WellFormed) (b : Browser)
    (path : String) :
    ((onTree tree (Elaborator.resolvePath lookup path)).run b).state.top = some tree.top := by
  have hgrows := (@Elaborator.meets_resolvePath_grows ⟨tree, b.memo⟩ lookup formed path).2
  rw [run_onTree, Run.state_within, top, Option.map_some, hgrows.extends.top]

/-- The top stays if it has the id that is asked for, whatever symbol it is. -/
theorem top_resolvePath (formed : ∀ tree, b.tree = some tree → tree.WellFormed) (top : Symbol)
    (path : String) :
    ((resolvePath lookup top path).run b).state.top =
      if b.top.map (·.id) = some top.id then b.top else some top := by
  rw [run_resolvePath]
  by_cases hid : b.top.map (·.id) = some top.id
  · obtain ⟨current, hcurrent, -⟩ := Option.map_eq_some_iff.1 hid
    obtain ⟨tree, shown, rfl⟩ := Option.map_eq_some_iff.1 hcurrent
    rw [if_neg (not_not.2 hid), if_pos hid, Run.bind_done, Run.after_nil, shown, Run.state_bind,
      hcurrent]
    exact top_onTree_resolvePath (formed tree shown) b path
  · rw [if_pos hid, if_neg hid, run_select, Run.bind_done, Run.state_after, Run.state_bind]
    exact top_onTree_resolvePath (Tree.wellFormed_ofTop top) _ path

/-- Of the symbol that is asked for, only the id is read if the top on show has it. -/
theorem run_resolvePath_congr {current top : Symbol} (shown : b.top = some current)
    (same : current.id = top.id) (path : String) :
    (resolvePath lookup top path).run b = (resolvePath lookup current path).run b := by
  rw [run_resolvePath, run_resolvePath, shown, Option.map_some, same,
    if_neg (by simp), if_neg (by simp)]

/-- A browser beside the files that it is read from. What is newly put on show is a loaded symbol,
and the file of the top on show is not loaded anew; it may be removed, and other files may come,
go and change. -/
inductive Session : Store → Browser → Prop
  | start (scale : UInt32) : Session {} { scale }
  | load {store : Store} {b : Browser} (path : SourcePath) (decls : List Decl)
      (other : ∀ top, b.top = some top → store.fileId? path ≠ some top.id.file)
      (before : Session store b) : Session (store.load path decls) b
  | unload {store : Store} {b : Browser} (path : SourcePath) (before : Session store b) :
      Session (store.unload path) b
  | call {store : Store} {lookup : Lookup} {s t : Browser} (left : Calls lookup s t)
      (loaded : ∀ top, t.top = some top → s.top = some top ∨ top ∈ store.symbols)
      (before : Session store s) : Session store t

theorem Session.store_reached (h : Session store b) : store.Reached := by
  induction h with
  | start => exact .empty
  | load path decls _ _ ih => exact .load path decls ih
  | unload path _ ih => exact .unload path ih
  | call _ _ _ ih => exact ih

/-- The top on show is loaded, or its file is gone for good. -/
theorem Session.loaded_or_gone (h : Session store b) {top : Symbol} (shown : b.top = some top) :
    top ∈ store.symbols ∨ Store.Gone top.id.file store := by
  induction h generalizing top with
  | start => cases shown
  | load path decls other before ih =>
    have consistent := before.store_reached.consistent
    obtain hloaded | hgone := ih shown
    · exact .inl (consistent.mem_load_of_other hloaded (other top shown) decls)
    · exact .inr (hgone.load path decls)
  | unload path before ih =>
    have consistent := before.store_reached.consistent
    obtain hloaded | hgone := ih shown
    · exact consistent.mem_or_gone_unload hloaded path
    · exact .inr (hgone.unload path)
  | call _ loaded _ ih =>
    obtain hshown | hloaded := loaded top shown
    · exact ih hshown
    · exact .inl hloaded

/-- Among loaded symbols, the id of the top on show belongs to no other one. -/
theorem Session.eq_of_id_eq (h : Session store b) {current top : Symbol}
    (shown : b.top = some current) (loaded : top ∈ store.symbols) (same : current.id = top.id) :
    current = top := by
  have consistent := h.store_reached.consistent
  obtain hcurrent | hgone := h.loaded_or_gone shown
  · exact consistent.eq_of_id_eq hcurrent loaded same
  · rw [same] at hgone
    exact absurd rfl (hgone.file_ne consistent loaded)

/-- After a path was resolved, the symbol that was asked for is the top on show just when no other
symbol with its id was on show before. So it is if what is put on show is loaded, and its file is
not loaded anew while it is. -/
theorem top_of_resolvePath (reached : Reached b) (lookup : Lookup) (top : Symbol) (path : String) :
    let run := (resolvePath lookup top path).run b
    (run.state.top = some top ↔
      ∀ current, b.top = some current → current.id = top.id → current = top) ∧
    (∀ current, b.top = some current → current.id = top.id →
      run = (resolvePath lookup current path).run b ∧ run.state.top = some current) ∧
    ∀ store, Session store b → top ∈ store.symbols → run.state.top = some top := by
  intro run
  have htop : run.state.top = if b.top.map (·.id) = some top.id then b.top else some top :=
    top_resolvePath (fun _ shown => reached.coherent.formed shown) top path
  have hkept : ∀ current, b.top = some current → current.id = top.id →
      run.state.top = some current := by
    intro current shown same
    rw [htop, shown, Option.map_some, if_pos (congrArg some same)]
  have hiff : run.state.top = some top ↔
      ∀ current, b.top = some current → current.id = top.id → current = top := by
    constructor
    · intro asked current shown same
      rw [hkept current shown same] at asked
      exact Option.some.inj asked
    · intro known
      rw [htop]
      split
      · rename_i hid
        obtain ⟨current, shown, same⟩ := Option.map_eq_some_iff.1 hid
        rw [shown, known current shown same]
      · rfl
  refine ⟨hiff, ?_, ?_⟩
  · intro current shown same
    exact ⟨run_resolvePath_congr shown same path, hkept current shown same⟩
  · intro store session loaded
    exact hiff.2 fun current shown same => session.eq_of_id_eq shown loaded same

/-- The file of the top on show is removed and loaded again: the module in it has a new id, and is
put on show. -/
theorem top_of_resolvePath_again :
    let decl : Decl := { name := "a", kind := .module, children := [{ name := "x", kind := .wire }] }
    let first := Store.load {} ⟨"a.v"⟩ [decl]
    let second := (first.unload ⟨"a.v"⟩).load ⟨"a.v"⟩ [decl]
    let shown := ((select (decl.freeze ⟨0⟩ 0).1).run {}).state
    let top := (decl.freeze ⟨1⟩ 0).1
    second.lookup "a" = some top ∧ shown.top ≠ some top ∧
      ((resolvePath (Workspace.lookup { store := second }) top "x").run shown).state.top =
        some top := by
  intro decl first second shown top
  have left : Calls (Workspace.lookup { store := first }) {} shown :=
    .select _ (Call.leaves_run _ _)
  have loaded : ∀ top, shown.top = some top →
      Browser.top {} = some top ∨ top ∈ first.symbols := by
    intro top htop
    cases htop
    exact .inr (by decide +kernel)
  have session : Session second shown :=
    .load _ _ (fun _ _ => by
      rw [show Store.fileId? (first.unload ⟨"a.v"⟩) ⟨"a.v"⟩ = none by decide +kernel]
      simp)
      (.unload ⟨"a.v"⟩ (.call left loaded (.load _ _ (fun _ h => by cases h) (.start 64))))
  obtain ⟨-, -, switched⟩ := top_of_resolvePath (.call (.start 64) left)
    (Workspace.lookup { store := second }) top "x"
  exact ⟨by decide +kernel, by decide +kernel, switched second session (by decide +kernel)⟩

/-- A file declares modules `a` and `b`, and is loaded anew with the two in the other order while
`a` is on show. Now `b` has the id that `a` had: a path under `b` is looked for in `a` as it was,
and not found, though a new browser finds it. -/
theorem resolvePath_under_earlier_top :
    let a : Decl := { name := "a", kind := .module, children := [{ name := "x", kind := .wire }] }
    let b : Decl := { name := "b", kind := .module, children := [{ name := "y", kind := .wire }] }
    let before := Store.load {} ⟨"t.v"⟩ [a, b]
    let after := before.load ⟨"t.v"⟩ [b, a]
    let old := (a.freeze ⟨0⟩ 0).1
    let top := (b.freeze ⟨0⟩ 0).1
    let shown := ((select old).run {}).state
    let lookup := Workspace.lookup { store := after }
    before.lookup "a" = some old ∧ after.lookup "b" = some top ∧ shown.Reached ∧
      ((resolvePath lookup top "y").run shown).state.top = some old ∧ old ≠ top ∧
      ((resolvePath lookup top "y").run shown).value =
        .error (.path (.segmentNotFound "y" "a")) ∧
      ((resolvePath lookup top "y").run {}).value = .ok ⟨1⟩ := by
  intro a b before after old top shown lookup
  have left : Calls (Workspace.lookup { store := before }) {} shown :=
    .select _ (Call.leaves_run _ _)
  refine ⟨by decide +kernel, by decide +kernel, .call (.start 64) left, ?_⟩
  decide +kernel

end Browser

end DesignHierarchy
