import DesignHierarchy.InstanceIndex.Basic
import DesignHierarchy.Proofs.ArrayIndices
import DesignHierarchy.Proofs.Reach

/-! Paths that differ in an array index. Between names, at the end of a path or next
to another index it makes no difference to any search: the names that are looked for
are the same, and only what is said about a failure quotes the path as it was given. -/
namespace DesignHierarchy

namespace Call

variable {σ α : Type}

/-- Calls that go through the same suspensions to the same end are told apart by no driver. -/
theorem drive_congr {call other : Call σ α} {s : σ}
    (pauses : (call.run s).pauses = (other.run s).pauses)
    (state : (call.run s).state = (other.run s).state)
    (value : (call.run s).value = (other.run s).value) (polls : Option Nat) :
    (call.drive polls s).state = (other.drive polls s).state ∧
      (call.drive polls s).value? = (other.drive polls s).value? := by
  have ends : (call.drive none s).state = (other.drive none s).state ∧
      (call.drive none s).value? = (other.drive none s).value? :=
    ⟨by simpa using state, by simpa using value⟩
  cases polls with
  | none => exact ends
  | some polled =>
    cases polled with
    | zero => exact ⟨rfl, rfl⟩
    | succ skip =>
      rw [drive_succ, drive_succ, pauses]
      cases (other.run s).pauses[skip]? with
      | none => exact ends
      | some c => exact ⟨rfl, rfl⟩

end Call

namespace Elaborator

variable {lookup : Lookup}

theorem explained (path : String) (answer : Except PathError NodeId) (s : Elaborator) :
    ((explain path answer).run s).pauses = [] ∧ ((explain path answer).run s).state = s ∧
      ((explain path answer).run s).value = answer := by
  cases answer <;> exact ⟨rfl, rfl, rfl⟩

/-- Paths with the same names in them are resolved alike. -/
theorem resolvePath_congr {p q : String} (h : DottedPath.names p = DottedPath.names q)
    (s : Elaborator) (polls : Option Nat) :
    ((resolvePath lookup p).drive polls s).state = ((resolvePath lookup q).drive polls s).state ∧
      ((resolvePath lookup p).drive polls s).value? =
        ((resolvePath lookup q).drive polls s).value? := by
  apply Call.drive_congr
  all_goals
    simp only [resolvePath, h, Call.run_bind, Run.pauses_bind, Run.state_bind, Run.value_bind,
      explained, List.map_nil]

end Elaborator

namespace DottedPath

theorem toList_inserted (before digits after : String) :
    (before ++ "[" ++ digits ++ "]" ++ after).toList =
      before.toList ++ index digits.toList after.toList := by
  simp [index]

/-- An index is dropped wherever it stands. -/
theorem stripIndices_inserted {digits : String} (h : Digits digits.toList)
    (before after : String) :
    stripIndices (before ++ "[" ++ digits ++ "]" ++ after) =
      stripIndices before ++ stripIndices after := by
  apply String.toList_inj.1
  rw [stripIndices, toList_inserted, dropIndices_append _ (breaks_index _ _),
    dropIndices_index h]
  simp [stripIndices]

theorem breaks_of_head? {rest : List Char}
    (h : rest = [] ∨ rest.head? = some '.' ∨ rest.head? = some '[') : Breaks rest := by
  intro c hc
  rw [Option.mem_def] at hc
  obtain rfl | h | h := h
  · cases hc
  · rw [h] at hc
    cases hc
    decide
  · rw [h] at hc
    cases hc
    decide

/-- Array indices never matter, whatever stands before and after them. Where none cuts a name in
two, a path is resolved, located and revealed as without them, with the same tree at every
suspension. -/
theorem answers_of_inserted {digits : String} (h : Digits digits.toList) (before after : String) :
    let indexed := before ++ "[" ++ digits ++ "]" ++ after
    stripIndices indexed = stripIndices before ++ stripIndices after ∧
    stripIndices (before ++ "." ++ after) = stripIndices before ++ "." ++ stripIndices after ∧
    (∀ path, stripIndices path ≠ "" →
      segments (stripIndices path) = (segments path).map stripIndices) ∧
    (after = "" ∨ after.toList.head? = some '.' ∨ after.toList.head? = some '[' →
      (∀ lookup elaborator polls,
        let without := (Elaborator.resolvePath lookup (before ++ after)).drive polls elaborator
        let found := (Elaborator.resolvePath lookup indexed).drive polls elaborator
        found.state = without.state ∧ found.value? = without.value?) ∧
      (∀ tree : Tree, tree.locate indexed = tree.locate (before ++ after)) ∧
      ∀ (index : InstanceIndex) definition,
        index.reveal definition indexed = index.reveal definition (before ++ after)) := by
  intro indexed
  have hinserted : stripIndices indexed = stripIndices before ++ stripIndices after :=
    stripIndices_inserted h before after
  refine ⟨hinserted, stripIndices_append_dot before after, fun _ => segments_stripIndices, ?_⟩
  intro hafter
  have hbreaks : Breaks after.toList :=
    breaks_of_head? (hafter.imp_left fun hempty => by rw [hempty]; rfl)
  have hsame : stripIndices indexed = stripIndices (before ++ after) := by
    rw [hinserted, stripIndices_append before hbreaks]
  have hnames : names indexed = names (before ++ after) := by
    rw [names, hsame, names]
  refine ⟨fun lookup elaborator polls => Elaborator.resolvePath_congr hnames elaborator polls,
    ?located, ?revealed⟩
  case located =>
    intro tree
    rw [Tree.locate, hnames, ← Tree.locate]
  case revealed =>
    intro index definition
    rw [InstanceIndex.reveal, hsame, ← InstanceIndex.reveal]

/-- An index inside an unclosed bracket, whose end is then closed by what follows, is dropped
alone; and a second index on the way to the self-nesting instance changes nothing. -/
theorem answers_of_inserted_twice :
    let start := Indexer.selfNesting.elaborator
    let found := (Elaborator.resolvePath .selfNesting "b[1][07].u").drive none start
    Digits "07".toList ∧ stripIndices "a[1[07]]" = "a[1]" ∧
      found.value? = some (.ok ⟨2⟩) ∧ found.state.tree.locate "b[1][07].u" = .ok ⟨2⟩ := by
  intro start found
  have digits : Digits "07".toList := ⟨by decide, List.all_eq_true.1 (by decide)⟩
  obtain ⟨unclosed, -⟩ := answers_of_inserted digits "a[1" "]"
  obtain ⟨-, -, -, same⟩ := answers_of_inserted digits "b[1]" ".u"
  obtain ⟨resolved, located, -⟩ := same (.inr (.inl (by decide)))
  have hvalue := (resolved .selfNesting start none).2
  have hlocate := located found.state.tree
  rw [show "b[1]" ++ "[" ++ "07" ++ "]" ++ ".u" = "b[1][07].u" by decide] at hvalue hlocate
  rw [show "a[1" ++ "[" ++ "07" ++ "]" ++ "]" = "a[1[07]]" by decide] at unclosed
  refine ⟨digits, unclosed.trans (by decide), hvalue.trans ?_, hlocate.trans ?_⟩
  · decide +kernel
  · decide +kernel

end DottedPath

end DesignHierarchy
