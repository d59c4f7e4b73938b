import DesignHierarchy.Memo
import DesignHierarchy.Proofs.Precedence
import DesignHierarchy.Proofs.Reach
import Mathlib.Data.Finset.Card

/-! What is remembered between two clearings. However the workspace changes, the
first answer to a name stays the answer, and it is the only one that was asked
for; a question abandoned on the way was asked and is not remembered. The account
below is kept turn by turn, so it holds after every course of requests. -/
namespace DesignHierarchy

namespace Call

variable {σ α : Type} {call : Call σ α} {s t : σ} {journal : Journal} {a : α} {polls : Option Nat}

/-- A call that never suspends cannot be abandoned once it is started. -/
theorem drive_of_done (h : call.run s = .done t journal a) (started : polls ≠ some 0) :
    call.drive polls s = ⟨t, journal, some a⟩ := by
  match polls with
  | none => simp [h, Run.state, Run.journal, Run.value]
  | some 0 => exact absurd rfl started
  | some (skip + 1) => simp [drive_succ, h, Run.pauses, Run.state, Run.journal, Run.value]

end Call

namespace Memo

/-- Asking for the definition of a name, or of an instance by the type it is written with. -/
inductive Request where
  | named (name : String)
  | written (symbol : Symbol)

namespace Request

/-- The name that is to be resolved. -/
def name? : Request → Option String
  | .named name => some name
  | .written symbol => symbol.typeRef

def call (lookup : Lookup) : Request → Call Memo (Option Symbol)
  | .named name => resolve lookup name
  | .written symbol => resolveInstance lookup symbol

theorem call_of_name? {request : Request} {name : String} (h : request.name? = some name)
    (lookup : Lookup) : request.call lookup = resolve lookup name := by
  cases request with
  | named _ => cases h; rfl
  | written symbol =>
    dsimp only [call, resolveInstance]
    rw [show symbol.typeRef = some name from h]

theorem call_of_name?_none {request : Request} (h : request.name? = none) (lookup : Lookup)
    (memo : Memo) : (request.call lookup).run memo = .done memo [] none := by
  cases request with
  | named _ => cases h
  | written symbol =>
    dsimp only [call, resolveInstance]
    rw [show symbol.typeRef = none from h]
    rfl

end Request

/-- All that can come of a request: it is not started, there is nothing to ask for, the answer is
remembered, the question is abandoned on the way, or it is answered and the answer remembered. -/
inductive Course (lookup : Lookup) (memo : Memo) (request : Request) (polls : Option Nat) :
    Call.Outcome Memo (Option Symbol) → Prop
  | unstarted (never : polls = some 0) : Course lookup memo request polls ⟨memo, [], none⟩
  | untyped (unnamed : request.name? = none) (started : polls ≠ some 0) :
      Course lookup memo request polls ⟨memo, [], some none⟩
  | hit {name : String} {answer : Option Symbol} (named : request.name? = some name)
      (known : memo.get? name = some answer) (started : polls ≠ some 0) :
      Course lookup memo request polls ⟨memo, [], some answer⟩
  | abandoned {name : String} (named : request.name? = some name)
      (unknown : memo.get? name = none) (started : polls ≠ some 0) :
      Course lookup memo request polls ⟨memo, [.asked name], none⟩
  | miss {name : String} (named : request.name? = some name) (unknown : memo.get? name = none)
      (started : polls ≠ some 0) :
      Course lookup memo request polls
        ⟨memo.insert name (lookup.definition? name),
          [.asked name, .event (resolution name (lookup.definition? name))],
          some (lookup.definition? name)⟩

theorem course_drive (lookup : Lookup) (memo : Memo) (request : Request) (polls : Option Nat) :
    Course lookup memo request polls ((request.call lookup).drive polls memo) := by
  by_cases never : polls = some 0
  · rw [never, Call.drive_zero]
    exact .unstarted rfl
  cases named : request.name? with
  | none =>
    rw [Call.drive_of_done (request.call_of_name?_none named lookup memo) never]
    exact .untyped named never
  | some name =>
    rw [request.call_of_name? named]
    cases known : memo.get? name with
    | some answer =>
      rw [Call.drive_of_done (run_resolve_of_get? known) never]
      exact .hit named known never
    | none =>
      obtain ⟨hpauses, hjournal, hstate, hvalue⟩ := @run_resolve_of_get?_none lookup _ _ known
      have hmiss : Course lookup memo request polls ((resolve lookup name).drive none memo) := by
        rw [Call.drive_none, hjournal, hstate, hvalue]
        exact .miss named known never
      match polls with
      | none => exact hmiss
      | some 0 => exact absurd rfl never
      | some (skip + 1) =>
        rw [Call.drive_succ, hpauses]
        split
        · -- a question suspends only once, and there it is abandoned
          rename_i c hc
          have hmem := List.mem_of_getElem? hc
          split at hmem
          · rw [List.mem_singleton.1 hmem]
            exact .abandoned named known never
          · cases hmem
        · exact hmiss

/-- What is not remembered is what the workspace answers now. -/
theorem Course.value?_of_unknown {lookup : Lookup} {memo : Memo} {request : Request}
    {polls : Option Nat} {outcome : Call.Outcome Memo (Option Symbol)}
    (course : Course lookup memo request polls outcome) {name : String}
    (named : request.name? = some name) (unknown : memo.get? name = none) :
    outcome.value?.all (· = lookup.definition? name) := by
  cases course with
  | unstarted _ => rfl
  | untyped unnamed _ =>
    rw [named] at unnamed
    cases unnamed
  | hit hname known _ =>
    rw [named] at hname
    cases hname
    rw [unknown] at known
    cases known
  | abandoned _ _ _ => rfl
  | miss hname _ _ =>
    rw [named] at hname
    cases hname
    simp

/-- A request with what came of it. -/
structure Turn where
  request : Request
  polls : Option Nat
  outcome : Call.Outcome Memo (Option Symbol)

namespace Turn

/-- The call was started, and dropped before it had an answer. -/
def isAbandoned (turn : Turn) : Bool := turn.outcome.value?.isNone && turn.polls ≠ some 0

/-- The name that the turn has an answer to. -/
def answered? (turn : Turn) : Option String :=
  turn.outcome.value?.bind fun _ => turn.request.name?

end Turn

/-- A memory, with the turns since it was last cleared. Each turn may find another workspace. -/
inductive History : List Turn → Memo → Prop
  | start : History [] ∅
  | clear {turns : List Turn} {memo : Memo} (before : History turns memo) : History [] ∅
  | turn {turns : List Turn} {memo : Memo} (before : History turns memo) (lookup : Lookup)
      (request : Request) (polls : Option Nat) :
      History (turns ++ [⟨request, polls, (request.call lookup).drive polls memo⟩])
        ((request.call lookup).drive polls memo).state

/-- What the turns since the last clearing add up to. -/
structure Account (turns : List Turn) (memo : Memo) : Prop where
  remembered : ∀ name answer, memo.get? name = some answer ↔
    ∃ turn ∈ turns, turn.request.name? = some name ∧ turn.outcome.value? = some answer
  asked : (turns.flatMap (·.outcome.journal.asked)).length =
    memo.size + turns.countP (·.isAbandoned)
  told : (turns.flatMap (·.outcome.journal.events)).length = memo.size
  events : ∀ turn ∈ turns, turn.outcome.journal.events =
    turn.outcome.journal.asked.flatMap fun name =>
      turn.outcome.value?.toList.map (resolution name)

theorem size_insert {memo : Memo} {name : String} (h : memo.get? name = none)
    (answer : Option Symbol) : (memo.insert name answer).size = memo.size + 1 := by
  rw [Table.size, Table.newest_insert_of_get?_none h]
  rfl

theorem account_empty : Account [] ∅ where
  remembered := by simp
  asked := rfl
  told := rfl
  events := by simp

theorem Account.turn {turns : List Turn} {memo : Memo} (h : Account turns memo) {lookup : Lookup}
    {request : Request} {polls : Option Nat} {outcome : Call.Outcome Memo (Option Symbol)}
    (course : Course lookup memo request polls outcome) :
    Account (turns ++ [⟨request, polls, outcome⟩]) outcome.state where
  remembered := by
    intro name answer
    simp only [List.mem_append, List.mem_singleton, or_and_right, exists_or, exists_eq_left,
      ← h.remembered]
    cases course with
    | unstarted _ => simp
    | untyped unnamed _ => simp [unnamed]
    | hit named known _ =>
      refine ⟨.inl, ?_⟩
      rintro (hknown | ⟨hname, hanswer⟩)
      · exact hknown
      · rw [named] at hname
        cases hname
        cases hanswer
        exact known
    | abandoned _ _ _ => simp
    | @miss asked named unknown _ =>
      rw [Table.get?_insert]
      by_cases heq : asked = name
      · subst heq
        simp [named, unknown]
      · simp [named, heq]
  asked := by
    rw [List.flatMap_append, List.length_append, List.countP_append, h.asked]
    cases course with
    | unstarted never => simp [Turn.isAbandoned, Journal.asked, never]
    | untyped _ _ => simp [Turn.isAbandoned, Journal.asked]
    | hit _ _ _ => simp [Turn.isAbandoned, Journal.asked]
    | abandoned _ _ started =>
      simp [Turn.isAbandoned, Journal.asked, started]
      omega
    | miss _ unknown _ =>
      simp [Turn.isAbandoned, Journal.asked, size_insert unknown]
      omega
  told := by
    rw [List.flatMap_append, List.length_append, h.told]
    cases course with
    | miss _ unknown _ => simp [Journal.events, size_insert unknown]
    | _ => simp [Journal.events]
  events := by
    intro turn hturn
    obtain hturn | hturn := List.mem_append.1 hturn
    · exact h.events turn hturn
    · rw [List.mem_singleton.1 hturn]
      cases course <;> rfl

theorem History.account {turns : List Turn} {memo : Memo} (h : History turns memo) :
    Account turns memo := by
  induction h with
  | start => exact account_empty
  | clear _ _ => exact account_empty
  | turn _ lookup request polls ih => exact ih.turn (course_drive lookup _ request polls)

/-- The names with an answer are those that are remembered. -/
theorem Account.size_eq {turns : List Turn} {memo : Memo} (h : Account turns memo) :
    memo.size = (turns.filterMap (·.answered?)).toFinset.card := by
  have hkeys : memo.keys.toFinset = (turns.filterMap (·.answered?)).toFinset := by
    ext name
    have hknown : name ∈ memo.keys ↔ ∃ answer, memo.get? name = some answer := by
      rw [← Option.isSome_iff_exists, ← not_iff_not, Option.not_isSome_iff_eq_none,
        Table.get?_eq_none_iff]
    simp only [List.mem_toFinset, List.mem_filterMap, hknown, h.remembered, Turn.answered?,
      Option.bind_eq_some_iff]
    constructor
    · rintro ⟨answer, turn, hturn, hname, hvalue⟩
      exact ⟨turn, hturn, answer, hvalue, hname⟩
    · rintro ⟨turn, hturn, answer, hvalue, hname⟩
      exact ⟨answer, turn, hturn, hname, hvalue⟩
  rw [← hkeys, List.toFinset_card_of_nodup memo.keys_nodup]
  simp [Table.keys]

theorem message_resolution (name : String) (answer : Option Symbol) :
    "[RESOLVE] ".toList <+: (resolution name answer).message.toList := by
  cases answer <;>
  · delta resolution Event.message
    simp only [String.toList_append, List.append_assoc]
    exact List.prefix_append _ _

/-- Between two clearings, once a name has an answer every request for it gets that answer, without
a question or an event. Before that it gets what the workspace answers now, if that is a module or
an interface. -/
theorem answers_of_history {turns : List Turn} {memo : Memo} (history : History turns memo) :
    (∀ request name, Request.name? request = some name →
      (∀ turn ∈ turns, turn.request.name? = some name →
        ∀ answer, turn.outcome.value? = some answer →
          ∀ lookup, (request.call lookup).run memo = .done memo [] answer) ∧
      ((∀ turn ∈ turns, turn.request.name? = some name → turn.outcome.value? = none) →
        ∀ lookup,
          let answer := (lookup.find name).filter
            fun symbol => symbol.kind = .module ∨ symbol.kind = .interface
          ((request.call lookup).drive none memo).value? = some answer ∧
          ∀ polls, ((request.call lookup).drive polls memo).value?.all (· = answer))) ∧
    memo.size = (turns.filterMap (·.answered?)).toFinset.card ∧
    (turns.flatMap (·.outcome.journal.asked)).length =
      memo.size + turns.countP (·.isAbandoned) ∧
    (turns.flatMap (·.outcome.journal.events)).length = memo.size ∧
    (∀ turn ∈ turns, turn.outcome.journal.events =
        (turn.outcome.journal.asked.flatMap fun name =>
          turn.outcome.value?.toList.map (resolution name)) ∧
      ∀ event ∈ turn.outcome.journal.events, "[RESOLVE] ".toList <+: event.message.toList) ∧
    ∀ symbol lookup, Symbol.typeRef symbol = none →
      (resolveInstance lookup symbol).run memo = .done memo [] none := by
  have account := history.account
  refine ⟨?answers, account.size_eq, account.asked, account.told, ?events, ?untyped⟩
  case answers =>
    intro request name named
    refine ⟨?_, ?_⟩
    · intro turn hturn hname answer hvalue lookup
      rw [request.call_of_name? named]
      exact run_resolve_of_get? ((account.remembered name answer).2 ⟨turn, hturn, hname, hvalue⟩)
    · intro unanswered lookup answer
      have unknown : memo.get? name = none := by
        apply Option.eq_none_iff_forall_ne_some.2
        intro other hother
        obtain ⟨turn, hturn, hname, hvalue⟩ := (account.remembered name other).1 hother
        rw [unanswered turn hturn hname] at hvalue
        cases hvalue
      have hanswer : lookup.definition? name = answer := by
        rw [Lookup.definition?]
        congr 1
        funext symbol
        simp [← Symbol.isDefinition_iff]
      rw [← hanswer]
      refine ⟨?_, fun polls =>
        (course_drive lookup memo request polls).value?_of_unknown named unknown⟩
      rw [request.call_of_name? named, Call.drive_none, (run_resolve_of_get?_none unknown).2.2.2]
  case events =>
    intro turn hturn
    refine ⟨account.events turn hturn, ?_⟩
    intro event hevent
    rw [account.events turn hturn] at hevent
    obtain ⟨name, -, hevent⟩ := List.mem_flatMap.1 hevent
    obtain ⟨answer, -, rfl⟩ := List.mem_map.1 hevent
    exact message_resolution name answer
  case untyped =>
    intro symbol lookup untyped
    exact @Request.call_of_name?_none (.written symbol) untyped lookup memo

/-- The first question is abandoned, the second one is answered, and so is one for a name that
nothing declares. When the workspace has lost its files, the first name still has its answer. -/
theorem answers_of_history_emptied :
    let full := Workspace.lookup { store := .selfNesting, suspends := true }
    let bare := Workspace.lookup {}
    let first := (resolve full "m").drive (some 1) ∅
    let second := (resolve full "m").drive none first.state
    let third := (resolve full "x").drive none second.state
    let turns : List Turn :=
      [⟨.named "m", some 1, first⟩, ⟨.named "m", none, second⟩, ⟨.named "x", none, third⟩]
    turns.map (·.isAbandoned) = [true, false, false] ∧ bare.find "m" = none ∧
      (resolve bare "m").run third.state = .done third.state [] (some .selfNesting) ∧
      third.state.size = 2 ∧ (turns.flatMap (·.outcome.journal.asked)).length = 2 + 1 ∧
      (turns.flatMap (·.outcome.journal.events)).length = 2 := by
  intro full bare first second third turns
  have history : History turns third.state :=
    ((History.start.turn full (.named "m") (some 1)).turn full (.named "m") none).turn
      full (.named "x") none
  obtain ⟨answers, -, asked, told, -, -⟩ := answers_of_history history
  obtain ⟨known, -⟩ := answers (.named "m") "m" rfl
  have answered : second.value? = some (some .selfNesting) := by decide +kernel
  have size : third.state.size = 2 := by decide +kernel
  have abandoned : turns.countP (·.isAbandoned) = 1 := by decide +kernel
  rw [size, abandoned] at asked
  rw [size] at told
  exact ⟨by decide +kernel, rfl,
    known ⟨.named "m", none, second⟩ (.tail _ (.head _)) rfl _ answered bare, size, asked, told⟩

end Memo

end DesignHierarchy
