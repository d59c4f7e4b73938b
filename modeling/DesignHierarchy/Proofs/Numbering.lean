import DesignHierarchy.Proofs.Identity

/-! The numbers of declarations. A load counts the declarations of a file in
pre-order and takes nothing else into account, so what is declared in a symbol has
the numbers right after its own, and a file that is loaded again in the same shape
gets the same ids at the same places. -/
namespace DesignHierarchy

namespace Symbol

/-- The symbol that is found by these positions among the children, one below the other. -/
def at? : Symbol → List Nat → Option Symbol
  | symbol, [] => some symbol
  | symbol, i :: rest => symbol.children[i]?.bind (·.at? rest)

/-- The symbol at a place in a file, whose first position is among the outermost symbols. -/
def atPlace? (symbols : List Symbol) : List Nat → Option Symbol
  | [] => none
  | i :: rest => symbols[i]?.bind (·.at? rest)

theorem declAll_eq_map (symbols : List Symbol) : declAll symbols = symbols.map decl := by
  induction symbols with
  | nil => simp [declAll]
  | cons symbol rest ih => simp [declAll, ih]

end Symbol

namespace Decl

variable {file : FileId}

mutual

theorem exists_freeze_of_mem_walk : ∀ {decl : Decl} {next : Nat} {symbol : Symbol},
    symbol ∈ (freeze file decl next).1.walk → ∃ below n, symbol = (freeze file below n).1
  | ⟨name, kind, typeRef, nameSpan, fullSpan, children⟩, next, symbol, h => by
    rw [Symbol.walk_eq] at h
    obtain rfl | h := List.mem_cons.1 h
    · exact ⟨_, next, rfl⟩
    · rw [freeze] at h
      exact exists_freeze_of_mem_walkAll h

/-- Every symbol was frozen on its own, from the number that the count had come to. -/
theorem exists_freeze_of_mem_walkAll : ∀ {decls : List Decl} {next : Nat} {symbol : Symbol},
    symbol ∈ Symbol.walkAll (freezeAll file decls next).1 →
      ∃ below n, symbol = (freeze file below n).1
  | [], _, _, h => by simp [freezeAll, Symbol.walkAll] at h
  | decl :: rest, next, symbol, h => by
    rw [freezeAll, Symbol.walkAll, List.mem_append] at h
    obtain h | h := h
    · exact exists_freeze_of_mem_walk h
    · exact exists_freeze_of_mem_walkAll h

end

theorem map_id_walk_freeze (file : FileId) (decl : Decl) (next : Nat) :
    (freeze file decl next).1.walk.map (·.id) =
      (List.range' next decl.count).map (DefId.mk file) := by
  have hids := congrArg (List.map Prod.fst) (numbered_freeze file decl next).1
  simpa [Function.comp_def] using hids

theorem map_id_walkAll_freezeAll (file : FileId) (decls : List Decl) (next : Nat) :
    (Symbol.walkAll (freezeAll file decls next).1).map (·.id) =
      (List.range' next (countAll decls)).map (DefId.mk file) := by
  have hids := congrArg (List.map Prod.fst) (numbered_freezeAll file decls next).1
  simpa [Function.comp_def] using hids

theorem id_freeze (decl : Decl) (next : Nat) : (freeze file decl next).1.id = ⟨file, next⟩ := by
  cases decl
  rfl

theorem children_freeze (decl : Decl) (next : Nat) :
    (freeze file decl next).1.children = (freezeAll file decl.children (next + 1)).1 := by
  cases decl
  rfl

/-- What a symbol holds has the numbers that follow its own, without a gap. -/
theorem map_id_walk_of_mem {decls : List Decl} {next : Nat} {symbol : Symbol}
    (h : symbol ∈ Symbol.walkAll (freezeAll file decls next).1) :
    symbol.walk.map (·.id) =
      (List.range' symbol.id.ordinal symbol.walk.length).map (DefId.mk file) := by
  obtain ⟨below, n, rfl⟩ := exists_freeze_of_mem_walkAll h
  have hlength := congrArg List.length (map_id_walk_freeze file below n)
  rw [List.length_map, List.length_map, List.length_range'] at hlength
  rw [map_id_walk_freeze, id_freeze, hlength]

mutual

theorem freeze?_eq : ∀ {decl : Decl} {next : UInt32}, next.toNat + decl.count < UInt32.size →
    freeze? file decl next =
      some ((freeze file decl next.toNat).1, .ofNat (next.toNat + decl.count))
  | ⟨name, kind, typeRef, nameSpan, fullSpan, children⟩, next, room => by
    rw [count] at room ⊢
    have hnext : (next + 1).toNat = next.toNat + 1 := by
      rw [UInt32.toNat_add]
      exact Nat.mod_eq_of_lt (show next.toNat + 1 < UInt32.size by omega)
    rw [freeze?, if_pos (by omega), freezeAll?_eq (by omega), hnext]
    simp only [freeze, Option.bind_eq_bind, Option.bind_some, pure]
    rw [show next.toNat + 1 + countAll children = next.toNat + (countAll children + 1) by omega]

/-- The counter holds the number that exact counting comes to. -/
theorem freezeAll?_eq : ∀ {decls : List Decl} {next : UInt32},
    next.toNat + countAll decls < UInt32.size →
      freezeAll? file decls next =
        some ((freezeAll file decls next.toNat).1, .ofNat (next.toNat + countAll decls))
  | [], next, _ => by simp [freezeAll?, freezeAll, countAll]
  | decl :: rest, next, room => by
    rw [countAll] at room ⊢
    have hmiddle : (UInt32.ofNat (next.toNat + decl.count)).toNat = next.toNat + decl.count := by
      rw [UInt32.toNat_ofNat']
      exact Nat.mod_eq_of_lt (show next.toNat + decl.count < UInt32.size by omega)
    rw [freezeAll?, freeze?_eq (by omega)]
    simp only [Option.bind_eq_bind, Option.bind_some]
    rw [freezeAll?_eq (by omega), hmiddle]
    simp only [freezeAll, Option.bind_some, pure, (numbered_freeze file decl next.toNat).2]
    rw [Nat.add_assoc]

end

mutual

/-- As many children, and the same below each of them. -/
def SameShape : Decl → Decl → Prop
  | ⟨_, _, _, _, _, as⟩, ⟨_, _, _, _, _, bs⟩ => SameShapes as bs

def SameShapes : List Decl → List Decl → Prop
  | [], [] => True
  | a :: as, b :: bs => SameShape a b ∧ SameShapes as bs
  | _, _ => False

end

theorem SameShape.children {a b : Decl} (h : SameShape a b) : SameShapes a.children b.children := by
  cases a
  cases b
  rwa [SameShape] at h

mutual

theorem SameShape.count_eq : ∀ {a b : Decl}, SameShape a b → a.count = b.count
  | ⟨_, _, _, _, _, as⟩, ⟨_, _, _, _, _, bs⟩, h => by
    rw [SameShape] at h
    rw [count, count, h.countAll_eq]

theorem SameShapes.countAll_eq : ∀ {as bs : List Decl}, SameShapes as bs → countAll as = countAll bs
  | [], [], _ => rfl
  | a :: as, b :: bs, h => by
    rw [SameShapes] at h
    rw [countAll, countAll, h.1.count_eq, h.2.countAll_eq]
  | [], _ :: _, h => by simp [SameShapes] at h
  | _ :: _, [], h => by simp [SameShapes] at h

end

/-- Declarations at the same place in two lists of one shape have one shape, and are counted from
the same number. -/
theorem SameShapes.getElem? {as bs : List Decl} (h : SameShapes as bs) (file other : FileId)
    (next i : Nat) :
    (freezeAll file as next).1[i]? = none ∧ (freezeAll other bs next).1[i]? = none ∨
      ∃ a b n, SameShape a b ∧ (freezeAll file as next).1[i]? = some (freeze file a n).1 ∧
        (freezeAll other bs next).1[i]? = some (freeze other b n).1 := by
  induction as generalizing bs next i with
  | nil =>
    cases bs with
    | nil => exact .inl ⟨rfl, rfl⟩
    | cons b bs => simp [SameShapes] at h
  | cons a as ih =>
    cases bs with
    | nil => simp [SameShapes] at h
    | cons b bs =>
      rw [SameShapes] at h
      have hafter : (freeze other b next).2 = (freeze file a next).2 := by
        rw [(numbered_freeze file a next).2, (numbered_freeze other b next).2, h.1.count_eq]
      simp only [freezeAll, hafter]
      cases i with
      | zero => exact .inr ⟨a, b, next, h.1, rfl, rfl⟩
      | succ i =>
        rw [List.getElem?_cons_succ, List.getElem?_cons_succ]
        exact ih h.2 _ i

section Place

-- what is told by an id, in each of the two files
variable {other : FileId} {β : Type} {f : DefId → β} (told : ∀ n, f ⟨file, n⟩ = f ⟨other, n⟩)

include told

theorem SameShape.id_at? {a b : Decl} (h : SameShape a b) (next : Nat) (places : List Nat) :
    ((freeze file a next).1.at? places).map (f ·.id) =
      ((freeze other b next).1.at? places).map (f ·.id) := by
  induction places generalizing a b next with
  | nil => simp [Symbol.at?, id_freeze, told]
  | cons i rest ih =>
    rw [Symbol.at?, Symbol.at?, children_freeze, children_freeze]
    obtain ⟨ha, hb⟩ | ⟨below, beside, n, hshape, ha, hb⟩ :=
      h.children.getElem? file other (next + 1) i
    · rw [ha, hb]
    · rw [ha, hb]
      exact ih hshape n

/-- The number at a place follows from the shape. -/
theorem SameShapes.id_atPlace? {as bs : List Decl} (h : SameShapes as bs) (next : Nat)
    (place : List Nat) :
    (Symbol.atPlace? (freezeAll file as next).1 place).map (f ·.id) =
      (Symbol.atPlace? (freezeAll other bs next).1 place).map (f ·.id) := by
  cases place with
  | nil => rfl
  | cons i rest =>
    rw [Symbol.atPlace?, Symbol.atPlace?]
    obtain ⟨ha, hb⟩ | ⟨a, b, n, hshape, ha, hb⟩ := h.getElem? file other next i
    · rw [ha, hb]
    · rw [ha, hb]
      exact hshape.id_at? told n rest

end Place

end Decl

namespace Store

variable {store later : Store} {path : SourcePath}

theorem Reached.symbolsIn_load (reached : Reached store) (path : SourcePath) (decls : List Decl) :
    (store.load path decls).symbolsIn (store.idFor path) =
      (Decl.freezeAll (store.idFor path) decls 0).1 := by
  have hget : (store.load path decls).files.get? path.components =
      some (fileOf (store.idFor path) path decls) := by
    rw [files_load, Table.get?_insert, if_pos rfl]
  have hsource := (Reached.load path decls reached).consistent.source?_eq_some_iff.2
    ⟨rfl, path.components, hget⟩
  rw [symbolsIn, show store.idFor path = (fileOf (store.idFor path) path decls).id from rfl,
    hsource]
  rfl

/-- Loads of any file and removals of other files lead from one store to another. -/
inductive Retains (path : SourcePath) (store : Store) : Store → Prop
  | refl : Retains path store store
  | load {later : Store} (changed : SourcePath) (decls : List Decl)
      (before : Retains path store later) : Retains path store (later.load changed decls)
  | unload {later : Store} (changed : SourcePath) (other : changed.components ≠ path.components)
      (before : Retains path store later) : Retains path store (later.unload changed)

theorem Retains.reached (h : Retains path store later) (reached : Reached store) :
    Reached later := by
  induction h with
  | refl => exact reached
  | load changed decls _ ih => exact .load changed decls ih
  | unload changed _ _ ih => exact .unload changed ih

/-- A file that is not removed keeps its number. -/
theorem Retains.fileId? (h : Retains path store later) {file : FileId}
    (loaded : store.fileId? path = some file) : later.fileId? path = some file := by
  induction h with
  | refl => exact loaded
  | @load later changed decls _ ih =>
    rw [fileId?_eq, loaded?_load]
    split
    · rename_i hsame
      rw [Option.map_some, idFor, Store.fileId?, hsame]
      rw [Store.fileId?] at ih
      rw [ih, Option.getD_some]
    · rw [← fileId?_eq]
      exact ih
  | unload changed other _ ih =>
    rw [Store.fileId?, files_unload, Table.get?_erase, if_neg other]
    exact ih

/-- A load numbers the declarations of a file from zero in pre-order, in 32 bits, and changes
nothing else about them. Declarations of the same shape have the same numbers wherever they are
loaded. -/
theorem numbers_of_load (reached : Reached store) (path : SourcePath) (decls : List Decl)
    (few : Decl.countAll decls < UInt32.size) :
    let file := store.idFor path
    let symbols := (store.load path decls).symbolsIn file
    let walked := symbols.flatMap Symbol.walk
    walked.map (·.id) = (List.range (Decl.countAll decls)).map (DefId.mk file) ∧
    (∀ symbol ∈ walked, symbol.location.file = file) ∧
    Decl.freezeAll? file decls 0 = some (symbols, .ofNat (Decl.countAll decls)) ∧
    symbols.map Symbol.decl = decls ∧
    (∀ symbol ∈ walked, symbol.walk.map (·.id) =
      (List.range' symbol.id.ordinal symbol.walk.length).map (DefId.mk file)) ∧
    (∀ later spelled others, Reached later → Decl.SameShapes decls others →
      let again := (later.load spelled others).symbolsIn (later.idFor spelled)
      ∀ place, (Symbol.atPlace? again place).map (·.id.ordinal) =
        (Symbol.atPlace? symbols place).map (·.id.ordinal)) ∧
    ∀ later spelled others, Retains path (store.load path decls) later →
      spelled.components = path.components → Decl.SameShapes decls others →
      let again := (later.load spelled others).symbolsIn (later.idFor spelled)
      ∀ place, (Symbol.atPlace? again place).map (·.id) =
        (Symbol.atPlace? symbols place).map (·.id) := by
  intro file symbols walked
  have hsymbols : symbols = (Decl.freezeAll file decls 0).1 := reached.symbolsIn_load path decls
  have hwalked : walked = Symbol.walkAll (Decl.freezeAll file decls 0).1 := by
    rw [← hsymbols, Symbol.walkAll_eq_flatMap]
  clear_value symbols walked
  subst hsymbols hwalked
  refine ⟨?ids, fun _ h => (Decl.file_of_mem_freezeAll h).2, ?counter, ?decls,
    fun _ h => Decl.map_id_walk_of_mem h, ?numbers, ?again⟩
  case ids => rw [Decl.map_id_walkAll_freezeAll, List.range_eq_range']
  case counter =>
    rw [Decl.freezeAll?_eq (by simpa using few)]
    simp
  case decls => rw [← Symbol.declAll_eq_map, Decl.declAll_freezeAll]
  case numbers =>
    intro later spelled others hlater same again place
    have hagain : again = (Decl.freezeAll (later.idFor spelled) others 0).1 :=
      hlater.symbolsIn_load spelled others
    have htold : ∀ n, DefId.ordinal ⟨file, n⟩ = DefId.ordinal ⟨later.idFor spelled, n⟩ :=
      fun _ => rfl
    rw [hagain]
    exact (same.id_atPlace? htold 0 place).symm
  case again =>
    intro later spelled others retains hspelled same again place
    have hfile : later.fileId? path = some file := by
      apply retains.fileId?
      rw [fileId?_eq, loaded?_load, if_pos rfl, Option.map_some]
    have hid : later.idFor spelled = file := by
      rw [idFor, Store.fileId?, hspelled, ← Store.fileId?, hfile, Option.getD_some]
    have hagain : again = (Decl.freezeAll file others 0).1 := by
      rw [← hid]
      exact (retains.reached (.load path decls reached)).symbolsIn_load spelled others
    rw [hagain]
    exact (same.id_atPlace? (f := id) (fun _ => rfl) 0 place).symm

/-- A file that is loaded again under another spelling of its path, after another file came and
went: nothing has the name or the kind it had, and the wire in the block is still number 3. -/
theorem numbers_of_load_again :
    let decls : List Decl :=
      [{ name := "m", kind := .module, children :=
        [{ name := "u", kind := .inst, typeRef := some "n" },
          { name := "g", kind := .block, children := [{ name := "w", kind := .wire }] }] },
        { name := "n", kind := .module }]
    let others : List Decl :=
      [{ name := "p", kind := .interface, children :=
        [{ name := "t", kind := .typedef },
          { name := "f", kind := .function, children := [{ name := "x", kind := .port }] }] },
        { name := "q", kind := .package }]
    let loaded := Store.load {} ⟨"lib/a.v"⟩ decls
    let later := (loaded.load ⟨"b.v"⟩ others).unload ⟨"b.v"⟩
    let again := (later.load ⟨"lib//a.v"⟩ others).symbolsIn (later.idFor ⟨"lib//a.v"⟩)
    ((loaded.symbolsIn ⟨0⟩).flatMap Symbol.walk).map (·.id) =
        (List.range 5).map (DefId.mk ⟨0⟩) ∧
      (Symbol.atPlace? again [0, 1, 0]).map (·.name) = some "x" ∧
      (Symbol.atPlace? again [0, 1, 0]).map (·.id) = some ⟨⟨0⟩, 3⟩ := by
  intro decls others loaded later again
  obtain ⟨ids, -, -, -, -, -, same⟩ :=
    numbers_of_load .empty ⟨"lib/a.v"⟩ decls (by decide)
  have retains : Retains ⟨"lib/a.v"⟩ loaded later :=
    .unload ⟨"b.v"⟩ (by decide) (.load ⟨"b.v"⟩ others .refl)
  have shapes : Decl.SameShapes decls others := by
    simp [decls, others, Decl.SameShapes, Decl.SameShape]
  refine ⟨ids, by decide +kernel, ?_⟩
  rw [same later ⟨"lib//a.v"⟩ others retains (by decide) shapes [0, 1, 0]]
  decide +kernel

end Store

end DesignHierarchy
